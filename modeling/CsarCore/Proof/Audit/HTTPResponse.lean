import CsarCore.Proof.JsonRedact.Redact
import CsarCore.Spec.Audit.HTTPResponse

/-!
# Only the error envelope is captured

Bodies that show the same still do after each step: a redaction changes a member by its
key and value (`showsSame_hide`), writing and reading by its value (`showsSame_map`,
`showsSame_normalize`). `safeErrorFields` keeps the same of them
(`safeErrorFields_congr`), and nothing else is looked at: `capture_allowlist`.
-/

namespace Csar.Proof.Audit

open Csar.Json Impl.Audit Csar.Impl Spec.Audit Spec.JsonRedact Proof.JsonRedact

variable {ν ν' : Type} {n : Nat}

/-! ## Values that show the same -/

theorem showsSame_refl (n : Nat) (v : Json ν Bytes) : ShowsSame n v v := by
  induction n generalizing v with
  | zero => cases v <;> first | rfl | trivial
  | succ n ih =>
    cases v with
    | object ms =>
      refine ⟨fun _ _ _ => rfl, ?_⟩
      cases ms.lookup errorKey with
      | none => exact .none
      | some v => exact .some (ih v)
    | _ => rfl

theorem showsSame_cases {v v' : Json ν Bytes} (h : ShowsSame n v v') :
    v = v' ∨ ∃ ms ms', v = .object ms ∧ v' = .object ms' := by
  cases v with
  | object ms =>
    cases v' with
    | object ms' => exact .inr ⟨ms, ms', rfl, rfl⟩
    | _ => cases n <;> exact .inl h
  | _ => cases n <;> exact .inl h

/-- A change of values, for each `i`, that changes a member by its key and value, and what is under
`errorKey` by such a change again, or to something fixed. -/
structure Memberwise {ι : Type} (p : Json ν Bytes → Prop) (change : ι → Json ν Bytes → Json ν' Bytes)
    (member : ι → Bytes → Json ν Bytes → Json ν' Bytes) : Prop where
  inside : ∀ {ms k v}, p (.object ms) → ms.lookup k = some v → p v
  object : ∀ i {ms}, p (.object ms) →
    ∃ ts, change i (.object ms) = .object ts ∧ ∀ k, ts.lookup k = (ms.lookup k).map (member i k)
  nested : ∀ i, (∃ j, member i errorKey = change j) ∨ ∃ w, ∀ v, member i errorKey v = w

/-- Such a change keeps what values show. -/
theorem showsSame_change {ι : Type} {p : Json ν Bytes → Prop} {change : ι → Json ν Bytes → Json ν' Bytes}
    {member : ι → Bytes → Json ν Bytes → Json ν' Bytes} (hc : Memberwise p change member) {v v' : Json ν Bytes}
    (hv : p v) (hv' : p v') (h : ShowsSame n v v') (i : ι) : ShowsSame n (change i v) (change i v') := by
  induction n generalizing v v' i with
  | zero =>
    obtain rfl | ⟨ms, ms', rfl, rfl⟩ := showsSame_cases h
    · exact showsSame_refl 0 _
    · obtain ⟨ts, hts, -⟩ := hc.object i hv
      obtain ⟨ts', hts', -⟩ := hc.object i hv'
      rw [hts, hts']
      trivial
  | succ n ih =>
    obtain rfl | ⟨ms, ms', rfl, rfl⟩ := showsSame_cases h
    · exact showsSame_refl (n + 1) _
    obtain ⟨hkeys, herror⟩ := h
    obtain ⟨ts, hts, hlookup⟩ := hc.object i hv
    obtain ⟨ts', hts', hlookup'⟩ := hc.object i hv'
    rw [hts, hts']
    refine ⟨fun k hk hne => by rw [hlookup, hlookup', hkeys k hk hne], ?_⟩
    rw [hlookup, hlookup']
    generalize he : ms.lookup errorKey = o at herror ⊢
    generalize he' : ms'.lookup errorKey = o' at herror ⊢
    cases herror with
    | none => exact .none
    | some herror =>
      refine .some ?_
      rcases hc.nested i with ⟨j, hj⟩ | ⟨w, hw⟩
      · rw [hj]
        exact ih (hc.inside hv he) (hc.inside hv' he') herror j
      · rw [hw, hw]
        exact showsSame_refl n w

def hideMember (mask : Bytes) (s : Bytes → Bool) (paths : List (List Bytes)) (k : Bytes) (v : Value) : Value :=
  if Masked s paths k then .string mask else hide mask s v (paths.filterMap (behindKey k))

theorem memberwise_hide (mask : Bytes) (s : Bytes → Bool) :
    Memberwise (fun _ => True) (fun paths v => hide mask s v paths) (hideMember mask s) where
  inside _ _ := trivial
  object paths ms _ := ⟨_, hide_object ms, lookup_map (hideMember mask s paths) ms⟩
  nested paths := by
    unfold hideMember
    by_cases hmasked : Masked s paths errorKey
    · exact .inr ⟨.string mask, fun v => if_pos hmasked⟩
    · exact .inl ⟨paths.filterMap (behindKey errorKey), funext fun v => if_neg hmasked⟩

theorem memberwise_map (f : ν → ν') :
    Memberwise (fun v => keyed v) (fun _ : Unit => map f sanitize) fun _ _ => map f sanitize where
  inside := keyed_member
  object _ ms hms := ⟨_, map_sanitize_object hms, lookup_map (fun _ => map f sanitize) ms⟩
  nested _ := .inl ⟨(), rfl⟩

theorem memberwise_normalize :
    Memberwise (fun v : Json ν Bytes => keyed v) (fun _ : Unit => Json.normalize) fun _ _ => Json.normalize where
  inside := keyed_member
  object _ ms hms := by
    have hnodup : (keys (ms.map fun m => (m.1, m.2.normalize))).Nodup := by
      rw [keys_map (fun _ => Json.normalize) ms]
      exact (keyed_object.mp hms).1
    refine ⟨_, normalize_object ms, fun k => ?_⟩
    rw [lookup_setAll_of_nodup hnodup, lookup_map (fun _ => Json.normalize) ms]
  nested _ := .inl ⟨(), rfl⟩

/-! ## The redactions -/

/-- The value that is read after both redactions. -/
def redacted (cfg : JsonRedact.Config) (v : Value) : Value :=
  let first := JsonRedact.redact ⟨cfg.pathFields, [], []⟩ v
  if cfg.sensitiveKeys ≠ [] then JsonRedact.redact cfg (first.map id sanitize).normalize else first

/-- A value that can be written and read again. -/
structure Rereadable (v : Value) : Prop where
  keyed : keyed v
  depth : depth v ≤ maxNestingDepth

variable {v v' : Value} {ms ms' : List (Bytes × Message)}

theorem rereadable_redact (cfg : JsonRedact.Config) (h : Rereadable v) :
    Rereadable (JsonRedact.redact cfg v) := by
  rw [redact_eq]
  exact ⟨keyed_hide h.keyed _, Nat.le_trans (depth_hide_le v _) h.depth⟩

theorem rereadable_reread (h : Rereadable v) : Rereadable (v.map id sanitize).normalize where
  keyed := keyed_normalize (all_sanitized id v)
  depth := by
    have hle := depth_normalize_le (v.map id sanitize)
    rw [depth_map] at hle
    exact Nat.le_trans hle h.depth

theorem rereadable_redacted (cfg : JsonRedact.Config) (h : Rereadable v) : Rereadable (redacted cfg v) := by
  unfold redacted
  split
  · exact rereadable_redact _ (rereadable_reread (rereadable_redact _ h))
  · exact rereadable_redact _ h

theorem showsSame_redact (cfg : JsonRedact.Config) (h : ShowsSame n v v') :
    ShowsSame n (JsonRedact.redact cfg v) (JsonRedact.redact cfg v') := by
  rw [redact_eq, redact_eq]
  exact showsSame_change (memberwise_hide _ _) trivial trivial h cfg.paths

theorem showsSame_redacted (cfg : JsonRedact.Config) (hv : Rereadable v) (hv' : Rereadable v')
    (h : ShowsSame n v v') : ShowsSame n (redacted cfg v) (redacted cfg v') := by
  have hfirst := showsSame_redact ⟨cfg.pathFields, [], []⟩ h
  unfold redacted
  split
  · have hk := (rereadable_redact ⟨cfg.pathFields, [], []⟩ hv).keyed
    have hk' := (rereadable_redact ⟨cfg.pathFields, [], []⟩ hv').keyed
    have hmap := showsSame_change (memberwise_map id) hk hk' hfirst ()
    exact showsSame_redact cfg (showsSame_change memberwise_normalize (keyed_map hk) (keyed_map hk') hmap ())
  · exact hfirst

theorem redactBody_eq {inp : HTTPResponseInput} (h : unmarshal inp.body = .ok v) (hv : Rereadable v) :
    redactBody inp = .ok (marshal (redacted inp.redact v)) := by
  have hagain := unmarshal_marshal (rereadable_redact ⟨inp.redact.pathFields, [], []⟩ hv).depth
  rw [redactBody, parseAndRedactJSON_ok _ h]
  dsimp only
  rw [redacted]
  split
  · rw [parseAndRedactJSON_ok _ hagain]
  · rfl

theorem redact_object (cfg : JsonRedact.Config) (ms : List (Bytes × Value)) :
    ∃ rs, JsonRedact.redact cfg (.object ms) = .object rs := by
  rw [redact_eq, hide_object]
  exact ⟨_, rfl⟩

theorem redacted_object (cfg : JsonRedact.Config) (ms : List (Bytes × Value)) :
    ∃ rs, redacted cfg (.object ms) = .object rs := by
  obtain ⟨rs, hrs⟩ := redact_object ⟨cfg.pathFields, [], []⟩ ms
  unfold redacted
  split
  · dsimp only
    rw [hrs, map_object, normalize_object]
    exact redact_object cfg _
  · exact ⟨rs, hrs⟩

/-! ## The envelope -/

def envelope (cfg : JsonRedact.Config) (v : Value) : Message := (redacted cfg v).map formatFloat sanitize

theorem scan_marshal (h : depth v ≤ maxNestingDepth) :
    Json.scan (marshal v) = some (v.map formatFloat sanitize) := by
  have hd : (v.map formatFloat id).depth ≤ maxNestingDepth := by
    rw [depth_map]
    exact h
  rw [marshal_eq_write, scan_write (readable_float v) hd, map_map]
  rfl

theorem rereadable_unmarshal {raw : Bytes} (h : unmarshal raw = .ok v) : Rereadable v :=
  ⟨keyed_unmarshal h, depth_unmarshal h⟩

theorem errorEnvelope_eq (inp : HTTPResponseInput) {ms : List (Bytes × Value)}
    (h : unmarshal inp.body = .ok (.object ms)) :
    ∃ us, envelope inp.redact (.object ms) = .object us ∧ errorEnvelope (redactBody inp) = some (setAll us) := by
  have hv := rereadable_unmarshal h
  obtain ⟨rs, hrs⟩ := redacted_object inp.redact ms
  have hdepth := (rereadable_redacted inp.redact hv).depth
  rw [hrs] at hdepth
  refine ⟨_, by rw [envelope, hrs, map_object], ?_⟩
  rw [redactBody_eq h hv, errorEnvelope, hrs, scan_marshal hdepth, map_object]
  rfl

theorem showsSame_envelope (cfg : JsonRedact.Config) (hv : Rereadable v) (hv' : Rereadable v')
    (h : ShowsSame n v v') : ShowsSame n (envelope cfg v) (envelope cfg v') :=
  showsSame_change (memberwise_map formatFloat) (rereadable_redacted cfg hv).keyed (rereadable_redacted cfg hv').keyed
    (showsSame_redacted cfg hv hv' h) ()

/-- What is kept of a member: what is to show, clipped. -/
def kept (secrets : List Bytes) : (List (Bytes × Message) → Fields) → Bytes → Message → Option (Json Int Bytes) :=
  shown fun value => clipDiagnostic (JsonRedact.redactText value secrets) defaultHTTPBodyBytes

theorem safeErrorField_fst (secrets : List Bytes) (members : List (Bytes × Message))
    (nested : List (Bytes × Message) → Fields × Bool) (acc : Fields × Bool) (key : Bytes) :
    (safeErrorField secrets members nested acc key).1 =
      match (members.lookup key).bind (kept secrets (fun inner => (nested inner).1) key) with
      | some v => set key v acc.1
      | none => acc.1 := by
  unfold safeErrorField
  cases members.lookup key with
  | none => rfl
  | some raw =>
    rw [Option.bind_some, kept, shown]
    dsimp only
    cases readString raw with
    | some value => rfl
    | none =>
      dsimp only
      by_cases herror : key = errorKey
      · rw [if_pos herror, if_pos herror]
        rcases readMap raw with _ | _ | inner
        · rfl
        · rfl
        · dsimp only
          split <;> rfl
      · rw [if_neg herror, if_neg herror]
        by_cases hstatus : key = utf8 "status"
        · rw [if_pos hstatus, if_pos hstatus]
          cases readInt raw <;> rfl
        · rw [if_neg hstatus, if_neg hstatus]

theorem kept_object (secrets : List Bytes) (nested : List (Bytes × Message) → Fields) (es : List (Bytes × Message)) :
    kept secrets nested errorKey (.object es) =
      if nested (setAll es) = [] then none else some (.object (nested (setAll es))) := by
  rw [kept, shown]
  exact if_pos rfl

theorem safeErrorFields_congr (secrets : List Bytes) (hk : keyed (.object ms))
    (hk' : keyed (.object ms')) (h : ShowsSame n (.object ms) (.object ms')) :
    (safeErrorFields secrets n (setAll ms)).1 = (safeErrorFields secrets n (setAll ms')).1 := by
  induction n generalizing ms ms' with
  | zero => rfl
  | succ n ih =>
    obtain ⟨hkeys, herror⟩ := h
    have hkept : ∀ key ∈ errorKeys,
        ((setAll ms).lookup key).bind (kept secrets (fun inner => (safeErrorFields secrets n inner).1) key) =
          ((setAll ms').lookup key).bind (kept secrets (fun inner => (safeErrorFields secrets n inner).1) key) := by
      intro key hkey
      rw [lookup_setAll_of_nodup (keyed_object.mp hk).1, lookup_setAll_of_nodup (keyed_object.mp hk').1]
      by_cases hne : key = errorKey
      · subst hne
        generalize he : ms.lookup errorKey = o at herror ⊢
        generalize he' : ms'.lookup errorKey = o' at herror ⊢
        cases herror with
        | none => rfl
        | some herror =>
          obtain rfl | ⟨es, es', rfl, rfl⟩ := showsSame_cases herror
          · rfl
          · rw [Option.bind_some, Option.bind_some, kept_object, kept_object,
              ih (keyed_member hk he) (keyed_member hk' he') herror]
      · rw [hkeys key hkey hne]
    rw [safeErrorFields, safeErrorFields]
    refine List.foldl_rel (r := fun a b : Fields × Bool => a.1 = b.1) rfl fun key hkey acc acc' hacc => ?_
    rw [safeErrorField_fst, safeErrorField_fst, hkept key hkey, hacc]

/-! ## Capturing -/

theorem describe_congr (out : HTTPResponse) (maxBodyBytes : Int) (safe : Fields) (omitted omitted' : Bool) :
    SameDiagnostics (describe out maxBodyBytes safe omitted) (describe out maxBodyBytes safe omitted') := by
  unfold describe
  dsimp only
  split <;> exact ⟨rfl, rfl, rfl, rfl, rfl⟩

theorem capture_congr (inp : HTTPResponseInput) {body body' : Bytes} (hne : body ≠ []) (hne' : body' ≠ [])
    (hlen : body.length ≤ maxHTTPInspectBytes) (hlen' : body'.length ≤ maxHTTPInspectBytes)
    (henv : errorEnvelope (redactBody { inp with body := body }) = some ms)
    (henv' : errorEnvelope (redactBody { inp with body := body' }) = some ms')
    (hsafe : (safeErrorFields inp.secrets (maxErrorDepth + 1) ms).1 =
      (safeErrorFields inp.secrets (maxErrorDepth + 1) ms').1) :
    SameDiagnostics (captureHTTPResponse { inp with body := body })
      (captureHTTPResponse { inp with body := body' }) := by
  unfold captureHTTPResponse
  simp only [Nat.not_lt.mpr hlen, Nat.not_lt.mpr hlen', hne, hne', henv, henv', or_false, if_false]
  split
  · exact ⟨rfl, rfl, rfl, rfl, rfl⟩
  split
  · exact ⟨rfl, rfl, rfl, rfl, rfl⟩
  split
  · exact ⟨rfl, rfl, rfl, rfl, rfl⟩
  rw [hsafe]
  exact describe_congr _ _ _ _ _

/-- Two bodies that agree on the error envelope are captured alike. -/
theorem capture_allowlist (inp : HTTPResponseInput) {body body' : Bytes} (h : BodiesAgree body body')
    (hlen : body.length ≤ maxHTTPInspectBytes) (hlen' : body'.length ≤ maxHTTPInspectBytes) :
    SameDiagnostics (captureHTTPResponse { inp with body := body })
      (captureHTTPResponse { inp with body := body' }) := by
  obtain ⟨ms, ms', hms, hms', hshow⟩ := h
  have hne : ∀ raw v, unmarshal raw = .ok v → raw ≠ [] := by
    rintro raw v hv rfl
    cases hv
  obtain ⟨us, hus, henv⟩ := errorEnvelope_eq { inp with body := body } hms
  obtain ⟨us', hus', henv'⟩ := errorEnvelope_eq { inp with body := body' } hms'
  have hv := rereadable_unmarshal hms
  have hv' := rereadable_unmarshal hms'
  have hk : keyed (envelope inp.redact (.object ms)) := keyed_map (rereadable_redacted inp.redact hv).keyed
  have hk' : keyed (envelope inp.redact (.object ms')) := keyed_map (rereadable_redacted inp.redact hv').keyed
  have hsame := showsSame_envelope inp.redact hv hv' hshow
  rw [hus] at hk hsame
  rw [hus'] at hk' hsame
  exact capture_congr inp (hne body _ hms) (hne body' _ hms') hlen hlen' henv henv'
    (safeErrorFields_congr inp.secrets hk hk' hsame)

def deniedCustomer : Bytes := utf8 "\x7b\"error\":\x7b\"code\":\"denied\",\"customer\":\"a\"\x7d\x7d"

def deniedToken : Bytes := utf8 "\x7b\"error\":\x7b\"code\":\"denied\"\x7d,\"token\":null\x7d"

theorem denied_agree : BodiesAgree deniedCustomer deniedToken := by
  let code : Bytes × Value := (utf8 "code", .string (utf8 "denied"))
  let customer : Bytes × Value := (utf8 "customer", .string (utf8 "a"))
  have hnested : ShowsSame maxErrorDepth (.object [code, customer]) (.object [code]) := by
    have hno : [code, customer].lookup errorKey = none ∧ [code].lookup errorKey = none := by decide +kernel
    refine ⟨by decide +kernel, ?_⟩
    rw [hno.1, hno.2]
    exact .none
  refine ⟨[(errorKey, .object [code, customer])], [(errorKey, .object [code]), (utf8 "token", .null)],
    by decide +kernel, by decide +kernel, by decide +kernel, ?_⟩
  rw [List.lookup_cons_self, List.lookup_cons_self]
  exact .some hnested

/-- A response to be captured, with a sensitive key of its own. -/
def deniedInput : HTTPResponseInput where
  status := 403
  contentType := utf8 "application/json; charset=utf-8"
  contentEncoding := []
  body := []
  observedBytes := 43
  complete := true
  maxBodyBytes := 0
  secrets := []
  redact := ⟨[], [utf8 "extra"], []⟩

theorem capture_allowlist_denied :
    SameDiagnostics (captureHTTPResponse { deniedInput with body := deniedCustomer })
      (captureHTTPResponse { deniedInput with body := deniedToken }) :=
  capture_allowlist deniedInput denied_agree (by decide +kernel) (by decide +kernel)

end Csar.Proof.Audit
