import CsarCore.Framework.Json.Members
import CsarCore.Spec.JsonRedact.Redact

/-!
# Redaction in one pass, and what it hides

The walks of the code are `hide` (`redact_eq`). It does not depend on what is stored
under sensitive keys (`hide_blank`), and decoding does not mix that with the rest
(`blank_decode`): `redaction_noninterference`.
-/

namespace Csar.Proof.JsonRedact

open Csar.Json Impl.JsonRedact Csar.Impl Spec.JsonRedact

variable {ν σ : Type} {mask : Bytes} {s s' : Bytes → Bool} {paths paths' : List (List Bytes)}

theorem hide_array (vs : List Value) :
    hide mask s (.array vs) paths = .array (vs.map fun v => hide mask s v (paths.map behindElement)) := by
  rw [hide, fold_array]
  exact congrArg _ List.map_map

theorem hide_object (ms : List (Bytes × Value)) :
    hide mask s (.object ms) paths = .object (ms.map fun m =>
      (m.1, if Masked s paths m.1 then .string mask else hide mask s m.2 (paths.filterMap (behindKey m.1)))) := by
  rw [hide, fold_object]
  exact congrArg _ List.map_map

theorem hide_hide (v : Value) : ∀ paths paths', hide mask s' (hide mask s v paths) paths' =
    hide mask (fun k => s k || s' k) v (paths ++ paths') := by
  induction v using ind with
  | null | bool | number | string => intros; rfl
  | array vs ih =>
    intro paths paths'
    rw [hide_array, hide_array, hide_array, List.map_map, List.map_append]
    exact congrArg _ (List.map_congr_left fun v hv => ih v hv _ _)
  | object ms ih =>
    intro paths paths'
    rw [hide_object, hide_object, hide_object, List.map_map]
    refine congrArg _ (List.map_congr_left fun m hm => congrArg (Prod.mk m.1) ?_)
    have hor : Masked (fun k => s k || s' k) (paths ++ paths') m.1 ↔ Masked s paths m.1 ∨ Masked s' paths' m.1 := by
      simp only [Masked, Bool.or_eq_true, List.mem_append]
      tauto
    dsimp only [Function.comp_apply]
    by_cases h : Masked s paths m.1
    · rw [if_pos h, if_pos (hor.mpr (.inl h))]
      exact ite_self _
    · rw [if_neg h, List.filterMap_append, ← ih m hm]
      by_cases h' : Masked s' paths' m.1
      · rw [if_pos h', if_pos (hor.mpr (.inr h'))]
      · rw [if_neg h', if_neg fun hb => (hor.mp hb).elim h h']

theorem hide_nothing (v : Value) : ∀ paths, (∀ path ∈ paths, path = []) → hide mask (fun _ => false) v paths = v := by
  induction v using ind with
  | null | bool | number | string => intros; rfl
  | array vs ih =>
    intro paths hpaths
    have hnext : ∀ path ∈ paths.map behindElement, path = [] :=
      List.forall_mem_map.mpr fun path hpath => by rw [hpaths path hpath]; rfl
    rw [hide_array]
    exact congrArg _ ((List.map_congr_left fun v hv => ih v hv _ hnext).trans (List.map_id vs))
  | object ms ih =>
    intro paths hpaths
    rw [hide_object]
    refine congrArg _ ((List.map_congr_left fun m hm => ?_).trans (List.map_id ms))
    have hmasked : ¬ Masked (fun _ => false) paths m.1 := by
      rintro (h | h)
      · cases h
      · cases hpaths _ h
    have hnext : ∀ path ∈ paths.filterMap (behindKey m.1), path = [] := by
      intro path hpath
      obtain ⟨path', hmem, hb⟩ := List.mem_filterMap.mp hpath
      rw [hpaths path' hmem] at hb
      cases hb
    rw [if_neg hmasked, ih m hm _ hnext]
    rfl

theorem keyed_hide {v : Value} (h : keyed v) : ∀ paths, keyed (hide mask s v paths) := by
  induction v using ind with
  | null | bool | number | string => intros; rfl
  | array vs ih =>
    intro paths
    rw [hide_array, keyed_array]
    exact List.forall_mem_map.mpr fun v hv => ih v hv (keyed_array.mp h v hv) _
  | object ms ih =>
    intro paths
    obtain ⟨hnodup, hall⟩ := keyed_object.mp h
    rw [hide_object, keyed_object,
      keys_map (fun k v => if Masked s paths k then .string mask else hide mask s v (paths.filterMap (behindKey k))) ms]
    refine ⟨hnodup, List.forall_mem_map.mpr fun m hm => ⟨(hall m hm).1, ?_⟩⟩
    dsimp only
    split
    · rfl
    · exact ih m hm (hall m hm).2 _

theorem depth_hide_le (v : Value) : ∀ paths, depth (hide mask s v paths) ≤ depth v := by
  induction v using ind with
  | null | bool | number | string => intro paths; exact Nat.le_refl _
  | array vs ih =>
    intro paths
    obtain ⟨d, hd⟩ : ∃ d, depth (.array vs) = d + 1 := ⟨_, depth_array vs⟩
    rw [hide_array, hd]
    refine depth_array_le (List.forall_mem_map.mpr fun v hv => ?_)
    have hv' := depth_element hv
    have hle := ih v hv (paths.map behindElement)
    omega
  | object ms ih =>
    intro paths
    obtain ⟨d, hd⟩ : ∃ d, depth (.object ms) = d + 1 := ⟨_, depth_object ms⟩
    rw [hide_object, hd]
    refine depth_object_le (List.forall_mem_map.mpr fun m hm => ?_)
    have hm' := depth_member hm
    dsimp only
    split
    · exact Nat.zero_le d
    · have hle := ih m hm (paths.filterMap (behindKey m.1))
      omega

/-! ## The walks of the code -/

theorem redactElements_fst (path : List Bytes) (vs : List Value) :
    (redactElements mask path vs).1 = vs.map fun v => (redactPath mask path v).1 := by
  induction vs with
  | nil => rfl
  | cons v vs ih => rw [redactElements, List.map_cons, ← ih]

theorem redactMembers_fst (p : Bytes → Bool) (path : List Bytes) (ms : List (Bytes × Value)) :
    (redactMembers mask p path ms).1 = ms.map fun m => (m.1, if p m.1 then (redactPath mask path m.2).1 else m.2) := by
  induction ms with
  | nil => rfl
  | cons m ms ih =>
    rw [redactMembers, List.map_cons, ← ih]
    split <;> rfl

theorem behindKey_singleton (k key : Bytes) {rest : List Bytes} (hrest : rest ≠ []) :
    [key :: rest].filterMap (behindKey k) = if key = star ∨ key = k then [rest] else [] := by
  by_cases h : key = star ∨ key = k <;> simp [behindKey, hrest, h]

theorem redactPath_fst (v : Value) : ∀ path, (redactPath mask path v).1 = hide mask (fun _ => false) v [path] := by
  induction v using ind with
  | null | bool | number | string => intro path; cases path <;> rfl
  | array vs ih =>
    intro path
    cases path with
    | nil => exact (hide_nothing _ _ (by simp)).symm
    | cons key rest =>
      rw [hide_array, redactPath, redactElements_fst]
      exact congrArg _ (List.map_congr_left fun v hv => ih v hv _)
  | object ms ih =>
    intro path
    cases path with
    | nil => exact (hide_nothing _ _ (by simp)).symm
    | cons key rest =>
      rw [hide_object, redactPath]
      by_cases hrest : rest = []
      · subst hrest
        have hkeep : ∀ m ∈ ms, (m.1, if Masked (fun _ => false) [[key]] m.1 then .string mask
            else hide mask (fun _ => false) m.2 ([[key]].filterMap (behindKey m.1))) =
            if m.1 = key then (m.1, .string mask) else m := by
          intro m _
          have hmasked : Masked (fun _ => false) [[key]] m.1 ↔ m.1 = key := by simp [Masked]
          have hnext : [[key]].filterMap (behindKey m.1) = [] := by simp [behindKey]
          rw [hnext, hide_nothing _ _ (by simp)]
          simp only [hmasked]
          split <;> rfl
        rw [if_pos rfl, List.map_congr_left hkeep]
        split
        · rfl
        · rename_i hkey
          refine congrArg _ ((List.map_congr_left fun m hm => if_neg ?_).trans (List.map_id ms)).symm
          rintro rfl
          exact hkey (List.mem_map_of_mem hm)
      · rw [if_neg hrest]
        dsimp only
        rw [redactMembers_fst]
        refine congrArg _ (List.map_congr_left fun m hm => congrArg (Prod.mk m.1) ?_)
        have hmasked : ¬ Masked (fun _ => false) [key :: rest] m.1 := by simp [Masked, Ne.symm hrest]
        rw [if_neg hmasked, behindKey_singleton _ _ hrest]
        by_cases h : key = star ∨ key = m.1
        · rw [if_pos h, ← ih m hm]
          simp [h, eq_comm]
        · rw [if_neg h, hide_nothing _ _ (by simp)]
          simp [h, eq_comm]

theorem redactWalkElements_fst (p : Bytes → Bool) (vs : List Value) :
    (redactWalkElements p mask vs).1 = vs.map fun v => (redactWalk p mask v).1 := by
  induction vs with
  | nil => rfl
  | cons v vs ih => rw [redactWalkElements, List.map_cons, ← ih]

theorem redactWalkMembers_fst (p : Bytes → Bool) (ms : List (Bytes × Value)) :
    (redactWalkMembers p mask ms).1 = ms.map fun m => (m.1, if p m.1 then .string mask else (redactWalk p mask m.2).1) := by
  induction ms with
  | nil => rfl
  | cons m ms ih =>
    rw [redactWalkMembers, List.map_cons, ← ih]
    split <;> rfl

theorem redactWalk_fst (p : Bytes → Bool) (v : Value) : (redactWalk p mask v).1 = hide mask p v [] := by
  induction v using ind with
  | null | bool | number | string => rfl
  | array vs ih =>
    rw [hide_array, redactWalk, redactWalkElements_fst]
    exact congrArg _ (List.map_congr_left ih)
  | object ms ih =>
    rw [hide_object, redactWalk, redactWalkMembers_fst]
    refine congrArg _ (List.map_congr_left fun m hm => ?_)
    simp [Masked, ih m hm]

theorem redactPaths_eq (paths : List (List Bytes)) (v : Value) :
    paths.foldl (fun v path => (redactPath mask path v).1) v = hide mask (fun _ => false) v paths := by
  induction paths generalizing v with
  | nil => exact (hide_nothing v [] (by simp)).symm
  | cons path paths ih =>
    rw [List.foldl_cons, ih, redactPath_fst, hide_hide]
    rfl

theorem redact_eq (cfg : Config) (v : Value) :
    redact cfg v = hide cfg.maskOrDefault (sensitive cfg) v cfg.paths := by
  have hwalk : ∀ p : Bytes → Bool,
      (redactWalk p cfg.maskOrDefault (hide cfg.maskOrDefault (fun _ => false) v cfg.paths)).1 =
        hide cfg.maskOrDefault p v cfg.paths := by
    intro p
    rw [redactWalk_fst, hide_hide, List.append_nil]
    simp only [Bool.false_or]
  rw [redact, redactPaths_eq]
  by_cases hkeys : cfg.sensitiveKeys = []
  · have hsens : sensitive cfg = Logutil.isSensitiveKey := funext fun k => if_pos hkeys
    rw [if_neg (not_not.mpr hkeys), redactSensitiveKeys, hwalk, hsens]
  · have hsens : sensitive cfg = fun k => (cfg.sensitiveKeys.map Strings.toLower).contains (Strings.toLower k) := by
      funext k
      rw [sensitive, if_neg hkeys, Bool.eq_iff_iff, List.contains_iff_mem, List.mem_map, List.any_eq_true]
      simp only [decide_eq_true_eq]
    rw [if_pos hkeys, redactKeys, if_neg hkeys, redactKeysWalk, hwalk, hsens]

/-! ## What is under sensitive keys does not show -/

theorem blank_array (s : σ → Bool) (vs : List (Json ν σ)) : blank s (.array vs) = .array (vs.map (blank s)) :=
  fold_array _ vs

theorem blank_object (s : σ → Bool) (ms : List (σ × Json ν σ)) :
    blank s (.object ms) = .object (ms.map fun m => (m.1, if s m.1 then .null else blank s m.2)) := by
  rw [blank, fold_object]
  exact congrArg _ List.map_map

theorem hide_blank (v : Value) : ∀ paths, hide mask s (blank s v) paths = hide mask s v paths := by
  induction v using ind with
  | null | bool | number | string => intros; rfl
  | array vs ih =>
    intro paths
    rw [blank_array, hide_array, hide_array, List.map_map]
    exact congrArg _ (List.map_congr_left fun v hv => ih v hv _)
  | object ms ih =>
    intro paths
    rw [blank_object, hide_object, hide_object, List.map_map]
    refine congrArg _ (List.map_congr_left fun m hm => congrArg (Prod.mk m.1) ?_)
    dsimp only [Function.comp_apply]
    by_cases hs : s m.1
    · rw [if_pos (.inl hs), if_pos (.inl hs)]
    · rw [if_neg hs, ih m hm]

theorem blank_map {ν' σ' : Type} (s : σ' → Bool) (f : ν → ν') (g : σ → σ') (j : Json ν σ) :
    blank s (j.map f g) = (blank (fun k => s (g k)) j).map f g := by
  induction j using ind with
  | null | bool | number | string => rfl
  | array vs ih =>
    rw [map_array, blank_array, blank_array, map_array, List.map_map, List.map_map]
    exact congrArg _ (List.map_congr_left ih)
  | object ms ih =>
    rw [map_object, blank_object, blank_object, map_object, List.map_map, List.map_map]
    refine congrArg _ (List.map_congr_left fun m hm => congrArg (Prod.mk (g m.1)) ?_)
    dsimp only [Function.comp_apply]
    rw [ih m hm]
    split <;> rfl

theorem blank_normalize [Ord σ] (s : σ → Bool) (j : Json ν σ) : blank s j.normalize = (blank s j).normalize := by
  induction j using ind with
  | null | bool | number | string => rfl
  | array vs ih =>
    rw [normalize_array, blank_array, blank_array, normalize_array, List.map_map, List.map_map]
    exact congrArg _ (List.map_congr_left ih)
  | object ms ih =>
    rw [normalize_object, blank_object, blank_object, normalize_object, List.map_map,
      map_setAll fun k v => if s k then .null else blank s v, List.map_map]
    refine congrArg (fun ms => Json.object (setAll ms)) (List.map_congr_left fun m hm => congrArg (Prod.mk m.1) ?_)
    dsimp only [Function.comp_apply]
    rw [ih m hm]
    split <;> rfl

theorem blank_decode (s : Bytes → Bool) (d : Doc) : blank s (decode d) = decode (blank (fun k => s (goString k)) d) := by
  rw [decode, decode, blank_normalize, blank_map]

theorem redact_congr {cfg : Config} {v v' : Value} (h : blank (sensitive cfg) v = blank (sensitive cfg) v') :
    redact cfg v = redact cfg v' := by
  rw [redact_eq, redact_eq, ← hide_blank v, h, hide_blank]

theorem parseAndRedactJSON_ok {raw : Bytes} {v : Value} (cfg : Config) (h : unmarshal raw = .ok v) :
    parseAndRedactJSON raw cfg = .ok (marshal (redact cfg v)) := by
  have hne : raw ≠ [] := by
    rintro rfl
    cases h
  rw [parseAndRedactJSON, if_neg hne, h]

theorem decoded_of_isOk {raw : Bytes} (h : (unmarshal raw).isOk) :
    ∃ d, parse raw = some d ∧ unmarshal raw = .ok (decode d) := by
  cases hu : unmarshal raw with
  | error e =>
    rw [hu] at h
    cases h
  | ok v =>
    obtain ⟨d, hd, -, rfl⟩ := parse_of_unmarshal hu
    exact ⟨d, hd, rfl⟩

/-- Two documents that are decoded and differ under sensitive keys only give the same output. -/
theorem redaction_noninterference (cfg : Config) {raw raw' : Bytes} (h : (unmarshal raw).isOk)
    (h' : (unmarshal raw').isOk) (halike : Alike (sensitive cfg) raw raw') :
    ∃ out, parseAndRedactJSON raw cfg = .ok out ∧ parseAndRedactJSON raw' cfg = .ok out := by
  obtain ⟨d, hd, hv⟩ := decoded_of_isOk h
  obtain ⟨d', hd', hv'⟩ := decoded_of_isOk h'
  obtain ⟨e, e', he, he', hblank⟩ := halike
  obtain rfl : d = e := Option.some_inj.mp (hd.symm.trans he)
  obtain rfl : d' = e' := Option.some_inj.mp (hd'.symm.trans he')
  have hvalues : blank (sensitive cfg) (decode d) = blank (sensitive cfg) (decode d') := by
    rw [blank_decode, blank_decode, hblank]
  refine ⟨_, parseAndRedactJSON_ok cfg hv, ?_⟩
  rw [parseAndRedactJSON_ok cfg hv', redact_congr hvalues]

def codePoints (t : String) : List CodePoint := t.toList.map .scalar

def userNames : Config := ⟨[utf8 "user.*.name"], [], []⟩

def tokenString : Bytes := utf8 "\x7b\"token\":\"abc\",\"user\":[\x7b\"name\":\"x\"\x7d]\x7d"

/-- The same document with a token that is an array. -/
def tokenArray : Bytes := utf8 "\x7b\"token\":[1,\x7b\"key\":2\x7d],\"user\":[\x7b\"name\":\"x\"\x7d]\x7d"

theorem tokens_alike : Alike (sensitive userNames) tokenString tokenArray := by
  let user : Doc := .array [.object [(codePoints "name", .string (codePoints "x"))]]
  refine ⟨.object [(codePoints "token", .string (codePoints "abc")), (codePoints "user", user)],
    .object [(codePoints "token", .array [.number ⟨false, 1, 0⟩, .object [(codePoints "key", .number ⟨false, 2, 0⟩)]]),
      (codePoints "user", user)], ?_, ?_, ?_⟩ <;> decide +kernel

theorem redaction_noninterference_token :
    ∃ out, parseAndRedactJSON tokenString userNames = .ok out ∧ parseAndRedactJSON tokenArray userNames = .ok out :=
  redaction_noninterference userNames (by decide +kernel) (by decide +kernel) tokens_alike

end Csar.Proof.JsonRedact
