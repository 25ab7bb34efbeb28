import CsarCore.Proof.JsonRedact.Redact

/-!
# What redaction leaves alone

A position of the output holds what the input has there, if it is not redacted and
survives in a Go value. `frame_iff_survives` follows a document through decoding, `hide`
and encoding, constructor by constructor. A number that is not written like the binary64
number nearest to it does not survive: `redaction_changes_number`.
-/

namespace Csar.Proof.JsonRedact

open Csar.Json Impl.JsonRedact Csar.Impl Spec.JsonRedact

variable {mask : Bytes} {s : Bytes → Bool} {paths : List (List Bytes)} {path : List Bytes}
  {k : Bytes} {i : Nat} {p : List (Step Bytes)} {d d' : Doc}

/-! ## Redacted positions -/

theorem not_addresses_nil : ¬ Addresses path [] := fun h => by cases h

theorem path_ne_nil (h : Addresses path p) : path ≠ [] := by
  cases h <;> exact List.cons_ne_nil _ _

theorem addresses_key :
    Addresses path (.key k :: p) ↔ (path = [k] ∧ p = []) ∨ ∃ rest, behindKey k path = some rest ∧ Addresses rest p := by
  constructor
  · intro h
    cases h with
    | last => exact .inl ⟨rfl, rfl⟩
    | key h => exact .inr ⟨_, if_pos ⟨path_ne_nil h, .inr rfl⟩, h⟩
    | anyKey h => exact .inr ⟨_, if_pos ⟨path_ne_nil h, .inl rfl⟩, h⟩
  · rintro (⟨rfl, rfl⟩ | ⟨rest, hrest, h⟩)
    · exact .last
    · cases path with
      | nil => cases hrest
      | cons key path =>
        rw [behindKey] at hrest
        split at hrest <;> cases hrest
        rename_i hkey
        rcases hkey.2 with rfl | rfl
        · exact .anyKey h
        · exact .key h

theorem addresses_index : Addresses path (.index i :: p) ↔ Addresses (behindElement path) p := by
  constructor
  · intro h
    cases h with
    | element hk h =>
      rw [behindElement, if_neg hk]
      exact h
    | anyElement h =>
      rw [behindElement, if_pos rfl]
      exact h
  · intro h
    cases path with
    | nil => cases h
    | cons key path =>
      rw [behindElement] at h
      split at h
      · rename_i hkey
        rw [hkey]
        exact .anyElement h
      · exact .element ‹_› h

/-- A path addresses a position or one that it is in. -/
def Covers (path : List Bytes) (p : List (Step Bytes)) : Prop := ∃ q, q <+: p ∧ Addresses path q

theorem covers_cons {st : Step Bytes} :
    Covers path (st :: p) ↔ ∃ q, q <+: p ∧ Addresses path (st :: q) := by
  constructor
  · rintro ⟨q, hq, h⟩
    cases q with
    | nil => exact absurd h not_addresses_nil
    | cons st' q =>
      obtain ⟨rfl, hp⟩ := List.cons_prefix_cons.mp hq
      exact ⟨q, hp, h⟩
  · rintro ⟨q, hq, h⟩
    exact ⟨st :: q, List.cons_prefix_cons.mpr ⟨rfl, hq⟩, h⟩

theorem covers_key :
    Covers path (.key k :: p) ↔ path = [k] ∨ ∃ rest, behindKey k path = some rest ∧ Covers rest p := by
  rw [covers_cons]
  simp only [addresses_key]
  constructor
  · rintro ⟨q, hq, ⟨hp, -⟩ | ⟨rest, hrest, h⟩⟩
    · exact .inl hp
    · exact .inr ⟨rest, hrest, q, hq, h⟩
  · rintro (rfl | ⟨rest, hrest, q, hq, h⟩)
    · exact ⟨[], List.nil_prefix, .inl ⟨rfl, rfl⟩⟩
    · exact ⟨q, hq, .inr ⟨rest, hrest, h⟩⟩

theorem covers_index : Covers path (.index i :: p) ↔ Covers (behindElement path) p := by
  rw [covers_cons]
  simp only [addresses_index]
  rfl

theorem not_redacted_nil : ¬ Redacted s paths [] := by
  rintro (⟨path, -, q, hq, h⟩ | ⟨k, hk, -⟩)
  · rw [List.prefix_nil.mp hq] at h
    exact not_addresses_nil h
  · cases hk

theorem redacted_key : Redacted s paths (.key k :: p) ↔
    Masked s paths k ∨ Redacted s (paths.filterMap (behindKey k)) p := by
  have hpaths : (∃ path ∈ paths, Covers path (.key k :: p)) ↔
      [k] ∈ paths ∨ ∃ rest ∈ paths.filterMap (behindKey k), Covers rest p := by
    simp only [covers_key, List.mem_filterMap]
    constructor
    · rintro ⟨path, hpath, rfl | ⟨rest, hrest, h⟩⟩
      · exact .inl hpath
      · exact .inr ⟨rest, ⟨path, hpath, hrest⟩, h⟩
    · rintro (hk | ⟨rest, ⟨path, hpath, hrest⟩, h⟩)
      · exact ⟨[k], hk, .inl rfl⟩
      · exact ⟨path, hpath, .inr ⟨rest, hrest, h⟩⟩
  have hkeys : (∃ k', Step.key k' ∈ Step.key k :: p ∧ s k') ↔ s k ∨ ∃ k', Step.key k' ∈ p ∧ s k' := by
    simp only [List.mem_cons, Step.key.injEq, or_and_right, exists_or, exists_eq_left]
  exact (or_congr hpaths hkeys).trans (or_or_or_comm.trans (or_congr_left or_comm))

theorem redacted_index : Redacted s paths (.index i :: p) ↔ Redacted s (paths.map behindElement) p := by
  have hpaths : (∃ path ∈ paths, Covers path (.index i :: p)) ↔ ∃ rest ∈ paths.map behindElement, Covers rest p := by
    simp only [covers_index, List.mem_map, exists_exists_and_eq_and]
  have hkeys : (∃ k, Step.key k ∈ Step.index i :: p ∧ s k) ↔ ∃ k, Step.key k ∈ p ∧ s k := by
    simp only [List.mem_cons, reduceCtorEq, false_or]
  exact or_congr hpaths hkeys

/-! ## Taking a document apart -/

def Leaf (d : Doc) : Prop := ∀ st p, d.get? (st :: p) = none

theorem leaf_null : Leaf .null := by rintro (_ | _) _ <;> rfl
theorem leaf_bool (b : Bool) : Leaf (.bool b) := by rintro (_ | _) _ <;> rfl
theorem leaf_number (x : Decimal) : Leaf (.number x) := by rintro (_ | _) _ <;> rfl
theorem leaf_string (t : List CodePoint) : Leaf (.string t) := by rintro (_ | _) _ <;> rfl

theorem sameNode_of_frame (h : Frame s paths d d') : SameNode d d' := by
  have hroot := h [] not_redacted_nil
  rwa [get?_nil, get?_nil, Option.rel_some_some] at hroot

theorem frame_leaf (h : Leaf d) (h' : Leaf d') : Frame s paths d d' ↔ SameNode d d' := by
  refine ⟨sameNode_of_frame, fun hsame p _ => ?_⟩
  cases p with
  | nil => exact .some hsame
  | cons st p =>
    rw [h, h']
    exact .none

theorem survives_leaf (h : Leaf d) : Survives s paths d ↔ Lasting d := by
  refine ⟨fun hs => hs [] d not_redacted_nil rfl, fun hd p j _ hj => ?_⟩
  cases p with
  | nil =>
    cases hj
    exact hd
  | cons st p =>
    rw [h] at hj
    cases hj

theorem frame_iff_survives_leaf (h : Leaf d) (h' : Leaf d') (hsame : SameNode d d' ↔ Lasting d) :
    Frame s paths d d' ↔ Survives s paths d := (frame_leaf h h').trans (hsame.trans (survives_leaf h).symm)

theorem frame_array (f : Doc → Doc) (vs : List Doc) : Frame s paths (.array vs) (.array (vs.map f)) ↔
    ∀ v ∈ vs, Frame s (paths.map behindElement) v (f v) := by
  constructor
  · intro h v hv p hp
    obtain ⟨i, hi⟩ := List.mem_iff_getElem?.mp hv
    have hat := h (.index i :: p) (fun hr => hp (redacted_index.mp hr))
    rwa [get?_index_array, get?_index_array, List.getElem?_map, hi] at hat
  · intro h p hp
    rcases p with _ | ⟨k | i, p⟩
    · exact .some (List.length_map f).symm
    · exact .none
    · rw [get?_index_array, get?_index_array, List.getElem?_map]
      cases hi : vs[i]? with
      | none => exact .none
      | some v => exact h v (List.mem_of_getElem? hi) p fun hr => hp (redacted_index.mpr hr)

theorem survives_array {vs : List Doc} :
    Survives s paths (.array vs) ↔ ∀ v ∈ vs, Survives s (paths.map behindElement) v := by
  constructor
  · intro h v hv p j hp hj
    obtain ⟨i, hi⟩ := List.mem_iff_getElem?.mp hv
    refine h (.index i :: p) j (fun hr => hp (redacted_index.mp hr)) ?_
    rwa [get?_index_array, hi]
  · intro h p j hp hj
    rcases p with _ | ⟨k | i, p⟩
    · cases hj
      trivial
    · cases hj
    · obtain ⟨v, hv, hj⟩ := Option.bind_eq_some_iff.mp hj
      exact h v (List.mem_of_getElem? hv) p j (fun hr => hp (redacted_index.mpr hr)) hj

variable {ms : List (List CodePoint × Doc)}

theorem frame_object {f : List CodePoint × Doc → Doc} {ms' : List (List CodePoint × Doc)} (hms : (keys ms).Nodup)
    (hperm : ms'.Perm (ms.map fun m => (m.1, f m))) : Frame s paths (.object ms) (.object ms') ↔
      ∀ m ∈ ms, ¬ Masked s paths (goString m.1) → Frame s (paths.filterMap (behindKey (goString m.1))) m.2 (f m) := by
  have hkeys : (keys ms).Perm (keys ms') := by
    have := (hperm.map Prod.fst).symm
    rwa [List.map_map] at this
  have hms' : (keys ms').Nodup := hkeys.nodup_iff.mp hms
  have hlookup : ∀ m ∈ ms, ms'.lookup m.1 = some (f m) := fun m hm =>
    (lookup_eq_some_iff_mem hms').mpr (hperm.mem_iff.mpr (List.mem_map_of_mem hm))
  constructor
  · intro h m hm hmask p hp
    have hat := h (.key m.1 :: p) fun hr => (redacted_key.mp hr).elim hmask hp
    rwa [get?_key_object, get?_key_object, hlookup m hm, (lookup_eq_some_iff_mem hms).mpr hm] at hat
  · intro h p hp
    rcases p with _ | ⟨k | i, p⟩
    · exact .some hkeys
    · rw [get?_key_object, get?_key_object]
      cases hk : ms.lookup k with
      | none =>
        have hk' : ms'.lookup k = none :=
          lookup_eq_none_iff_keys.mpr fun hmem => lookup_eq_none_iff_keys.mp hk (hkeys.mem_iff.mpr hmem)
        rw [hk']
        exact .none
      | some v =>
        have hm := (lookup_eq_some_iff_mem hms).mp hk
        rw [hlookup _ hm]
        exact h _ hm (fun hmask => hp (redacted_key.mpr (.inl hmask))) p fun hr => hp (redacted_key.mpr (.inr hr))
    · exact .none

theorem survives_object (hms : (keys ms).Nodup) :
    Survives s paths (.object ms) ↔ (∀ k ∈ keys ms, Scalar k) ∧
      ∀ m ∈ ms, ¬ Masked s paths (goString m.1) → Survives s (paths.filterMap (behindKey (goString m.1))) m.2 := by
  constructor
  · intro h
    refine ⟨h [] _ not_redacted_nil rfl, fun m hm hmask p j hp hj => ?_⟩
    refine h (.key m.1 :: p) j (fun hr => (redacted_key.mp hr).elim hmask hp) ?_
    rwa [get?_key_object, (lookup_eq_some_iff_mem hms).mpr hm]
  · rintro ⟨hkeys, h⟩ p j hp hj
    rcases p with _ | ⟨k | i, p⟩
    · cases hj
      exact hkeys
    · obtain ⟨v, hv, hj⟩ := Option.bind_eq_some_iff.mp hj
      exact h _ ((lookup_eq_some_iff_mem hms).mp hv) (fun hmask => hp (redacted_key.mpr (.inl hmask))) p j
        (fun hr => hp (redacted_key.mpr (.inr hr))) hj
    · cases hj

/-! ## Through the Go value -/

theorem text_goString (t : List CodePoint) : text (goString t) = t.map CodePoint.toChar := text_encodeRunes _

theorem scalar_iff {t : List CodePoint} : Scalar t ↔ (text (goString t)).map CodePoint.scalar = t := by
  rw [text_goString, List.map_map]
  constructor
  · intro h
    refine (List.map_congr_left fun c hc => ?_).trans (List.map_id t)
    obtain ⟨a, rfl⟩ := h c hc
    rfl
  · intro h c hc
    rw [← h] at hc
    obtain ⟨c', -, rfl⟩ := List.mem_map.mp hc
    exact ⟨_, rfl⟩

theorem decode_array (vs : List Doc) : decode (.array vs) = .array (vs.map decode) := by
  rw [decode, map_array, normalize_array, List.map_map]
  rfl

theorem decode_object (ms : List (List CodePoint × Doc)) :
    decode (.object ms) = .object (setAll (ms.map fun m => (goString m.1, decode m.2))) := by
  rw [decode, map_object, normalize_object, List.map_map]
  rfl

theorem image_array (vs : List Value) : image (.array vs) = .array (vs.map image) := map_array _ _ vs

theorem image_object (ms : List (Bytes × Value)) :
    image (.object ms) = .object (ms.map fun m => ((text m.1).map .scalar, image m.2)) := map_object _ _ ms

def hiddenMember (mask : Bytes) (s : Bytes → Bool) (paths : List (List Bytes)) (m : List CodePoint × Doc) : Value :=
  if Masked s paths (goString m.1) then .string mask
  else hide mask s (decode m.2) (paths.filterMap (behindKey (goString m.1)))

def written (ms : List (Bytes × Value)) : List (List CodePoint × Doc) :=
  ms.map fun m => ((text m.1).map .scalar, image m.2)

theorem image_hide_decode (ms : List (List CodePoint × Doc)) : image (hide mask s (decode (.object ms)) paths) =
    .object (written (setAll (ms.map fun m => (goString m.1, hiddenMember mask s paths m)))) := by
  rw [decode_object, hide_object, image_object, map_setAll fun k v =>
    if Masked s paths k then .string mask else hide mask s v (paths.filterMap (behindKey k)), List.map_map]
  rfl

theorem written_perm {f : List CodePoint × Doc → Value} (hms : (keys ms).Nodup)
    (hscalar : ∀ k ∈ keys ms, Scalar k) :
    (written (setAll (ms.map fun m => (goString m.1, f m)))).Perm (ms.map fun m => (m.1, image (f m))) := by
  have hinj : ∀ k ∈ keys ms, ∀ k' ∈ keys ms, goString k = goString k' → k = k' := by
    intro k hk k' hk' h
    rw [← scalar_iff.mp (hscalar k hk), h, scalar_iff.mp (hscalar k' hk')]
  have hkeys : keys (ms.map fun m => (goString m.1, f m)) = (keys ms).map goString := by
    rw [keys, keys, List.map_map, List.map_map]
    rfl
  have hnodup : (keys (ms.map fun m => (goString m.1, f m))).Nodup := by
    rw [hkeys]
    exact List.Nodup.map_on hinj hms
  have hperm := (setAll_perm hnodup).map fun m : Bytes × Value => ((text m.1).map CodePoint.scalar, image m.2)
  refine hperm.trans (.of_eq ?_)
  rw [List.map_map]
  refine List.map_congr_left fun m hm => ?_
  dsimp only [Function.comp_apply]
  rw [scalar_iff.mp (hscalar m.1 (List.mem_map_of_mem hm))]

/-- What is written after redaction is the document but for redacted positions, if and only if what is
not redacted survives. -/
theorem frame_iff_survives (d : Doc) : d.distinct → ∀ paths,
    Frame s paths d (image (hide mask s (decode d) paths)) ↔ Survives s paths d := by
  induction d using ind with
  | null => exact fun _ _ => frame_iff_survives_leaf leaf_null leaf_null Iff.rfl
  | bool b => exact fun _ _ => frame_iff_survives_leaf (leaf_bool b) (leaf_bool b) (iff_of_true rfl trivial)
  | number x =>
    intro _ paths
    refine frame_iff_survives_leaf (leaf_number x) (leaf_number _) ?_
    show x.value = (reread (toFloat x)).value ↔ (toFloat x).shortest.value = x.value
    rw [value_reread, eq_comm]
  | string t => exact fun _ _ => frame_iff_survives_leaf (leaf_string t) (leaf_string _) (eq_comm.trans scalar_iff.symm)
  | array vs ih =>
    intro hd paths
    have hd := distinct_array.mp hd
    rw [decode_array, hide_array, image_array, List.map_map, List.map_map, frame_array, survives_array]
    exact forall₂_congr fun v hv => ih v hv (hd v hv) _
  | object ms ih =>
    intro hd paths
    obtain ⟨hms, hd⟩ := distinct_object.mp hd
    rw [image_hide_decode, survives_object hms]
    by_cases hscalar : ∀ k ∈ keys ms, Scalar k
    · rw [frame_object hms (written_perm hms hscalar)]
      refine (forall₃_congr fun m hm hmask => ?_).trans (and_iff_right hscalar).symm
      rw [hiddenMember, if_neg hmask]
      exact ih m hm (hd m hm) _
    · refine iff_of_false (fun h => hscalar fun k hk => ?_) fun h => hscalar h.1
      -- every key that is written is text
      have hmem : k ∈ keys (written _) := (sameNode_of_frame h).mem_iff.mp hk
      obtain ⟨m', hm', rfl⟩ := List.mem_map.mp hmem
      obtain ⟨m, -, rfl⟩ := List.mem_map.mp hm'
      exact fun c hc => by
        obtain ⟨a, -, rfl⟩ := List.mem_map.mp hc
        exact ⟨a, rfl⟩

/-! ## The output -/

theorem parse_output {cfg : Config} {raw out : Bytes} (hd : parse raw = some d)
    (hok : parseAndRedactJSON raw cfg = .ok out) :
    parse out = some (image (hide cfg.maskOrDefault (sensitive cfg) (decode d) cfg.paths)) := by
  unfold parseAndRedactJSON at hok
  split at hok
  · rename_i hraw
    rw [hraw] at hd
    cases hd
  · split at hok <;> cases hok
    rename_i v hv
    obtain ⟨e, he, -, rfl⟩ := parse_of_unmarshal hv
    obtain rfl : d = e := Option.some_inj.mp (hd.symm.trans he)
    rw [parse_marshal, redact_eq]

/-- The output for a document with different keys in each object is the document but for redacted
positions, if and only if what is not redacted survives in a Go value. -/
theorem redaction_frame (cfg : Config) {raw out : Bytes} {d : Doc} (hd : parse raw = some d) (hdistinct : d.distinct)
    (hok : parseAndRedactJSON raw cfg = .ok out) :
    ∃ d', parse out = some d' ∧ (Frame (sensitive cfg) cfg.paths d d' ↔ Survives (sensitive cfg) cfg.paths d) :=
  ⟨_, parse_output hd hok, frame_iff_survives d hdistinct cfg.paths⟩

def defaults : Config := ⟨[], [], []⟩

def priceText : Bytes := utf8 "\x7b\"price\":0.1,\"token\":\"abc\"\x7d"

def priceDoc : Doc :=
  .object [(codePoints "price", .number ⟨false, 1, -1⟩), (codePoints "token", .string (codePoints "abc"))]

theorem price_survives : Survives (sensitive defaults) defaults.paths priceDoc := by
  have hprice : (toFloat ⟨false, 1, -1⟩).shortest = ⟨false, 1, -1⟩ := by decide +kernel
  have htext : ∀ t, Scalar (codePoints t) := by
    intro t c hc
    obtain ⟨a, -, rfl⟩ := List.mem_map.mp hc
    exact ⟨a, rfl⟩
  refine (survives_object (by decide +kernel)).mpr ⟨?_, ?_⟩
  · exact List.forall_mem_cons.mpr ⟨htext _, List.forall_mem_cons.mpr ⟨htext _, nofun⟩⟩
  · refine List.forall_mem_cons.mpr ⟨fun _ => ?_, List.forall_mem_cons.mpr ⟨fun _ => ?_, nofun⟩⟩
    · exact (survives_leaf (leaf_number _)).mpr (congrArg Decimal.value hprice)
    · exact (survives_leaf (leaf_string _)).mpr (htext _)

theorem redaction_frame_price : ∃ out d', parseAndRedactJSON priceText defaults = .ok out ∧ parse out = some d' ∧
    Frame (sensitive defaults) defaults.paths priceDoc d' := by
  have hd : parse priceText = some priceDoc := by decide +kernel
  have hu : (unmarshal priceText).isOk := by decide +kernel
  obtain ⟨_, _, hv⟩ := decoded_of_isOk hu
  have hok := parseAndRedactJSON_ok defaults hv
  obtain ⟨d', hd', hframe⟩ := redaction_frame defaults hd (by decide +kernel) hok
  exact ⟨_, d', hok, hd', hframe.mpr price_survives⟩

def largeText : Bytes := utf8 "\x7b\"n\":9007199254740993\x7d"

theorem redaction_changes_number : ∃ out d d', parse largeText = some d ∧ d.distinct ∧
    parseAndRedactJSON largeText defaults = .ok out ∧ parse out = some d' ∧
    ¬ Frame (sensitive defaults) defaults.paths d d' := by
  refine ⟨utf8 "\x7b\"n\":9007199254740992\x7d", .object [(codePoints "n", .number ⟨false, 9007199254740993, 0⟩)],
    .object [(codePoints "n", .number ⟨false, 9007199254740992, 0⟩)], by decide +kernel, by decide +kernel,
    by decide +kernel, by decide +kernel, fun h => ?_⟩
  have hkey : ¬ Redacted (sensitive defaults) defaults.paths [.key (goString (codePoints "n"))] := by
    rw [redacted_key]
    exact not_or.mpr ⟨by decide +kernel, not_redacted_nil⟩
  have hnumber : SameNode (.number ⟨false, 9007199254740993, 0⟩) (.number ⟨false, 9007199254740992, 0⟩) :=
    Option.rel_some_some.mp (h [.key (codePoints "n")] hkey)
  norm_num [SameNode, Decimal.value] at hnumber

end Csar.Proof.JsonRedact
