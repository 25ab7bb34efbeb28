import CsarCore.Proof.JsonRedact.Frame

/-!
# What one path redacts

`RedactPath` masks the positions that the path leads to with its last element as a key
(`addresses_iff`): a `*` at the end is not any key. `redactPath_addressed`,
`redactPath_kept` and `redactPath_reported` are what the walk does there, elsewhere and
returns; so `redactPath_exact_iff`.
-/

namespace Csar.Proof.JsonRedact

open Csar.Json Impl.JsonRedact Csar.Impl Spec.JsonRedact

variable {mask : Bytes} {s : Bytes → Bool} {paths : List (List Bytes)} {path rest : List Bytes}
  {key k : Bytes} {i : Nat} {p q : List (Step Bytes)} {v : Value}

/-! ## Paths and positions -/

theorem matches_nil_iff : Matches [] p ↔ p = [] := by
  cases p with
  | nil => exact iff_of_true trivial rfl
  | cons st p => exact iff_of_false id (List.cons_ne_nil st p)

theorem matches_key : Matches (key :: rest) (.key k :: p) ↔ (key = star ∨ key = k) ∧ Matches rest p := Iff.rfl

theorem matches_index : Matches (key :: rest) (.index i :: p) ↔ Matches (behindElement (key :: rest)) p := Iff.rfl

theorem ne_nil_of_matches (h : Matches (key :: rest) p) : p ≠ [] := by
  intro hp
  rw [hp] at h
  exact h

theorem matches_antichain : ∀ {q p : List (Step Bytes)} {path : List Bytes},
    Matches path q → Matches path p → q <+: p → q = p := by
  intro q
  induction q with
  | nil =>
    intro p path hq hp _
    cases path with
    | nil => exact (matches_nil_iff.mp hp).symm
    | cons key rest => exact hq.elim
  | cons st q ih =>
    intro p path hq hp hpre
    obtain ⟨p, rfl⟩ : ∃ p', p = st :: p' := by
      obtain ⟨t, rfl⟩ := hpre
      exact ⟨q ++ t, rfl⟩
    have hpre' := (List.cons_prefix_cons.mp hpre).2
    cases path with
    | nil => exact hq.elim
    | cons key rest =>
      cases st with
      | key k => rw [ih hq.2 hp.2 hpre']
      | index i => rw [ih (matches_index.mp hq) (matches_index.mp hp) hpre']

theorem behindKey_last (k key : Bytes) : behindKey k [key] = none := by simp [behindKey]

theorem getLast?_behindElement (h : behindElement path ≠ []) : (behindElement path).getLast? = path.getLast? := by
  cases path with
  | nil => rfl
  | cons key rest =>
    rw [behindElement] at h ⊢
    split
    · rename_i hkey
      rw [if_pos hkey] at h
      exact (List.getLast?_cons_of_ne_nil h).symm
    · rfl

/-- The code masks where a path comes by the key that it ends with. -/
theorem addresses_iff : ∀ {p : List (Step Bytes)} {path : List Bytes}, path ≠ [] →
    (Addresses path p ↔ Matches path p ∧ EndsNamed path p) := by
  intro p
  induction p with
  | nil =>
    intro path hne
    obtain ⟨key, rest, rfl⟩ := List.exists_cons_of_ne_nil hne
    exact iff_of_false not_addresses_nil fun h => h.1
  | cons st p ih =>
    intro path hne
    obtain ⟨key, rest, rfl⟩ := List.exists_cons_of_ne_nil hne
    cases st with
    | key k =>
      rw [addresses_key, matches_key]
      by_cases hrest : rest = []
      · subst hrest
        simp only [behindKey_last, reduceCtorEq, false_and, exists_false, or_false, matches_nil_iff, EndsNamed]
        constructor
        · rintro ⟨h, rfl⟩
          cases h
          exact ⟨⟨.inr rfl, rfl⟩, rfl⟩
        · rintro ⟨⟨-, rfl⟩, h⟩
          simp only [List.getLast?_singleton, Option.map_some, Option.some_inj, Step.key.injEq] at h
          exact ⟨by rw [h], rfl⟩
      · have hlast : ∀ hp : p ≠ [], EndsNamed (key :: rest) (.key k :: p) ↔ EndsNamed rest p := by
          intro hp
          rw [EndsNamed, EndsNamed, List.getLast?_cons_of_ne_nil hp, List.getLast?_cons_of_ne_nil hrest]
        constructor
        · rintro (⟨h, -⟩ | ⟨rest', h, ha⟩)
          · cases h
            exact absurd rfl hrest
          · rw [behindKey] at h
            split at h <;> cases h
            rename_i hkey
            have ha := (ih hrest).mp ha
            obtain ⟨key', rest', rfl⟩ := List.exists_cons_of_ne_nil hrest
            exact ⟨⟨hkey.2, ha.1⟩, (hlast (ne_nil_of_matches ha.1)).mpr ha.2⟩
        · rintro ⟨⟨hkey, hm⟩, hend⟩
          refine .inr ⟨rest, if_pos ⟨hrest, hkey⟩, (ih hrest).mpr ⟨hm, ?_⟩⟩
          obtain ⟨key', rest', rfl⟩ := List.exists_cons_of_ne_nil hrest
          exact (hlast (ne_nil_of_matches hm)).mp hend
    | index i =>
      rw [addresses_index, matches_index]
      by_cases hb : behindElement (key :: rest) = []
      · rw [hb, matches_nil_iff]
        refine iff_of_false (fun h => path_ne_nil h rfl) ?_
        rintro ⟨rfl, h⟩
        rw [EndsNamed, List.getLast?_singleton] at h
        cases hl : (key :: rest).getLast? with
        | none | some l => rw [hl] at h; cases h
      · rw [ih hb]
        refine and_congr_right fun hm => ?_
        have hp : p ≠ [] := by
          obtain ⟨key', rest', he⟩ := List.exists_cons_of_ne_nil hb
          rw [he] at hm
          exact ne_nil_of_matches hm
        rw [EndsNamed, EndsNamed, List.getLast?_cons_of_ne_nil hp, getLast?_behindElement hb]

theorem endsNamed_of_matches {l : Bytes} (hl : l ≠ star) : ∀ {p : List (Step Bytes)} {path : List Bytes},
    path.getLast? = some l → Matches path p → EndsNamed path p := by
  intro p
  induction p with
  | nil =>
    intro path hlast hm
    cases path with
    | nil => cases hlast
    | cons key rest => exact hm.elim
  | cons st p ih =>
    intro path hlast hm
    cases path with
    | nil => exact hm.elim
    | cons key rest =>
      cases st with
      | key k =>
        obtain ⟨hkey, hm⟩ := hm
        cases rest with
        | nil =>
          rw [List.getLast?_singleton, Option.some_inj] at hlast
          rw [matches_nil_iff.mp hm, ← hkey.resolve_left fun h => hl (hlast.symm.trans h)]
          rfl
        | cons key' rest =>
          rw [List.getLast?_cons_cons] at hlast
          rw [EndsNamed, List.getLast?_cons_of_ne_nil (ne_nil_of_matches hm), List.getLast?_cons_cons]
          exact ih hlast hm
      | index i =>
        have hm := matches_index.mp hm
        have hb : behindElement (key :: rest) ≠ [] := by
          rw [behindElement]
          split
          · rename_i hkey
            rintro rfl
            rw [List.getLast?_singleton, Option.some_inj] at hlast
            exact hl (hlast.symm.trans hkey)
          · exact List.cons_ne_nil key rest
        have hend := ih ((getLast?_behindElement hb).trans hlast) hm
        obtain ⟨key', rest', he⟩ := List.exists_cons_of_ne_nil hb
        have hp : p ≠ [] := ne_nil_of_matches (he ▸ hm)
        rw [EndsNamed, List.getLast?_cons_of_ne_nil hp, ← getLast?_behindElement hb]
        exact hend

/-! ## What the walk does -/

theorem get?_none_below {v : Value} (hpre : q <+: p) (h : v.get? q = none) : v.get? p = none := by
  obtain ⟨t, rfl⟩ := hpre
  rw [get?_append, h]
  rfl

/-- What the walk makes of a value one step below. -/
def hideBelow (mask : Bytes) (s : Bytes → Bool) (paths : List (List Bytes)) : Step Bytes → Value → Value
  | .key k, v => if Masked s paths k then .string mask else hide mask s v (paths.filterMap (behindKey k))
  | .index _, v => hide mask s v (paths.map behindElement)

theorem child?_hide (v : Value) (st : Step Bytes) :
    (hide mask s v paths).child? st = (v.child? st).map (hideBelow mask s paths st) := by
  cases v with
  | null | bool | number | string => rfl
  | array vs =>
    rw [hide_array]
    cases st with
    | key k => rfl
    | index i => exact List.getElem?_map
  | object ms =>
    rw [hide_object]
    cases st with
    | key k => exact lookup_map (fun k => hideBelow mask s paths (.key k)) ms k
    | index i => rfl

theorem root_hide (v : Value) (paths : List (List Bytes)) : root (hide mask s v paths) = root v := by
  cases v with
  | null | bool | number | string => rfl
  | array vs =>
    rw [hide_array, root, root, List.map_map]
    rfl
  | object ms =>
    rw [hide_object, root, root, List.map_map]
    rfl

theorem hide_kept (p : List (Step Bytes)) : ∀ (v : Value) (paths : List (List Bytes)), ¬ Redacted s paths p →
    ((hide mask s v paths).get? p).map root = (v.get? p).map root := by
  induction p with
  | nil =>
    intro v paths _
    exact congrArg some (root_hide v paths)
  | cons st p ih =>
    intro v paths hp
    rw [get?_cons, get?_cons, child?_hide, Option.bind_map]
    cases v.child? st with
    | none => rfl
    | some v =>
      cases st with
      | index i => exact ih v _ fun h => hp (redacted_index.mpr h)
      | key k =>
        rw [Option.bind_some, Function.comp_apply, hideBelow, if_neg fun h => hp (redacted_key.mpr (.inl h))]
        exact ih v _ fun h => hp (redacted_key.mpr (.inr h))

theorem redactPath_kept (h : ¬ Covers path p) :
    ((redactPath mask path v).1.get? p).map root = (v.get? p).map root := by
  rw [redactPath_fst]
  refine hide_kept p v [path] ?_
  rintro (⟨path', hmem, hc⟩ | ⟨k, -, hk⟩)
  · rw [List.mem_singleton.mp hmem] at hc
    exact h hc
  · cases hk

/-- Where the path leads by its last key, the mask replaces what was there. -/
theorem redactPath_addressed (p : List (Step Bytes)) : ∀ (v : Value) (path : List Bytes), Addresses path p →
    (redactPath mask path v).1.get? p = (v.get? p).map fun _ => .string mask := by
  induction p with
  | nil => exact fun _ _ h => absurd h not_addresses_nil
  | cons st p ih =>
    intro v path h
    rw [redactPath_fst, get?_cons, get?_cons, child?_hide, Option.bind_map]
    cases v.child? st with
    | none => rfl
    | some v =>
      rw [Option.bind_some, Option.bind_some, Function.comp_apply]
      cases st with
      | index i =>
        have := ih v _ (addresses_index.mp h)
        rwa [redactPath_fst] at this
      | key k =>
        rw [hideBelow]
        rcases addresses_key.mp h with ⟨rfl, rfl⟩ | ⟨rest, hrest, ha⟩
        · rw [if_pos (.inr List.mem_cons_self)]
          rfl
        · have hmasked : ¬ Masked (fun _ => false) [path] k := by
            rintro (h | h)
            · cases h
            · rw [← List.mem_singleton.mp h] at hrest
              cases hrest
          have := ih v rest ha
          rw [redactPath_fst] at this
          rw [if_neg hmasked, List.filterMap_cons_some hrest]
          exact this

/-! ## What the walk returns -/

theorem redactElements_snd (path : List Bytes) (vs : List Value) :
    (redactElements mask path vs).2 = vs.any fun v => (redactPath mask path v).2 := by
  induction vs with
  | nil => rfl
  | cons v vs ih => rw [redactElements, List.any_cons, ← ih]

theorem redactMembers_snd (p : Bytes → Bool) (path : List Bytes) (ms : List (Bytes × Value)) :
    (redactMembers mask p path ms).2 = ms.any fun m => p m.1 && (redactPath mask path m.2).2 := by
  induction ms with
  | nil => rfl
  | cons m ms ih =>
    rw [redactMembers, List.any_cons, ← ih]
    split
    · rename_i h
      rw [h, Bool.true_and]
    · rename_i h
      rw [Bool.eq_false_iff.mpr h, Bool.false_and, Bool.false_or]

def Hit (path : List Bytes) (v : Value) : Prop := ∃ p, Addresses path p ∧ (v.get? p).isSome

theorem hit_array {vs : List Value} : Hit path (.array vs) ↔ ∃ v ∈ vs, Hit (behindElement path) v := by
  constructor
  · rintro ⟨p, ha, hs⟩
    rcases p with _ | ⟨k | i, p⟩
    · exact absurd ha not_addresses_nil
    · cases hs
    · rw [get?_index_array] at hs
      cases hi : vs[i]? with
      | none =>
        rw [hi] at hs
        cases hs
      | some v =>
        rw [hi] at hs
        exact ⟨v, List.mem_of_getElem? hi, p, addresses_index.mp ha, hs⟩
  · rintro ⟨v, hv, p, ha, hs⟩
    obtain ⟨i, hi⟩ := List.mem_iff_getElem?.mp hv
    refine ⟨.index i :: p, addresses_index.mpr ha, ?_⟩
    rw [get?_index_array, hi]
    exact hs

theorem hit_object {ms : List (Bytes × Value)} (hms : (keys ms).Nodup) : Hit path (.object ms) ↔
    ∃ m ∈ ms, path = [m.1] ∨ ∃ rest, behindKey m.1 path = some rest ∧ Hit rest m.2 := by
  constructor
  · rintro ⟨p, ha, hs⟩
    rcases p with _ | ⟨k | i, p⟩
    · exact absurd ha not_addresses_nil
    · rw [get?_key_object] at hs
      cases hk : ms.lookup k with
      | none =>
        rw [hk] at hs
        cases hs
      | some v =>
        rw [hk] at hs
        refine ⟨(k, v), (lookup_eq_some_iff_mem hms).mp hk, ?_⟩
        rcases addresses_key.mp ha with ⟨rfl, -⟩ | ⟨rest, hrest, ha⟩
        · exact .inl rfl
        · exact .inr ⟨rest, hrest, p, ha, hs⟩
    · cases hs
  · rintro ⟨m, hm, rfl | ⟨rest, hrest, p, ha, hs⟩⟩
    · refine ⟨[.key m.1], .last, ?_⟩
      rw [get?_key_object, (lookup_eq_some_iff_mem hms).mpr hm]
      rfl
    · refine ⟨.key m.1 :: p, addresses_key.mpr (.inr ⟨rest, hrest, ha⟩), ?_⟩
      rw [get?_key_object, (lookup_eq_some_iff_mem hms).mpr hm]
      exact hs

theorem redactPath_reported (v : Value) : v.distinct → ∀ path, ((redactPath mask path v).2 = true ↔ Hit path v) := by
  have hleaf : ∀ (v : Value) (path : List Bytes), (∀ st p, v.get? (st :: p) = none) → ¬ Hit path v := by
    rintro v path hv ⟨p, ha, hs⟩
    cases p with
    | nil => exact not_addresses_nil ha
    | cons st p =>
      rw [hv] at hs
      cases hs
  induction v using ind with
  | null | bool | number | string =>
    intro _ path
    refine iff_of_false ?_ (hleaf _ path fun st p => by cases st <;> rfl)
    cases path <;> exact Bool.false_ne_true
  | array vs ih =>
    intro hd path
    rw [hit_array]
    cases path with
    | nil =>
      refine iff_of_false Bool.false_ne_true ?_
      rintro ⟨v, -, p, ha, -⟩
      exact path_ne_nil ha rfl
    | cons key rest =>
      rw [redactPath]
      dsimp only
      rw [redactElements_snd, List.any_eq_true]
      exact exists_congr fun v => and_congr_right fun hv => ih v hv (distinct_array.mp hd v hv) _
  | object ms ih =>
    intro hd path
    obtain ⟨hnodup, hd⟩ := distinct_object.mp hd
    rw [hit_object hnodup]
    cases path with
    | nil =>
      refine iff_of_false Bool.false_ne_true ?_
      rintro ⟨m, -, h | ⟨rest, h, -⟩⟩ <;> cases h
    | cons key rest =>
      rw [redactPath]
      by_cases hrest : rest = []
      · subst hrest
        simp only [behindKey_last, reduceCtorEq, false_and, exists_false, or_false, List.cons.injEq, and_true, if_true]
        rw [keys]
        split
        · rename_i h
          obtain ⟨m, hm, he⟩ := List.mem_map.mp h
          exact iff_of_true rfl ⟨m, hm, he.symm⟩
        · rename_i h
          refine iff_of_false Bool.false_ne_true ?_
          rintro ⟨m, hm, he⟩
          exact h (List.mem_map.mpr ⟨m, hm, he.symm⟩)
      · rw [if_neg hrest]
        dsimp only
        rw [redactMembers_snd, List.any_eq_true]
        refine exists_congr fun m => and_congr_right fun hm => ?_
        rw [Bool.and_eq_true, decide_eq_true_eq, ih m hm (hd m hm)]
        constructor
        · rintro ⟨hk, h⟩
          exact .inr ⟨rest, if_pos ⟨hrest, hk.imp_right Eq.symm⟩, h⟩
        · rintro (h | ⟨rest', h, hh⟩)
          · cases h
            exact absurd rfl hrest
          · rw [behindKey] at h
            split at h <;> cases h
            rename_i hk
            exact ⟨hk.2.imp_right Eq.symm, hh⟩

/-! ## Exactness -/

theorem eq_string_of_root {o : Option Value} (h : o.map root = some (.string mask)) : o = some (.string mask) := by
  cases o with
  | none => cases h
  | some v =>
    cases v with
    | null | bool | number | string => exact h
    | array | object => cases h

theorem not_covers_of_matches (hne : path ≠ []) (hm : Matches path p) (hend : ¬ EndsNamed path p) : ¬ Covers path p := by
  rintro ⟨q, hq, ha⟩
  have ha := (addresses_iff hne).mp ha
  rw [matches_antichain ha.1 hm hq] at ha
  exact hend ha.2

/-- Redacting a path puts the mask at the positions it addresses, changes nothing else and reports
whether there are any, exactly if these end with the path's last element as a key (or hold the mask
already, next to one that does). -/
theorem redactPath_exact_iff (mask key : Bytes) (rest : List Bytes) {v : Value} (hv : v.distinct) :
    RedactsExactly mask (key :: rest) v ↔ OnlyNamed mask (key :: rest) v := by
  have hne : key :: rest ≠ [] := List.cons_ne_nil key rest
  have hreported : (redactPath mask (key :: rest) v).2 = true ↔ Hit (key :: rest) v := redactPath_reported v hv _
  constructor
  · intro h
    constructor
    · intro p hp
      refine or_iff_not_imp_left.mpr fun hend => eq_string_of_root ?_
      have hkept : ((redactPath mask (key :: rest) v).1.get? p).map root = (v.get? p).map root :=
        redactPath_kept (not_covers_of_matches hne hp.1 hend)
      rw [← hkept, h.masked p hp]
      rfl
    · intro p hp
      obtain ⟨q, ha, hs⟩ := hreported.mp (h.reported.mpr ⟨p, hp⟩)
      have ha := (addresses_iff hne).mp ha
      exact ⟨q, ⟨ha.1, hs⟩, ha.2⟩
  · intro h
    constructor
    · intro p hp
      by_cases hend : EndsNamed (key :: rest) p
      · rw [redactPath_addressed p v _ ((addresses_iff hne).mpr ⟨hp.1, hend⟩)]
        obtain ⟨w, hw⟩ := Option.isSome_iff_exists.mp hp.2
        rw [hw]
        rfl
      · refine eq_string_of_root ?_
        rw [redactPath_kept (not_covers_of_matches hne hp.1 hend), (h.named p hp).resolve_left hend]
        rfl
    · intro p hp
      by_cases hc : Covers (key :: rest) p
      · -- the path leads here in general, but not in this value
        obtain ⟨q, hq, ha⟩ := hc
        have hnone : v.get? q = none := by
          rw [← Option.not_isSome_iff_eq_none]
          exact fun hs => hp q hq ⟨((addresses_iff hne).mp ha).1, hs⟩
        have hnone' : (redactPath mask (key :: rest) v).1.get? q = none := by
          rw [redactPath_addressed q v _ ha, hnone]
          rfl
        rw [get?_none_below hq hnone, get?_none_below hq hnone']
      · exact redactPath_kept hc
    · rw [hreported]
      constructor
      · rintro ⟨p, ha, hs⟩
        exact ⟨p, ((addresses_iff hne).mp ha).1, hs⟩
      · rintro ⟨p, hp⟩
        obtain ⟨q, hq, hend⟩ := h.some_named p hp
        exact ⟨q, (addresses_iff hne).mpr ⟨hq.1, hend⟩, hq.2⟩

def users : Value := .object [(utf8 "users", .array [
  .object [(utf8 "email", .string (utf8 "a@x.com"))], .object [(utf8 "email", .string (utf8 "b@x.com"))]])]

theorem onlyNamed_of_last {l : Bytes} (hl : l ≠ star) (hlast : path.getLast? = some l) : OnlyNamed mask path v :=
  ⟨fun _ hp => .inl (endsNamed_of_matches hl hlast hp.1), fun p hp => ⟨p, hp, endsNamed_of_matches hl hlast hp.1⟩⟩

theorem redactPath_exact_emails :
    users.distinct = true ∧ RedactsExactly (utf8 "X") [utf8 "users", star, utf8 "email"] users := by
  have hdistinct : users.distinct = true := by decide +kernel
  have hlast : utf8 "email" ≠ star := by
    rw [JsonRedact.star, utf8_eq_encodeRunes, utf8_eq_encodeRunes]
    decide
  exact ⟨hdistinct, (redactPath_exact_iff _ _ _ hdistinct).mpr (onlyNamed_of_last hlast rfl)⟩

/-- Elements that a `*` at the end addresses are neither redacted nor reported. -/
theorem last_star_redacts_nothing :
    Addressed [utf8 "users", star] users [.key (utf8 "users"), .index 0] ∧
      redactPath (utf8 "X") [utf8 "users", star] users = (users, false) ∧
      ¬ RedactsExactly (utf8 "X") [utf8 "users", star] users := by
  have hrun : (users.get? [.key (utf8 "users"), .index 0]).isSome = true ∧
      redactPath (utf8 "X") [utf8 "users", star] users = (users, false) := by decide +kernel
  have hmatches : Matches [star] [.index 0] := by
    rw [matches_index, behindElement, if_pos rfl]
    trivial
  have haddr : Addressed [utf8 "users", star] users [.key (utf8 "users"), .index 0] :=
    ⟨⟨.inr rfl, hmatches⟩, hrun.1⟩
  refine ⟨haddr, hrun.2, fun h => ?_⟩
  have hreported := h.reported.mpr ⟨_, haddr⟩
  rw [hrun.2] at hreported
  cases hreported

end Csar.Proof.JsonRedact
