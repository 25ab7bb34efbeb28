import CsarCore.Framework.Json.Codec
import Mathlib.Data.List.Nodup

/-!
# Objects as maps

`setAll` makes a map of the members of an object: of two members for a key the last one
counts (`lookup_setAll`). `keyed` says that the keys of all objects of a value differ
and are valid UTF-8. What `json.Unmarshal` makes is `keyed` and not too deep to be
written and read again (`keyed_unmarshal`, `depth_unmarshal`).
-/

namespace Csar.Json

variable {ν ν' σ β : Type}

/-! ## Members of a map -/

theorem lookup_map {γ : Type} [BEq σ] [LawfulBEq σ] (f : σ → β → γ) (ms : List (σ × β)) (k : σ) :
    (ms.map fun m => (m.1, f m.1 m.2)).lookup k = (ms.lookup k).map (f k) := by
  induction ms with
  | nil => rfl
  | cons m ms ih =>
    obtain ⟨a, w⟩ := m
    rw [List.map_cons, List.lookup_cons, List.lookup_cons]
    by_cases hk : k = a
    · rw [hk, beq_self_eq_true]
      rfl
    · rw [beq_false_of_ne hk]
      exact ih

theorem mem_of_lookup [BEq σ] [LawfulBEq σ] {k : σ} {v : β} {ms : List (σ × β)} (h : ms.lookup k = some v) :
    (k, v) ∈ ms := by
  obtain ⟨l₁, l₂, rfl, -⟩ := List.lookup_eq_some_iff.mp h
  exact List.mem_append_right l₁ List.mem_cons_self

section Maps
variable [Ord σ]

variable {ms : List (σ × β)}

theorem mem_set {k : σ} {v : β} {m : σ × β} (h : m ∈ set k v ms) : m = (k, v) ∨ m ∈ ms := by
  induction ms with
  | nil => exact .inl (List.mem_singleton.mp h)
  | cons m' ms ih =>
    rw [set] at h
    split at h
    · exact List.mem_cons.mp h
    · exact (List.mem_cons.mp h).imp_right (List.mem_cons_of_mem m')
    · rcases List.mem_cons.mp h with rfl | h
      · exact .inr List.mem_cons_self
      · exact (ih h).imp_right (List.mem_cons_of_mem m')

theorem mem_setAll {m : σ × β} (h : m ∈ setAll ms) : m ∈ ms := by
  have hacc : ∀ acc : List (σ × β), m ∈ ms.foldl (fun acc m => set m.1 m.2 acc) acc → m ∈ acc ∨ m ∈ ms := by
    clear h
    induction ms with
    | nil => exact fun acc h => .inl h
    | cons m' ms ih =>
      intro acc h
      rcases ih _ h with h | h
      · rcases mem_set h with rfl | h
        · exact .inr List.mem_cons_self
        · exact .inl h
      · exact .inr (List.mem_cons_of_mem m' h)
  exact (hacc [] h).resolve_left List.not_mem_nil

variable [Std.LawfulEqOrd σ] [BEq σ] [LawfulBEq σ]

theorem lookup_set (k k' : σ) (v : β) (ms : List (σ × β)) : (set k v ms).lookup k' = ((k, v) :: ms).lookup k' := by
  induction ms with
  | nil => rfl
  | cons m ms ih =>
    obtain ⟨a, w⟩ := m
    rw [set]
    cases hc : compare k a with
    | lt => rfl
    | eq =>
      obtain rfl : k = a := Std.LawfulEqOrd.eq_of_compare hc
      simp only [List.lookup_cons]
      cases k' == k <;> rfl
    | gt =>
      have hne : k ≠ a := by
        rintro rfl
        rw [Std.LawfulEqOrd.compare_eq_iff_eq.mpr rfl] at hc
        cases hc
      simp only [List.lookup_cons, ih]
      by_cases hk : k' = k
      · have hm : (k' == a) = false := beq_false_of_ne (hk ▸ hne)
        rw [hm]
      · have hfalse : (k' == k) = false := beq_false_of_ne hk
        rw [hfalse]

theorem lookup_setAll (k : σ) (ms : List (σ × β)) : (setAll ms).lookup k = ms.reverse.lookup k := by
  have hacc : ∀ acc : List (σ × β), (ms.foldl (fun acc m => set m.1 m.2 acc) acc).lookup k =
      (ms.reverse ++ acc).lookup k := by
    induction ms with
    | nil => exact fun acc => rfl
    | cons m ms ih =>
      intro acc
      rw [List.foldl_cons, ih, List.lookup_append, lookup_set, ← List.lookup_append, List.reverse_cons,
        List.append_assoc]
      rfl
  rw [setAll, hacc, List.append_nil]

theorem lookup_setAll_of_nodup (h : (keys ms).Nodup) (k : σ) : (setAll ms).lookup k = ms.lookup k := by
  have hrev : (keys ms.reverse).Nodup := by
    rw [keys, List.map_reverse]
    exact List.nodup_reverse.mpr h
  refine (lookup_setAll k ms).trans (Option.ext fun v => ?_)
  rw [lookup_eq_some_iff_mem hrev, lookup_eq_some_iff_mem h, List.mem_reverse]

omit [BEq σ] [LawfulBEq σ] in
theorem pairwise_set [Std.TransOrd σ] {k : σ} {v : β} (h : (keys ms).Pairwise fun a b => compare a b = .lt) :
    (keys (set k v ms)).Pairwise fun a b => compare a b = .lt := by
  induction ms with
  | nil => simp [set, keys]
  | cons m ms ih =>
    obtain ⟨hm, hms⟩ := List.pairwise_cons.mp h
    rw [set]
    cases hc : compare k m.1 with
    | lt =>
      refine List.pairwise_cons.mpr ⟨fun b hb => ?_, h⟩
      rcases List.mem_cons.mp hb with rfl | hb
      · exact hc
      · exact Std.TransCmp.lt_trans hc (hm b hb)
    | eq =>
      have hk : k = m.1 := Std.LawfulEqOrd.eq_of_compare hc
      subst hk
      exact h
    | gt =>
      refine List.pairwise_cons.mpr ⟨fun b hb => ?_, ih hms⟩
      obtain ⟨m', hm', rfl⟩ := List.mem_map.mp hb
      rcases mem_set hm' with rfl | hm'
      · exact Std.OrientedCmp.lt_of_gt hc
      · exact hm _ (List.mem_map_of_mem hm')

omit [BEq σ] [LawfulBEq σ] in
theorem pairwise_setAll [Std.TransOrd σ] (ms : List (σ × β)) :
    (keys (setAll ms)).Pairwise fun a b => compare a b = .lt := by
  have hacc : ∀ acc : List (σ × β), (keys acc).Pairwise (fun a b => compare a b = .lt) →
      (keys (ms.foldl (fun acc m => set m.1 m.2 acc) acc)).Pairwise fun a b => compare a b = .lt := by
    induction ms with
    | nil => exact fun acc h => h
    | cons m ms ih => exact fun acc h => ih _ (pairwise_set h)
  exact hacc [] .nil

omit [BEq σ] [LawfulBEq σ] in
theorem nodup_of_pairwise {ks : List σ} (h : ks.Pairwise fun a b => compare a b = .lt) : ks.Nodup := by
  refine List.Pairwise.imp (fun {a b} hlt => ?_) h
  rintro rfl
  rw [Std.LawfulEqOrd.compare_eq_iff_eq.mpr rfl] at hlt
  cases hlt

omit [BEq σ] [LawfulBEq σ] in
theorem nodup_setAll [Std.TransOrd σ] (ms : List (σ × β)) : (keys (setAll ms)).Nodup :=
  nodup_of_pairwise (pairwise_setAll ms)

omit [BEq σ] [LawfulBEq σ] in
theorem setAll_of_pairwise [Std.TransOrd σ]
    (h : (keys ms).Pairwise fun a b => compare a b = .lt) : setAll ms = ms := by
  refine List.Perm.eq_of_pairwise (fun a b _ _ hab hba => ?_) (List.pairwise_map.mp (pairwise_setAll ms))
    (List.pairwise_map.mp h) (setAll_perm (nodup_of_pairwise h))
  rw [Std.OrientedCmp.gt_of_lt hab] at hba
  cases hba

omit [BEq σ] [LawfulBEq σ] in
theorem normalize_normalize [Std.TransOrd σ] (j : Json ν σ) : j.normalize.normalize = j.normalize := by
  induction j using ind with
  | null | bool | number | string => rfl
  | array vs ih =>
    rw [normalize_array, normalize_array, List.map_map]
    exact congrArg _ (List.map_congr_left ih)
  | object ms ih =>
    rw [normalize_object, normalize_object, map_setAll fun _ => normalize, List.map_map]
    have hms : (ms.map fun m => (m.1, m.2.normalize.normalize)) = ms.map fun m => (m.1, m.2.normalize) :=
      List.map_congr_left fun m hm => by rw [ih m hm]
    exact congrArg _ ((congrArg _ (congrArg _ hms)).trans (setAll_of_pairwise (pairwise_setAll _)))

end Maps

/-! ## Depth -/

variable {vs : List (Json ν σ)} {ms : List (Bytes × Json ν Bytes)} {j : Json ν Bytes} {raw : Bytes}
    {v : Value}

theorem depth_le_foldr {v : Json ν σ} (h : v ∈ vs) : depth v ≤ (vs.map depth).foldr max 0 := by
  induction vs with
  | nil => exact absurd h List.not_mem_nil
  | cons v' vs ih =>
    rcases List.mem_cons.mp h with rfl | h
    · exact Nat.le_max_left _ _
    · exact Nat.le_trans (ih h) (Nat.le_max_right _ _)

theorem depth_member {ms : List (σ × Json ν σ)} {m : σ × Json ν σ} (h : m ∈ ms) :
    depth m.2 + 1 ≤ depth (.object ms) := by
  have hmem : m.2 ∈ ms.map Prod.snd := List.mem_map_of_mem h
  have hle := depth_le_foldr hmem
  rw [List.map_map] at hle
  rw [depth_object]
  exact Nat.succ_le_succ hle

theorem depth_object_le_iff {ms : List (σ × Json ν σ)} {d : Nat} :
    depth (.object ms) ≤ d + 1 ↔ ∀ m ∈ ms, depth m.2 ≤ d := by
  refine ⟨fun h m hm => ?_, depth_object_le⟩
  have hm' := depth_member hm
  omega

theorem depth_element {v : Json ν σ} (h : v ∈ vs) : depth v + 1 ≤ depth (.array vs) := by
  rw [depth_array]
  exact Nat.succ_le_succ (depth_le_foldr h)

theorem depth_array_le {d : Nat} (h : ∀ v ∈ vs, depth v ≤ d) : depth (.array vs) ≤ d + 1 := by
  rw [depth_array]
  exact Nat.succ_le_succ (foldr_max_le (List.forall_mem_map.mpr h))

theorem depth_normalize_le [Ord σ] (j : Json ν σ) : depth (normalize j) ≤ depth j := by
  induction j using ind with
  | null | bool | number | string => exact Nat.le_refl _
  | array vs ih =>
    obtain ⟨d, hd⟩ : ∃ d, depth (.array vs) = d + 1 := ⟨_, depth_array vs⟩
    rw [normalize_array, hd]
    refine depth_array_le (List.forall_mem_map.mpr fun v hv => ?_)
    have hv' := depth_element hv
    have hle := ih v hv
    omega
  | object ms ih =>
    obtain ⟨d, hd⟩ : ∃ d, depth (.object ms) = d + 1 := ⟨_, depth_object ms⟩
    rw [normalize_object, hd]
    refine depth_object_le fun m hm => ?_
    obtain ⟨m', hm', rfl⟩ := List.mem_map.mp (mem_setAll hm)
    have hv := depth_member hm'
    have hle : depth (normalize m'.2) ≤ depth m'.2 := ih m' hm'
    exact Nat.le_trans hle (by omega)

/-! ## Keys -/

/-- The keys of every object differ and are valid UTF-8. -/
def keyed : Json ν Bytes → Bool :=
  fold ⟨true, fun _ => true, fun _ => true, fun _ => true, fun bs => bs.all id,
    fun ms => decide (keys ms).Nodup && ms.all fun m => validUtf8 m.1 && m.2⟩

@[simp] theorem keyed_array {vs : List (Json ν Bytes)} : keyed (.array vs) ↔ ∀ v ∈ vs, keyed v := by
  simp [keyed]

@[simp] theorem keyed_object : keyed (.object ms) ↔ (keys ms).Nodup ∧ ∀ m ∈ ms, validUtf8 m.1 ∧ keyed m.2 := by
  rw [keyed, fold_object]
  simp [keys, Function.comp_def]

theorem keyed_member {k : Bytes} {v : Json ν Bytes} (h : keyed (.object ms))
    (hk : ms.lookup k = some v) : keyed v := by
  obtain ⟨hnodup, hall⟩ := keyed_object.mp h
  exact (hall _ ((lookup_eq_some_iff_mem hnodup).mp hk)).2

theorem keyed_normalize (h : j.all (fun _ => true) validUtf8) : keyed j.normalize := by
  induction j using ind with
  | null | bool | number | string => rfl
  | array vs ih =>
    rw [normalize_array, keyed_array]
    exact List.forall_mem_map.mpr fun v hv => ih v hv (all_array.mp h v hv)
  | object ms ih =>
    rw [normalize_object, keyed_object]
    refine ⟨nodup_setAll _, fun m hm => ?_⟩
    obtain ⟨m', hm', rfl⟩ := List.mem_map.mp (mem_setAll hm)
    obtain ⟨hkey, hvalue⟩ := all_object.mp h m' hm'
    exact ⟨hkey, ih m' hm' hvalue⟩

theorem map_sanitize_object {f : ν → ν'} (h : keyed (.object ms)) :
    (Json.object ms).map f sanitize = .object (ms.map fun m => (m.1, m.2.map f sanitize)) := by
  rw [map_object]
  refine congrArg _ (List.map_congr_left fun m hm => ?_)
  rw [sanitize_of_valid ((keyed_object.mp h).2 m hm).1]

theorem keys_map {γ : Type} (f : σ → β → γ) (ms : List (σ × β)) : keys (ms.map fun m => (m.1, f m.1 m.2)) = keys ms := by
  rw [keys, List.map_map]
  rfl

theorem keyed_map {f : ν → ν'} (h : keyed j) : keyed (j.map f sanitize) := by
  induction j using ind with
  | null | bool | number | string => rfl
  | array vs ih =>
    rw [map_array, keyed_array]
    exact List.forall_mem_map.mpr fun v hv => ih v hv (keyed_array.mp h v hv)
  | object ms ih =>
    obtain ⟨hnodup, hall⟩ := keyed_object.mp h
    rw [map_sanitize_object h, keyed_object, keys_map (fun _ => map f sanitize) ms]
    refine ⟨hnodup, List.forall_mem_map.mpr fun m hm => ?_⟩
    exact ⟨(hall m hm).1, ih m hm (hall m hm).2⟩

/-! ## What is read -/

theorem all_normalize {p : ν → Bool} {q : Bytes → Bool} (h : j.all p q) : j.normalize.all p q := by
  induction j using ind with
  | null | bool | number | string => exact h
  | array vs ih =>
    rw [normalize_array, all_array]
    exact List.forall_mem_map.mpr fun v hv => ih v hv (all_array.mp h v hv)
  | object ms ih =>
    rw [normalize_object, all_object]
    intro m hm
    obtain ⟨m', hm', rfl⟩ := List.mem_map.mp (mem_setAll hm)
    obtain ⟨hkey, hvalue⟩ := all_object.mp h m' hm'
    exact ⟨hkey, ih m' hm' hvalue⟩

theorem all_sanitized (f : ν → ν') (j : Json ν Bytes) : (j.map f sanitize).all (fun _ => true) validUtf8 := by
  rw [all_map]
  exact all_of_forall (fun _ => rfl) (fun s => validUtf8_encodeRunes (text s)) j

theorem valid_unmarshal (h : unmarshal raw = .ok v) : v.all (fun _ => true) validUtf8 := by
  obtain ⟨d, -, -, rfl⟩ := parse_of_unmarshal h
  refine all_normalize ?_
  rw [all_map]
  exact all_of_forall (fun _ => rfl) (fun s => validUtf8_encodeRunes _) d

theorem normalize_unmarshal (h : unmarshal raw = .ok v) : v.normalize = v := by
  obtain ⟨d, -, -, rfl⟩ := parse_of_unmarshal h
  exact normalize_normalize _

theorem keyed_unmarshal (h : unmarshal raw = .ok v) : keyed v := by
  rw [← normalize_unmarshal h]
  exact keyed_normalize (valid_unmarshal h)

theorem depth_unmarshal (h : unmarshal raw = .ok v) : v.depth ≤ maxNestingDepth := by
  obtain ⟨d, hd, hrange, rfl⟩ := parse_of_unmarshal h
  have hdepth : d.depth ≤ maxNestingDepth := by
    refine Nat.not_lt.mp fun hlt => ?_
    rw [unmarshal, hd] at h
    dsimp only at h
    rw [if_pos hlt] at h
    cases h
  calc (decode d).depth ≤ (d.map toFloat goString).depth := depth_normalize_le _
    _ = d.depth := depth_map _ _ d
    _ ≤ maxNestingDepth := hdepth

end Csar.Json
