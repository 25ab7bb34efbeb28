import Mathlib.Data.List.Infix
import Mathlib.Data.List.Perm.Subperm

/-!
# Masking words, one after the other

What replacing words by a mask should give is a text in which a mark stands for every
word (`Marked`), filled with the mask at the end (`fill`). It gives that in any order
(`foldl_of_separate`) if the words do not overlap in the text (`Overlap`) and no word
that is still to be replaced is read across a mask (`Across`).
-/

namespace Csar.Scrub

variable {α : Type} {mask u v c' : List α} {us A : List (List α)} {t t' x : List α} {T T' : List (Option α)}

/-! ## Marks -/

/-- A text with a mark in place of the words, from left to right. -/
inductive Marked (us : List (List α)) : List α → List (Option α) → Prop
  | nil : Marked us [] []
  | hit {u t : List α} {T : List (Option α)} (hu : u ∈ us) (h : Marked us t T) : Marked us (u ++ t) (none :: T)
  | skip {c : α} {t : List α} {T : List (Option α)} (hu : ∀ u ∈ us, ¬ u <+: c :: t) (h : Marked us t T) :
    Marked us (c :: t) (some c :: T)

def fill (mask : List α) (T : List (Option α)) : List α := T.flatMap fun o => o.elim mask fun c => [c]

@[simp] theorem fill_nil : fill mask [] = [] := rfl

@[simp] theorem fill_none (T : List (Option α)) : fill mask (none :: T) = mask ++ fill mask T := rfl

@[simp] theorem fill_some (c : α) (T : List (Option α)) : fill mask (some c :: T) = c :: fill mask T := rfl

theorem fill_map_some (x : List α) (T : List (Option α)) : fill mask (x.map some ++ T) = x ++ fill mask T := by
  induction x with
  | nil => rfl
  | cons c x ih => rw [List.map_cons, List.cons_append, fill_some, ih, List.cons_append]

theorem marked_nil (t : List α) : Marked [] t (t.map some) := by
  induction t with
  | nil => exact .nil
  | cons c t ih => exact .skip (fun u hu => absurd hu List.not_mem_nil) ih

theorem marked_of_same_words (h : ∀ u, u ∈ us ↔ u ∈ A) (hm : Marked us t T) : Marked A t T := by
  induction hm with
  | nil => exact .nil
  | hit hu _ ih => exact .hit ((h _).mp hu) ih
  | skip hu _ ih => exact .skip (fun u hu' => hu u ((h u).mpr hu')) ih

/-! ## What is in the way -/

def Overlap (t u v : List α) : Prop := ∃ i j, u <+: t.drop i ∧ v <+: t.drop j ∧ i ≤ j ∧ j < i + u.length

/-- The word is read at a place that has a part of a mask. -/
def Across (mask v : List α) (T : List (Option α)) : Prop :=
  ∃ p q i, T = p ++ none :: q ∧ v <+: (fill mask T).drop i ∧ i < (fill mask p).length + mask.length ∧
    (fill mask p).length < i + v.length

/-- The words do not overlap, and none is read across the masks of those before it. -/
structure Separate (mask t : List α) (us : List (List α)) : Prop where
  disjoint : ∀ u ∈ us, ∀ v ∈ us, u ≠ v → ¬ Overlap t u v
  unread : ∀ v A, (v :: A).Subperm us → ∀ T, Marked A t T → ¬ Across mask v T

theorem overlap_append (x : List α) (h : Overlap t u v) : Overlap (x ++ t) u v := by
  obtain ⟨i, j, hu, hv, hle, hlt⟩ := h
  refine ⟨x.length + i, x.length + j, ?_, ?_, by omega, by omega⟩
  · rwa [← List.drop_drop, List.drop_left]
  · rwa [← List.drop_drop, List.drop_left]

theorem across_cons (o : Option α) (h : Across mask v T) : Across mask v (o :: T) := by
  obtain ⟨p, q, i, rfl, hv, hlt, hlt'⟩ := h
  have hfill : ∀ T, fill mask (o :: T) = fill mask [o] ++ fill mask T := fun T => by
    cases o with
    | none => rw [fill_none, fill_none, fill_nil, List.append_nil]
    | some c => rfl
  refine ⟨o :: p, q, (fill mask [o]).length + i, rfl, ?_, ?_, ?_⟩
  · rwa [hfill (p ++ none :: q), ← List.drop_drop, List.drop_left]
  · rw [hfill p, List.length_append]
    omega
  · rw [hfill p, List.length_append]
    omega

theorem not_across_map_some (x : List α) (h : ¬ Across mask v (x.map some ++ T)) : ¬ Across mask v T := by
  induction x with
  | nil => exact h
  | cons c x ih => exact ih fun h' => h (across_cons (some c) h')

/-! ## One word more -/

/-- What replacing a word in a text is, from left to right. -/
structure IsReplace (f : List α → List α) (old new : List α) : Prop where
  nil : f [] = []
  hit : ∀ t, f (old ++ t) = new ++ f t
  skip : ∀ c t, ¬ old <+: c :: t → f (c :: t) = c :: f t

variable {f : List α → List α}

theorem IsReplace.append (hf : IsReplace f u mask) : ∀ {x : List α},
    (∀ i < x.length, ¬ u <+: (x ++ t).drop i) → f (x ++ t) = x ++ f t := by
  intro x
  induction x with
  | nil => exact fun _ => rfl
  | cons c x ih =>
    intro h
    have hrest : ∀ i < x.length, ¬ u <+: (x ++ t).drop i := fun i hi => h (i + 1) (Nat.succ_lt_succ hi)
    rw [List.cons_append, hf.skip c (x ++ t) (h 0 (Nat.succ_pos _)), ih hrest, List.cons_append]

theorem Marked.append : ∀ {x : List α} {T : List (Option α)}, [] ∉ us →
    (∀ i < x.length, ∀ u ∈ us, ¬ u <+: (x ++ t).drop i) → Marked us (x ++ t) T →
    ∃ T', T = x.map some ++ T' ∧ Marked us t T' := by
  intro x
  induction x with
  | nil => exact fun {T} _ _ h => ⟨T, rfl, h⟩
  | cons c x ih =>
    intro T hne hstart h
    have h0 := hstart 0 (Nat.succ_pos _)
    rw [List.cons_append] at h h0
    generalize hs : c :: (x ++ t) = s at h
    cases h with
    | nil => cases hs
    | hit hu _ =>
      rw [List.drop_zero, hs] at h0
      exact absurd (List.prefix_append _ _) (h0 _ hu)
    | skip _ h =>
      cases hs
      obtain ⟨T', rfl, hT'⟩ := ih hne (fun i hi => hstart (i + 1) (Nat.succ_lt_succ hi)) h
      exact ⟨T', rfl, hT'⟩

/-- A word at the beginning of the masked text begins the text, or reaches into a mask. -/
theorem prefix_of_fill (hm : Marked us t T) : ∀ {v : List α}, v <+: fill mask T →
    v <+: t ∨ ∃ p q, T = p ++ none :: q ∧ (fill mask p).length < v.length := by
  induction hm with
  | nil => exact fun h => .inl h
  | @hit u t T hu h ih =>
    intro v hv
    cases v with
    | nil => exact .inl List.nil_prefix
    | cons c v => exact .inr ⟨[], T, rfl, Nat.succ_pos _⟩
  | @skip c t T hu h ih =>
    intro v hv
    cases v with
    | nil => exact .inl List.nil_prefix
    | cons c' v =>
      obtain ⟨rfl, hrest⟩ := List.cons_prefix_cons.mp hv
      rcases ih hrest with h | ⟨p, q, rfl, hlt⟩
      · exact .inl (List.cons_prefix_cons.mpr ⟨rfl, h⟩)
      · exact .inr ⟨some c' :: p, q, rfl, Nat.succ_lt_succ hlt⟩

theorem marked_cons (hmask : mask ≠ []) (hf : IsReplace f v mask) (hv : v ≠ []) (hA : [] ∉ A) (n : Nat) :
    ∀ {t : List α} {T : List (Option α)}, t.length ≤ n → Marked A t T → (∀ u ∈ A, v ≠ u → ¬ Overlap t v u) →
      ¬ Across mask v T → ∃ T', Marked (v :: A) t T' ∧ f (fill mask T) = fill mask T' := by
  induction n with
  | zero =>
    intro t T hn hm _ _
    rw [List.length_eq_zero_iff.mp (Nat.le_zero.mp hn)] at hm ⊢
    generalize hs : ([] : List α) = s at hm
    cases hm with
    | nil => exact ⟨[], .nil, hf.nil⟩
    | hit hu _ =>
      obtain ⟨rfl, -⟩ := List.append_eq_nil_iff.mp hs.symm
      exact absurd hu hA
    | skip => cases hs
  | succ n ih =>
    intro t T hn hm hov hac
    cases hm with
    | nil => exact ⟨[], .nil, hf.nil⟩
    | @hit u t T hu hm =>
      have hpos : 0 < u.length := List.length_pos_iff.mpr fun he => hA (he ▸ hu)
      have hlen : t.length ≤ n := by
        rw [List.length_append] at hn
        omega
      have hstart : ∀ i < mask.length, ¬ v <+: (mask ++ fill mask T).drop i := by
        intro i hi hpre
        refine hac ⟨[], T, i, rfl, hpre, ?_, ?_⟩
        · rwa [fill_nil, List.length_nil, Nat.zero_add]
        · have := List.length_pos_iff.mpr hv
          rw [fill_nil, List.length_nil]
          omega
      obtain ⟨T', hT', he⟩ := ih hlen hm (fun w hw hne h => hov w hw hne (overlap_append u h))
        fun h => hac (across_cons none h)
      refine ⟨none :: T', .hit (List.mem_cons_of_mem v hu) hT', ?_⟩
      rw [fill_none, hf.append hstart, he, fill_none]
    | @skip c t T hskip hm =>
      by_cases hpre : v <+: c :: t
      · -- the word is here, and no other one begins in it
        obtain ⟨t₂, ht₂⟩ := hpre
        have hm' : Marked A (v ++ t₂) (some c :: T) := ht₂ ▸ .skip hskip hm
        have hstart : ∀ i < v.length, ∀ u ∈ A, ¬ u <+: (v ++ t₂).drop i := by
          intro i hi u hu hpre
          by_cases hne : v = u
          · subst hne
            exact hskip v hu (ht₂ ▸ List.prefix_append v t₂)
          · refine hov u hu hne ⟨0, i, ?_, ht₂ ▸ hpre, Nat.zero_le i, by omega⟩
            rw [List.drop_zero]
            exact ⟨t₂, ht₂⟩
        obtain ⟨T₂, hT, hm₂⟩ := Marked.append hA hstart hm'
        have hlen : t₂.length ≤ n := by
          have hpos := List.length_pos_iff.mpr hv
          have hcount := congrArg List.length ht₂
          rw [List.length_append] at hcount
          omega
        rw [hT] at hac ⊢
        obtain ⟨T', hT', he⟩ := ih hlen hm₂ (fun w hw hne h => hov w hw hne (ht₂ ▸ overlap_append v h))
          (not_across_map_some v hac)
        refine ⟨none :: T', ht₂ ▸ .hit List.mem_cons_self hT', ?_⟩
        rw [fill_map_some, hf.hit, he, fill_none]
      · have hno : ¬ v <+: c :: fill mask T := by
          intro hfill
          rcases prefix_of_fill (.skip hskip hm) hfill with h | ⟨p, q, hT, hlt⟩
          · exact hpre h
          · have hpos := List.length_pos_iff.mpr hmask
            exact hac ⟨p, q, 0, hT, hfill, by omega, by omega⟩
        obtain ⟨T', hT', he⟩ := ih (Nat.le_of_succ_le_succ hn) hm
          (fun w hw hne h => hov w hw hne (overlap_append [c] h)) fun h => hac (across_cons (some c) h)
        refine ⟨some c :: T', .skip ?_ hT', ?_⟩
        · intro u hu
          rcases List.mem_cons.mp hu with rfl | hu
          · exact hpre
          · exact hskip u hu
        · rw [fill_some, hf.skip _ _ hno, he, fill_some]

/-! ## All words -/

theorem marked_unique (hne : [] ∉ us) (hm : Marked us t T) : ∀ {T' : List (Option α)},
    (∀ u ∈ us, ∀ v ∈ us, u ≠ v → ¬ Overlap t u v) → Marked us t T' → T = T' := by
  induction hm with
  | nil =>
    intro T' _ hm'
    generalize hs : ([] : List α) = s at hm'
    cases hm' with
    | nil => rfl
    | hit hu _ =>
      obtain ⟨rfl, -⟩ := List.append_eq_nil_iff.mp hs.symm
      exact absurd hu hne
    | skip => cases hs
  | @hit u t T hu hm ih =>
    intro T' hov hm'
    have hpos : 0 < u.length := List.length_pos_iff.mpr fun he => hne (he ▸ hu)
    generalize hs : u ++ t = s at hm' hov
    cases hm' with
    | nil => exact absurd (List.append_eq_nil_iff.mp hs).1 fun he => hne (he ▸ hu)
    | @hit u' t' T' hu' hm' =>
      have heq : u = u' := by
        by_contra hne'
        refine hov u hu u' hu' hne' ⟨0, 0, ?_, List.prefix_append u' t', Nat.le_refl 0, by omega⟩
        exact ⟨t, hs⟩
      subst heq
      cases List.append_cancel_left hs
      rw [ih (fun w hw w' hw' hne' h => hov w hw w' hw' hne' (overlap_append u h)) hm']
    | skip hskip _ => exact absurd ⟨t, hs⟩ (hskip u hu)
  | @skip c t T hskip hm ih =>
    intro T' hov hm'
    generalize hs : c :: t = s at hm' hov
    cases hm' with
    | nil => cases hs
    | @hit u' t' T' hu' _ =>
      rw [hs] at hskip
      exact absurd (List.prefix_append u' t') (hskip u' hu')
    | skip _ hm' =>
      cases hs
      rw [ih (fun w hw w' hw' hne' h => hov w hw w' hw' hne' (overlap_append [c] h)) hm']

variable {r : List α → List α → List α}

theorem foldl_marked (hmask : mask ≠ []) (hr : ∀ u ∈ us, IsReplace (r u) u mask) (hne : [] ∉ us)
    (hs : Separate mask t us) : ∀ (rest : List (List α)) {A : List (List α)} {T : List (Option α)},
      (rest.reverse ++ A).Subperm us → Marked A t T →
        ∃ T', Marked (rest.reverse ++ A) t T' ∧ rest.foldl (fun t u => r u t) (fill mask T) = fill mask T' := by
  intro rest
  induction rest with
  | nil => exact fun {A T} _ hm => ⟨T, hm, rfl⟩
  | cons v rest ih =>
    intro A T hsub hm
    rw [List.reverse_cons, List.append_assoc, List.singleton_append] at hsub ⊢
    have hvA : (v :: A).Subperm us := (List.sublist_append_right _ _).subperm.trans hsub
    have hv : v ∈ us := hvA.subset List.mem_cons_self
    have hA : ∀ u ∈ A, u ∈ us := fun u hu => hvA.subset (List.mem_cons_of_mem v hu)
    obtain ⟨T₁, hT₁, he⟩ := marked_cons hmask (hr v hv) (fun h => hne (h ▸ hv)) (fun h => hne (hA _ h)) t.length
      (Nat.le_refl _) hm (fun u hu h => hs.disjoint v hv u (hA u hu) h) (hs.unread v A hvA T hm)
    obtain ⟨T', hT', he'⟩ := ih hsub hT₁
    exact ⟨T', hT', by rw [List.foldl_cons, he, he']⟩

theorem foldl_of_separate (hmask : mask ≠ []) (hr : ∀ u ∈ us, IsReplace (r u) u mask) (hne : [] ∉ us)
    (hs : Separate mask t us) :
    ∃ T, Marked us t T ∧ ∀ vs : List (List α), vs.Perm us → vs.foldl (fun t u => r u t) t = fill mask T := by
  have hstart : fill mask (t.map some) = t := by
    have hall : fill mask (t.map some ++ []) = t ++ fill mask [] := fill_map_some t []
    rwa [List.append_nil, fill_nil, List.append_nil] at hall
  have hmarks : ∀ vs : List (List α), vs.Perm us →
      ∃ T, Marked us t T ∧ vs.foldl (fun t u => r u t) t = fill mask T := by
    intro vs hvs
    have hall : (vs.reverse ++ []).Perm us := by
      rw [List.append_nil]
      exact (List.reverse_perm vs).trans hvs
    obtain ⟨T, hT, he⟩ := foldl_marked hmask hr hne hs vs hall.subperm (marked_nil t)
    rw [hstart] at he
    exact ⟨T, marked_of_same_words (fun u => hall.mem_iff) hT, he⟩
  obtain ⟨T, hT, -⟩ := hmarks us (.refl us)
  refine ⟨T, hT, fun vs hvs => ?_⟩
  obtain ⟨T', hT', he⟩ := hmarks vs hvs
  rw [he, marked_unique hne hT' hs.disjoint hT]

/-! ## Words of different letters -/

theorem not_overlap_of_disjoint (hv : v ≠ []) (h : ∀ c ∈ u, c ∉ v) : ¬ Overlap t u v := by
  rintro ⟨i, j, hu, hv', hle, hlt⟩
  have hpos := List.length_pos_iff.mpr hv
  have hat := List.prefix_iff_getElem?.mp hv' 0 hpos
  have hat' := List.prefix_iff_getElem?.mp hu (j - i) (by omega)
  rw [List.getElem?_drop] at hat hat'
  have hj : i + (j - i) = j + 0 := by omega
  rw [hj, hat, Option.some_inj] at hat'
  exact h _ (List.getElem_mem _) (hat' ▸ List.getElem_mem _)

theorem not_across_of_disjoint (hmask : mask ≠ []) (hne : v ≠ []) (h : ∀ c ∈ v, c ∉ mask) : ¬ Across mask v T := by
  rintro ⟨p, q, i, rfl, hv, hlt, hlt'⟩
  have hpos := List.length_pos_iff.mpr hmask
  have hpos' := List.length_pos_iff.mpr hne
  have hfill : fill mask (p ++ none :: q) = fill mask p ++ (mask ++ fill mask q) := by
    rw [fill, List.flatMap_append]
    rfl
  -- a position that is in the word and in the mask
  obtain ⟨k, hik, hk, hk', hki⟩ : ∃ k, i ≤ k ∧ (fill mask p).length ≤ k ∧
      k < (fill mask p).length + mask.length ∧ k < i + v.length := by
    by_cases hle : i ≤ (fill mask p).length
    · exact ⟨(fill mask p).length, by omega, by omega, by omega, by omega⟩
    · exact ⟨i, by omega, by omega, by omega, by omega⟩
  have hat := List.prefix_iff_getElem?.mp hv (k - i) (by omega)
  rw [List.getElem?_drop, hfill, List.getElem?_append_right (by omega),
    List.getElem?_append_left (by omega), List.getElem?_eq_getElem (by omega), Option.some_inj] at hat
  exact h _ (List.getElem_mem _) (hat ▸ List.getElem_mem _)

end Csar.Scrub
