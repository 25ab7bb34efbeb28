import Mathlib.Algebra.BigOperators.Group.Finset.Sigma
import Mathlib.Algebra.GroupWithZero.Nat
import Mathlib.Algebra.Order.BigOperators.Group.Finset
import Mathlib.Logic.Relation

/-!
# Walks through a graph

A `tour` goes from a node to all its successors, and from each of them on, without
remembering where it has been: it returns just if no walk is as long as its calls may be
deep (`isSome_tour`), and then has made one visit for each walk (`length_tour`). In a
finite graph that is if there is no cycle, and in a tree there are no more walks than
nodes (`sum_count_le_size`).
-/

namespace Csar.Walk

variable {ι : Type} (next : ι → List ι)

def count : Nat → ι → Nat
  | 0, _ => 1
  | k + 1, p => ((next p).map (count k)).sum

def joined (f : ι → Option (List ι)) : List ι → Option (List ι)
  | [] => some []
  | q :: qs => (f q).bind fun l => (joined f qs).map (l ++ ·)

/-- With calls at most `n` deep; `none` if these do not suffice. -/
def tour : Nat → ι → Option (List ι)
  | 0, _ => none
  | n + 1, p => (joined (tour n) (next p)).map (p :: ·)

def Reach : ι → ι → Prop := Relation.ReflTransGen fun p q => q ∈ next p

def Acyclic (p : ι) : Prop := ∀ q, Reach next p q → ¬ Relation.TransGen (fun p q => q ∈ next p) q q

variable {next} {n m : Nat} {p q : ι} {l : List ι}

/-! ## Visits -/

theorem joined_eq_some_iff {f : ι → Option (List ι)} {qs : List ι} :
    joined f qs = some l ↔ (∀ q ∈ qs, (f q).isSome) ∧ l = qs.flatMap fun q => (f q).getD [] := by
  induction qs generalizing l with
  | nil =>
    rw [joined, Option.some.injEq, eq_comm]
    exact ⟨fun hl => ⟨List.forall_mem_nil _, hl⟩, And.right⟩
  | cons q qs ih =>
    rw [joined, List.forall_mem_cons, List.flatMap_cons]
    cases hq : f q with
    | none => simp
    | some lq =>
      simp only [Option.bind_some, Option.map_eq_some_iff, ih, Option.isSome_some, true_and, Option.getD_some]
      constructor
      · rintro ⟨_, ⟨hall, rfl⟩, rfl⟩
        exact ⟨hall, rfl⟩
      · rintro ⟨hall, rfl⟩
        exact ⟨_, ⟨hall, rfl⟩, rfl⟩

theorem tour_succ_eq_some_iff :
    tour next (n + 1) p = some l ↔
      (∀ q ∈ next p, (tour next n q).isSome) ∧ l = p :: (next p).flatMap fun q => (tour next n q).getD [] := by
  rw [tour, Option.map_eq_some_iff]
  simp only [joined_eq_some_iff]
  constructor
  · rintro ⟨_, ⟨hall, rfl⟩, rfl⟩
    exact ⟨hall, rfl⟩
  · rintro ⟨hall, rfl⟩
    exact ⟨_, ⟨hall, rfl⟩, rfl⟩

theorem count_succ_eq_zero_iff : count next (n + 1) p = 0 ↔ ∀ q ∈ next p, count next n q = 0 := by
  rw [count, List.sum_eq_zero_iff_forall_eq_nat, List.forall_mem_map]

theorem isSome_tour : (tour next n p).isSome ↔ count next n p = 0 := by
  induction n generalizing p with
  | zero => simp [tour, count]
  | succ n ih =>
    rw [count_succ_eq_zero_iff, Option.isSome_iff_exists]
    simp only [tour_succ_eq_some_iff, ih]
    constructor
    · rintro ⟨_, hall, -⟩
      exact hall
    · intro hall
      exact ⟨_, hall, rfl⟩

theorem length_tour (h : tour next n p = some l) : l.length = ∑ i ∈ Finset.range n, count next i p := by
  induction n generalizing p l with
  | zero => cases h
  | succ n ih =>
    obtain ⟨hall, rfl⟩ := tour_succ_eq_some_iff.mp h
    have hlist : ∀ qs : List ι, (∀ q ∈ qs, (tour next n q).isSome) →
        (qs.flatMap fun q => (tour next n q).getD []).length = ∑ i ∈ Finset.range n, (qs.map (count next i)).sum := by
      intro qs
      induction qs with
      | nil => simp
      | cons q qs ihqs =>
        intro hqs
        obtain ⟨hq, hqs⟩ := List.forall_mem_cons.mp hqs
        obtain ⟨lq, hlq⟩ := Option.isSome_iff_exists.mp hq
        simp only [List.flatMap_cons, List.length_append, hlq, Option.getD_some, ih hlq, ihqs hqs, List.map_cons,
          List.sum_cons, Finset.sum_add_distrib]
    rw [List.length_cons, hlist _ hall, Finset.sum_range_succ']
    rfl

/-! ## Long walks -/

theorem count_eq_zero_of_le (h : count next n p = 0) (hle : n ≤ m) : count next m p = 0 := by
  induction n generalizing m p with
  | zero => cases h
  | succ n ih =>
    obtain ⟨m, rfl⟩ : ∃ k, m = k + 1 := ⟨m - 1, by omega⟩
    rw [count_succ_eq_zero_iff] at h ⊢
    exact fun q hq => ih (h q hq) (Nat.le_of_succ_le_succ hle)

/-- Once there are no walks so long, their bound makes no difference. -/
theorem sum_count_eq (hn : count next n p = 0) (hm : count next m p = 0) :
    ∑ i ∈ Finset.range n, count next i p = ∑ i ∈ Finset.range m, count next i p := by
  have hle : ∀ {n m}, count next n p = 0 → n ≤ m →
      ∑ i ∈ Finset.range n, count next i p = ∑ i ∈ Finset.range m, count next i p := by
    intro n m hn hnm
    refine Finset.sum_subset (Finset.range_mono hnm) fun i _ hi => ?_
    exact count_eq_zero_of_le hn (Nat.not_lt.mp fun hlt => hi (Finset.mem_range.mpr hlt))
  rcases Nat.le_total n m with h | h
  · exact hle hn h
  · exact (hle hm h).symm

theorem count_eq_zero_of_acyclic [DecidableEq ι] {S : Finset ι} (hS : ∀ q, Reach next p q → q ∈ S)
    (h : Acyclic next p) : count next S.card p = 0 := by
  -- a walk does not come back to its first node, so from the second one on it has one node less
  induction hn : S.card generalizing S p with
  | zero =>
    rw [Finset.card_eq_zero.mp hn] at hS
    exact absurd (hS p .refl) (Finset.notMem_empty p)
  | succ n ih =>
    rw [count_succ_eq_zero_iff]
    intro q hq
    have hcard : (S.erase p).card = n := by rw [Finset.card_erase_of_mem (hS p .refl), hn, Nat.add_sub_cancel]
    refine ih (S := S.erase p) (fun r hr => Finset.mem_erase.mpr ⟨?_, hS r (.head hq hr)⟩)
      (fun r hr => h r (.head hq hr)) hcard
    rintro rfl
    exact h r .refl (Relation.TransGen.head' hq hr)

theorem count_ne_zero_of_reach (h : Reach next p q) (hq : count next n q ≠ 0) : count next n p ≠ 0 := by
  induction h using Relation.ReflTransGen.head_induction_on with
  | refl => exact hq
  | head hstep _ ih =>
    intro hzero
    exact ih (count_succ_eq_zero_iff.mp (count_eq_zero_of_le hzero (Nat.le_succ n)) _ hstep)

theorem count_ne_zero_of_cycle (h : Relation.TransGen (fun p q => q ∈ next p) p p) (n : Nat) : count next n p ≠ 0 := by
  induction n with
  | zero => exact Nat.one_ne_zero
  | succ n ih =>
    obtain ⟨q, hq, hback⟩ := Relation.TransGen.head'_iff.mp h
    intro hzero
    exact count_ne_zero_of_reach hback ih (count_succ_eq_zero_iff.mp hzero q hq)

theorem acyclic_of_count_eq_zero (h : count next n p = 0) : Acyclic next p := by
  intro q hreach hcycle
  exact count_ne_zero_of_reach hreach (count_ne_zero_of_cycle hcycle n) h

/-! ## Trees -/

/-- The successors of a node below `N` differ, are above it, and are successors of no other node. -/
structure Tree (next : Nat → List Nat) (N : Nat) : Prop where
  above : ∀ {p q}, q ∈ next p → p < q ∧ q < N
  parent : ∀ {p p' q}, q ∈ next p → q ∈ next p' → p = p'
  nodup : ∀ p, (next p).Nodup

/-- The first nodes at or above `k` on their ways. -/
def border (next : Nat → List Nat) (N k : Nat) : Finset Nat := {q ∈ Finset.range N | k ≤ q ∧ ∃ p < k, q ∈ next p}

namespace Tree

variable {next : Nat → List Nat} {N k p : Nat} (ht : Tree next N)

include ht

theorem count_eq_zero (hp : p < N) (hn : N ≤ p + n) : count next n p = 0 := by
  induction n generalizing p with
  | zero => omega
  | succ n ih =>
    rw [count_succ_eq_zero_iff]
    intro q hq
    obtain ⟨hlt, hq⟩ := ht.above hq
    exact ih hq (by omega)

theorem sum_count_le (n p : Nat) :
    ∑ i ∈ Finset.range n, count next i p ≤ ∑ q ∈ (next p).toFinset, (∑ i ∈ Finset.range n, count next i q) + 1 := by
  have hstep : ∀ i, count next (i + 1) p = ∑ q ∈ (next p).toFinset, count next i q := fun i =>
    (List.sum_toFinset _ (ht.nodup p)).symm
  calc
    _ ≤ ∑ i ∈ Finset.range (n + 1), count next i p := Finset.sum_le_sum_of_subset (Finset.range_mono n.le_succ)
    _ = ∑ i ∈ Finset.range n, count next (i + 1) p + 1 := Finset.sum_range_succ' _ _
    _ = _ := by rw [Finset.sum_congr rfl fun i _ => hstep i, Finset.sum_comm]

theorem next_subset_border (k : Nat) : (next k).toFinset ⊆ border next N (k + 1) := by
  intro q hq
  have hmem := List.mem_toFinset.mp hq
  obtain ⟨hlt, hq⟩ := ht.above hmem
  exact Finset.mem_filter.mpr ⟨Finset.mem_range.mpr hq, hlt, k, Nat.lt_succ_self k, hmem⟩

theorem sum_border_le (n : Nat) (hk : k ≤ N) : ∑ q ∈ border next N k, ∑ i ∈ Finset.range n, count next i q + k ≤ N := by
  induction hk using Nat.decreasingInduction with
  | self =>
    have hempty : border next N N = ∅ :=
      Finset.filter_false_of_mem fun q hq hborder => absurd (Finset.mem_range.mp hq) (Nat.not_lt.mpr hborder.1)
    rw [hempty, Finset.sum_empty, Nat.zero_add]
  | of_succ k hk ih =>
    -- the node `k`, if it is there, gives way to its successors
    have hborder : border next N k ⊆ insert k (border next N (k + 1) \ (next k).toFinset) := by
      intro q hq
      obtain ⟨hN, hle, p, hp, hmem⟩ := Finset.mem_filter.mp hq
      rw [Finset.mem_insert, Finset.mem_sdiff, List.mem_toFinset]
      refine (Nat.eq_or_lt_of_le hle).imp Eq.symm fun hlt => ⟨?_, fun hk => ?_⟩
      · exact Finset.mem_filter.mpr ⟨hN, hlt, p, Nat.lt_succ_of_lt hp, hmem⟩
      · exact Nat.ne_of_lt hp (ht.parent hmem hk)
    have hk : k ∉ border next N (k + 1) \ (next k).toFinset := fun hmem =>
      Nat.lt_irrefl k (Finset.mem_filter.mp (Finset.mem_sdiff.mp hmem).1).2.1
    have hsum := Finset.sum_le_sum_of_subset (f := fun q => ∑ i ∈ Finset.range n, count next i q) hborder
    rw [Finset.sum_insert hk] at hsum
    rw [← Finset.sum_sdiff (ht.next_subset_border k)] at ih
    have hle := ht.sum_count_le n k
    omega

theorem sum_count_le_size (n : Nat) (hN : 0 < N) : ∑ i ∈ Finset.range n, count next i 0 ≤ N := by
  have hroot := ht.sum_count_le n 0
  have hborder := ht.sum_border_le (k := 0 + 1) n hN
  have hsum := Finset.sum_le_sum_of_subset (f := fun q => ∑ i ∈ Finset.range n, count next i q) (ht.next_subset_border 0)
  omega

end Tree

end Csar.Walk
