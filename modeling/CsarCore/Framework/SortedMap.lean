import CsarCore.Framework.Json.Members
import Mathlib.Data.List.Sort

/-!
# Maps

A Go map as its entries in the order of their keys, in which `json.Marshal` writes
them.
-/

namespace Csar

open Json (keys pairwise_set lookup_set lookup_setAll lookup_eq_some_iff_mem)

structure SortedMap (σ β : Type) [Ord σ] where
  entries : List (σ × β)
  sorted : (keys entries).Pairwise fun a b => compare a b = .lt

namespace SortedMap

variable {σ β : Type} [Ord σ]

def empty : SortedMap σ β := ⟨[], .nil⟩

section Get
variable [BEq σ]

/-- `m[k]`. -/
def get (m : SortedMap σ β) (k : σ) : Option β := m.entries.lookup k

end Get

variable [Std.LawfulEqOrd σ] {m : SortedMap σ β} {es : List (σ × β)}

theorem nodup_keys (m : SortedMap σ β) : (keys m.entries).Nodup := Json.nodup_of_pairwise m.sorted

theorem mem_entries [BEq σ] [LawfulBEq σ] {k : σ} {v : β} :
    (k, v) ∈ m.entries ↔ m.get k = some v := (lookup_eq_some_iff_mem m.nodup_keys).symm

/-- `delete(m, k)`, for every `k` that `keep` is false of. -/
def filterKeys (m : SortedMap σ β) (keep : σ → Bool) : SortedMap σ β where
  entries := m.entries.filter fun e => keep e.1
  sorted := by
    rw [keys, List.pairwise_map]
    exact (List.pairwise_map.mp m.sorted).filter _

theorem get_filterKeys [BEq σ] [LawfulBEq σ] (m : SortedMap σ β) (keep : σ → Bool) (k : σ) :
    (m.filterKeys keep).get k = if keep k then m.get k else none := by
  refine Option.ext fun v => ?_
  rw [← mem_entries, filterKeys, List.mem_filter, mem_entries]
  cases keep k <;> simp

variable [Std.TransOrd σ]

/-- `m[k] = v`. -/
def set (m : SortedMap σ β) (k : σ) (v : β) : SortedMap σ β := ⟨Json.set k v m.entries, pairwise_set m.sorted⟩

def ofList (es : List (σ × β)) : SortedMap σ β := es.foldl (fun acc e => acc.set e.1 e.2) empty

def copy (m : SortedMap σ β) : SortedMap σ β := m.entries.foldl (fun acc e => acc.set e.1 e.2) empty

variable [BEq σ] [LawfulBEq σ]

theorem get_set (m : SortedMap σ β) (k k' : σ) (v : β) : (m.set k v).get k' = if k' == k then some v else m.get k' := by
  rw [get, set, lookup_set, List.lookup_cons]
  cases k' == k <;> rfl

theorem ext_get {m' : SortedMap σ β} (h : ∀ k, m.get k = m'.get k) : m = m' := by
  have hmem : ∀ e, e ∈ m.entries ↔ e ∈ m'.entries := fun e => by
    rw [mem_entries (k := e.1) (v := e.2), mem_entries (k := e.1) (v := e.2), h]
  have hnodup : ∀ m : SortedMap σ β, m.entries.Nodup := fun m => List.Nodup.of_map _ m.nodup_keys
  have hperm : m.entries.Perm m'.entries := (List.perm_ext_iff_of_nodup (hnodup m) (hnodup m')).mpr hmem
  have heq : m.entries = m'.entries := by
    have hantisymm : ∀ a b : σ × β, compare a.1 b.1 = .lt → compare b.1 a.1 = .lt → a = b := by
      intro a b hab hba
      rw [Std.OrientedCmp.gt_of_lt hab] at hba
      cases hba
    exact hperm.eq_of_pairwise (fun a b _ _ => hantisymm a b) (List.pairwise_map.mp m.sorted)
      (List.pairwise_map.mp m'.sorted)
  obtain ⟨es, hs⟩ := m
  obtain ⟨es', hs'⟩ := m'
  cases heq
  rfl

theorem get_ofList (es : List (σ × β)) (k : σ) : (ofList es).get k = es.reverse.lookup k := by
  have hfold : ∀ (es : List (σ × β)) (acc : SortedMap σ β),
      (es.foldl (fun acc e => acc.set e.1 e.2) acc).entries = es.foldl (fun acc e => Json.set e.1 e.2 acc) acc.entries := by
    intro es
    induction es with
    | nil => exact fun _ => rfl
    | cons e es ih => exact fun acc => ih _
  rw [get, ofList, hfold]
  exact lookup_setAll k es

theorem get_ofList_concat (es : List (σ × β)) (e : σ × β) : (ofList (es ++ [e])).get e.1 = some e.2 := by
  rw [get_ofList, List.reverse_append, List.reverse_singleton, List.singleton_append, List.lookup_cons,
    beq_self_eq_true]

theorem get_ofList_iff (h : ∀ e ∈ es, ∀ e' ∈ es, e.1 = e'.1 → e.2 = e'.2) {k : σ} {v : β} :
    (ofList es).get k = some v ↔ (k, v) ∈ es := by
  rw [get_ofList]
  constructor
  · intro hv
    exact List.mem_reverse.mp (Json.mem_of_lookup hv)
  · intro hmem
    cases hv : es.reverse.lookup k with
    | none =>
      have hne := List.lookup_eq_none_iff.mp hv (k, v) (List.mem_reverse.mpr hmem)
      simp at hne
    | some w =>
      have hw := h (k, w) (List.mem_reverse.mp (Json.mem_of_lookup hv)) (k, v) hmem rfl
      exact congrArg some hw

theorem ofList_perm {es' : List (σ × β)} (h : ∀ e ∈ es, ∀ e' ∈ es, e.1 = e'.1 → e.2 = e'.2) (hperm : es'.Perm es) :
    ofList es' = ofList es := by
  have h' : ∀ e ∈ es', ∀ e' ∈ es', e.1 = e'.1 → e.2 = e'.2 := by
    intro e he e' he'
    exact h e (hperm.mem_iff.mp he) e' (hperm.mem_iff.mp he')
  refine ext_get fun k => Option.ext fun v => ?_
  rw [get_ofList_iff h', get_ofList_iff h, hperm.mem_iff]

theorem ofList_entries (hperm : es.Perm m.entries) : ofList es = m := by
  have hagree : ∀ e ∈ es, ∀ e' ∈ es, e.1 = e'.1 → e.2 = e'.2 := by
    intro e he e' he' hkey
    have hv := mem_entries.mp (hperm.mem_iff.mp he)
    have hv' := mem_entries.mp (hperm.mem_iff.mp he')
    rw [hkey, hv'] at hv
    exact (Option.some.inj hv).symm
  refine ext_get fun k => Option.ext fun v => ?_
  rw [get_ofList_iff hagree, hperm.mem_iff, mem_entries]

theorem copy_eq (m : SortedMap σ β) : m.copy = m := ofList_entries (List.Perm.refl _)

end SortedMap

end Csar
