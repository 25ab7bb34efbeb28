import CsarCore.Spec.Configutil.Yaml

/-!
# What the expansion visits

`expandEnvInYAMLNode` changes only tags and texts of scalars, so its course is known
from the document before it (`expand_eq`). After it, a scalar has been expanded once
for each way to it as a value (`foldl_touch`).
-/

namespace Csar.Proof.Configutil

open Impl.Configutil Spec.Configutil

variable {ι : Type} {env : Env} {h h' : Heap ι} {p q : ι} {node : Node ι} {n m : Nat}

def shape (node : Node ι) : Kind × List ι × Option ι := (node.kind, node.content, node.aliasOf)

/-- Two heaps that differ in tags and texts only. -/
def SameShape (h h' : Heap ι) : Prop := ∀ p, (h p).map shape = (h' p).map shape

theorem SameShape.refl (h : Heap ι) : SameShape h h := fun _ => rfl

theorem SameShape.symm (hs : SameShape h h') : SameShape h' h := fun p => (hs p).symm

theorem SameShape.trans {h'' : Heap ι} (hs : SameShape h h') (hs' : SameShape h' h'') : SameShape h h'' :=
  fun p => (hs p).trans (hs' p)

theorem SameShape.none (hs : SameShape h h') (hp : h p = none) : h' p = none := by
  have hshape := hs p
  rw [hp] at hshape
  exact Option.map_eq_none_iff.mp hshape.symm

theorem SameShape.some (hs : SameShape h h') (hp : h p = some node) :
    ∃ node', h' p = some node' ∧ shape node = shape node' := by
  have hshape := hs p
  rw [hp] at hshape
  obtain ⟨node', hp', heq⟩ := Option.map_eq_some_iff.mp hshape.symm
  exact ⟨node', hp', heq.symm⟩

variable {node' : Node ι} {rank : ι → Nat}

theorem kind_of_shape (hs : shape node = shape node') : node.kind = node'.kind := congrArg Prod.fst hs

theorem content_of_shape (hs : shape node = shape node') : node.content = node'.content :=
  congrArg (fun s => s.2.1) hs

theorem aliasOf_of_shape (hs : shape node = shape node') : node.aliasOf = node'.aliasOf :=
  congrArg (fun s => s.2.2) hs

theorem inner_of_shape (hs : shape node = shape node') : innerNodes node = innerNodes node' := by
  unfold innerNodes
  rw [kind_of_shape hs, content_of_shape hs, aliasOf_of_shape hs]

theorem refs_of_shape (hs : shape node = shape node') : refs node = refs node' := by
  unfold refs
  rw [content_of_shape hs, aliasOf_of_shape hs]

/-- The pointers in a node are to nodes of a lower rank. -/
def Ranked (rank : ι → Nat) (h : Heap ι) : Prop :=
  ∀ {p q : ι} {node : Node ι}, h p = some node → q ∈ refs node → rank q < rank p

theorem Ranked.of_sameShape (hr : Ranked rank h) (hs : SameShape h h') : Ranked rank h' := by
  intro p q node' hp' hq
  obtain ⟨node, hp, hshape⟩ := hs.symm.some hp'
  exact hr hp (refs_of_shape hshape ▸ hq)

theorem mappingValues_sublist {α : Type} : ∀ l : List α, (mappingValues l).Sublist l
  | _ :: v :: rest => ((mappingValues_sublist rest).cons_cons v).cons _
  | [] => .slnil
  | [_] => List.nil_sublist _

theorem mem_refs_of_mem_inner (hq : q ∈ innerNodes node) : q ∈ refs node := by
  unfold innerNodes at hq
  split at hq
  · exact List.mem_append_left _ hq
  · exact List.mem_append_left _ hq
  · exact List.mem_append_left _ ((mappingValues_sublist _).subset hq)
  · cases hq
  · exact List.mem_append_right _ hq

theorem scalarsIn_of_none (hp : h p = none) : scalarsIn h n p = [] := by
  cases n with
  | zero => rfl
  | succ n => simp only [scalarsIn, hp]

theorem scalarsIn_scalar (hp : h p = some node) (hkind : node.kind = .scalarNode) : scalarsIn h (n + 1) p = [p] := by
  simp only [scalarsIn, hp, hkind, if_true]

theorem scalarsIn_inner (hp : h p = some node) (hkind : node.kind ≠ .scalarNode) :
    scalarsIn h (n + 1) p = (innerNodes node).flatMap (scalarsIn h n) := by
  simp only [scalarsIn, hp, hkind, if_false]

theorem scalarsIn_of_sameShape (hs : SameShape h h') (n : Nat) (p : ι) : scalarsIn h n p = scalarsIn h' n p := by
  induction n generalizing p with
  | zero => rfl
  | succ n ih =>
    cases hp : h p with
    | none => rw [scalarsIn_of_none hp, scalarsIn_of_none (hs.none hp)]
    | some node =>
      obtain ⟨node', hp', hshape⟩ := hs.some hp
      by_cases hkind : node.kind = .scalarNode
      · rw [scalarsIn_scalar hp hkind, scalarsIn_scalar hp' (kind_of_shape hshape ▸ hkind)]
      · rw [scalarsIn_inner hp hkind, scalarsIn_inner hp' (kind_of_shape hshape ▸ hkind), inner_of_shape hshape]
        exact List.flatMap_congr fun q _ => ih q

theorem scalarsIn_depth (hr : Ranked rank h) (hn : rank p < n) (hm : rank p < m) :
    scalarsIn h n p = scalarsIn h m p := by
  induction n generalizing m p with
  | zero => omega
  | succ n ih =>
    obtain ⟨m, rfl⟩ : ∃ k, m = k + 1 := ⟨m - 1, by omega⟩
    cases hp : h p with
    | none => rw [scalarsIn_of_none hp, scalarsIn_of_none hp]
    | some node =>
      by_cases hkind : node.kind = .scalarNode
      · rw [scalarsIn_scalar hp hkind, scalarsIn_scalar hp hkind]
      · rw [scalarsIn_inner hp hkind, scalarsIn_inner hp hkind]
        refine List.flatMap_congr fun q hq => ?_
        have hlt := hr hp (mem_refs_of_mem_inner hq)
        exact ih (by omega) (by omega)

theorem scalar_of_mem_scalarsIn (hq : q ∈ scalarsIn h n p) : ∃ node, h q = some node ∧ node.kind = .scalarNode := by
  induction n generalizing p with
  | zero => cases hq
  | succ n ih =>
    cases hp : h p with
    | none =>
      rw [scalarsIn_of_none hp] at hq
      cases hq
    | some node =>
      by_cases hkind : node.kind = .scalarNode
      · rw [scalarsIn_scalar hp hkind, List.mem_singleton] at hq
        exact ⟨node, hq ▸ hp, hkind⟩
      · rw [scalarsIn_inner hp hkind, List.mem_flatMap] at hq
        obtain ⟨r, -, hq⟩ := hq
        exact ih hq

section Walk

theorem shape_expandScalar (env : Env) (node : Node ι) : shape (expandScalar env node) = shape node := by
  unfold expandScalar
  split
  · rfl
  · dsimp only
    split <;> rfl

theorem shape_iterate (env : Env) (k : Nat) (node : Node ι) : shape ((expandScalar env)^[k] node) = shape node := by
  induction k generalizing node with
  | zero => rfl
  | succ k ih => rw [Function.iterate_succ_apply, ih, shape_expandScalar]

variable [DecidableEq ι]

def touch (env : Env) (h : Heap ι) (p : ι) : Heap ι := Function.update h p ((h p).map (expandScalar env))

theorem foldl_touch (env : Env) (h : Heap ι) (ps : List ι) (q : ι) :
    ps.foldl (touch env) h q = (h q).map (expandScalar env)^[ps.count q] := by
  induction ps generalizing h with
  | nil => simp
  | cons p ps ih =>
    rw [List.foldl_cons, ih]
    by_cases hpq : p = q
    · subst hpq
      rw [List.count_cons_self, touch, Function.update_self, Option.map_map, Function.iterate_succ]
    · rw [List.count_cons_of_ne hpq, touch, Function.update_of_ne (Ne.symm hpq)]

theorem sameShape_foldl_touch (env : Env) (h : Heap ι) (ps : List ι) : SameShape h (ps.foldl (touch env) h) := by
  intro q
  rw [foldl_touch, Option.map_map]
  congr 1
  exact funext fun node => (shape_iterate env _ node).symm

theorem expand_of_none (hp : h p = none) : expandEnvInYAMLNode env (n + 1) h p = some h := by
  simp only [expandEnvInYAMLNode, hp]

theorem expand_scalar (hp : h p = some node) (hkind : node.kind = .scalarNode) :
    expandEnvInYAMLNode env (n + 1) h p = some (touch env h p) := by
  simp only [expandEnvInYAMLNode, hp, hkind, touch, Option.map_some]

theorem expand_inner (hp : h p = some node) (hkind : node.kind ≠ .scalarNode) :
    expandEnvInYAMLNode env (n + 1) h p = (innerNodes node).foldlM (expandEnvInYAMLNode env n) h := by
  simp only [expandEnvInYAMLNode, hp, innerNodes]
  cases hk : node.kind with
  | scalarNode => exact absurd hk hkind
  | aliasNode => cases node.aliasOf <;> simp
  | documentNode => rfl
  | sequenceNode => rfl
  | mappingNode => rfl

/-- Where pointers lead to lower ranks the walk returns, and is one visit after the other. -/
theorem expand_eq {rank : ι → Nat} (hr : Ranked rank h) (hn : rank p < n) :
    expandEnvInYAMLNode env n h p = some ((scalarsIn h n p).foldl (touch env) h) := by
  induction n generalizing h p with
  | zero => omega
  | succ n ih =>
    cases hp : h p with
    | none => rw [expand_of_none hp, scalarsIn_of_none hp, List.foldl_nil]
    | some node =>
      by_cases hkind : node.kind = .scalarNode
      · rw [expand_scalar hp hkind, scalarsIn_scalar hp hkind, List.foldl_cons, List.foldl_nil]
      · rw [expand_inner hp hkind, scalarsIn_inner hp hkind]
        have hlow : ∀ q ∈ innerNodes node, rank q < n := by
          intro q hq
          have hlt := hr hp (mem_refs_of_mem_inner hq)
          omega
        -- one branch after the other: the visits of a branch do not change the course of the next
        have hbranches : ∀ (ps : List ι), (∀ q ∈ ps, rank q < n) → ∀ h', SameShape h h' →
            ps.foldlM (expandEnvInYAMLNode env n) h' = some ((ps.flatMap (scalarsIn h n)).foldl (touch env) h') := by
          intro ps
          induction ps with
          | nil => intros; rfl
          | cons q ps ihps =>
            intro hps h' hs
            rw [List.foldlM_cons, ih (hr.of_sameShape hs) (hps q List.mem_cons_self), ← scalarsIn_of_sameShape hs,
              List.flatMap_cons, List.foldl_append]
            exact ihps (fun r hr => hps r (List.mem_cons_of_mem _ hr)) _ (hs.trans (sameShape_foldl_touch env h' _))
        exact hbranches _ hlow h (SameShape.refl h)

end Walk

end Csar.Proof.Configutil
