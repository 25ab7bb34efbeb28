import CsarCore.Proof.Configutil.YamlEnv
import Mathlib.Data.List.Forall2
import Mathlib.Data.List.Nodup

/-!
# Aliases and the expansion of environment variables

A document and its copy without aliases have the same in them (`treeOf_eq`) and the
same visits (`values_copy`); the copy is visited once at each place that is a value
(`count_values_copy`). So the two agree if and only if it does not matter how often a
text is expanded (`transparent_iff`).
-/

namespace Csar.Proof.Configutil

open Impl.Configutil Spec.Configutil

variable {ι : Type} {env : Env} {d : Doc ι} {p q : ι} {node : Node ι} {place : List Nat} {n m : Nat}

theorem ranked (d : Doc ι) : Ranked d.rank d.nodes := fun hp hq => d.rank_lt hp hq

theorem deref_of_none (hp : d.nodes p = none) : d.deref p = p := by
  simp only [Doc.deref, hp]

theorem deref_of_ne (hp : d.nodes p = some node) (hkind : node.kind ≠ .aliasNode) : d.deref p = p := by
  simp only [Doc.deref, hp, hkind, if_false]

theorem deref_alias (hp : d.nodes p = some node) (hkind : node.kind = .aliasNode) (hq : node.aliasOf = some q) :
    d.deref p = q := by
  simp only [Doc.deref, hp, hkind, if_true, hq, Option.getD_some]

structure ChildAt (d : Doc ι) (p : ι) (place : List Nat) (q : ι) (place' : List Nat) : Prop where
  pointee : d.pointee place' = some (d.deref q)
  rank_lt : d.rank q < d.rank p
  placeRank_lt : d.placeRank place' < d.placeRank place

theorem childAt_content (hp : d.pointee place = some p) (hnode : d.nodes p = some node) :
    List.Forall₂ (ChildAt d p place) node.content ((List.range node.content.length).map (· :: place)) := by
  refine List.forall₂_iff_get.mpr ⟨by simp, fun i hi hi' => ?_⟩
  have hplace : ((List.range node.content.length).map (· :: place)).get ⟨i, hi'⟩ = i :: place := by simp
  rw [hplace]
  refine ⟨?_, d.rank_lt hnode (List.mem_append_left _ (List.get_mem ..)), Doc.placeRank_cons hp hnode hi⟩
  rw [Doc.pointee_cons hp hnode, List.getElem?_eq_getElem hi]
  rfl

theorem forall₂_mappingValues {α β : Type} {R : α → β → Prop} : ∀ {l : List α} {l' : List β}, List.Forall₂ R l l' →
    List.Forall₂ R (mappingValues l) (mappingValues l')
  | _ :: _ :: _, _ :: _ :: _, .cons _ (.cons hv hrest) => .cons hv (forall₂_mappingValues hrest)
  | [], [], .nil => .nil
  | [_], [_], .cons _ .nil => .nil

theorem childAt_inner (hp : d.pointee place = some p) (hnode : d.nodes p = some node)
    (hkind : node.kind ≠ .aliasNode) :
    List.Forall₂ (ChildAt d p place) (innerNodes node) (innerNodes (copyOf node place)) := by
  have hcontent := childAt_content hp hnode
  unfold innerNodes copyOf
  cases hk : node.kind with
  | documentNode | sequenceNode => exact hcontent
  | mappingNode => exact forall₂_mappingValues hcontent
  | scalarNode => exact .nil
  | aliasNode => exact absurd hk hkind

theorem flatMap_of_forall₂ {α β γ δ : Type} {R : α → β → Prop} {f : α → List γ} {g : β → List δ} {k : δ → Option γ}
    {l : List α} {l' : List β} (h : List.Forall₂ R l l') (hfg : ∀ a b, R a b → f a = (g b).filterMap k) :
    l.flatMap f = (l'.flatMap g).filterMap k := by
  induction h with
  | nil => rfl
  | cons hR _ ih => rw [List.flatMap_cons, List.flatMap_cons, List.filterMap_append, hfg _ _ hR, ih]

theorem map_of_forall₂ {α β γ : Type} {R : α → β → Prop} {f : α → γ} {g : β → γ} {l : List α} {l' : List β}
    (h : List.Forall₂ R l l') (hfg : ∀ a b, R a b → f a = g b) : l.map f = l'.map g := by
  induction h with
  | nil => rfl
  | cons hR _ ih => rw [List.map_cons, List.map_cons, hfg _ _ hR, ih]

/-- A pointer, and the place of its node: there is no node; it is an alias of a node with this place; or
it has a copy there. -/
inductive AtPlace (d : Doc ι) (p : ι) (place : List Nat) : Prop
  | nil (hp : d.nodes p = none) (hcopy : d.copy.nodes place = none)
  | aliased {node : Node ι} {q : ι} (hp : d.nodes p = some node) (hkind : node.kind = .aliasNode)
      (hq : node.aliasOf = some q) (hplace : d.pointee place = some (d.deref q)) (hlt : d.rank q < d.rank p)
  | copied {node : Node ι} (hp : d.nodes p = some node) (hkind : node.kind ≠ .aliasNode)
      (hplace : d.pointee place = some p) (hcopy : d.copy.nodes place = some (copyOf node place))

theorem atPlace (hplace : d.pointee place = some (d.deref p)) : AtPlace d p place := by
  cases hp : d.nodes p with
  | none =>
    rw [deref_of_none hp] at hplace
    exact .nil hp (by simp [Doc.copy, Doc.copyNode, hplace, hp])
  | some node =>
    by_cases halias : node.kind = .aliasNode
    · obtain ⟨q, target, hq, htarget, hne⟩ := d.alias_target hp halias
      rw [deref_alias hp halias hq] at hplace
      refine .aliased hp halias hq ?_ (d.rank_lt hp (by simp [refs, hq]))
      rw [deref_of_ne htarget hne]
      exact hplace
    · rw [deref_of_ne hp halias] at hplace
      exact .copied hp halias hplace (Doc.copyNode_eq hplace hp)

theorem scalarsIn_copy (hplace : d.pointee place = some (d.deref p)) (hn : d.rank p < n) (hm : d.placeRank place < m) :
    scalarsIn d.nodes n p = (scalarsIn d.copy.nodes m place).filterMap d.pointee := by
  induction n generalizing p place m with
  | zero => omega
  | succ n ih =>
    obtain ⟨m, rfl⟩ : ∃ k, m = k + 1 := ⟨m - 1, by omega⟩
    cases atPlace hplace with
    | nil hp hcopy => rw [scalarsIn_of_none hp, scalarsIn_of_none hcopy, List.filterMap_nil]
    | aliased hp hkind hq hplace' hlt =>
      -- an alias is visited as its node, at the same place
      rw [scalarsIn_inner hp (by rw [hkind]; decide)]
      simp only [innerNodes, hkind, hq, Option.toList_some, List.flatMap_cons, List.flatMap_nil, List.append_nil]
      exact ih hplace' (by omega) hm
    | @copied node hp hkind hplace' hcopy =>
      have hrank := Doc.placeRank_eq hplace'
      by_cases hscalar : node.kind = .scalarNode
      · rw [scalarsIn_scalar hp hscalar, scalarsIn_scalar hcopy hscalar, List.filterMap_cons_some hplace',
          List.filterMap_nil]
      · rw [scalarsIn_inner hp hscalar, scalarsIn_inner hcopy hscalar]
        refine flatMap_of_forall₂ (childAt_inner hplace' hp hkind) fun q place' hchild => ?_
        have hlt := hchild.rank_lt
        have hlt' := hchild.placeRank_lt
        exact ih hchild.pointee (by omega) (by omega)

theorem values_copy (d : Doc ι) : d.values = d.copy.values.filterMap d.pointee :=
  scalarsIn_copy rfl (Nat.lt_succ_self _) (Nat.lt_succ_self _)

/-- What is in a node is what is in its copy, after the same changes of tags and texts. -/
theorem treeOf_eq {h : Heap ι} {c : Heap (List Nat)} (hs : SameShape d.nodes h) (hsc : SameShape d.copy.nodes c)
    (hlabel : ∀ {place p node node'}, d.pointee place = some p → h p = some node → c place = some node' →
      node.tag = node'.tag ∧ node.value = node'.value)
    (hplace : d.pointee place = some (d.deref p)) (hn : d.rank p < n) (hm : d.placeRank place < m) :
    treeOf h n p = treeOf c m place := by
  induction n generalizing p place m with
  | zero => omega
  | succ n ih =>
    obtain ⟨m, rfl⟩ : ∃ k, m = k + 1 := ⟨m - 1, by omega⟩
    cases atPlace hplace with
    | nil hp hcopy => simp only [treeOf, hs.none hp, hsc.none hcopy]
    | @aliased node q hp hkind hq hplace' hlt =>
      obtain ⟨node', hp', hshape⟩ := hs.some hp
      have hkind' : node'.kind = .aliasNode := kind_of_shape hshape ▸ hkind
      have hq' : node'.aliasOf = some q := aliasOf_of_shape hshape ▸ hq
      have htree : treeOf h (n + 1) p = treeOf h n q := by
        simp only [treeOf, hp', hkind', hq', if_true, Option.elim_some]
      rw [htree]
      exact ih hplace' (by omega) hm
    | copied hp hkind hplace' hcopy =>
      obtain ⟨node', hp', hshape⟩ := hs.some hp
      obtain ⟨node'', hc, hshape'⟩ := hsc.some hcopy
      obtain ⟨htag, hvalue⟩ := hlabel hplace' hp' hc
      have hkind' : node'.kind ≠ .aliasNode := kind_of_shape hshape ▸ hkind
      have hkind'' : node''.kind = node'.kind := (kind_of_shape hshape').symm.trans (kind_of_shape hshape)
      have hchildren : node'.content.map (treeOf h n) = node''.content.map (treeOf c m) := by
        rw [← content_of_shape hshape, ← content_of_shape hshape']
        refine map_of_forall₂ (childAt_content hplace' hp) fun q place' hchild => ?_
        have hlt := hchild.rank_lt
        have hlt' := hchild.placeRank_lt
        exact ih hchild.pointee (by omega) (by omega)
      simp only [treeOf, hp', hc, hkind'', hkind', if_false, htag, hvalue, hchildren]

/-! ## The places that are visited -/

section Places

variable {c : Node (List Nat)} {x y : List Nat}

theorem mem_mappingValues {α : Type} {a : α} : ∀ {l : List α}, a ∈ mappingValues l ↔ ∃ i, i % 2 = 1 ∧ l[i]? = some a
  | [] => by simp [mappingValues]
  | [b] => by
    refine iff_of_false (by simp [mappingValues]) ?_
    rintro ⟨i, hi, h⟩
    obtain ⟨j, rfl⟩ : ∃ j, i = j + 1 := ⟨i - 1, by omega⟩
    simp at h
  | b :: v :: rest => by
    rw [mappingValues, List.mem_cons, mem_mappingValues]
    constructor
    · rintro (rfl | ⟨i, hi, h⟩)
      · exact ⟨1, rfl, rfl⟩
      · exact ⟨i + 2, by omega, h⟩
    · rintro ⟨i, hi, h⟩
      match i, hi, h with
      | 1, _, h => exact .inl (Option.some.inj h).symm
      | i + 2, hi, h => exact .inr ⟨i, by omega, h⟩

theorem mem_places {k : Nat} : x ∈ (List.range k).map (· :: place) ↔ ∃ i < k, x = i :: place := by
  simp only [List.mem_map, List.mem_range, eq_comm]

theorem mem_inner_copy (hkind : node.kind ≠ .aliasNode) (hscalar : node.kind ≠ .scalarNode) :
    x ∈ innerNodes (copyOf node place) ↔
      ∃ i < node.content.length, (node.kind = .mappingNode → i % 2 = 1) ∧ x = i :: place := by
  unfold innerNodes copyOf
  cases hk : node.kind with
  | documentNode | sequenceNode => simp only [mem_places, reduceCtorEq, false_implies, true_and]
  | mappingNode =>
    simp only [mem_mappingValues, true_implies]
    constructor
    · rintro ⟨i, hi, h⟩
      obtain ⟨hlt, heq⟩ := List.getElem?_eq_some_iff.mp h
      simp only [List.length_map, List.length_range] at hlt
      simp only [List.getElem_map, List.getElem_range] at heq
      exact ⟨i, hlt, hi, heq.symm⟩
    · rintro ⟨i, hlt, hi, rfl⟩
      exact ⟨i, hi, by simp [hlt]⟩
  | scalarNode => exact absurd hk hscalar
  | aliasNode => exact absurd hk hkind

theorem nodup_inner_copy (hkind : node.kind ≠ .aliasNode) :
    (innerNodes (copyOf node place)).Nodup := by
  have hcontent : ((List.range node.content.length).map (· :: place)).Nodup :=
    List.nodup_range.map fun i j h => (List.cons.inj h).1
  unfold innerNodes copyOf
  cases hk : node.kind with
  | documentNode | sequenceNode => exact hcontent
  | mappingNode => exact hcontent.sublist (mappingValues_sublist _)
  | scalarNode => exact List.nodup_nil
  | aliasNode => exact absurd hk hkind

theorem scalarsIn_copy_cases (hx : x ∈ scalarsIn d.copy.nodes (n + 1) place) :
    x = place ∨ ∃ p node i, d.pointee place = some p ∧ d.nodes p = some node ∧
      (node.kind = .mappingNode → i % 2 = 1) ∧ x ∈ scalarsIn d.copy.nodes n (i :: place) := by
  cases hc : d.copy.nodes place with
  | none =>
    rw [scalarsIn_of_none hc] at hx
    cases hx
  | some c =>
    obtain ⟨p, node, hp, hnode, rfl⟩ := Doc.eq_of_copyNode hc
    by_cases hkind : node.kind = .scalarNode
    · rw [scalarsIn_scalar hc hkind, List.mem_singleton] at hx
      exact .inl hx
    · rw [scalarsIn_inner hc hkind, List.mem_flatMap] at hx
      obtain ⟨place', hplace', hx⟩ := hx
      obtain ⟨i, -, hodd, rfl⟩ := (mem_inner_copy (Doc.kind_pointee hp hnode) hkind).mp hplace'
      exact .inr ⟨p, node, i, hp, hnode, hodd, hx⟩

theorem suffix_of_mem_scalarsIn (hx : x ∈ scalarsIn d.copy.nodes n place) : place <:+ x := by
  induction n generalizing place with
  | zero => cases hx
  | succ n ih =>
    rcases scalarsIn_copy_cases hx with rfl | ⟨_, _, i, -, -, -, hx⟩
    · exact List.suffix_rfl
    · exact (List.suffix_cons i place).trans (ih hx)

theorem inValue_of_mem_scalarsIn (hplace : d.InValue place) (hx : x ∈ scalarsIn d.copy.nodes n place) :
    d.InValue x := by
  induction n generalizing place with
  | zero => cases hx
  | succ n ih =>
    rcases scalarsIn_copy_cases hx with rfl | ⟨p, node, i, hp, hnode, hodd, hx⟩
    · exact hplace
    · have hchild : d.InValue (i :: place) := by
        refine ⟨hplace, fun p' node' hp' hnode' => ?_⟩
        cases hp.symm.trans hp'
        cases hnode.symm.trans hnode'
        exact hodd
      exact ih hchild hx

theorem nodup_scalarsIn (d : Doc ι) (n : Nat) (place : List Nat) : (scalarsIn d.copy.nodes n place).Nodup := by
  induction n generalizing place with
  | zero => exact List.nodup_nil
  | succ n ih =>
    cases hc : d.copy.nodes place with
    | none =>
      rw [scalarsIn_of_none hc]
      exact List.nodup_nil
    | some c =>
      obtain ⟨p, node, hp, hnode, rfl⟩ := Doc.eq_of_copyNode hc
      by_cases hkind : node.kind = .scalarNode
      · rw [scalarsIn_scalar hc hkind]
        exact List.nodup_singleton _
      · rw [scalarsIn_inner hc hkind, List.nodup_flatMap]
        refine ⟨fun place' _ => ih place', (nodup_inner_copy (Doc.kind_pointee hp hnode)).imp_of_mem ?_⟩
        intro x y hx hy hne z hzx hzy
        obtain ⟨i, -, -, rfl⟩ := (mem_inner_copy (Doc.kind_pointee hp hnode) hkind).mp hx
        obtain ⟨j, -, -, rfl⟩ := (mem_inner_copy (Doc.kind_pointee hp hnode) hkind).mp hy
        -- a place below two children would have two parents
        have hsuffix := List.suffix_of_suffix_length_le (suffix_of_mem_scalarsIn hzx) (suffix_of_mem_scalarsIn hzy)
          (by simp)
        exact hne (hsuffix.eq_of_length (by simp))

theorem copy_values_nodup (d : Doc ι) : d.copy.values.Nodup := nodup_scalarsIn d _ _

theorem content_of_copyNode_cons {i : Nat} (hc : d.copyNode (i :: place) = some c) :
    ∃ p node, d.pointee place = some p ∧ d.nodes p = some node ∧ i < node.content.length := by
  obtain ⟨q, _, hq, -, -⟩ := Doc.eq_of_copyNode hc
  simp only [Doc.pointee, Option.bind_eq_bind, Option.bind_eq_some_iff, Option.map_eq_some_iff] at hq
  obtain ⟨p, hp, node, hnode, r, hr, -⟩ := hq
  exact ⟨p, node, hp, hnode, (List.getElem?_eq_some_iff.mp hr).1⟩

theorem mem_values_of_mem (hplace : d.InValue place) (hc : d.copyNode place = some c)
    (hx : x ∈ scalarsIn d.copy.nodes (d.placeRank place + 1) place) : x ∈ d.copy.values := by
  induction place generalizing c x with
  | nil => exact hx
  | cons i place ih =>
    obtain ⟨p, node, hp, hnode, hi⟩ := content_of_copyNode_cons hc
    have hcopy := Doc.copyNode_eq hp hnode
    have hscalar : node.kind ≠ .scalarNode := by
      intro hkind
      rw [d.scalar_leaf hnode hkind] at hi
      exact absurd hi (Nat.not_lt_zero i)
    refine ih hplace.1 hcopy ?_
    rw [scalarsIn_inner (h := d.copy.nodes) hcopy hscalar, List.mem_flatMap]
    have hmem : i :: place ∈ innerNodes (copyOf node place) :=
      (mem_inner_copy (Doc.kind_pointee hp hnode) hscalar).mpr ⟨i, hi, hplace.2 p node hp hnode, rfl⟩
    refine ⟨i :: place, hmem, ?_⟩
    rwa [scalarsIn_depth (ranked d.copy) (Doc.placeRank_cons hp hnode hi) (Nat.lt_succ_self _)]

theorem mem_copy_values (hc : d.copyNode place = some c) (hkind : c.kind = .scalarNode) :
    place ∈ d.copy.values ↔ d.InValue place := by
  constructor
  · exact inValue_of_mem_scalarsIn trivial
  · intro hplace
    refine mem_values_of_mem hplace hc ?_
    rw [scalarsIn_scalar (h := d.copy.nodes) hc hkind]
    exact List.mem_singleton_self place

end Places

theorem mem_values : p ∈ d.values ↔ ∃ place ∈ d.copy.values, d.pointee place = some p := by
  rw [values_copy, List.mem_filterMap]

/-! ## What is in the copy -/

section Trees

variable {c c₁ c₂ : Heap (List Nat)} {k k' : Node (List Nat)}

theorem treeOf_copy (hs : SameShape d.copy.nodes c) (hk : d.copyNode place = some k) (hk' : c place = some k') :
    treeOf c (m + 1) place = .node k'.kind k'.tag k'.value (k.content.map (treeOf c m)) := by
  obtain ⟨p, node, hp, hnode, rfl⟩ := Doc.eq_of_copyNode hk
  obtain ⟨k'', hk'', hshape⟩ := hs.some hk
  cases hk'.symm.trans hk''
  have hkind : k'.kind ≠ .aliasNode := by
    have hne := Doc.kind_pointee hp hnode
    rw [← kind_of_shape hshape]
    exact hne
  simp only [treeOf, hk', hkind, if_false, ← content_of_shape hshape]

theorem treeOf_place (h₁ : SameShape d.copy.nodes c₁) (h₂ : SameShape d.copy.nodes c₂)
    (heq : treeOf c₁ d.copy.depth [] = treeOf c₂ d.copy.depth []) (hk : d.copyNode place = some k) :
    ∃ m, d.placeRank place ≤ m ∧ treeOf c₁ (m + 1) place = treeOf c₂ (m + 1) place := by
  induction place generalizing k with
  | nil => exact ⟨d.placeRank [], Nat.le_refl _, heq⟩
  | cons i place ih =>
    obtain ⟨p, node, hp, hnode, hi⟩ := content_of_copyNode_cons hk
    have hcopy := Doc.copyNode_eq hp hnode
    obtain ⟨m, hm, htree⟩ := ih hcopy
    obtain ⟨k₁, hk₁, -⟩ := h₁.some hcopy
    obtain ⟨k₂, hk₂, -⟩ := h₂.some hcopy
    rw [treeOf_copy h₁ hcopy hk₁, treeOf_copy h₂ hcopy hk₂, Tree.node.injEq] at htree
    have hchild := List.map_inj_left.mp htree.2.2.2 (i :: place) (mem_places.mpr ⟨i, hi, rfl⟩)
    have hlt := Doc.placeRank_cons hp hnode hi
    obtain ⟨m', rfl⟩ : ∃ m', m = m' + 1 := ⟨m - 1, by omega⟩
    exact ⟨m', by omega, hchild⟩

theorem eq_of_treeOf (h₁ : SameShape d.copy.nodes c₁) (h₂ : SameShape d.copy.nodes c₂)
    (heq : treeOf c₁ d.copy.depth [] = treeOf c₂ d.copy.depth []) : c₁ = c₂ := by
  funext place
  cases hk : d.copyNode place with
  | none => rw [h₁.none hk, h₂.none hk]
  | some k =>
    obtain ⟨m, -, htree⟩ := treeOf_place h₁ h₂ heq hk
    obtain ⟨k₁, hk₁, hshape₁⟩ := h₁.some hk
    obtain ⟨k₂, hk₂, hshape₂⟩ := h₂.some hk
    rw [treeOf_copy h₁ hk hk₁, treeOf_copy h₂ hk hk₂, Tree.node.injEq] at htree
    obtain ⟨hkind, htag, hvalue, -⟩ := htree
    have hshape := hshape₁.symm.trans hshape₂
    rw [hk₁, hk₂, Node.ext hkind htag hvalue (content_of_shape hshape) (aliasOf_of_shape hshape)]

end Trees

/-! ## Expanding a text more than once -/

section Scalars

theorem value_expandScalar (env : Env) (node : Node ι) :
    (expandScalar env node).value = safeExpandEnv env node.value := by
  unfold expandScalar
  split
  · rename_i hvalue
    rw [hvalue, safeExpandEnv_nil]
  · dsimp only
    split
    · rfl
    · rename_i heq
      exact (not_not.mp heq).symm

theorem value_iterate (env : Env) (k : Nat) (node : Node ι) :
    ((expandScalar env)^[k] node).value = (safeExpandEnv env)^[k] node.value := by
  induction k generalizing node with
  | zero => rfl
  | succ k ih => rw [Function.iterate_succ_apply, Function.iterate_succ_apply, ih, value_expandScalar]

theorem expandScalar_of_eq (h : safeExpandEnv env node.value = node.value) : expandScalar env node = node := by
  simp [expandScalar, h]

theorem expandScalar_of_ne (h : safeExpandEnv env node.value ≠ node.value) : expandScalar env node =
    { node with value := safeExpandEnv env node.value, tag := scalarYAMLTag (safeExpandEnv env node.value) } := by
  have hne : node.value ≠ [] := by
    intro hvalue
    rw [hvalue, safeExpandEnv_nil] at h
    exact h rfl
  simp [expandScalar, h, hne]

def Tagged (node : Node ι) : Prop := node.tag = scalarYAMLTag node.value

theorem Tagged.iterate (h : Tagged node) (k : Nat) : Tagged ((expandScalar env)^[k] node) := by
  induction k generalizing node with
  | zero => exact h
  | succ k ih =>
    rw [Function.iterate_succ_apply]
    refine ih ?_
    by_cases heq : safeExpandEnv env node.value = node.value
    · rw [expandScalar_of_eq heq]
      exact h
    · rw [expandScalar_of_ne heq]
      rfl

theorem iterate_expandScalar {k : Nat} (hk : k ≠ 0) : (expandScalar env)^[k] node = expandScalar env node ↔
    (safeExpandEnv env)^[k] node.value = safeExpandEnv env node.value := by
  constructor
  · intro h
    rw [← value_iterate, h, value_expandScalar]
  · intro h
    by_cases heq : safeExpandEnv env node.value = node.value
    · rw [expandScalar_of_eq heq]
      exact Function.iterate_fixed (expandScalar_of_eq heq) k
    · obtain ⟨j, rfl⟩ := Nat.exists_eq_succ_of_ne_zero hk
      -- from the first expansion on, the tag is the one of the text
      have htagged : Tagged (expandScalar env node) := by
        rw [expandScalar_of_ne heq]
        rfl
      have hvalue : ((expandScalar env)^[j + 1] node).value = (expandScalar env node).value := by
        rw [value_iterate, h, value_expandScalar]
      have hshape : shape ((expandScalar env)^[j + 1] node) = shape (expandScalar env node) := by
        rw [shape_iterate, shape_expandScalar]
      have htag : ((expandScalar env)^[j + 1] node).tag = (expandScalar env node).tag := by
        rw [htagged, ← hvalue, Function.iterate_succ_apply]
        exact htagged.iterate j
      exact Node.ext (kind_of_shape hshape) htag hvalue (content_of_shape hshape) (aliasOf_of_shape hshape)

theorem tag_iterate {κ : Type} {node' : Node κ} (htag : node.tag = node'.tag) (hvalue : node.value = node'.value)
    (k : Nat) : ((expandScalar env)^[k] node).tag = ((expandScalar env)^[k] node').tag := by
  induction k generalizing node node' with
  | zero => exact htag
  | succ k ih =>
    rw [Function.iterate_succ_apply, Function.iterate_succ_apply]
    refine ih ?_ (by rw [value_expandScalar, value_expandScalar, hvalue])
    by_cases heq : safeExpandEnv env node.value = node.value
    · rw [expandScalar_of_eq heq, expandScalar_of_eq (hvalue ▸ heq)]
      exact htag
    · rw [expandScalar_of_ne heq, expandScalar_of_ne (hvalue ▸ heq), hvalue]

end Scalars

/-! ## Documents with aliases -/

section Documents

variable [DecidableEq ι]

def expanded (env : Env) (d : Doc ι) : Heap ι := d.values.foldl (touch env) d.nodes

theorem unmarshal_eq {ρ : Type} (env : Env) (decode : Tree → Except String ρ) (d : Doc ι) : d.unmarshal env decode =
    some ((decode (treeOf (expanded env d) d.depth d.root)).mapError fun e => "decoding config: " ++ e) := by
  have hexpand : expandEnvInYAMLNode env d.depth d.nodes d.root = some (expanded env d) :=
    expand_eq (ranked d) (Nat.lt_succ_self _)
  rw [Doc.unmarshal, unmarshalYAMLWithEnv, hexpand, Option.map_some]

theorem transparent_iff_treeOf : d.Transparent env ↔
    treeOf (expanded env d) d.depth d.root = treeOf (expanded env d.copy) d.copy.depth [] := by
  constructor
  · intro h
    obtain ⟨r, hd, hc⟩ := h Tree .ok
    rw [unmarshal_eq] at hd hc
    have heq := Option.some.inj (hd.trans hc.symm)
    exact Except.ok.inj heq
  · intro h ρ decode
    refine ⟨_, unmarshal_eq env decode d, ?_⟩
    rw [unmarshal_eq, h]
    rfl

def expandedCopy (env : Env) (d : Doc ι) : Heap (List Nat) := fun place =>
  (d.copyNode place).map (expandScalar env)^[(d.pointee place).elim 0 fun p => d.values.count p]

theorem sameShape_expandedCopy (env : Env) (d : Doc ι) : SameShape d.copy.nodes (expandedCopy env d) := by
  intro place
  rw [expandedCopy, Option.map_map]
  show (d.copyNode place).map shape = _
  congr 1
  exact funext fun c => (shape_iterate env _ c).symm

theorem treeOf_expanded (env : Env) (d : Doc ι) :
    treeOf (expanded env d) d.depth d.root = treeOf (expandedCopy env d) d.copy.depth [] := by
  have hn := Nat.lt_succ_self (d.rank d.root)
  have hm := Nat.lt_succ_self (d.placeRank [])
  refine treeOf_eq (sameShape_foldl_touch env _ _) (sameShape_expandedCopy env d) ?_ rfl hn hm
  intro place p node node' hplace hp hc
  rw [expanded, foldl_touch] at hp
  obtain ⟨orig, horig, rfl⟩ := Option.map_eq_some_iff.mp hp
  rw [expandedCopy, Doc.copyNode_eq hplace horig, hplace, Option.elim_some, Option.map_some] at hc
  cases hc
  refine ⟨?_, ?_⟩
  · apply tag_iterate
    · rfl
    · rfl
  · rw [value_iterate, value_iterate, copyOf]

theorem transparent_iff_eq : d.Transparent env ↔ expandedCopy env d = expanded env d.copy := by
  rw [transparent_iff_treeOf, treeOf_expanded]
  refine ⟨eq_of_treeOf (sameShape_expandedCopy env d) (sameShape_foldl_touch env _ _), fun h => ?_⟩
  rw [h]

theorem expanded_of_mem (hnodup : d.values.Nodup) (hmem : p ∈ d.values) :
    expanded env d p = (d.nodes p).map (expandScalar env) := by
  rw [expanded, foldl_touch, List.count_eq_one_of_mem hnodup hmem]
  rfl

theorem expanded_of_notMem (hmem : p ∉ d.values) : expanded env d p = d.nodes p := by
  rw [expanded, foldl_touch, List.count_eq_zero_of_not_mem hmem]
  exact Option.map_id'

theorem expandedCopy_eq (hp : d.pointee place = some p) : expandedCopy env d place =
    (d.copyNode place).map (expandScalar env)^[d.values.count p] := by
  rw [expandedCopy, hp, Option.elim_some]

theorem again_of_eq (heq : expandedCopy env d = expanded env d.copy) (hnode : d.nodes p = some node)
    (hmem : p ∈ d.values) : (safeExpandEnv env)^[d.values.count p] node.value = safeExpandEnv env node.value := by
  obtain ⟨place, hin, hp⟩ := mem_values.mp hmem
  have h := congrFun heq place
  rw [expandedCopy_eq hp, expanded_of_mem (copy_values_nodup d) hin] at h
  change Option.map _ (d.copyNode place) = Option.map _ (d.copyNode place) at h
  rw [Doc.copyNode_eq hp hnode] at h
  have hvalue := congrArg Node.value (Option.some.inj h)
  rwa [value_iterate, value_expandScalar] at hvalue

theorem iterate_of_key (heq : expandedCopy env d = expanded env d.copy) (hnode : d.nodes p = some node)
    (hp : d.pointee place = some p) (hkey : place ∉ d.copy.values) :
    (safeExpandEnv env)^[d.values.count p] node.value = node.value := by
  have h := congrFun heq place
  rw [expandedCopy_eq hp, expanded_of_notMem hkey] at h
  change _ = d.copyNode place at h
  rw [Doc.copyNode_eq hp hnode] at h
  have hvalue := congrArg Node.value (Option.some.inj h)
  rwa [value_iterate] at hvalue

theorem eq_of_expandsOnce (honce : d.ExpandsOnce env) : expandedCopy env d = expanded env d.copy := by
  funext place
  cases hc : d.copyNode place with
  | none =>
    rw [(sameShape_expandedCopy env d).none hc]
    exact ((sameShape_foldl_touch env d.copy.nodes _).none hc).symm
  | some c =>
    obtain ⟨p, node, hp, hnode, rfl⟩ := Doc.eq_of_copyNode hc
    rw [expandedCopy_eq hp, hc, Option.map_some]
    by_cases hin : place ∈ d.copy.values
    · have hmem := mem_values.mpr ⟨place, hin, hp⟩
      rw [expanded_of_mem (copy_values_nodup d) hin]
      change _ = Option.map _ (d.copyNode place)
      rw [hc, Option.map_some, Option.some.injEq]
      have hcount : d.values.count p ≠ 0 := Nat.pos_iff_ne_zero.mp (List.count_pos_iff.mpr hmem)
      exact (iterate_expandScalar hcount).mpr (honce.again p node hnode hmem)
    · rw [expanded_of_notMem hin]
      change _ = d.copyNode place
      rw [hc, Option.some.injEq]
      by_cases hmem : p ∈ d.values
      · -- the node is a value elsewhere, and here it is in a key
        obtain ⟨node', hnode', hkind⟩ := scalar_of_mem_scalarsIn hmem
        cases hnode.symm.trans hnode'
        have hkey := honce.key p node place hnode hmem hp (fun hval => hin ((mem_copy_values hc hkind).mpr hval))
        apply Function.iterate_fixed
        exact expandScalar_of_eq hkey
      · rw [List.count_eq_zero_of_not_mem hmem]
        rfl

/-- A document with aliases gives the values of its copy if and only if it does not matter that a text is
expanded once for each way to it. -/
theorem alias_transparent_iff (env : Env) (d : Doc ι) : d.Transparent env ↔ d.ExpandsOnce env := by
  rw [transparent_iff_eq]
  refine ⟨fun heq => ⟨fun p node hnode hmem => again_of_eq heq hnode hmem, ?_⟩, eq_of_expandsOnce⟩
  intro p node place hnode hmem hp hkey
  obtain ⟨node', hnode', hkind⟩ := scalar_of_mem_scalarsIn hmem
  cases hnode.symm.trans hnode'
  have hout : place ∉ d.copy.values := fun hin =>
    hkey ((mem_copy_values (Doc.copyNode_eq hp hnode) hkind).mp hin)
  calc safeExpandEnv env node.value
    _ = (safeExpandEnv env)^[d.values.count p] node.value := (again_of_eq heq hnode hmem).symm
    _ = node.value := iterate_of_key heq hnode hp hout

end Documents

/-- The document `a: &x $A` with `b: *x`: its nodes, with the two keys and values. -/
def twice : Doc Nat where
  nodes
    | 0 => some ⟨.documentNode, "", [], [1], none⟩
    | 1 => some ⟨.mappingNode, "!!map", [], [2, 3, 4, 5], none⟩
    | 2 => some ⟨.scalarNode, "!!str", [0x61], [], none⟩
    | 3 => some ⟨.scalarNode, "!!str", [0x24, 0x41], [], none⟩
    | 4 => some ⟨.scalarNode, "!!str", [0x62], [], none⟩
    | 5 => some ⟨.aliasNode, "", [0x78], [], some 3⟩
    | _ => none
  root := 0
  rank
    | 0 => 3
    | 1 => 2
    | 5 => 1
    | _ => 0
  rank_lt := by
    intro p q node hp hq
    split at hp <;> cases hp <;> revert hq <;> revert q <;> decide
  scalar_leaf := by
    intro p node hp hkind
    split at hp <;> cases hp <;> first | rfl | cases hkind
  alias_target := by
    intro p node hp hkind
    split at hp <;> cases hp <;> first | exact ⟨3, _, rfl, rfl, by decide⟩ | cases hkind

/-- `A` is `$B`, and `B` is `x`. -/
def nested : Env := fun name => if name = [0x41] then some [0x24, 0x42] else if name = [0x42] then some [0x78] else none

def decodeFields : Tree → Except String (Bytes × Bytes)
  | .node _ _ _ [.node _ _ _ [_, .node _ _ a _, _, .node _ _ b _]] => .ok (a, b)
  | _ => .error "not a mapping of two fields"

/-- Both fields are `x`; without the alias both are `$B`. -/
theorem dollar_expanded_twice : twice.unmarshal nested decodeFields = some (.ok ([0x78], [0x78])) ∧
    twice.copy.unmarshal nested decodeFields = some (.ok ([0x24, 0x42], [0x24, 0x42])) ∧ ¬ twice.Transparent nested := by
  have halias : twice.unmarshal nested decodeFields = some (.ok ([0x78], [0x78])) := by rfl
  have hcopy : twice.copy.unmarshal nested decodeFields = some (.ok ([0x24, 0x42], [0x24, 0x42])) := by rfl
  refine ⟨halias, hcopy, fun h => ?_⟩
  obtain ⟨r, h₁, h₂⟩ := h _ decodeFields
  rw [halias] at h₁
  rw [hcopy, ← h₁] at h₂
  exact absurd h₂ (by decide)

end Csar.Proof.Configutil
