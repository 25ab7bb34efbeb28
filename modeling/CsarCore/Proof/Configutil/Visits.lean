import CsarCore.Proof.Configutil.YamlEnv
import CsarCore.Spec.Configutil.Yaml

/-!
# The visits of an expansion

`expandEnvInYAMLNode` follows aliases and remembers nothing, so it makes a tour of the
document (`visiting_eq`): one visit for each way from the root to a value. It does not
return from an alias cycle, and its work is linear just if there are none and the ways
are that many (`linearWork_iff`).
-/

namespace Csar.Proof.Configutil

open Impl.Configutil Spec.Configutil

variable {ι : Type} {env : Env} {h h' : Heap ι} {p q : ι} {node : Node ι} {n : Nat}

theorem nextNodes_of_none (hp : h p = none) : nextNodes h p = [] := by rw [nextNodes, hp, Option.elim_none]

theorem nextNodes_of_some (hp : h p = some node) : nextNodes h p = innerNodes node := by
  rw [nextNodes, hp, Option.elim_some]

theorem nextNodes_of_sameShape (hs : SameShape h h') : nextNodes h = nextNodes h' := by
  funext p
  cases hp : h p with
  | none => rw [nextNodes_of_none hp, nextNodes_of_none (hs.none hp)]
  | some node =>
    obtain ⟨node', hp', hshape⟩ := hs.some hp
    rw [nextNodes_of_some hp, nextNodes_of_some hp', inner_of_shape hshape]

section Visiting

variable [DecidableEq ι] {v : List ι}

theorem visiting_of_none (hp : h p = none) : expandVisiting env (n + 1) (h, v) p = some (h, v ++ [p]) := by
  simp only [expandVisiting, hp]

theorem visiting_scalar (hp : h p = some node) (hkind : node.kind = .scalarNode) :
    expandVisiting env (n + 1) (h, v) p = some (touch env h p, v ++ [p]) := by
  simp only [expandVisiting, hp, hkind, touch, Option.map_some]

theorem visiting_inner (hp : h p = some node) (hkind : node.kind ≠ .scalarNode) :
    expandVisiting env (n + 1) (h, v) p = (innerNodes node).foldlM (expandVisiting env n) (h, v ++ [p]) := by
  simp only [expandVisiting, hp, innerNodes]
  cases hk : node.kind with
  | scalarNode => exact absurd hk hkind
  | aliasNode => cases node.aliasOf <;> simp
  | documentNode => rfl
  | sequenceNode => rfl
  | mappingNode => rfl

theorem fst_visiting (n : Nat) (s : Heap ι × List ι) (p : ι) :
    (expandVisiting env n s p).map Prod.fst = expandEnvInYAMLNode env n s.1 p := by
  induction n generalizing s p with
  | zero => rfl
  | succ n ih =>
    obtain ⟨h, v⟩ := s
    have hlist : ∀ (qs : List ι) (s : Heap ι × List ι),
        (qs.foldlM (expandVisiting env n) s).map Prod.fst = qs.foldlM (expandEnvInYAMLNode env n) s.1 := by
      intro qs
      induction qs with
      | nil => exact fun s => rfl
      | cons q qs ihqs =>
        intro s
        rw [List.foldlM_cons, List.foldlM_cons, ← ih]
        cases expandVisiting env n s q with
        | none => rfl
        | some s' => exact ihqs s'
    cases hp : h p with
    | none => rw [visiting_of_none hp, expand_of_none hp, Option.map_some]
    | some node =>
      by_cases hkind : node.kind = .scalarNode
      · rw [visiting_scalar hp hkind, expand_scalar hp hkind, Option.map_some]
      · rw [visiting_inner hp hkind, expand_inner hp hkind, hlist]

theorem visiting_eq (env : Env) (n : Nat) (h : Heap ι) (v : List ι) (p : ι) :
    (expandVisiting env n (h, v) p).map Prod.snd = (Walk.tour (nextNodes h) n p).map (v ++ ·) ∧
      ∀ r, expandVisiting env n (h, v) p = some r → SameShape h r.1 := by
  induction n generalizing h v p with
  | zero => exact ⟨rfl, fun r hr => by cases hr⟩
  | succ n ih =>
    cases hp : h p with
    | none =>
      rw [visiting_of_none hp, Walk.tour, nextNodes_of_none hp]
      refine ⟨rfl, fun r hr => ?_⟩
      cases hr
      exact .refl h
    | some node =>
      by_cases hkind : node.kind = .scalarNode
      · have hnext : nextNodes h p = [] := by rw [nextNodes_of_some hp, innerNodes, hkind]
        rw [visiting_scalar hp hkind, Walk.tour, hnext]
        refine ⟨rfl, fun r hr => ?_⟩
        cases hr
        exact sameShape_foldl_touch env h [p]
      · -- one branch after the other: none of them changes the course of the next
        have hlist : ∀ (qs : List ι) (h' : Heap ι) (v : List ι), SameShape h h' →
            (qs.foldlM (expandVisiting env n) (h', v)).map Prod.snd =
                (Walk.joined (Walk.tour (nextNodes h) n) qs).map (v ++ ·) ∧
              ∀ r, qs.foldlM (expandVisiting env n) (h', v) = some r → SameShape h r.1 := by
          intro qs
          induction qs with
          | nil =>
            intro h' v hs
            refine ⟨by rw [Walk.joined, Option.map_some, List.append_nil]; rfl, fun r hr => ?_⟩
            cases hr
            exact hs
          | cons q qs ihqs =>
            intro h' v hs
            obtain ⟨hvisited, hshape⟩ := ih h' v q
            rw [← nextNodes_of_sameShape hs] at hvisited
            rw [List.foldlM_cons, Walk.joined]
            cases hq : expandVisiting env n (h', v) q with
            | none =>
              rw [hq] at hvisited
              rw [Option.map_eq_none_iff.mp hvisited.symm]
              exact ⟨rfl, fun r hr => by cases hr⟩
            | some s =>
              rw [hq, Option.map_some, eq_comm, Option.map_eq_some_iff] at hvisited
              obtain ⟨l, hl, hlv⟩ := hvisited
              obtain ⟨hrest, hrestshape⟩ := ihqs s.1 s.2 (hs.trans (hshape s hq))
              refine ⟨?_, hrestshape⟩
              rw [hl, Option.bind_some, Option.map_map]
              refine hrest.trans (congrArg (fun f => Option.map f _) (funext fun ls => ?_))
              rw [← hlv, Function.comp_apply, List.append_assoc]
        obtain ⟨hvisited, hshape⟩ := hlist (innerNodes node) h (v ++ [p]) (.refl h)
        rw [visiting_inner hp hkind, Walk.tour, nextNodes_of_some hp]
        refine ⟨?_, hshape⟩
        rw [hvisited, Option.map_map]
        refine congrArg (fun f => Option.map f _) (funext fun ls => ?_)
        rw [Function.comp_apply, List.append_assoc, List.singleton_append]

end Visiting

/-! ## Parsed graphs -/

section Parsed

variable (g : ParsedGraph)

theorem refs_lt {p q : Nat} {node : Node Nat} (hp : g.nodes p = some node) (hq : q ∈ refs node) : q < g.size := by
  rcases List.mem_append.mp hq with hcontent | halias
  · exact (g.content_after hp hcontent).2
  · by_cases hkind : node.kind = .aliasNode
    · obtain ⟨-, t, m, ht, hlt, -⟩ := g.alias_target hp hkind
      rw [ht, Option.toList_some, List.mem_singleton] at halias
      have hlt' : p < g.size := g.isSome_iff.mp (by rw [hp]; rfl)
      omega
    · rw [g.alias_only hp hkind] at halias
      cases halias

theorem reach_lt {q : Nat} (h : Walk.Reach (nextNodes g.nodes) 0 q) : q < g.size := by
  rcases Relation.ReflTransGen.cases_tail h with rfl | ⟨r, -, hstep⟩
  · exact g.root_lt
  · cases hr : g.nodes r with
    | none =>
      rw [nextNodes_of_none hr] at hstep
      cases hstep
    | some node =>
      rw [nextNodes_of_some hr] at hstep
      exact refs_lt g hr (mem_refs_of_mem_inner hstep)

theorem acyclic_iff_count : g.Acyclic ↔ Walk.count (nextNodes g.nodes) g.size 0 = 0 := by
  refine ⟨fun hacyclic => ?_, Walk.acyclic_of_count_eq_zero⟩
  have hcount := Walk.count_eq_zero_of_acyclic (S := Finset.range g.size)
    (fun q hq => Finset.mem_range.mpr (reach_lt g hq)) hacyclic
  rw [Finset.card_range] at hcount
  exact hcount

theorem length_visited {visited : List Nat} {h : Heap Nat}
    (hv : expandVisiting env n (g.nodes, []) 0 = some (h, visited)) : g.Acyclic ∧ visited.length = g.ways := by
  have hsnd := (visiting_eq env n g.nodes [] 0).1
  rw [hv, Option.map_some, eq_comm, Option.map_eq_some_iff] at hsnd
  obtain ⟨l, hl, rfl⟩ := hsnd
  have hcount := Walk.isSome_tour.mp (Option.isSome_iff_exists.mpr ⟨l, hl⟩)
  have hacyclic := Walk.acyclic_of_count_eq_zero hcount
  refine ⟨hacyclic, ?_⟩
  rw [List.nil_append, Walk.length_tour hl, Walk.sum_count_eq hcount ((acyclic_iff_count g).mp hacyclic)]
  rfl

theorem exists_visited (env : Env) (h : g.Acyclic) : ∃ s, expandVisiting env g.size (g.nodes, []) 0 = some s := by
  obtain ⟨l, hl⟩ := Option.isSome_iff_exists.mp (Walk.isSome_tour.mpr ((acyclic_iff_count g).mp h))
  have hsnd := (visiting_eq env g.size g.nodes [] 0).1
  rw [hl, Option.map_some, Option.map_eq_some_iff] at hsnd
  obtain ⟨s, hs, -⟩ := hsnd
  exact ⟨s, hs⟩

/-- The expansion returns, at some depth, just if there is no alias cycle. -/
theorem terminates_iff (env : Env) : (∃ n, (expandEnvInYAMLNode env n g.nodes 0).isSome) ↔ g.Acyclic := by
  constructor
  · rintro ⟨n, hn⟩
    rw [← fst_visiting n (g.nodes, []) 0, Option.isSome_map] at hn
    obtain ⟨⟨h, visited⟩, hv⟩ := Option.isSome_iff_exists.mp hn
    exact (length_visited g hv).1
  · intro hacyclic
    obtain ⟨s, hs⟩ := exists_visited g env hacyclic
    refine ⟨g.size, ?_⟩
    rw [← fst_visiting g.size (g.nodes, []) 0, hs]
    rfl

/-! ## Without aliases -/

theorem content_of_inner (hfree : g.AliasFree) {p q : Nat} {node : Node Nat} (hp : g.nodes p = some node)
    (hq : q ∈ innerNodes node) : q ∈ node.content := by
  rcases List.mem_append.mp (mem_refs_of_mem_inner hq) with hcontent | halias
  · exact hcontent
  · rw [g.alias_only hp (hfree hp)] at halias
    cases halias

theorem tree_of_aliasFree (hfree : g.AliasFree) : Walk.Tree (nextNodes g.nodes) g.size := by
  have hnext : ∀ {p q : Nat}, q ∈ nextNodes g.nodes p → ∃ node, g.nodes p = some node ∧ q ∈ node.content := by
    intro p q hq
    cases hp : g.nodes p with
    | none =>
      rw [nextNodes_of_none hp] at hq
      cases hq
    | some node =>
      rw [nextNodes_of_some hp] at hq
      exact ⟨node, rfl, content_of_inner g hfree hp hq⟩
  refine ⟨fun {p q} hq => ?_, fun {p p' q} hq hq' => ?_, fun p => ?_⟩
  · obtain ⟨node, hp, hcontent⟩ := hnext hq
    exact g.content_after hp hcontent
  · obtain ⟨node, hp, hcontent⟩ := hnext hq
    obtain ⟨node', hp', hcontent'⟩ := hnext hq'
    exact g.one_parent hp hp' hcontent hcontent'
  · cases hp : g.nodes p with
    | none =>
      rw [nextNodes_of_none hp]
      exact .nil
    | some node =>
      rw [nextNodes_of_some hp, innerNodes]
      have hnodup := g.content_once hp
      cases hkind : node.kind with
      | documentNode | sequenceNode => exact hnodup
      | mappingNode => exact hnodup.sublist (mappingValues_sublist _)
      | scalarNode => exact .nil
      | aliasNode => exact absurd hkind (hfree hp)

theorem acyclic_of_aliasFree (hfree : g.AliasFree) : g.Acyclic :=
  (acyclic_iff_count g).mpr ((tree_of_aliasFree g hfree).count_eq_zero g.root_lt (Nat.le_add_left _ _))

end Parsed

/-- On a class of documents the work is linear just if none has an alias cycle and the ways to values are
linearly many; without aliases it is. -/
theorem linearWork_iff (G : ParsedGraph → Prop) :
    (LinearWork G ↔
      (∀ g, G g → g.Acyclic) ∧ ∃ a b, ∀ g, G g → g.ways ≤ a * (g.size + g.edges) + b) ∧
    ((∀ g, G g → g.AliasFree) → LinearWork G) := by
  have hiff : LinearWork G ↔ (∀ g, G g → g.Acyclic) ∧ ∃ a b, ∀ g, G g → g.ways ≤ a * (g.size + g.edges) + b := by
    constructor
    · rintro ⟨a, b, hwork⟩
      refine ⟨fun g hg => ?_, a, b, fun g hg => ?_⟩
      · obtain ⟨n, h, visited, hv, -⟩ := hwork (fun _ => none) g hg
        exact (length_visited g hv).1
      · obtain ⟨n, h, visited, hv, hle⟩ := hwork (fun _ => none) g hg
        rw [(length_visited g hv).2] at hle
        exact hle
    · rintro ⟨hacyclic, a, b, hways⟩
      refine ⟨a, b, fun env g hg => ?_⟩
      obtain ⟨⟨h, visited⟩, hv⟩ := exists_visited g env (hacyclic g hg)
      refine ⟨g.size, h, visited, hv, ?_⟩
      rw [(length_visited g hv).2]
      exact hways g hg
  refine ⟨hiff, fun hfree => hiff.mpr ⟨fun g hg => acyclic_of_aliasFree g (hfree g hg), 1, 0, fun g hg => ?_⟩⟩
  have hle : g.ways ≤ g.size := (tree_of_aliasFree g (hfree g hg)).sum_count_le_size g.size g.root_lt
  omega

/-- The nodes of `a: &x [*x]`. -/
def selfAliasNodes : Heap Nat
  | 0 => some ⟨.documentNode, "", [], [1], none⟩
  | 1 => some ⟨.mappingNode, "!!map", [], [2, 3], none⟩
  | 2 => some ⟨.scalarNode, "!!str", utf8 "a", [], none⟩
  | 3 => some ⟨.sequenceNode, "!!seq", [], [4], none⟩
  | 4 => some ⟨.aliasNode, "", utf8 "x", [], some 3⟩
  | _ => none

/-- A list that holds an alias of itself. -/
def selfAlias : ParsedGraph where
  nodes := selfAliasNodes
  size := 5
  isSome_iff {p} := by rcases p with _ | _ | _ | _ | _ | p <;> simp [selfAliasNodes]
  root_lt := by decide
  content_after {p q node} hp := by
    rcases p with _ | _ | _ | _ | _ | p <;> cases hp <;> simp <;> omega
  content_once {p node} hp := by rcases p with _ | _ | _ | _ | _ | p <;> cases hp <;> decide
  one_parent {p p' q node node'} hp hp' hq hq' := by
    rcases p with _ | _ | _ | _ | _ | p <;> cases hp <;> rcases p' with _ | _ | _ | _ | _ | p' <;> cases hp' <;>
      simp at hq hq' ⊢ <;> omega
  alias_target {p node} hp hkind := by
    rcases p with _ | _ | _ | _ | _ | p <;> cases hp <;> cases hkind
    exact ⟨rfl, 3, _, rfl, by decide, rfl, by decide⟩
  alias_only {p node} hp hkind := by
    rcases p with _ | _ | _ | _ | _ | p <;> cases hp <;> first | rfl | exact absurd rfl hkind
  scalar_leaf {p node} hp hkind := by
    rcases p with _ | _ | _ | _ | _ | p <;> cases hp <;> cases hkind
    rfl

theorem selfAlias_not_expanded :
    (∀ (env : Env) (n : Nat), expandEnvInYAMLNode env n selfAlias.nodes 0 = none) ∧ ¬ LinearWork fun _ => True := by
  have hcyclic : ¬ selfAlias.Acyclic := by
    rw [acyclic_iff_count]
    decide
  refine ⟨fun env n => ?_, fun ⟨_, _, hwork⟩ => ?_⟩
  · by_contra hsome
    exact hcyclic ((terminates_iff selfAlias env).mp ⟨n, Option.isSome_iff_ne_none.mpr hsome⟩)
  · obtain ⟨n, h, visited, hv, -⟩ := hwork (fun _ => none) selfAlias trivial
    exact hcyclic (length_visited selfAlias hv).1

end Csar.Proof.Configutil
