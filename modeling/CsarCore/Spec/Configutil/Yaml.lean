import CsarCore.Framework.Walk
import CsarCore.Impl.Configutil
import Mathlib.Logic.Function.Iterate

/-!
# Documents with aliases, and without

A document without alias cycles (`Doc`), the tree of what is in it (`treeOf`), and the
document in which each alias is replaced by a copy of its node (`Doc.copy`), whose nodes
are the places of the document, each given by the way to it from the root. The graphs of
nodes that `yaml.Unmarshal` gives (`ParsedGraph`), the expansion with a record of its
visits, and what it is to do linear work. yaml.v3 decodes scalars by their tags; what is
assumed of it is in `ScalarDecoder`. A field is the reference `${NAME}` (`Placeholder`),
and is to be decoded like the value as a plain scalar.
-/

namespace Csar.Spec.Configutil

open Impl.Configutil

section

variable {ι : Type}

def refs (node : Node ι) : List ι := node.content ++ node.aliasOf.toList

/-- A document without alias cycles: the pointers in a node are to nodes of a lower rank. A scalar has no
content, and an alias stands for a node that is none. -/
structure Doc (ι : Type) where
  nodes : Heap ι
  root : ι
  rank : ι → Nat
  rank_lt : ∀ {p q : ι} {node : Node ι}, nodes p = some node → q ∈ refs node → rank q < rank p
  scalar_leaf : ∀ {p : ι} {node : Node ι}, nodes p = some node → node.kind = .scalarNode → node.content = []
  alias_target : ∀ {p : ι} {node : Node ι}, nodes p = some node → node.kind = .aliasNode →
    ∃ q m, node.aliasOf = some q ∧ nodes q = some m ∧ m.kind ≠ .aliasNode

/-- The kinds, tags and texts of nodes, with the nodes that aliases stand for. -/
inductive Tree
  | nil
  | node (kind : Kind) (tag : String) (value : Bytes) (children : List Tree)

/-- What is in a node, to a depth of `n`. -/
def treeOf (h : Heap ι) : Nat → ι → Tree
  | 0, _ => .nil
  | n + 1, p =>
    match h p with
    | none => .nil
    | some node =>
      if node.kind = .aliasNode then node.aliasOf.elim .nil (treeOf h n)
      else .node node.kind node.tag node.value (node.content.map (treeOf h n))

/-- The copy of a node at a place; the number of a child comes before the place of its parent. -/
def copyOf (node : Node ι) (place : List Nat) : Node (List Nat) :=
  ⟨node.kind, node.tag, node.value, (List.range node.content.length).map (· :: place), none⟩

namespace Doc

variable (d : Doc ι)

/-- How deep a walk through the document is. -/
def depth : Nat := d.rank d.root + 1

def deref (p : ι) : ι :=
  match d.nodes p with
  | none => p
  | some node => if node.kind = .aliasNode then node.aliasOf.getD p else p

def pointee : List Nat → Option ι
  | [] => some (d.deref d.root)
  | i :: place => do
    let p ← pointee place
    let node ← d.nodes p
    (node.content[i]?).map d.deref

def copyNode (place : List Nat) : Option (Node (List Nat)) := do
  let p ← d.pointee place
  let node ← d.nodes p
  some (copyOf node place)

variable {d} {p : ι} {node : Node ι} {place : List Nat}

theorem rank_deref_le (p : ι) : d.rank (d.deref p) ≤ d.rank p := by
  unfold deref
  split
  · exact Nat.le_refl _
  · rename_i node hnode
    split
    · rename_i hkind
      obtain ⟨q, m, hq, -⟩ := d.alias_target hnode hkind
      rw [hq]
      exact Nat.le_of_lt (d.rank_lt hnode (by simp [refs, hq]))
    · exact Nat.le_refl _

theorem kind_deref (h : d.nodes (d.deref p) = some node) : node.kind ≠ .aliasNode := by
  intro hkind
  unfold deref at h
  split at h
  · rename_i hnone
    rw [hnone] at h
    cases h
  · rename_i node' hnode
    split at h
    · rename_i hkind'
      obtain ⟨q, m, hq, hm, hne⟩ := d.alias_target hnode hkind'
      rw [hq, Option.getD_some, hm, Option.some.injEq] at h
      exact hne (h ▸ hkind)
    · rename_i hne
      rw [hnode, Option.some.injEq] at h
      exact hne (h ▸ hkind)

theorem kind_pointee (hp : d.pointee place = some p) (h : d.nodes p = some node) : node.kind ≠ .aliasNode := by
  cases place with
  | nil =>
    cases hp
    exact kind_deref h
  | cons i place =>
    simp only [pointee, Option.bind_eq_bind, Option.bind_eq_some_iff, Option.map_eq_some_iff] at hp
    obtain ⟨_, -, _, -, q, -, rfl⟩ := hp
    exact kind_deref h

theorem pointee_cons {i : Nat} (hp : d.pointee place = some p) (h : d.nodes p = some node) :
    d.pointee (i :: place) = (node.content[i]?).map d.deref := by
  simp [pointee, hp, h]

theorem copyNode_eq (hp : d.pointee place = some p) (h : d.nodes p = some node) :
    d.copyNode place = some (copyOf node place) := by
  simp [copyNode, hp, h]

theorem eq_of_copyNode {c : Node (List Nat)} (h : d.copyNode place = some c) :
    ∃ p node, d.pointee place = some p ∧ d.nodes p = some node ∧ c = copyOf node place := by
  simp only [copyNode, Option.bind_eq_bind, Option.bind_eq_some_iff, Option.some.injEq] at h
  obtain ⟨p, hp, node, hnode, rfl⟩ := h
  exact ⟨p, node, hp, hnode, rfl⟩

def placeRank (d : Doc ι) (place : List Nat) : Nat := ((d.pointee place).map d.rank).getD 0

theorem placeRank_eq (hp : d.pointee place = some p) : d.placeRank place = d.rank p := by
  simp [placeRank, hp]

theorem placeRank_cons {i : Nat} (hp : d.pointee place = some p) (h : d.nodes p = some node)
    (hi : i < node.content.length) : d.placeRank (i :: place) < d.placeRank place := by
  have hchild : d.pointee (i :: place) = some (d.deref (node.content.get ⟨i, hi⟩)) := by
    rw [pointee_cons hp h, List.getElem?_eq_getElem hi]
    rfl
  rw [placeRank_eq hp, placeRank_eq hchild]
  refine Nat.lt_of_le_of_lt (rank_deref_le _) (d.rank_lt h ?_)
  exact List.mem_append_left _ (List.get_mem ..)

def copy (d : Doc ι) : Doc (List Nat) where
  nodes := d.copyNode
  root := []
  rank := d.placeRank
  rank_lt := by
    intro place place' c hc hmem
    obtain ⟨p, node, hp, hnode, rfl⟩ := eq_of_copyNode hc
    simp only [refs, copyOf, Option.toList_none, List.append_nil, List.mem_map, List.mem_range] at hmem
    obtain ⟨i, hi, rfl⟩ := hmem
    exact placeRank_cons hp hnode hi
  scalar_leaf := by
    intro place c hc hkind
    obtain ⟨p, node, hp, hnode, rfl⟩ := eq_of_copyNode hc
    rw [copyOf, d.scalar_leaf hnode hkind]
    rfl
  alias_target := by
    intro place c hc hkind
    obtain ⟨p, node, hp, hnode, rfl⟩ := eq_of_copyNode hc
    exact (kind_pointee hp hnode hkind).elim

/-- `UnmarshalYAMLWithEnv`, for a decoder that takes an alias for its node. -/
def unmarshal [DecidableEq ι] {ρ : Type} (env : Env) (decode : Tree → Except String ρ) (d : Doc ι) :
    Option (Except String ρ) :=
  unmarshalYAMLWithEnv env (fun h p => decode (treeOf h d.depth p)) d.depth d.nodes d.root

/-- The values are those of the document without aliases. -/
def Transparent [DecidableEq ι] (env : Env) (d : Doc ι) : Prop :=
  ∀ (ρ : Type) (decode : Tree → Except String ρ),
    ∃ r, d.unmarshal env decode = some r ∧ d.copy.unmarshal env decode = some r

end Doc

/-- The nodes with values of a node: of a mapping, not its keys. -/
def innerNodes (node : Node ι) : List ι :=
  match node.kind with
  | .documentNode => node.content
  | .sequenceNode => node.content
  | .mappingNode => mappingValues node.content
  | .scalarNode => []
  | .aliasNode => node.aliasOf.toList

/-- The scalars that are values in a node, to a depth of `n`, once for each way to them. -/
def scalarsIn (h : Heap ι) : Nat → ι → List ι
  | 0, _ => []
  | n + 1, p =>
    match h p with
    | none => []
    | some node => if node.kind = .scalarNode then [p] else (innerNodes node).flatMap (scalarsIn h n)

namespace Doc

variable (d : Doc ι)

def values : List ι := scalarsIn d.nodes d.depth d.root

/-- The place is in no key of a mapping. -/
def InValue : List Nat → Prop
  | [] => True
  | i :: place => InValue place ∧
    ∀ p node, d.pointee place = some p → d.nodes p = some node → node.kind = .mappingNode → i % 2 = 1

/-- Expanding a text once is expanding it once for each way to it as a value; in a key there is nothing
to expand. -/
structure ExpandsOnce [DecidableEq ι] (env : Env) : Prop where
  again : ∀ p node, d.nodes p = some node → p ∈ d.values →
    (safeExpandEnv env)^[d.values.count p] node.value = safeExpandEnv env node.value
  key : ∀ p node place, d.nodes p = some node → p ∈ d.values → d.pointee place = some p → ¬ d.InValue place →
    safeExpandEnv env node.value = node.value

end Doc

end

/-! ## The work of an expansion -/

section

variable {ι : Type}

def nextNodes (h : Heap ι) (p : ι) : List ι := (h p).elim [] innerNodes

/-- `expandEnvInYAMLNode`, noting the nodes that it visits. -/
def expandVisiting [DecidableEq ι] (env : Env) : Nat → Heap ι × List ι → ι → Option (Heap ι × List ι)
  | 0, _, _ => none
  | n + 1, s, p =>
    let visited := s.2 ++ [p]
    match s.1 p with
    | none => some (s.1, visited)
    | some node =>
      match node.kind with
      | .documentNode => node.content.foldlM (expandVisiting env n) (s.1, visited)
      | .sequenceNode => node.content.foldlM (expandVisiting env n) (s.1, visited)
      | .mappingNode => (mappingValues node.content).foldlM (expandVisiting env n) (s.1, visited)
      | .scalarNode => some (Function.update s.1 p (some (expandScalar env node)), visited)
      | .aliasNode =>
        match node.aliasOf with
        | none => some (s.1, visited)
        | some q => expandVisiting env n (s.1, visited) q

/-- A graph that `yaml.Unmarshal` gives, its nodes in the order of the parser: a node before its content,
which is in no other node, and one with an anchor before its aliases, which may be in its content. -/
structure ParsedGraph where
  nodes : Heap Nat
  size : Nat
  isSome_iff : ∀ {p : Nat}, (nodes p).isSome ↔ p < size
  root_lt : 0 < size
  content_after : ∀ {p q : Nat} {node : Node Nat}, nodes p = some node → q ∈ node.content → p < q ∧ q < size
  content_once : ∀ {p : Nat} {node : Node Nat}, nodes p = some node → node.content.Nodup
  one_parent : ∀ {p p' q : Nat} {node node' : Node Nat}, nodes p = some node → nodes p' = some node' →
    q ∈ node.content → q ∈ node'.content → p = p'
  alias_target : ∀ {p : Nat} {node : Node Nat}, nodes p = some node → node.kind = .aliasNode →
    node.content = [] ∧ ∃ q m, node.aliasOf = some q ∧ q < p ∧ nodes q = some m ∧ m.kind ≠ .aliasNode
  alias_only : ∀ {p : Nat} {node : Node Nat}, nodes p = some node → node.kind ≠ .aliasNode → node.aliasOf = none
  scalar_leaf : ∀ {p : Nat} {node : Node Nat}, nodes p = some node → node.kind = .scalarNode → node.content = []

namespace ParsedGraph

variable (g : ParsedGraph)

def edges : Nat := ∑ p ∈ Finset.range g.size, ((g.nodes p).elim [] refs).length

def Acyclic : Prop := Walk.Acyclic (nextNodes g.nodes) 0

/-- The number of ways from the root to values. -/
def ways : Nat := ∑ i ∈ Finset.range g.size, Walk.count (nextNodes g.nodes) i 0

def AliasFree : Prop := ∀ {p : Nat} {node : Node Nat}, g.nodes p = some node → node.kind ≠ .aliasNode

end ParsedGraph

/-- On graphs of a class the expansion returns, with visits bounded linearly in nodes and edges. -/
def LinearWork (G : ParsedGraph → Prop) : Prop :=
  ∃ a b : Nat, ∀ (env : Env) (g : ParsedGraph), G g →
    ∃ n h visited, expandVisiting env n (g.nodes, []) 0 = some (h, visited) ∧ visited.length ≤ a * (g.size + g.edges) + b

end

/-! ## Placeholders in typed fields -/

/-- What yaml.v3 does with scalars: the tag that it finds for a plain one, and what a field takes of a
scalar with a tag and a text. `none`: it is refused; `some none`: the field is left unset. -/
structure ScalarDecoder where
  plainTag : Bytes → String
  int : String → Bytes → Option (Option Int)
  bool : String → Bytes → Option (Option Bool)
  string : String → Bytes → Option (Option Bytes)
  /-- The plain words that `scalarYAMLTag` knows. -/
  plain_true : plainTag (utf8 "true") = "!!bool"
  plain_false : plainTag (utf8 "false") = "!!bool"
  plain_null : plainTag (utf8 "null") = "!!null"
  plain_tilde : plainTag (utf8 "~") = "!!null"
  /-- A string tag gives a string: a string field takes it, an int field does not, and a bool field only
  if it would be a string without the tag as well. -/
  string_str : ∀ v, string "!!str" v = some (some v)
  int_str : ∀ v, int "!!str" v = none
  bool_str : ∀ v, plainTag v ≠ "!!str" → bool "!!str" v = none
  /-- A null tag leaves a field unset. -/
  string_null : ∀ v, plainTag v = "!!null" → string "!!null" v = some none
  bool_null : ∀ v, plainTag v = "!!null" → bool "!!null" v = some none
  /-- A bool is taken by a bool field, and with its text by a string field. -/
  bool_bool : ∀ v, plainTag v = "!!bool" → ∃ b, bool "!!bool" v = some (some b)
  string_bool : ∀ v, plainTag v = "!!bool" → string "!!bool" v = some (some v)
  /-- Numbers and timestamps are not taken by a bool field. -/
  bool_other : ∀ v, plainTag v ∉ ["!!str", "!!null", "!!bool"] → bool (plainTag v) v = none

/-- A reference, in braces, to an environment variable as a value of a document. -/
structure Placeholder (ι : Type) where
  doc : Doc ι
  field : ι
  node : Node ι
  env : Env
  name : Bytes
  value : Bytes
  node_eq : doc.nodes field = some node
  mem_values : field ∈ doc.values
  text : node.value = Shell.dollar :: Shell.openBrace :: (name ++ [Shell.closeBrace])
  name_ok : name.head?.any (!Shell.isDigit ·) ∧ Shell.closeBrace ∉ name ∧ 0x2D ∉ name
  env_eq : env name = some value
  no_dollar : Shell.dollar ∉ value

/-- What is decoded for the field: `some none` is an error. -/
def Placeholder.decoded {ι ρ : Type} [DecidableEq ι] (x : Placeholder ι) (decode : String → Bytes → Option ρ) :
    Option (Option ρ) :=
  (unmarshalYAMLWithEnv x.env (fun h _ => ((h x.field).bind fun node => decode node.tag node.value).elim (.error "yaml") .ok)
    x.doc.depth x.doc.nodes x.doc.root).map Except.toOption

/-- The words that `scalarYAMLTag` does not take for strings. -/
def tagged : List Bytes := ["true", "false", "null", "~"].map utf8

end Csar.Spec.Configutil
