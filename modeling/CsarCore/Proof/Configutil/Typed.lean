import CsarCore.Framework.Utf8
import CsarCore.Proof.Configutil.Env
import CsarCore.Proof.Configutil.YamlEnv
import CsarCore.Spec.Configutil.Yaml

/-!
# Placeholders in typed fields

The value of a placeholder is decoded with the tag of `scalarYAMLTag` (`decoded_eq`): that
of a string, but for four words. So an `int` field takes no number from the environment
(`placeholder_iff`).
-/

namespace Csar.Proof.Configutil

open Impl.Configutil Spec.Configutil

theorem expand_of_no_dollar {s : Bytes} (h : Shell.dollar ∉ s) (mapping : Bytes → Bytes) : Shell.expand s mapping = s := by
  have hall : ∀ n s, Shell.dollar ∉ s → Shell.expandIn mapping n s = s := by
    intro n
    induction n with
    | zero => intro s _; cases s <;> rfl
    | succ n ih =>
      intro s hs
      cases s with
      | nil => rfl
      | cons c cs =>
        rw [List.mem_cons, not_or] at hs
        rw [Shell.expandIn, if_neg fun hc => hs.1 hc.1.symm, ih cs hs.2]
  exact hall s.length s h

theorem braceName_append {name : Bytes} (hne : name ≠ []) (h : Shell.closeBrace ∉ name) :
    Shell.braceName (name ++ [Shell.closeBrace]) = (name, name.length + 2) := by
  obtain ⟨c, cs, rfl⟩ := List.exists_cons_of_ne_nil hne
  have hnot : ∀ d ∈ c :: cs, decide (d ≠ Shell.closeBrace) = true := fun d hd => decide_eq_true fun heq => h (heq ▸ hd)
  have hwhile : ((c :: cs) ++ [Shell.closeBrace]).takeWhile (fun d => d ≠ Shell.closeBrace) = c :: cs := by
    rw [List.takeWhile_append_of_pos hnot]
    simp
  unfold Shell.braceName
  split
  · rename_i hspecial
    cases cs with
    | nil => rfl
    | cons d ds => exact absurd (Option.some.inj hspecial.2) fun heq => h (by simp [heq])
  · rw [if_neg (not_not.mpr (by simp)), hwhile]

variable {ι : Type} (x : Placeholder ι)

theorem safeExpandEnv_placeholder : safeExpandEnv x.env x.node.value = x.value := by
  obtain ⟨hdigit, hbrace, hdash⟩ := x.name_ok
  have hne : x.name ≠ [] := by
    intro hnil
    rw [hnil] at hdigit
    cases hdigit
  have hnot : x.name.head?.any Shell.isDigit = false := by
    cases hname : x.name with
    | nil => rfl
    | cons c cs => simpa [hname] using hdigit
  have hmapping : mapping x.env x.name = x.value := by
    have hplain : ¬ dash <:+: x.name := fun hin => hdash ((List.singleton_infix_iff _ _).mp hin)
    have hvalue := expands_unique hne hnot (Expands.plain hplain : Expands x.env x.name _)
    rwa [x.env_eq, Option.getD_some, eq_comm] at hvalue
  rw [safeExpandEnv, x.text, Shell.expand, List.length_cons, Shell.expandIn, if_pos ⟨rfl, List.cons_ne_nil _ _⟩,
    Shell.getShellName, if_pos rfl, braceName_append hne hbrace]
  dsimp only
  rw [if_pos hne, hmapping, List.drop_eq_nil_of_le (by simp)]
  cases hn : (Shell.openBrace :: (x.name ++ [Shell.closeBrace])).length <;> exact List.append_nil _

/-- However often it is visited, the scalar ends up with the value and its tag. -/
theorem iterate_placeholder (k : Nat) :
    (expandScalar x.env)^[k + 1] x.node = { x.node with value := x.value, tag := scalarYAMLTag x.value } := by
  have hdollar : x.value ≠ x.node.value := by
    intro heq
    exact x.no_dollar (heq ▸ x.text ▸ List.mem_cons_self)
  have hnonempty : x.node.value ≠ [] := by
    rw [x.text]
    exact List.cons_ne_nil _ _
  induction k with
  | zero =>
    rw [Nat.zero_add, Function.iterate_one, expandScalar, if_neg hnonempty, safeExpandEnv_placeholder]
    exact if_pos hdollar
  | succ k ih =>
    rw [Function.iterate_succ_apply', ih, expandScalar]
    split
    · rfl
    · exact if_neg (not_not.mpr (expand_of_no_dollar x.no_dollar _))

variable [DecidableEq ι]

theorem decoded_eq {ρ : Type} (decode : String → Bytes → Option ρ) :
    x.decoded decode = some (decode (scalarYAMLTag x.value) x.value) := by
  obtain ⟨k, hk⟩ := Nat.exists_eq_add_of_lt (List.count_pos_iff.mpr x.mem_values)
  have hexpand : expandEnvInYAMLNode x.env x.doc.depth x.doc.nodes x.doc.root =
      some (x.doc.values.foldl (touch x.env) x.doc.nodes) := expand_eq x.doc.rank_lt (Nat.lt_succ_self _)
  have hfield : (x.doc.values.foldl (touch x.env) x.doc.nodes) x.field =
      some { x.node with value := x.value, tag := scalarYAMLTag x.value } := by
    rw [foldl_touch, x.node_eq, hk, Nat.zero_add, Option.map_some, iterate_placeholder]
  simp only [Placeholder.decoded, unmarshalYAMLWithEnv, hexpand, Option.map_some, hfield, Option.bind_some]
  cases decode (scalarYAMLTag x.value) x.value <;> rfl

/-! ## Tags -/

section Tags

variable (y : ScalarDecoder) (v : Bytes)

theorem scalarYAMLTag_of_not_mem {v : Bytes} (hv : v ∉ tagged) : scalarYAMLTag v = "!!str" := by
  simp only [tagged, List.map_cons, List.map_nil, List.mem_cons, List.not_mem_nil, or_false, not_or] at hv
  rw [scalarYAMLTag, if_neg (not_or.mpr ⟨hv.1, hv.2.1⟩), if_neg (not_or.mpr hv.2.2)]

theorem scalarYAMLTag_of_mem {v : Bytes} (hv : v ∈ tagged) : scalarYAMLTag v = y.plainTag v := by
  simp only [tagged, List.map_cons, List.map_nil, List.mem_cons, List.not_mem_nil, or_false] at hv
  rcases hv with rfl | rfl | rfl | rfl
  · simp [scalarYAMLTag, y.plain_true]
  · simp [scalarYAMLTag, y.plain_false]
  · simp [scalarYAMLTag, y.plain_null, utf8_inj]
  · simp [scalarYAMLTag, y.plain_tilde, utf8_inj]

theorem int_iff :
    y.int (scalarYAMLTag v) v = y.int (y.plainTag v) v ↔ v ∈ tagged ∨ y.int (y.plainTag v) v = none := by
  by_cases hv : v ∈ tagged
  · exact iff_of_true (by rw [scalarYAMLTag_of_mem y hv]) (.inl hv)
  · rw [scalarYAMLTag_of_not_mem hv, y.int_str, or_iff_right hv]
    exact eq_comm

theorem bool_iff :
    y.bool (scalarYAMLTag v) v = y.bool (y.plainTag v) v ↔ v ∈ tagged ∨ y.plainTag v ∉ ["!!null", "!!bool"] := by
  by_cases hv : v ∈ tagged
  · exact iff_of_true (by rw [scalarYAMLTag_of_mem y hv]) (.inl hv)
  rw [scalarYAMLTag_of_not_mem hv, or_iff_right hv]
  by_cases hstr : y.plainTag v = "!!str"
  · rw [hstr]
    exact iff_of_true rfl (by decide)
  rw [y.bool_str v hstr]
  by_cases hnull : y.plainTag v = "!!null"
  · rw [hnull, y.bool_null v hnull]
    exact iff_of_false nofun (by decide)
  by_cases hbool : y.plainTag v = "!!bool"
  · obtain ⟨b, hb⟩ := y.bool_bool v hbool
    rw [hbool, hb]
    exact iff_of_false nofun (by decide)
  · exact iff_of_true (y.bool_other v (by simp [hstr, hnull, hbool])).symm (by simp [hnull, hbool])

theorem string_iff : y.string (scalarYAMLTag v) v = some (some v) ↔ v ≠ utf8 "null" ∧ v ≠ utf8 "~" := by
  by_cases hv : v ∈ tagged
  · rw [scalarYAMLTag_of_mem y hv]
    simp only [tagged, List.map_cons, List.map_nil, List.mem_cons, List.not_mem_nil, or_false] at hv
    rcases hv with rfl | rfl | rfl | rfl
    · rw [y.plain_true, y.string_bool _ y.plain_true]
      simp [utf8_inj]
    · rw [y.plain_false, y.string_bool _ y.plain_false]
      simp [utf8_inj]
    · rw [y.plain_null, y.string_null _ y.plain_null]
      simp
    · rw [y.plain_tilde, y.string_null _ y.plain_tilde]
      simp
  · rw [scalarYAMLTag_of_not_mem hv, y.string_str]
    refine iff_of_true rfl ⟨?_, ?_⟩ <;> exact fun heq => hv (heq ▸ List.mem_map_of_mem (by decide))

end Tags

/-- Into an `int` field a placeholder is decoded like the plain scalar just if its value is one of four
words or no `int`; into a `bool` field just if it is one of these words, or neither null nor a `bool`; a
string field takes the value unless it is one of the two words for null. -/
theorem placeholder_iff (y : ScalarDecoder) :
    (x.decoded y.int = some (y.int (y.plainTag x.value) x.value) ↔
      x.value ∈ tagged ∨ y.int (y.plainTag x.value) x.value = none) ∧
    (x.decoded y.bool = some (y.bool (y.plainTag x.value) x.value) ↔
      x.value ∈ tagged ∨ y.plainTag x.value ∉ ["!!null", "!!bool"]) ∧
    (x.decoded y.string = some (some (some x.value)) ↔ x.value ≠ utf8 "null" ∧ x.value ≠ utf8 "~") := by
  simp only [decoded_eq, Option.some.injEq]
  exact ⟨int_iff y x.value, bool_iff y x.value, string_iff y x.value⟩

/-- The document `count: ${N}`, with `N=5`. -/
def countFive : Placeholder Nat where
  doc :=
    { nodes := fun p =>
        [⟨.mappingNode, "!!map", [], [1, 2], none⟩, ⟨.scalarNode, "!!str", utf8 "count", [], none⟩,
          ⟨.scalarNode, "!!str", utf8 "$\x7bN\x7d", [], none⟩][p]?
      root := 0
      rank := fun p => 2 - p
      rank_lt := by
        intro p q node hp hq
        rcases p with _ | _ | _ | p <;> cases hp <;> simp [refs] at hq
        omega
      scalar_leaf := by
        intro p node hp hkind
        rcases p with _ | _ | _ | p <;> cases hp <;> first | rfl | cases hkind
      alias_target := by
        intro p node hp hkind
        rcases p with _ | _ | _ | p <;> cases hp
        all_goals cases hkind }
  field := 2
  node := ⟨.scalarNode, "!!str", utf8 "$\x7bN\x7d", [], none⟩
  env := fun _ => some (utf8 "5")
  name := utf8 "N"
  value := utf8 "5"
  node_eq := rfl
  mem_values := by decide +kernel
  text := by decide +kernel
  name_ok := by decide +kernel
  env_eq := rfl
  no_dollar := by decide +kernel

/-- A decoder that knows the four words, and one number. -/
def fewScalars : ScalarDecoder where
  plainTag v :=
    if v = utf8 "true" ∨ v = utf8 "false" then "!!bool"
    else if v = utf8 "null" ∨ v = utf8 "~" then "!!null"
    else if v = utf8 "5" then "!!int"
    else "!!str"
  int tag _ := if tag = "!!null" then some none else if tag = "!!int" then some (some 5) else none
  bool tag v := if tag = "!!null" then some none else if tag = "!!bool" then some (some (v = utf8 "true")) else none
  string tag v := if tag = "!!null" then some none else some (some v)
  plain_true := by decide +kernel
  plain_false := by decide +kernel
  plain_null := by decide +kernel
  plain_tilde := by decide +kernel
  string_str _ := rfl
  int_str _ := rfl
  bool_str _ _ := rfl
  string_null _ _ := rfl
  bool_null _ _ := rfl
  bool_bool v _ := ⟨_, rfl⟩
  string_bool _ _ := rfl
  bool_other v hv := by
    rw [List.mem_cons, List.mem_cons, List.mem_singleton, not_or, not_or] at hv
    rw [if_neg hv.2.1, if_neg hv.2.2]

/-- However yaml.v3 decodes scalars, it refuses the placeholder, though not the plain scalar. -/
theorem countFive_refused :
    (∀ y : ScalarDecoder, countFive.decoded y.int = some none) ∧
      ∃ y : ScalarDecoder, y.int (y.plainTag (utf8 "5")) (utf8 "5") = some (some 5) := by
  refine ⟨fun y => ?_, fewScalars, by decide +kernel⟩
  have hv : countFive.value ∉ tagged := by decide +kernel
  rw [decoded_eq, scalarYAMLTag_of_not_mem hv, y.int_str]

end Csar.Proof.Configutil
