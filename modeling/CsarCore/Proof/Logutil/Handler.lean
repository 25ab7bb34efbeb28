import CsarCore.Spec.Logutil.Handler

/-!
# What the redacting handler hides

Redaction makes two attributes equal exactly if they differ only in values under
sensitive keys (`redactAttr_eq_iff`). A group is redacted member by member whatever its
key, so what is in a group with a sensitive key is passed on.
-/

namespace Csar.Proof.Logutil

open Impl.Logutil Spec.Logutil

variable {ν : Type}

/-! ## Attributes -/

theorem isEmptyGroup_redactAttr {a : Attr ν} (h : a.Built) : (redactAttr a).isEmptyGroup = a.isEmptyGroup := by
  induction h with
  | value key v =>
    rw [redactAttr]
    split <;> rfl
  | group key attrs _ hne ih =>
    cases attrs with
    | nil => rfl
    | cons a attrs =>
      have ha : (redactAttr a).isEmptyGroup = false := by
        rw [ih a List.mem_cons_self, hne a List.mem_cons_self]
      rw [redactAttr, redactAttrs, slogGroup, List.filter_cons_of_pos (by rw [ha]; rfl)]
      rfl

variable {attrs : List (Attr ν)} {cs cs' : List (Call ν)} {as' : List (Attr ν)}

theorem filter_redactAttrs (h : ∀ a ∈ attrs, a.Built ∧ a.isEmptyGroup = false) :
    ((redactAttrs attrs).filter fun a => !a.isEmptyGroup) = redactAttrs attrs := by
  refine List.filter_eq_self.mpr ?_
  rw [redactAttrs_eq_map]
  refine List.forall_mem_map.mpr fun a ha => ?_
  rw [isEmptyGroup_redactAttr (h a ha).1, (h a ha).2]
  rfl

variable {key key' : Bytes} {v : Value ν} {as bs : List (Attr ν)}

theorem redactAttr_group (hattrs : ∀ a ∈ attrs, a.Built)
    (hne : ∀ a ∈ attrs, a.isEmptyGroup = false) : redactAttr (.group key attrs) = .group key (redactAttrs attrs) := by
  rw [redactAttr, slogGroup, filter_redactAttrs fun a ha => ⟨hattrs a ha, hne a ha⟩]

theorem differ_value_iff {v' : Value ν} :
    Differ SecretLeaf (.value key v) (.value key' v') ↔ key = key' ∧ (v = v' ∨ isSensitiveKey key) := by
  constructor
  · intro h
    cases h with
    | free h => exact ⟨h.1.1, .inr h.1.2⟩
    | value => exact ⟨rfl, .inl rfl⟩
  · rintro ⟨rfl, rfl | hkey⟩
    · exact .value key v
    · exact .free ⟨⟨rfl, hkey⟩, rfl, rfl⟩

theorem differ_group_iff :
    Differ SecretLeaf (.group key as) (.group key' bs) ↔ key = key' ∧ DifferAll SecretLeaf as bs := by
  constructor
  · intro h
    cases h with
    | free h => cases h.2.1
    | group _ h => exact ⟨rfl, h⟩
  · rintro ⟨rfl, h⟩
    exact .group key h

theorem not_differ_value_group : ¬ Differ SecretLeaf (.value key v) (.group key' as) := by
  intro h
  cases h with
  | free h => cases h.2.2

theorem not_differ_group_value : ¬ Differ SecretLeaf (.group key as) (.value key' v) := by
  intro h
  cases h with
  | free h => cases h.2.1

theorem redactAttr_value_eq_iff {v' : Value ν} :
    redactAttr (.value key v) = redactAttr (.value key' v') ↔ key = key' ∧ (v = v' ∨ isSensitiveKey key) := by
  have hkey : ∀ (key : Bytes) (v : Value ν), (redactAttr (.value key v)).key = key := by
    intro key v
    rw [redactAttr]
    split <;> rfl
  refine ⟨fun h => ?_, ?_⟩
  · obtain rfl : key = key' := by rw [← hkey key v, h, hkey]
    by_cases hs : isSensitiveKey key
    · exact ⟨rfl, .inr hs⟩
    · rw [redactAttr, redactAttr, if_neg hs, if_neg hs] at h
      exact ⟨rfl, .inl (Attr.value.inj h).2⟩
  · rintro ⟨rfl, rfl | hs⟩
    · rfl
    · rw [redactAttr, redactAttr, if_pos hs, if_pos hs]

/-- Attributes, each of which is redacted to the same exactly if it may differ. -/
theorem redactAttrs_eq_iff_of
    (h : ∀ a ∈ as, ∀ b : Attr ν, b.Built → (redactAttr a = redactAttr b ↔ Differ SecretLeaf a b))
    (hbs : ∀ b ∈ bs, b.Built) : redactAttrs as = redactAttrs bs ↔ DifferAll SecretLeaf as bs := by
  induction as generalizing bs with
  | nil =>
    cases bs with
    | nil => exact ⟨fun _ => .nil, fun _ => rfl⟩
    | cons b bs =>
      refine ⟨fun h => ?_, fun h => ?_⟩
      · cases h
      · cases h
  | cons a as ih =>
    obtain ⟨ha, has⟩ := List.forall_mem_cons.mp h
    cases bs with
    | nil =>
      refine ⟨fun h => ?_, fun h => ?_⟩
      · cases h
      · cases h
    | cons b bs =>
      obtain ⟨hb, hbs⟩ := List.forall_mem_cons.mp hbs
      rw [redactAttrs, redactAttrs, List.cons.injEq, ha b hb, ih has hbs]
      refine ⟨fun h => .cons h.1 h.2, fun h => ?_⟩
      cases h with
      | cons h hs => exact ⟨h, hs⟩

theorem redactAttr_eq_iff {a : Attr ν} (ha : a.Built) :
    ∀ b : Attr ν, b.Built → (redactAttr a = redactAttr b ↔ Differ SecretLeaf a b) := by
  induction ha with
  | value key v =>
    intro b hb
    cases hb with
    | value key' v' => rw [redactAttr_value_eq_iff, differ_value_iff]
    | group key' bs _ _ =>
      refine iff_of_false (fun h => ?_) not_differ_value_group
      rw [redactAttr, redactAttr] at h
      split at h <;> cases h
  | group key as hattrs hne ih =>
    intro b hb
    cases hb with
    | value key' v' =>
      refine iff_of_false (fun h => ?_) not_differ_group_value
      rw [redactAttr, redactAttr] at h
      split at h <;> cases h
    | group key' bs hbs hne' =>
      rw [redactAttr_group hattrs hne, redactAttr_group hbs hne', Attr.group.injEq, differ_group_iff,
        redactAttrs_eq_iff_of ih hbs]

theorem redactAttrs_eq_iff (has : ∀ a ∈ as, a.Built) (hbs : ∀ b ∈ bs, b.Built) :
    redactAttrs as = redactAttrs bs ↔ DifferAll SecretLeaf as bs :=
  redactAttrs_eq_iff_of (fun a ha => redactAttr_eq_iff (has a ha)) hbs

/-! ## Loggers -/

def redactCall : Call ν → Call ν
  | .withAttrs attrs => .withAttrs (redactAttrs attrs)
  | .withGroup name => .withGroup name

theorem inner_calls (calls : List (Call ν)) (h : RedactingHandler ν) :
    (calls.foldl RedactingHandler.call h).inner = h.inner ++ calls.map redactCall := by
  induction calls generalizing h with
  | nil => exact (List.append_nil _).symm
  | cons c calls ih =>
    have hcall : (h.call c).inner = h.inner ++ [redactCall c] := by cases c <;> rfl
    rw [List.foldl_cons, ih, hcall, List.map_cons, List.append_assoc]
    rfl

theorem attrs_cleaned (r : Record ν) : (RedactingHandler.cleaned r).attrs = redactAttrs r.attrs := by
  have hattrs : (RedactingHandler.cleaned r).attrs = (redactAttrs r.attrs).filter fun a => !a.isEmptyGroup := rfl
  rw [hattrs, filter_redactAttrs r.built]

theorem cleaned_eq_iff {r r' : Record ν} :
    RedactingHandler.cleaned r = RedactingHandler.cleaned r' ↔
      SameHead r r' ∧ redactAttrs r.attrs = redactAttrs r'.attrs := by
  rw [Record.ext_iff, attrs_cleaned, attrs_cleaned]
  simp only [SameHead, and_assoc]
  exact Iff.rfl

theorem passed_eq (u : Use ν) : u.passed = (u.calls.map redactCall, RedactingHandler.cleaned u.record) := by
  rw [Use.passed, RedactingHandler.handle, inner_calls]
  rfl

theorem redactCalls_eq_iff (hcs : ∀ attrs, .withAttrs attrs ∈ cs → ∀ a ∈ attrs, a.Built)
    (hcs' : ∀ attrs, .withAttrs attrs ∈ cs' → ∀ a ∈ attrs, a.Built)
    (has : ∀ a ∈ as, a.Built) (has' : ∀ a ∈ as', a.Built) :
    cs.map redactCall = cs'.map redactCall ∧ redactAttrs as = redactAttrs as' ↔
      DifferCalls SecretLeaf (fun _ => False) cs as cs' as' := by
  induction cs generalizing cs' with
  | nil =>
    cases cs' with
    | nil =>
      rw [redactAttrs_eq_iff has has']
      refine ⟨fun h => .record h.2, fun h => ?_⟩
      cases h with
      | record h => exact ⟨rfl, h⟩
    | cons c' cs' =>
      refine iff_of_false (fun h => ?_) fun h => ?_
      · cases h.1
      · cases h
  | cons c cs ih =>
    cases cs' with
    | nil =>
      refine iff_of_false (fun h => ?_) fun h => ?_
      · cases h.1
      · cases h
    | cons c' cs' =>
      have ih' : cs.map redactCall = cs'.map redactCall ∧ redactAttrs as = redactAttrs as' ↔
          DifferCalls SecretLeaf (fun _ => False) cs as cs' as' :=
        ih (fun attrs h => hcs attrs (List.mem_cons_of_mem c h))
          fun attrs h => hcs' attrs (List.mem_cons_of_mem c' h)
      rw [List.map_cons, List.map_cons, List.cons.injEq, and_assoc, ih']
      cases c with
      | withAttrs attrs =>
        cases c' with
        | withAttrs attrs' =>
          have hattrs := redactAttrs_eq_iff (hcs attrs List.mem_cons_self) (hcs' attrs' List.mem_cons_self)
          rw [redactCall, redactCall, Call.withAttrs.injEq, hattrs]
          refine ⟨fun h => .withAttrs h.1 h.2, fun h => ?_⟩
          cases h with
          | withAttrs h hs => exact ⟨h, hs⟩
        | withGroup name' =>
          refine iff_of_false (fun h => ?_) fun h => ?_
          · cases h.1
          · cases h
      | withGroup name =>
        cases c' with
        | withAttrs attrs' =>
          refine iff_of_false (fun h => ?_) fun h => ?_
          · cases h.1
          · cases h
        | withGroup name' =>
          rw [redactCall, redactCall, Call.withGroup.injEq]
          refine ⟨fun h => h.1 ▸ .withGroup name h.2, fun h => ?_⟩
          cases h with
          | withGroup _ hs => exact ⟨rfl, hs⟩
          | opened h => exact h.elim

theorem passed_eq_iff (u u' : Use ν) : u.passed = u'.passed ↔ AlikeLeaves u u' := by
  rw [passed_eq, passed_eq, Prod.mk.injEq, cleaned_eq_iff, and_left_comm,
    redactCalls_eq_iff u.built u'.built (fun a ha => (u.record.built a ha).1) fun a ha => (u'.record.built a ha).1]
  exact Iff.rfl

/-! ## Secrets -/

mutual

variable {free free' : Attr ν → Attr ν → Prop}

theorem differ_mono (h : ∀ a b, free a b → free' a b) {a b : Attr ν} : Differ free a b → Differ free' a b
  | .free hab => .free (h _ _ hab)
  | .value key v => .value key v
  | .group key hs => .group key (differAll_mono h hs)

theorem differAll_mono (h : ∀ a b, free a b → free' a b)
    {as bs : List (Attr ν)} : DifferAll free as bs → DifferAll free' as bs
  | .nil => .nil
  | .cons hab hs => .cons (differ_mono h hab) (differAll_mono h hs)

end

theorem differCalls_of_leaves (h : DifferCalls SecretLeaf (fun _ => False) cs as cs' as') :
    DifferCalls SecretAttr (fun name => isSensitiveKey name) cs as cs' as' := by
  have hfree : ∀ a b : Attr ν, SecretLeaf a b → SecretAttr a b := fun _ _ hab => hab.1
  induction h with
  | record h => exact .record (differAll_mono hfree h)
  | withAttrs h _ ih => exact .withAttrs (differAll_mono hfree h) ih
  | withGroup name _ ih => exact .withGroup name ih
  | opened h => exact h.elim

/-- Of the uses that differ in secrets only, the inner handler gets the same for exactly those that
differ only in values, of attributes that are no groups, with a sensitive key of their own. -/
theorem secrets_hidden_iff (u u' : Use ν) : Alike u u' ∧ u.passed = u'.passed ↔ AlikeLeaves u u' := by
  rw [passed_eq_iff]
  exact ⟨And.right, fun h => ⟨⟨h.1, differCalls_of_leaves h.2⟩, h⟩⟩

/-- A record with a value in a group `token`. -/
def groupUse (s : Bytes) : Use Empty where
  calls := []
  record :=
    { time := 0, level := 0, message := [], pc := 0
      attrs := [.group (utf8 "token") [.value (utf8 "value") (.string s)]]
      built := by
        refine List.forall_mem_singleton.mpr ⟨.group _ _ (List.forall_mem_singleton.mpr (.value _ _)) ?_, rfl⟩
        exact List.forall_mem_singleton.mpr rfl }
  built := fun _ h => absurd h List.not_mem_nil

/-- The value is passed on. -/
theorem group_token_shown : Alike (groupUse (utf8 "abc")) (groupUse (utf8 "xyz")) ∧
    (groupUse (utf8 "abc")).passed ≠ (groupUse (utf8 "xyz")).passed := by
  constructor
  · exact ⟨⟨rfl, rfl, rfl, rfl⟩, .record (.cons (.free ⟨rfl, by decide +kernel⟩) .nil)⟩
  · intro h
    have hcalls := ((passed_eq_iff _ _).mp h).2
    cases hcalls with
    | record h =>
      cases h with
      | cons h _ =>
        obtain ⟨-, hmember⟩ := differ_group_iff.mp h
        cases hmember with
        | cons hvalue _ =>
          obtain ⟨-, hvalue⟩ := differ_value_iff.mp hvalue
          revert hvalue
          decide +kernel

end Csar.Proof.Logutil
