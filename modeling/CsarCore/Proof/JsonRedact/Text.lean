import CsarCore.Framework.Scrub
import CsarCore.Impl.JsonRedact

/-!
# Known secrets in any order

`RedactText` replaces the secrets by the mask one after the other
(`isReplace_replaceAll`). If no two of them overlap and none is read across a mask, the
order makes no difference: `redactText_order_free`. Where one is a part of another, it
does: `longer_secret_survives`.
-/

namespace Csar.Proof.JsonRedact

open Impl.JsonRedact Csar.Scrub

def long (secrets : List Bytes) : List Bytes := secrets.filter fun secret => 8 ≤ secret.length

theorem isReplace_replaceAll {old new : Bytes} (hne : old ≠ []) :
    IsReplace (fun s => Strings.replaceAll s old new) old new where
  nil := rfl
  hit := Strings.replaceAll_append hne
  skip _ _ h := Strings.replaceAll_cons hne h

theorem redactSecrets_eq (value : Bytes) (secrets : List Bytes) :
    redactSecrets value secrets = (long secrets).foldl (fun value secret => Strings.replaceAll value secret defaultMask)
      value := by
  rw [redactSecrets, long, List.foldl_filter]
  simp only [decide_eq_true_eq]

theorem defaultMask_ne_nil : defaultMask ≠ [] := by
  rw [defaultMask, utf8_eq_encodeRunes]
  decide

/-- Where the secrets are separate in a text, every order of them gives the result of the patterns on the
text with each secret masked. -/
theorem redactText_order_free (value : Bytes) (secrets : List Bytes)
    (h : Separate defaultMask value (long secrets)) :
    ∃ T, Marked (long secrets) value T ∧ ∀ secrets', secrets'.Perm secrets →
      redactText value secrets' = redactText (fill defaultMask T) [] := by
  have hlong : ∀ secret ∈ long secrets, secret ≠ [] := by
    intro secret hmem hnil
    have hlen := of_decide_eq_true (List.mem_filter.mp hmem).2
    rw [hnil, List.length_nil] at hlen
    omega
  obtain ⟨T, hT, hall⟩ := foldl_of_separate (r := fun secret value => Strings.replaceAll value secret defaultMask)
    defaultMask_ne_nil (fun secret hmem => isReplace_replaceAll (hlong secret hmem)) (fun hnil => hlong [] hnil rfl) h
  refine ⟨T, hT, fun secrets' hp => ?_⟩
  have hsecrets : redactSecrets value secrets' = fill defaultMask T := by
    rw [redactSecrets_eq]
    exact hall (long secrets') (hp.filter _)
  rw [redactText, redactText, hsecrets]
  rfl

def passwords : List Bytes := [utf8 "xyxyxyxy", utf8 "zvzvzvzv"]

def denied : Bytes := utf8 "no: zvzvzvzvxyxyxyxy"

theorem passwords_long : long passwords = passwords := by decide +kernel

theorem separate_passwords : Separate defaultMask denied (long passwords) := by
  have hletters : (∀ u ∈ passwords, ∀ v ∈ passwords, u ≠ v → ∀ c ∈ u, c ∉ v) ∧
      ∀ v ∈ passwords, v ≠ [] ∧ ∀ c ∈ v, c ∉ defaultMask := by decide +kernel
  rw [passwords_long]
  constructor
  · intro u hu v hv hne
    exact not_overlap_of_disjoint (hletters.2 v hv).1 (hletters.1 u hu v hv hne)
  · intro v A hsub T _
    have hv := hletters.2 v (hsub.subset List.mem_cons_self)
    exact not_across_of_disjoint defaultMask_ne_nil hv.1 hv.2

theorem redactText_order_free_passwords :
    ∃ T, Marked (long passwords) denied T ∧ ∀ secrets', secrets'.Perm passwords →
      redactText denied secrets' = redactText (fill defaultMask T) [] :=
  redactText_order_free denied passwords separate_passwords

/-- Of a secret that begins with another, the rest is left in one order. -/
theorem longer_secret_survives :
    [utf8 "opaque12", utf8 "opaque12-tail"].Perm [utf8 "opaque12-tail", utf8 "opaque12"] ∧
      redactText (utf8 "no: opaque12-tail") [utf8 "opaque12-tail", utf8 "opaque12"] = utf8 "no: [REDACTED]" ∧
      redactText (utf8 "no: opaque12-tail") [utf8 "opaque12", utf8 "opaque12-tail"] = utf8 "no: [REDACTED]-tail" ∧
      redactText (utf8 "no: opaque12-tail") [utf8 "opaque12-tail", utf8 "opaque12"] ≠
        redactText (utf8 "no: opaque12-tail") [utf8 "opaque12", utf8 "opaque12-tail"] := by
  have hrun : redactText (utf8 "no: opaque12-tail") [utf8 "opaque12-tail", utf8 "opaque12"] = utf8 "no: [REDACTED]" ∧
      redactText (utf8 "no: opaque12-tail") [utf8 "opaque12", utf8 "opaque12-tail"] = utf8 "no: [REDACTED]-tail" ∧
      utf8 "no: [REDACTED]" ≠ utf8 "no: [REDACTED]-tail" := by decide +kernel
  refine ⟨.swap _ _ _, hrun.1, hrun.2.1, ?_⟩
  rw [hrun.1, hrun.2.1]
  exact hrun.2.2

end Csar.Proof.JsonRedact
