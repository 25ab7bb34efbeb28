import CsarCore.Spec.Configutil.Env
import Mathlib.Data.List.Infix

/-!
# Back-references in `SafeExpandEnv`

`mapping` sees only the name of a reference. Of one that begins with a digit it gives back
a dollar and the name, so that braces around a number are lost, and a name that only begins
with a digit is neither kept nor expanded; of any other it is what the environment has
(`expands_mapping`, `expands_unique`). So `backrefs_iff`.
-/

namespace Csar.Proof.Configutil

open Impl.Configutil Spec.Configutil Csar.Shell

/-! ## Cuts -/

section Cuts

variable {sep s before behind : Bytes}

theorem cutAt_eq_some (hsep : sep ≠ []) : cutAt sep s = some (before, behind) ↔ FirstAt sep before behind s := by
  induction s generalizing before with
  | nil => simp [cutAt, hsep, FirstAt]
  | cons c cs ih =>
    rw [cutAt]
    by_cases hpre : sep.isPrefixOf (c :: cs)
    · obtain ⟨rest, hrest⟩ := List.isPrefixOf_iff_prefix.mp hpre
      rw [if_pos hpre, ← hrest, List.drop_left, Option.some.injEq, Prod.mk.injEq]
      constructor
      · rintro ⟨rfl, rfl⟩
        exact ⟨rfl, fun i hi => absurd hi (Nat.not_lt_zero i)⟩
      · rintro ⟨heq, hfirst⟩
        -- nothing can be before a separator at the start
        have hnil : before = [] := by
          by_contra hne
          exact hfirst 0 (List.length_pos_of_ne_nil hne) (List.prefix_append sep rest)
        rw [hnil, List.nil_append, List.append_cancel_left_eq] at heq
        exact ⟨hnil.symm, heq⟩
    · have hnot : ¬ sep <+: c :: cs := fun h => hpre (List.isPrefixOf_iff_prefix.mpr h)
      rw [if_neg hpre, Option.map_eq_some_iff]
      constructor
      · rintro ⟨⟨a, b⟩, hcut, ⟨⟩⟩
        obtain ⟨rfl, hfirst⟩ := ih.mp hcut
        refine ⟨rfl, fun i hi => ?_⟩
        cases i with
        | zero => exact hnot
        | succ i => exact hfirst i (Nat.lt_of_succ_lt_succ hi)
      · rintro ⟨heq, hfirst⟩
        cases before with
        | nil => exact absurd ⟨behind, heq.symm⟩ hnot
        | cons d before =>
          obtain ⟨rfl, rfl⟩ := List.cons_eq_cons.mp heq
          refine ⟨(before, behind), ih.mpr ⟨rfl, fun i hi => hfirst (i + 1) (Nat.succ_lt_succ hi)⟩, rfl⟩

theorem cutAt_eq_none (hsep : sep ≠ []) : cutAt sep s = none ↔ ¬ sep <:+: s := by
  induction s with
  | nil => simp [cutAt, hsep]
  | cons c cs ih =>
    rw [cutAt, List.infix_cons_iff, ← List.isPrefixOf_iff_prefix]
    split
    · simp_all
    · simp_all

end Cuts

/-! ## What references stand for -/

section References

variable {env : Env} {name value : Bytes}

theorem mapping_of_digit (h : name.head?.any isDigit) : mapping env name = dollar :: name := by
  cases name with
  | nil => cases h
  | cons c cs => exact if_pos h

/-- Of a name that does not begin with a digit. -/
theorem mapping_eq (hne : name ≠ []) (h : name.head?.any isDigit = false) :
    mapping env name =
      match cutAt colonDash name with
      | some (n, fallback) => if env.getenv n ≠ [] then env.getenv n else fallback
      | none =>
        match cutAt dash name with
        | some (n, fallback) => if (env n).isSome then env.getenv n else fallback
        | none => env.getenv name := by
  cases name with
  | nil => exact absurd rfl hne
  | cons c cs =>
    have hc : isDigit c = false := h
    rw [mapping, if_neg (by rw [hc]; exact Bool.false_ne_true)]
    rfl

theorem colon_ne : colonDash ≠ [] := by decide

theorem dash_ne : dash ≠ [] := by decide

theorem getD_fallback (n fallback : Bytes) :
    (if (env n).isSome then env.getenv n else fallback) = (env n).getD fallback := by
  rw [Env.getenv]
  cases env n <;> rfl

theorem expands_mapping (hne : name ≠ []) (h : name.head?.any isDigit = false) :
    Expands env name (mapping env name) := by
  rw [mapping_eq hne h]
  cases hcolon : cutAt colonDash name with
  | some cut =>
    dsimp only
    rw [ite_not]
    exact .unlessEmpty ((cutAt_eq_some colon_ne).mp hcolon)
  | none =>
    cases hdash : cutAt dash name with
    | some cut =>
      dsimp only
      rw [getD_fallback]
      exact .unlessUnset ((cutAt_eq_none colon_ne).mp hcolon) ((cutAt_eq_some dash_ne).mp hdash)
    | none => exact .plain ((cutAt_eq_none dash_ne).mp hdash)

theorem expands_unique (hne : name ≠ []) (h : name.head?.any isDigit = false) (hv : Expands env name value) :
    value = mapping env name := by
  rw [mapping_eq hne h]
  cases hv with
  | unlessEmpty hfirst =>
    rw [(cutAt_eq_some colon_ne).mpr hfirst]
    exact (ite_not ..).symm
  | unlessUnset hcolon hfirst =>
    rw [(cutAt_eq_none colon_ne).mpr hcolon, (cutAt_eq_some dash_ne).mpr hfirst]
    exact (getD_fallback _ _).symm
  | plain hdash =>
    have hcolon : ¬ colonDash <:+: name := fun hin => hdash (.trans (by decide) hin)
    rw [(cutAt_eq_none colon_ne).mpr hcolon, (cutAt_eq_none dash_ne).mpr hdash]
    rfl

/-- Where every variable has the same value, it is what every reference stands for. -/
theorem expands_const {x : Bytes} (hx : x ≠ []) (h : Expands (fun _ => some x) name value) : value = x := by
  cases h with
  | unlessEmpty _ => exact if_neg hx
  | unlessUnset _ _ => rfl
  | plain _ => rfl

end References

/-! ## Parts -/

section Parts

variable {env : Env} {s value : Bytes} {p : Piece}

theorem numeric_head {name : Bytes} (h : numeric name) : name.head?.any isDigit := by
  simp only [numeric, Bool.and_eq_true, decide_eq_true_eq] at h
  obtain ⟨c, cs, rfl⟩ := List.exists_cons_of_ne_nil h.1
  exact List.all_eq_true.mp h.2 c List.mem_cons_self

/-- A reference without braces whose name begins with a digit is one by number. -/
theorem numeric_of_bare {name text : Bytes} (hw : Written name text) (hp : bracedDigit (.ref name text) = false)
    (hdigit : name.head?.any isDigit) : numeric name ∧ text = dollar :: name := by
  have htext : text = dollar :: name := by
    rw [bracedDigit, hdigit, Bool.true_and, decide_eq_false_iff_not, ne_eq, Classical.not_not] at hp
    exact hp
  refine ⟨?_, htext⟩
  rcases hw with ⟨-, hone⟩ | hbraces
  · cases name with
    | nil => cases hdigit
    | cons c cs =>
      have hc : isDigit c := hdigit
      rw [hone c rfl hc]
      simp [numeric, hc]
  · have hlen := congrArg List.length (htext.symm.trans hbraces)
    simp only [List.length_cons, List.length_append, List.length_nil] at hlen
    omega

/-- But for braces around what begins with a digit, a part becomes what it should, and nothing else. -/
theorem becomes_iff (hp : p ∈ pieces s) (h : bracedDigit p = false) :
    Becomes env p value ↔ value = p.expand (mapping env) := by
  cases p with
  | byte c => exact ⟨fun | .byte _ => rfl, fun hv => hv ▸ .byte c⟩
  | bad text => exact ⟨fun | .bad _ => rfl, fun hv => hv ▸ .bad text⟩
  | ref name text =>
    obtain ⟨hne, hw⟩ := written_of_mem hp
    cases hdigit : name.head?.any isDigit with
    | true =>
      obtain ⟨hnum, htext⟩ := numeric_of_bare hw h hdigit
      rw [Piece.expand, mapping_of_digit hdigit, ← htext]
      constructor
      · rintro (_ | _ | _ | ⟨_, hnot, -⟩)
        · rfl
        · exact absurd hnum hnot
      · rintro rfl
        exact .number _ hnum
    | false =>
      have hnot : ¬ numeric name := fun hnum => by
        rw [numeric_head hnum] at hdigit
        cases hdigit
      constructor
      · rintro (_ | _ | ⟨_, hnum⟩ | ⟨_, -, hv⟩)
        · exact absurd hnum hnot
        · exact expands_unique hne hdigit hv
      · rintro rfl
        exact .expanded _ hnot (expands_mapping hne hdigit)

theorem length_text_le (hp : p ∈ pieces s) : p.text.length ≤ s.length := by
  obtain ⟨ps, ps', h⟩ := List.append_of_mem hp
  have hs := congrArg List.length (flatMap_text_pieces s)
  rw [h, List.flatMap_append, List.flatMap_cons, List.length_append, List.length_append] at hs
  omega

/-- Braces around what begins with a digit: in an environment of long values, a part is to become longer
than what it becomes. -/
theorem length_lt_of_becomes {x : Bytes} (hx : s.length < x.length) (hp : p ∈ pieces s) (h : bracedDigit p)
    (hv : Becomes (fun _ => some x) p value) : (p.expand (mapping fun _ => some x)).length < value.length := by
  cases p with
  | ref name text =>
    rw [bracedDigit, Bool.and_eq_true] at h
    obtain ⟨hdigit, htext⟩ := h
    have hbraces : text = dollar :: openBrace :: (name ++ [closeBrace]) :=
      (written_of_mem hp).2.resolve_left fun hw => of_decide_eq_true htext hw.1
    have hlen : text.length = name.length + 3 := by rw [hbraces]; simp
    rw [Piece.expand, mapping_of_digit hdigit, List.length_cons]
    cases hv with
    | number _ _ => omega
    | expanded _ _ hv =>
      have hle : text.length ≤ s.length := length_text_le hp
      rw [expands_const (List.ne_nil_of_length_pos (Nat.zero_lt_of_lt hx)) hv]
      omega
  | _ => cases h

end Parts

/-! ## Texts -/

section Texts

variable {env : Env} {s out : Bytes}

theorem kept_safeExpandEnv (h : ∀ p ∈ pieces s, bracedDigit p = false) :
    Kept env (pieces s) out ↔ out = safeExpandEnv env s := by
  have hall : ∀ ps : List Piece, (∀ p ∈ ps, p ∈ pieces s) → ∀ out,
      Kept env ps out ↔ out = ps.flatMap (Piece.expand (mapping env)) := by
    intro ps
    induction ps with
    | nil => exact fun _ out => ⟨fun | .nil => rfl, fun h => h ▸ .nil⟩
    | cons p ps ih =>
      intro hps out
      obtain ⟨hp, hps⟩ := List.forall_mem_cons.mp hps
      rw [List.flatMap_cons]
      constructor
      · rintro (_ | ⟨hv, hs⟩)
        rw [(becomes_iff hp (h p hp)).mp hv, (ih hps _).mp hs]
      · rintro rfl
        exact .cons ((becomes_iff hp (h p hp)).mpr rfl) ((ih hps _).mpr rfl)
  rw [safeExpandEnv, expand_eq_flatMap]
  exact hall (pieces s) (fun _ hp => hp) out

/-- In an environment of long values the text is to become longer than it does, if there are braces around
what begins with a digit. -/
theorem length_lt_of_kept {x : Bytes} (hx : s.length < x.length) (hex : ∃ p ∈ pieces s, bracedDigit p)
    (h : Kept (fun _ => some x) (pieces s) out) : (safeExpandEnv (fun _ => some x) s).length < out.length := by
  have hall : ∀ ps : List Piece, (∀ p ∈ ps, p ∈ pieces s) → ∀ out, Kept (fun _ => some x) ps out →
      (ps.flatMap (Piece.expand (mapping fun _ => some x))).length + ps.countP bracedDigit ≤ out.length := by
    intro ps
    induction ps with
    | nil => exact fun _ out _ => Nat.zero_le _
    | cons p ps ih =>
      rintro hps out (_ | ⟨hv, hs⟩)
      obtain ⟨hp, hps⟩ := List.forall_mem_cons.mp hps
      have hrest := ih hps _ hs
      rw [List.flatMap_cons, List.length_append, List.length_append, List.countP_cons]
      cases hb : bracedDigit p with
      | true =>
        have hlt := length_lt_of_becomes hx hp hb hv
        rw [if_pos rfl]
        omega
      | false =>
        rw [(becomes_iff hp hb).mp hv, if_neg Bool.false_ne_true]
        omega
  have hpos : 0 < (pieces s).countP bracedDigit := List.countP_pos_iff.mpr hex
  have hlen := hall (pieces s) (fun _ hp => hp) out h
  rw [safeExpandEnv, expand_eq_flatMap]
  omega

theorem kept_of_numbersOnly (h : ∀ p ∈ pieces s, numbersOnly p) : Kept env (pieces s) s := by
  have hall : ∀ ps : List Piece, (∀ p ∈ ps, numbersOnly p) → Kept env ps (ps.flatMap Piece.text) := by
    intro ps
    induction ps with
    | nil => exact fun _ => .nil
    | cons p ps ih =>
      intro hps
      obtain ⟨hp, hps⟩ := List.forall_mem_cons.mp hps
      rw [List.flatMap_cons]
      refine .cons ?_ (ih hps)
      cases p with
      | byte c => exact .byte c
      | bad text => cases hp
      | ref name text => exact .number text hp
  have hs := hall (pieces s) h
  rwa [flatMap_text_pieces] at hs

/-- A text with references by number only is shortened by braces around them. -/
theorem length_of_numbersOnly (env : Env) (h : ∀ p ∈ pieces s, numbersOnly p) (hex : ∃ p ∈ pieces s, bracedDigit p) :
    (safeExpandEnv env s).length < s.length := by
  have hsame : ∀ env', safeExpandEnv env' s = safeExpandEnv env s := by
    intro env'
    rw [safeExpandEnv, safeExpandEnv, expand_eq_flatMap, expand_eq_flatMap]
    refine List.flatMap_congr fun p hp => ?_
    cases p with
    | ref name text =>
      rw [Piece.expand, Piece.expand, mapping_of_digit (numeric_head (h _ hp)), mapping_of_digit (numeric_head (h _ hp))]
    | _ => rfl
  rw [← hsame fun _ => some (List.replicate (s.length + 1) 0)]
  exact length_lt_of_kept (by simp) hex (kept_of_numbersOnly h)

end Texts

/-- A text becomes what it should in every environment, just if no braces are around a name that begins
with a digit; and a text of references by number stays as it is under the same condition. -/
theorem backrefs_iff (s : Bytes) :
    ((∀ env, Kept env (pieces s) (safeExpandEnv env s)) ↔ ∀ p ∈ pieces s, bracedDigit p = false) ∧
      ((∀ p ∈ pieces s, numbersOnly p) → ∀ env, safeExpandEnv env s = s ↔ ∀ p ∈ pieces s, bracedDigit p = false) := by
  constructor
  · constructor
    · intro h p hp
      by_contra hb
      have hx : s.length < (List.replicate (s.length + 1) (0 : UInt8)).length := by simp
      exact Nat.lt_irrefl _ (length_lt_of_kept hx ⟨p, hp, Bool.not_eq_false _ ▸ hb⟩ (h _))
    · intro h env
      exact (kept_safeExpandEnv h).mpr rfl
  · intro hnum env
    constructor
    · intro heq p hp
      by_contra hb
      have hlt := length_of_numbersOnly env hnum ⟨p, hp, Bool.not_eq_false _ ▸ hb⟩
      rw [heq] at hlt
      exact Nat.lt_irrefl _ hlt
    · intro h
      exact ((kept_safeExpandEnv h).mp (kept_of_numbersOnly hnum)).symm

/-- `${1}0` becomes `$10`, the tenth group; and `${1a}` becomes `$1a`, where nothing should be. -/
theorem braces_lost :
    ((∀ p ∈ pieces [0x24, 0x7B, 0x31, 0x7D, 0x30], numbersOnly p) ∧
      safeExpandEnv (fun _ => none) [0x24, 0x7B, 0x31, 0x7D, 0x30] = [0x24, 0x31, 0x30]) ∧
    safeExpandEnv (fun _ => none) [0x24, 0x7B, 0x31, 0x61, 0x7D] = [0x24, 0x31, 0x61] ∧
      ¬ Kept (fun _ => none) (pieces [0x24, 0x7B, 0x31, 0x61, 0x7D]) [0x24, 0x31, 0x61] := by
  refine ⟨by decide, by decide, fun h => ?_⟩
  have hpieces : pieces [0x24, 0x7B, 0x31, 0x61, 0x7D] = [.ref [0x31, 0x61] [0x24, 0x7B, 0x31, 0x61, 0x7D]] := by decide
  have hnil : ∀ out, Kept (fun _ => none) [.ref [0x31, 0x61] [0x24, 0x7B, 0x31, 0x61, 0x7D]] out → out = [] := by
    rintro out (_ | ⟨hv, _ | _⟩)
    cases hv with
    | number _ hnum => cases hnum
    | expanded _ _ hv =>
      cases hv with
      | unlessEmpty hfirst => cases (cutAt_eq_some colon_ne).mpr hfirst
      | unlessUnset _ hfirst => cases (cutAt_eq_some dash_ne).mpr hfirst
      | plain _ => rfl
  rw [hpieces] at h
  cases hnil _ h

end Csar.Proof.Configutil
