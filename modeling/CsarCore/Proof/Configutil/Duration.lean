import CsarCore.Framework.Except
import CsarCore.Impl.Configutil
import CsarCore.Spec.Configutil.Duration
import Mathlib.Algebra.Order.BigOperators.Group.List
import Mathlib.Data.List.TakeWhile
import Mathlib.Tactic.NormNum
import Mathlib.Tactic.Linarith
import Mathlib.Tactic.Ring

/-!
# Durations with days

The days of a text are replaced by hours term by term (`expandDays_render`). The text that
comes of it has at most one reading (`render_inj`), and none if there is a sign inside it
(`readAs_of_render`). So what an exact `time.ParseDuration` returns is the duration that was
written, unless the text is misread (`parsed_exact_iff`).
-/

namespace Csar.Proof.Configutil

open Impl.Configutil Spec.Configutil

/-! ## Replacing days -/

section Replacing

variable {n : Nat} {c x : Char} {w rest : List Char}

/-- Where a text of a term ends without a `d`, no digits in it stand before one. -/
theorem head_dropWhile_ne (hx : x.isDigit = false) (hd : 'd' ∉ w ++ [x]) :
    ((w ++ x :: rest).dropWhile Char.isDigit).head? ≠ some 'd' := by
  induction w with
  | nil =>
    rw [List.nil_append, List.dropWhile_cons_of_neg (Bool.eq_false_iff.mp hx)]
    rintro ⟨⟩
    exact hd List.mem_cons_self
  | cons c w ih =>
    rw [List.cons_append, List.mem_cons, not_or] at hd
    by_cases hc : c.isDigit
    · rw [List.cons_append, List.dropWhile_cons_of_pos hc]
      exact ih hd.2
    · rw [List.cons_append, List.dropWhile_cons_of_neg hc]
      rintro ⟨⟩
      exact hd.1 rfl

theorem expandDays_keep (h : ((c :: rest).dropWhile Char.isDigit).head? ≠ some 'd') :
    expandDays (n + 1) (c :: rest) = c :: expandDays n rest := by
  rw [expandDays]
  exact if_neg fun hday => h hday.2

theorem expandDays_plain (hx : x.isDigit = false) (hd : 'd' ∉ w ++ [x]) :
    expandDays (n + (w.length + 1)) (w ++ x :: rest) = w ++ x :: expandDays n rest := by
  induction w with
  | nil => exact expandDays_keep (head_dropWhile_ne (w := []) hx hd)
  | cons c w ih =>
    have htail : 'd' ∉ w ++ [x] := fun hmem => hd (List.mem_cons_of_mem c hmem)
    exact (expandDays_keep (head_dropWhile_ne (w := c :: w) hx hd)).trans (congrArg (c :: ·) (ih htail))

theorem expandDays_days (hne : w ≠ []) (hw : ∀ c ∈ w, c.isDigit = true) :
    expandDays (n + 1) (w ++ 'd' :: rest) = Strconv.itoa (hoursOf w) ++ 'h' :: expandDays n rest := by
  have htake : (w ++ 'd' :: rest).takeWhile Char.isDigit = w := by
    rw [List.takeWhile_append_of_pos hw]
    exact List.append_nil w
  have hdrop : (w ++ 'd' :: rest).dropWhile Char.isDigit = 'd' :: rest := List.dropWhile_append_of_pos hw
  obtain ⟨c, cs, rfl⟩ := List.exists_cons_of_ne_nil hne
  rw [List.cons_append] at htake hdrop ⊢
  rw [expandDays, htake, hdrop]
  exact if_pos ⟨hne, rfl⟩

theorem hasFractionalDays_cons (h : c ≠ '.' ∨ (rest.dropWhile Char.isDigit).head? ≠ some 'd') :
    hasFractionalDays (c :: rest) = hasFractionalDays rest := by
  rw [hasFractionalDays]
  rcases h with h | h <;> simp [h]

theorem hasFractionalDays_plain (hx : x.isDigit = false) (hdot : x ≠ '.') (hd : 'd' ∉ w ++ [x]) :
    hasFractionalDays (w ++ x :: rest) = hasFractionalDays rest := by
  induction w with
  | nil => exact hasFractionalDays_cons (.inl hdot)
  | cons c w ih =>
    have htail : 'd' ∉ w ++ [x] := fun hmem => hd (List.mem_cons_of_mem c hmem)
    exact (hasFractionalDays_cons (.inr (head_dropWhile_ne hx htail))).trans (ih htail)

theorem hasFractionalDays_append (h : '.' ∉ w) : hasFractionalDays (w ++ rest) = hasFractionalDays rest := by
  induction w with
  | nil => rfl
  | cons c w ih =>
    rw [List.mem_cons, not_or] at h
    exact (hasFractionalDays_cons (.inl (Ne.symm h.1))).trans (ih h.2)

end Replacing

/-! ## Terms -/

section Terms

variable (t : Term)

theorem number_ne_nil : t.number ≠ [] := by
  obtain ⟨c, hc, -⟩ := t.isNumber.digit
  exact List.ne_nil_of_mem hc

theorem hoursOf_eq {t : Term} (hunit : t.unit = .d) : hoursOf t.number = t.hours := by
  have hdigits := Strconv.atoi_of_digits (s := String.ofList t.number) (by
    rw [String.toList_ofList, Strconv.digits]
    simpa [number_ne_nil t] using t.isNumber.whole hunit)
  rw [hoursOf, hdigits, String.toList_ofList, Term.hours]
  split
  · rename_i hle
    rw [Option.getD_some, Int.min_eq_left hle]
  · rename_i hlt
    rw [Option.getD_none, Int.min_eq_right (Int.le_of_lt (Int.not_le.mp hlt))]

theorem hours_of_fits {t : Term} (hfits : t.Fits) (hunit : t.unit = .d) :
    t.hours = (24 * Strconv.decimal t.number : Nat) := by
  have hlt := hfits hunit
  have hmax : maxInt64 = 2 ^ 63 - 1 := rfl
  rw [Term.hours, Int.min_eq_left (by omega), wrap64_of_le (by omega) (by omega)]
  omega

theorem not_negative_of_fits {t : Term} (hfits : t.Fits) : ¬ t.Negative := by
  rintro ⟨hunit, hneg⟩
  rw [hours_of_fits hfits hunit] at hneg
  omega

theorem unit_inHours : t.inHours.unit ≠ .d := by
  by_cases hunit : t.unit = .d
  · rw [Term.inHours, if_pos hunit]
    rintro ⟨⟩
  · rwa [Term.inHours, if_neg hunit]

theorem quantity_of_digits {ds : List Char} (h : ∀ c ∈ ds, c.isDigit = true) :
    Term.quantity ds = Strconv.decimal ds := by
  have htake : ds.takeWhile Char.isDigit = ds := List.takeWhile_eq_self_iff.mpr h
  have hdrop : ds.dropWhile Char.isDigit = [] := List.dropWhile_eq_nil_iff.mpr h
  simp [Term.quantity, htake, hdrop, Strconv.decimal]

theorem value_of_days {t : Term} (hunit : t.unit = .d) :
    t.value = Strconv.decimal t.number * (24 * (3600 * 10 ^ 9)) := by
  rw [Term.value, quantity_of_digits (t.isNumber.whole hunit), hunit, TimeUnit.nanoseconds]

theorem value_inHours {t : Term} (hfits : t.Fits) : t.inHours.value = t.value := by
  by_cases hunit : t.unit = .d
  · have hhours : t.inHours.value = t.hours.natAbs * (3600 * 10 ^ 9) := by
      rw [Term.inHours, if_pos hunit, Term.value, quantity_of_digits ((isNumber_toDigits .d _).whole rfl),
        Strconv.decimal_toDigits, TimeUnit.nanoseconds]
    rw [hhours, value_of_days hunit, hours_of_fits hfits hunit, Int.natAbs_natCast]
    push_cast
    ring
  · rw [Term.inHours, if_neg hunit]

theorem value_nonneg : 0 ≤ t.value := by
  have hquantity : 0 ≤ Term.quantity t.number :=
    add_nonneg (Nat.cast_nonneg _) (div_nonneg (Nat.cast_nonneg _) (by positivity))
  refine mul_nonneg hquantity ?_
  cases t.unit <;> norm_num [TimeUnit.nanoseconds]

/-- The hours of the days of a term, with their sign, and any other term as it is. -/
def signedText : List Char := (if t.Negative then ['-'] else []) ++ t.inHours.text

/-- How a unit ends. -/
theorem unit_snoc {unit : TimeUnit} (h : unit ≠ .d) :
    ∃ w x, unit.text = w ++ [x] ∧ x.isDigit = false ∧ x ≠ '.' ∧ 'd' ∉ w ++ [x] := by
  cases unit <;> first
    | exact absurd rfl h
    | exact ⟨[], _, rfl, by decide, by decide, by decide⟩
    | exact ⟨[_], _, rfl, by decide, by decide, by decide⟩

/-- A term in other units ends with a letter, and has no `d`. -/
theorem text_snoc {t : Term} (hunit : t.unit ≠ .d) :
    ∃ w x, t.text = w ++ [x] ∧ x.isDigit = false ∧ x ≠ '.' ∧ 'd' ∉ w ++ [x] := by
  obtain ⟨w, x, hw, hx, hdot, hd⟩ := unit_snoc hunit
  refine ⟨t.number ++ w, x, by rw [Term.text, hw, List.append_assoc], hx, hdot, ?_⟩
  rw [List.append_assoc]
  intro hmem
  exact (List.mem_append.mp hmem).elim (fun hmem => absurd (t.isNumber.numerals 'd' hmem) (by decide)) hd

theorem text_days {t : Term} (hunit : t.unit = .d) (rest : List Char) : t.text ++ rest = t.number ++ 'd' :: rest := by
  rw [Term.text, hunit, List.append_assoc]
  rfl

end Terms

variable {ts : List Term} {sign : Sign} {d : Int}

/-- The days are replaced by hours, term by term. -/
theorem expandDays_terms {n : Nat} (hn : (ts.flatMap Term.text).length ≤ n) :
    expandDays n (ts.flatMap Term.text) = ts.flatMap signedText := by
  induction ts generalizing n with
  | nil => cases n <;> rfl
  | cons t ts ih =>
    rw [List.flatMap_cons] at hn ⊢
    rw [List.flatMap_cons]
    by_cases hunit : t.unit = .d
    · have hhours : Strconv.itoa (hoursOf t.number) ++ ['h'] = signedText t := by
        rw [hoursOf_eq hunit, Strconv.itoa, signedText, Term.inHours, if_pos hunit,
          Term.text, List.append_assoc]
        simp only [Term.Negative, hunit, true_and, TimeUnit.text]
      rw [text_days hunit] at hn ⊢
      rw [List.length_append, List.length_cons] at hn
      obtain ⟨m, rfl⟩ : ∃ m, n = m + 1 := ⟨n - 1, by omega⟩
      rw [expandDays_days (number_ne_nil t) (t.isNumber.whole hunit), ih (by omega), ← hhours]
      simp
    · have hsigned : signedText t = t.text := by
        rw [signedText, if_neg fun h => hunit h.1, Term.inHours, if_neg hunit, List.nil_append]
      obtain ⟨w, x, htext, hx, -, hd⟩ := text_snoc hunit
      rw [List.length_append, htext, List.length_append, List.length_singleton] at hn
      obtain ⟨m, rfl⟩ := Nat.exists_eq_add_of_le' (Nat.le_of_add_right_le hn)
      rw [hsigned, htext, List.append_assoc, List.singleton_append, expandDays_plain hx hd, ih (by omega),
        List.append_assoc, List.singleton_append]

theorem expandDays_render (sign : Sign) (ts : List Term) :
    expandDays (render sign ts).length (render sign ts) = sign.text ++ ts.flatMap signedText := by
  have hterms := expandDays_terms (Nat.le_refl (ts.flatMap Term.text).length)
  cases sign with
  | none => exact hterms
  | plus => exact (expandDays_keep (by rintro ⟨⟩)).trans (congrArg ('+' :: ·) hterms)
  | minus => exact (expandDays_keep (by rintro ⟨⟩)).trans (congrArg ('-' :: ·) hterms)

theorem hasFractionalDays_render (sign : Sign) (ts : List Term) : hasFractionalDays (render sign ts) = false := by
  have hterms : hasFractionalDays (ts.flatMap Term.text) = false := by
    induction ts with
    | nil => rfl
    | cons t ts ih =>
      rw [List.flatMap_cons]
      by_cases hunit : t.unit = .d
      · have hdot : '.' ∉ t.number := fun hmem => absurd (t.isNumber.whole hunit '.' hmem) (by decide)
        rw [text_days hunit, hasFractionalDays_append hdot, hasFractionalDays_cons (.inl (by decide)), ih]
      · obtain ⟨w, x, htext, hx, hdot, hd⟩ := text_snoc hunit
        rw [htext, List.append_assoc, List.singleton_append, hasFractionalDays_plain hx hdot hd, ih]
  cases sign with
  | none => exact hterms
  | plus | minus => exact (hasFractionalDays_cons (.inl (by decide))).trans hterms

/-! ## One reading -/

def isNumeral (c : Char) : Bool := c.isDigit || c = '.'

theorem head_terms (ts : List Term) : ∀ c ∈ (ts.flatMap Term.text).head?, isNumeral c = true := by
  cases ts with
  | nil => exact nofun
  | cons t ts =>
    obtain ⟨c, cs, hcs⟩ := List.exists_cons_of_ne_nil (number_ne_nil t)
    rw [List.flatMap_cons, Term.text, hcs]
    rintro _ ⟨⟩
    exact t.isNumber.numerals c (hcs ▸ List.mem_cons_self)

theorem unit_letters (unit : TimeUnit) : unit.text ≠ [] ∧ ∀ c ∈ unit.text, isNumeral c = false ∧ c ∉ ['+', '-'] := by
  have hletters : unit.text.all fun c => isNumeral c = false ∧ c ∉ ['+', '-'] := by cases unit <;> decide
  refine ⟨by cases unit <;> decide, fun c hc => ?_⟩
  exact of_decide_eq_true (List.all_eq_true.mp hletters c hc)

theorem unit_text_inj {u v : TimeUnit} (h : u.text = v.text) : u = v := by
  cases u <;> cases v <;> first | rfl | cases h

theorem takeWhile_letters {w xs : List Char} (hw : ∀ c ∈ w, isNumeral c = false)
    (hx : ∀ c ∈ xs.head?, isNumeral c = true) : (w ++ xs).takeWhile (!isNumeral ·) = w := by
  rw [List.takeWhile_append_of_pos fun c hc => by simp [hw c hc]]
  cases xs with
  | nil => exact List.append_nil w
  | cons c xs => rw [List.takeWhile_cons_of_neg (by simp [hx c rfl]), List.append_nil]

/-- A term ends where no letter comes any more. -/
theorem term_append_inj {t u : Term} {xs ys : List Char} (hx : ∀ c ∈ xs.head?, isNumeral c = true)
    (hy : ∀ c ∈ ys.head?, isNumeral c = true) (h : t.text ++ xs = u.text ++ ys) : t = u ∧ xs = ys := by
  have hsplit : ∀ (t : Term) (xs : List Char), (∀ c ∈ xs.head?, isNumeral c = true) →
      (t.text ++ xs).takeWhile isNumeral = t.number ∧ (t.text ++ xs).dropWhile isNumeral = t.unit.text ++ xs ∧
        (t.unit.text ++ xs).takeWhile (!isNumeral ·) = t.unit.text := by
    intro t xs hx
    obtain ⟨hne, hletters⟩ := unit_letters t.unit
    obtain ⟨c, cs, hcs⟩ := List.exists_cons_of_ne_nil hne
    have hc : isNumeral c = false := (hletters c (hcs ▸ List.mem_cons_self)).1
    have hnumber : ∀ c ∈ t.number, isNumeral c = true := t.isNumber.numerals
    rw [Term.text, List.append_assoc]
    refine ⟨?_, ?_, takeWhile_letters (fun c hc => (hletters c hc).1) hx⟩
    · rw [List.takeWhile_append_of_pos hnumber, hcs, List.cons_append,
        List.takeWhile_cons_of_neg (by simp [hc]), List.append_nil]
    · rw [List.dropWhile_append_of_pos hnumber, hcs, List.cons_append,
        List.dropWhile_cons_of_neg (by simp [hc])]
  obtain ⟨ht, ht', hut⟩ := hsplit t xs hx
  obtain ⟨hu, hu', huu⟩ := hsplit u ys hy
  have hunit : t.unit.text ++ xs = u.unit.text ++ ys := by rw [← ht', ← hu', h]
  have htext : t.unit.text = u.unit.text := by rw [← hut, ← huu, hunit]
  refine ⟨Term.ext (by rw [← ht, ← hu, h]) (unit_text_inj htext), ?_⟩
  rw [htext] at hunit
  exact List.append_cancel_left hunit

theorem text_ne_nil (t : Term) : t.text ≠ [] := List.append_ne_nil_of_left_ne_nil (number_ne_nil t) _

theorem terms_inj {us : List Term} (h : ts.flatMap Term.text = us.flatMap Term.text) : ts = us := by
  induction ts generalizing us with
  | nil =>
    cases us with
    | nil => rfl
    | cons u us => exact absurd (List.append_eq_nil_iff.mp h.symm).1 (text_ne_nil u)
  | cons t ts ih =>
    cases us with
    | nil => exact absurd (List.append_eq_nil_iff.mp h).1 (text_ne_nil t)
    | cons u us =>
      obtain ⟨rfl, hrest⟩ := term_append_inj (head_terms ts) (head_terms us) h
      rw [ih hrest]

theorem minus_not_mem_terms (ts : List Term) : '-' ∉ ts.flatMap Term.text := by
  intro hmem
  obtain ⟨t, -, ht⟩ := List.mem_flatMap.mp hmem
  rcases List.mem_append.mp ht with hnumber | hunit
  · exact absurd (t.isNumber.numerals '-' hnumber) (by decide)
  · exact ((unit_letters t.unit).2 '-' hunit).2 (by decide)

theorem render_inj {sign' : Sign} {ts' : List Term} (h : render sign ts = render sign' ts') :
    sign = sign' ∧ ts = ts' := by
  have hsign : ∀ sign ts, (render sign ts).takeWhile (!isNumeral ·) = sign.text := fun sign ts =>
    takeWhile_letters (by cases sign <;> simp [Sign.text, isNumeral]) (head_terms ts)
  have htext : sign.text = sign'.text := by rw [← hsign sign ts, h, hsign]
  obtain rfl : sign = sign' := by cases sign <;> cases sign' <;> first | rfl | cases htext
  exact ⟨rfl, terms_inj (List.append_cancel_left h)⟩

/-! ## What comes of the text -/

theorem signedText_of_not_negative (h : ∀ t ∈ ts, ¬ t.Negative) :
    ts.flatMap signedText = (ts.map Term.inHours).flatMap Term.text := by
  rw [List.flatMap_map]
  exact List.flatMap_congr fun t ht => by rw [signedText, if_neg (h t ht), List.nil_append]

theorem render_of_readAs {s : Sign} (h : ReadAs sign ts s) :
    sign.text ++ ts.flatMap signedText = render s (ts.map Term.inHours) := by
  rcases h with ⟨rfl, hpos⟩ | ⟨rfl, rfl, t, rest, rfl, hneg, hpos⟩
  · rw [signedText_of_not_negative hpos]
    rfl
  · rw [List.flatMap_cons, signedText_of_not_negative hpos, signedText, if_pos hneg, List.append_assoc]
    rfl

theorem minus_mem_signedText {t : Term} (h : t.Negative) : '-' ∈ signedText t := by
  rw [signedText, if_pos h]
  exact List.mem_cons_self

/-- A sign stands at the start only. -/
theorem minus_not_mem_tail (sign : Sign) (ts : List Term) : '-' ∉ (render sign ts).tail := by
  have hterms := minus_not_mem_terms ts
  cases sign with
  | none => exact fun h => hterms (List.mem_of_mem_tail h)
  | plus | minus => exact hterms

theorem readAs_of_render {sign' : Sign} {ts' : List Term}
    (h : sign.text ++ ts.flatMap signedText = render sign' ts') : ReadAs sign ts sign' := by
  have htail := minus_not_mem_tail sign' ts'
  rw [← h] at htail
  -- where no hours are negative, the text has its own sign
  have hown (hpos : ∀ t ∈ ts, ¬ t.Negative) : ReadAs sign ts sign' := by
    rw [render_of_readAs (.inl ⟨rfl, hpos⟩)] at h
    exact .inl ⟨(render_inj h).1.symm, hpos⟩
  have hsigned {s : Char} (hs : sign.text = [s]) : ReadAs sign ts sign' := by
    refine hown fun t ht hneg => ?_
    rw [hs] at htail
    exact htail (List.mem_flatMap.mpr ⟨t, ht, minus_mem_signedText hneg⟩)
  cases sign with
  | plus | minus => exact hsigned rfl
  | none =>
    cases ts with
    | nil => exact hown nofun
    | cons t rest =>
      rw [Sign.text, List.nil_append, List.flatMap_cons] at h htail
      have hrest : ∀ u ∈ rest, ¬ u.Negative := by
        intro u hu hneg
        obtain ⟨c, cs, hcs⟩ := List.exists_cons_of_ne_nil
          (List.append_ne_nil_of_right_ne_nil (if t.Negative then ['-'] else []) (text_ne_nil t.inHours))
        rw [signedText, hcs] at htail
        refine htail (List.mem_append_right _ ?_)
        exact List.mem_flatMap.mpr ⟨u, hu, minus_mem_signedText hneg⟩
      by_cases hneg : t.Negative
      · have hread : ReadAs .none (t :: rest) .minus := .inr ⟨rfl, rfl, t, rest, rfl, hneg, hrest⟩
        have hsame := render_of_readAs hread
        rw [Sign.text, List.nil_append, List.flatMap_cons, h] at hsame
        exact (render_inj hsame).1 ▸ hread
      · exact hown (List.forall_mem_cons.mpr ⟨hneg, hrest⟩)

/-- A term has a letter, and a zero has none. -/
theorem ne_zero_text (sign sign' : Sign) (ts : List Term) :
    sign.text ++ ts.flatMap signedText ≠ sign'.text ++ ['0'] := by
  intro h
  cases ts with
  | nil =>
    rw [List.flatMap_nil, List.append_nil] at h
    cases sign <;> cases sign' <;> cases h
  | cons t ts =>
    obtain ⟨hne, hletters⟩ := unit_letters t.inHours.unit
    obtain ⟨c, hc⟩ := List.exists_mem_of_ne_nil _ hne
    have hmem : c ∈ sign.text ++ (t :: ts).flatMap signedText := by
      rw [List.flatMap_cons, signedText, Term.text]
      simp [hc]
    rw [h] at hmem
    obtain ⟨hnumeral, hsign⟩ := hletters c hc
    rcases List.mem_append.mp hmem with hmem | hmem
    · cases sign' with
      | none => cases hmem
      | plus => exact hsign (List.mem_cons.mpr (.inl (List.mem_singleton.mp hmem)))
      | minus => exact hsign (List.mem_cons_of_mem _ hmem)
    · rw [List.mem_singleton.mp hmem] at hnumeral
      cases hnumeral

/-! ## The result -/

/-- Where the hours of some days are no `int`, the duration is not in range. -/
theorem duration_ne_of_not_fits {t : Term} (ht : t ∈ ts) (hfits : ¬ t.Fits)
    (hd : InRange d) : (d : ℚ) ≠ duration sign ts := by
  obtain ⟨hunit, hlarge⟩ := Classical.not_imp.mp hfits
  have hvalue : t.value ≤ (ts.map Term.value).sum :=
    List.single_le_sum (List.forall_mem_map.mpr fun u _ => value_nonneg u) _ (List.mem_map_of_mem ht)
  have hcast : (2 ^ 63 : ℚ) ≤ 24 * (Strconv.decimal t.number : ℚ) := by exact_mod_cast Nat.not_lt.mp hlarge
  rw [value_of_days hunit] at hvalue
  have hmin : (-9223372036854775808 : ℚ) ≤ d := by exact_mod_cast hd.1
  have hmax : (d : ℚ) ≤ 9223372036854775807 := by exact_mod_cast hd.2
  rw [duration]
  cases sign <;> rw [Sign.factor] <;> intro heq <;> linarith

theorem duration_inHours (h : ∀ t ∈ ts, t.Fits) :
    duration sign (ts.map Term.inHours) = duration sign ts := by
  rw [duration, duration, List.map_map]
  exact congrArg (fun values => sign.factor * List.sum values) (List.map_congr_left fun t ht => value_inHours (h t ht))

theorem parseDuration_render (parse : List Char → Except String Int) (sign : Sign) (ts : List Term) :
    parseDuration parse (render sign ts) = (parse (sign.text ++ ts.flatMap signedText)).mapError .parse := by
  rw [parseDuration, hasFractionalDays_render, expandDays_render]
  rfl

/-- What an exact `time.ParseDuration` makes of the text with hours for days. -/
theorem read_of_exact {parse : List Char → Except String Int} (hparse : Exact parse)
    (h : parse (sign.text ++ ts.flatMap signedText) = .ok d) :
    ∃ s, ReadAs sign ts s ∧ InRange d ∧ (d : ℚ) = duration s (ts.map Term.inHours) := by
  obtain ⟨hrange, ⟨s, hzero, -⟩ | ⟨s, ts', -, htext, hd⟩⟩ := hparse _ _ h
  · exact absurd hzero (ne_zero_text sign s ts)
  · have hread := readAs_of_render htext
    rw [render_of_readAs hread] at htext
    rw [← (render_inj htext).2] at hd
    exact ⟨s, hread, hrange, hd⟩

/-- Only the text is read. -/
def parseJust (text : List Char) (d : Int) (s : List Char) : Except String Int :=
  if s = text then .ok d else .error "time: invalid duration"

theorem parseJust_exact (hunits : ∀ t ∈ ts, t.unit ≠ .d) (hrange : InRange d)
    (hd : (d : ℚ) = duration sign ts) : Exact (parseJust (render sign ts) d) := by
  intro text d' h
  unfold parseJust at h
  split at h <;> cases h
  exact ⟨hrange, .inr ⟨sign, ts, hunits, ‹_›, hd⟩⟩

/-- Whatever exact `time.ParseDuration` there is, the duration that was written is returned or an error,
just if the text is not misread. -/
theorem parsed_exact_iff (sign : Sign) (ts : List Term) :
    (∀ parse, Exact parse → ∀ d, parseDuration parse (render sign ts) = .ok d → (d : ℚ) = duration sign ts) ↔
      ¬ Misread sign ts := by
  constructor
  · rintro h ⟨⟨t, ht, hfits⟩, s, d, hread, hrange, hd⟩
    have hexact := parseJust_exact (List.forall_mem_map.mpr fun t _ => unit_inHours t) hrange hd
    refine duration_ne_of_not_fits ht hfits hrange (h _ hexact d ?_)
    rw [parseDuration_render, render_of_readAs hread, parseJust, if_pos rfl]
    rfl
  · intro h parse hparse d hok
    rw [parseDuration_render] at hok
    obtain ⟨s, hread, hrange, hd⟩ := read_of_exact hparse (mapError_eq_ok hok)
    by_cases hfits : ∀ t ∈ ts, t.Fits
    · have hpos : ∀ t ∈ ts, ¬ t.Negative := fun t ht => not_negative_of_fits (hfits t ht)
      obtain ⟨rfl, -⟩ | ⟨-, -, t, rest, rfl, hneg, -⟩ := hread
      · rw [hd, duration_inHours hfits]
      · exact absurd hneg (hpos t List.mem_cons_self)
    · simp only [not_forall] at hfits
      obtain ⟨t, ht, hnot⟩ := hfits
      exact absurd ⟨⟨t, ht, hnot⟩, s, d, hread, hrange, hd⟩ h

def manyDays : Term :=
  ⟨List.replicate 19 '9', .d, List.all_eq_true.mp rfl, List.any_eq_true.mp rfl, by decide, fun _ => List.all_eq_true.mp rfl⟩

/-- The text is refused with a sign, which comes to stand before another. -/
example : ¬ Misread .minus [manyDays] := by
  rintro ⟨-, s, d, ⟨-, hpos⟩ | ⟨hsign, -⟩, -⟩
  · exact hpos manyDays List.mem_cons_self (by decide)
  · cases hsign

def dayBack : Term :=
  ⟨['2', '4'], .h, List.all_eq_true.mp rfl, List.any_eq_true.mp rfl, by decide, fun _ => List.all_eq_true.mp rfl⟩

/-- The hours of `9999999999999999999d` wrap around to -24. -/
theorem days_wrapped :
    Exact (parseJust (render .minus [dayBack]) (-86400000000000)) ∧
      parseDuration (parseJust (render .minus [dayBack]) (-86400000000000)) (render .none [manyDays]) =
        .ok (-86400000000000) ∧
      ((-86400000000000 : Int) : ℚ) ≠ duration .none [manyDays] := by
  have hrange : InRange (-86400000000000) := ⟨by decide, by decide⟩
  refine ⟨parseJust_exact ?_ hrange ?_, rfl, ?_⟩
  · rintro t ht
    rw [List.mem_singleton.mp ht]
    exact nofun
  · have hdecimal : Strconv.decimal dayBack.number = 24 := by decide
    rw [duration, List.map_singleton, List.sum_singleton, Term.value,
      quantity_of_digits (List.all_eq_true.mp rfl), hdecimal]
    norm_num [Sign.factor, dayBack, TimeUnit.nanoseconds]
  · refine duration_ne_of_not_fits (t := manyDays) List.mem_cons_self (fun hfits => ?_) hrange
    exact absurd (hfits rfl) (by decide)

end Csar.Proof.Configutil
