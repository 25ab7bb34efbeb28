import CsarCore.Framework.Json.Codec
import CsarCore.Framework.Regexp

/-!
# Compact JSON texts

What `json.Marshal` makes of a `json.RawMessage`: the text without the spaces between its
tokens, and with the characters that are special in HTML escaped inside its strings. That
denotes what the text did (`parse_compact`) and is not changed by being compacted again
(`compact_compact`).
-/

namespace Csar.Json

open Regexp (toRunes toRunes_char toRunes_stray toRunes_nil)

variable {raw : Bytes} {r : Raw} {c : Char} {cs : List Char} {s : Bytes}

/-! ## Escaping -/

def htmlChar (c : Char) : Bool := c = '<' ∨ c = '>' ∨ c = '&' ∨ c.toNat = 0x2028 ∨ c.toNat = 0x2029

/-- `json.HTMLEscape`, inside a string. -/
def escapeHTML (s : Bytes) : Bytes :=
  (toRunes s).flatMap fun r => if htmlChar r.1 then encodeRunes (escapeUnit r.1.toNat) else r.2

theorem escapeHTML_html (h : htmlChar c) (bs : Bytes) :
    escapeHTML (String.utf8EncodeChar c ++ bs) = encodeRunes (escapeUnit c.toNat) ++ escapeHTML bs := by
  rw [escapeHTML, toRunes_char, List.flatMap_cons, if_pos h]
  rfl

theorem escapeHTML_char (h : htmlChar c = false) (bs : Bytes) :
    escapeHTML (String.utf8EncodeChar c ++ bs) = String.utf8EncodeChar c ++ escapeHTML bs := by
  rw [escapeHTML, toRunes_char, List.flatMap_cons, h]
  rfl

theorem escapeHTML_stray {b : UInt8} {bs : Bytes} (h : firstRune (b :: bs) = none) :
    escapeHTML (b :: bs) = b :: escapeHTML bs := by
  rw [escapeHTML, toRunes_stray h, List.flatMap_cons, show htmlChar runeError = false by decide]
  rfl

theorem escapeHTML_encodeRunes (h : ∀ c ∈ cs, htmlChar c = false) (bs : Bytes) :
    escapeHTML (encodeRunes cs ++ bs) = encodeRunes cs ++ escapeHTML bs := by
  induction cs with
  | nil => rfl
  | cons c cs ih =>
    obtain ⟨hc, hcs⟩ := List.forall_mem_cons.mp h
    rw [encodeRunes_cons, List.append_assoc, escapeHTML_char hc, ih hcs, List.append_assoc]

theorem escapeUnit_plain (n : Nat) : ∀ c ∈ escapeUnit n, htmlChar c = false := by
  have hdigit : ∀ m < 16, htmlChar (Nat.digitChar m) = false := by decide
  have hmod : ∀ m, htmlChar (Nat.digitChar (m % 16)) = false := fun m => hdigit _ (Nat.mod_lt m (by decide))
  simp only [escapeUnit, List.forall_mem_cons, hmod, List.not_mem_nil, false_implies, implies_true, and_true]
  decide

theorem eq_of_escapeHTML_continues {conts : Bytes} (hc : ∀ b ∈ conts, continues b) :
    ∀ {bs rest : Bytes}, escapeHTML bs = conts ++ rest → ∃ rest', bs = conts ++ rest' := by
  induction conts with
  | nil => exact fun {bs _} _ => ⟨bs, rfl⟩
  | cons x conts ih =>
    obtain ⟨hx, hconts⟩ := List.forall_mem_cons.mp hc
    intro bs rest h
    have hstart : ∀ c tail, String.utf8EncodeChar c ++ tail ≠ x :: conts ++ rest := by
      intro c tail heq
      obtain ⟨b, bs', hb, hnot, -⟩ := utf8EncodeChar_cons c
      rw [hb, List.cons_append, List.cons_append, List.cons.injEq] at heq
      rw [heq.1, hx] at hnot
      cases hnot
    induction bs using runes_ind with
    | nil => cases h
    | char c bs _ =>
      by_cases hh : htmlChar c
      · rw [escapeHTML_html hh, show encodeRunes (escapeUnit c.toNat) = _ from encodeRunes_cons _ _,
          List.append_assoc] at h
        exact absurd h (hstart _ _)
      · rw [escapeHTML_char (Bool.eq_false_iff.mpr hh)] at h
        exact absurd h (hstart _ _)
    | stray b bs hb _ =>
      rw [escapeHTML_stray hb, List.cons_append, List.cons.injEq] at h
      obtain ⟨rest', hrest'⟩ := ih hconts h.2
      exact ⟨rest', by rw [h.1, hrest', List.cons_append]⟩

theorem firstRune_escapeHTML {b : UInt8} {bs : Bytes} (h : firstRune (b :: bs) = none) :
    firstRune (b :: escapeHTML bs) = none := by
  refine Option.eq_none_iff_forall_ne_some.mpr fun c hc => ?_
  obtain ⟨rest, hrest⟩ := firstRune_eq_some hc
  obtain ⟨b', conts, henc, -, hconts⟩ := utf8EncodeChar_cons c
  rw [henc, List.cons_append, List.cons.injEq] at hrest
  obtain ⟨rest', hrest'⟩ := eq_of_escapeHTML_continues hconts hrest.2
  have hsplit : b :: bs = String.utf8EncodeChar c ++ rest' := by
    rw [henc, hrest.1, hrest', List.cons_append]
  rw [hsplit, firstRune_encode] at h
  cases h

theorem escapeHTML_escapeHTML (s : Bytes) : escapeHTML (escapeHTML s) = escapeHTML s := by
  induction s using runes_ind with
  | nil => rfl
  | char c bs ih =>
    by_cases hh : htmlChar c
    · rw [escapeHTML_html hh, escapeHTML_encodeRunes (escapeUnit_plain _), ih]
    · rw [escapeHTML_char (Bool.eq_false_iff.mpr hh), escapeHTML_char (Bool.eq_false_iff.mpr hh), ih]
  | stray b bs hb ih => rw [escapeHTML_stray hb, escapeHTML_stray (firstRune_escapeHTML hb), ih]

/-! ## Escaping does not change a string -/

def CodeUnit.plain : CodeUnit → CodeUnit
  | .char c => .char c
  | .unit n => if 0xD800 ≤ n ∧ n < 0xE000 then .unit n else .char (Char.ofNat n)

theorem pairUp_lone {n : Nat} {us : List CodeUnit} (hn : 0xD800 ≤ n ∧ n < 0xE000)
    (h : ∀ m us', us = .unit m :: us' → ¬ (n < 0xDC00 ∧ 0xDC00 ≤ m ∧ m < 0xE000)) :
    pairUp (.unit n :: us) = .surrogate n :: pairUp us := by
  rcases us with _ | ⟨_ | m, us⟩
  · simp only [pairUp, if_pos hn]
  · simp only [pairUp, if_pos hn]
  · have hm := h m us rfl
    rw [pairUp, if_neg (by omega), if_pos hn]

theorem pairUp_pair {n m : Nat} (hn : 0xD800 ≤ n ∧ n < 0xDC00) (hm : 0xDC00 ≤ m ∧ m < 0xE000) (us : List CodeUnit) :
    pairUp (.unit n :: .unit m :: us) =
      .scalar (Char.ofNat (0x10000 + (n - 0xD800) * 0x400 + (m - 0xDC00))) :: pairUp us := by
  rw [pairUp, if_pos ⟨hn.1, hn.2, hm.1, hm.2⟩]

theorem pairUp_plain (us : List CodeUnit) : pairUp (us.map CodeUnit.plain) = pairUp us := by
  induction hlen : us.length using Nat.strongRecOn generalizing us with
  | ind k ih =>
    subst hlen
    rcases us with _ | ⟨c | n, us⟩
    · rfl
    · exact congrArg (CodePoint.scalar c :: ·) (ih us.length (Nat.lt_succ_self _) us rfl)
    · have hrest := ih us.length (Nat.lt_succ_self _) us rfl
      by_cases hn : 0xD800 ≤ n ∧ n < 0xE000
      · have hplain : CodeUnit.plain (.unit n) = .unit n := if_pos hn
        rw [List.map_cons, hplain]
        by_cases hpair : ∃ m us', us = .unit m :: us' ∧ n < 0xDC00 ∧ 0xDC00 ≤ m ∧ m < 0xE000
        · obtain ⟨m, us', rfl, hlt, hm⟩ := hpair
          have hplain' : CodeUnit.plain (.unit m) = .unit m := if_pos ⟨by omega, hm.2⟩
          rw [List.map_cons, hplain', pairUp_pair ⟨hn.1, hlt⟩ hm, pairUp_pair ⟨hn.1, hlt⟩ hm,
            ih us'.length (by simp only [List.length_cons]; omega) us' rfl]
        · rw [pairUp_lone hn, pairUp_lone hn, hrest]
          · exact fun m us' heq hm => hpair ⟨m, us', heq, hm⟩
          · intro m us' heq hm
            obtain ⟨u, us'', rfl, hu, -⟩ := List.map_eq_cons_iff.mp heq
            cases u with
            | char c => cases hu
            | unit m' =>
              rw [CodeUnit.plain] at hu
              split at hu
              · cases hu
                exact hpair ⟨m, us'', rfl, hm⟩
              · cases hu
      · have hplain : CodeUnit.plain (.unit n) = .char (Char.ofNat n) := if_neg hn
        rw [List.map_cons, hplain, pairUp_unit hn, pairUp, hrest]

theorem htmlChar_of_hex {x : Char} (h : (hexValue x).isSome) : htmlChar x = false := by
  have hascii := hexValue_ascii h
  have hlt := hexValue_ne h (c := '<') rfl
  have hgt := hexValue_ne h (c := '>') rfl
  have hand := hexValue_ne h (c := '&') rfl
  simp only [htmlChar, hlt, hgt, hand, false_or, decide_eq_false_iff_not]
  omega

theorem htmlChar_lt (h : htmlChar c) : c.toNat < 0xD800 := by
  simp only [htmlChar, decide_eq_true_eq] at h
  rcases h with rfl | rfl | rfl | h | h <;> first | omega | decide

/-- Escapes and characters are read as the same code points. -/
theorem unescape_escapeHTML (h : (unescape (text s)).isSome) :
    (unescape (text (escapeHTML s))).map (List.map CodeUnit.plain) = (unescape (text s)).map (List.map CodeUnit.plain) := by
  have hmap : ∀ (u : CodeUnit) (o : Option (List CodeUnit)),
      (o.map (u :: ·)).map (List.map CodeUnit.plain) = (o.map (List.map CodeUnit.plain)).map (u.plain :: ·) := by
    intro u o
    cases o <;> rfl
  refine content_ind (motive := fun s => (unescape (text (escapeHTML s))).map (List.map CodeUnit.plain) =
    (unescape (text s)).map (List.map CodeUnit.plain)) rfl ?_ ?_ ?_ ?_ s h
  · intro a b c d n bs hn ih
    have hplain : ∀ x ∈ ['\\', 'u', a, b, c, d], htmlChar x = false := by
      refine List.forall_mem_cons.mpr ⟨by decide, List.forall_mem_cons.mpr ⟨by decide, fun x hx => ?_⟩⟩
      exact htmlChar_of_hex (hexFour_digits hn x hx)
    rw [escapeHTML_encodeRunes hplain, text_encodeRunes_append, text_encodeRunes_append, unescape_unit hn,
      unescape_unit hn, hmap, hmap, ih]
  · intro e c bs he ih
    have hletters : (shortEscapes.map Prod.fst).all fun x => htmlChar x = false := by decide
    have hletter := of_decide_eq_true (List.all_eq_true.mp hletters e (shortEscapes_letter he))
    have hplain : ∀ x ∈ ['\\', e], htmlChar x = false :=
      List.forall_mem_cons.mpr ⟨by decide, List.forall_mem_cons.mpr ⟨hletter, by simp⟩⟩
    rw [escapeHTML_encodeRunes hplain, text_encodeRunes_append, text_encodeRunes_append, unescape_short he,
      unescape_short he, hmap, hmap, ih]
  · intro c bs hslash hquote hctl ih
    rw [text_char, unescape_char hslash hquote hctl, hmap]
    by_cases hh : htmlChar c
    · have hlt := htmlChar_lt hh
      have hplain : CodeUnit.plain (.unit c.toNat) = .plain (.char c) :=
        (if_neg (by omega)).trans (congrArg CodeUnit.char (Char.ofNat_toNat c))
      rw [escapeHTML_html hh, text_encodeRunes_append, unescape_escapeUnit (by omega), hmap, hplain, ih]
    · rw [escapeHTML_char (Bool.eq_false_iff.mpr hh), text_char, unescape_char hslash hquote hctl, hmap, ih]
  · intro b bs hb ih
    rw [escapeHTML_stray hb, text_stray hb, text_stray (firstRune_escapeHTML hb),
      unescape_char (by decide) (by decide) (by decide), unescape_char (by decide) (by decide) (by decide), hmap, hmap, ih]

theorem unquote_escapeHTML (h : (unquote (text s)).isSome) : unquote (text (escapeHTML s)) = unquote (text s) := by
  have hpair : ∀ o : Option (List CodeUnit), o.map pairUp = (o.map (List.map CodeUnit.plain)).map pairUp := by
    intro o
    cases o with
    | none => rfl
    | some us => exact congrArg some (pairUp_plain us).symm
  have hunits : (unescape (text s)).isSome := by simpa [unquote] using h
  rw [unquote, hpair, unescape_escapeHTML hunits, ← hpair]
  rfl

def safeByte (b : UInt8) : Bool := 32 ≤ b.toNat ∧ b.toNat < 128 ∧ b ≠ 0x22 ∧ b ≠ 0x5C

theorem unquote_of_safe (h : ∀ b ∈ s, safeByte b) : (unquote (text s)).isSome := by
  suffices hs : (unescape (text s)).isSome by simpa [unquote] using hs
  induction s with
  | nil => rfl
  | cons b bs ih =>
    obtain ⟨hb, hbs⟩ := List.forall_mem_cons.mp h
    obtain ⟨hge, hlt, hquote, hslash⟩ := of_decide_eq_true hb
    have hnat : (Char.ofNat b.toNat).toNat = b.toNat := by
      rw [Char.ofNat, dif_pos (.inl (Nat.lt_trans hlt (by decide)))]
      rfl
    have hne : ∀ c : Char, b ≠ UInt8.ofNat c.toNat → Char.ofNat b.toNat ≠ c := by
      rintro c hbc rfl
      rw [hnat, UInt8.ofNat_toNat] at hbc
      exact hbc rfl
    rw [text_ascii hlt, unescape_char (hne '\\' hslash) (hne '"' hquote) (by rwa [hnat]), Option.isSome_map]
    exact ih hbs

/-! ## Compacting -/

/-- What `json.Marshal` makes of the tokens of a `json.RawMessage`. -/
def compact (r : Raw) : Raw := r.map id escapeHTML

/-- What `json.Marshal` writes for a `json.RawMessage`; `none`: it is no JSON text. -/
def compactRaw (raw : Bytes) : Option Bytes := (scanRaw raw).map fun r => print (compact r)

theorem compact_compact (r : Raw) : compact (compact r) = compact r := by
  rw [compact, compact, map_map]
  simp only [escapeHTML_escapeHTML]
  rfl

theorem depth_compact (r : Raw) : (compact r).depth = r.depth := depth_map _ _ r

theorem wellFormed_compact (h : wellFormed r) : wellFormed (compact r) := by
  rw [wellFormed, compact, all_map]
  refine all_imp (fun n hn => hn) (fun s hs => ?_) h
  rw [unquote_escapeHTML hs]
  exact hs

theorem denoted_compact (h : wellFormed r) : denoted (compact r) = denoted r := by
  rw [denoted, compact, map_map]
  refine map_congr_all (fun n _ => rfl) (fun s hs => ?_) h
  rw [unquote_escapeHTML hs]

theorem parse_compact (h : scanRaw raw = some r) : parse (print (compact r)) = parse raw := by
  obtain ⟨-, -, hwf⟩ := scanRaw_eq_some.mp h
  rw [parse_print (wellFormed_compact hwf), parse_of_scanRaw h, denoted_compact hwf]

end Csar.Json
