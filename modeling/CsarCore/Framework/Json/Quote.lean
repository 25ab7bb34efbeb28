import CsarCore.Framework.Utf8

/-!
# Strings in JSON

`unquote` reads what stands between two quotes. An escaped half of a surrogate pair
without the other half is kept: JSON has such strings, Go has not, and reads U+FFFD
(`goString`). `quote` is how `encoding/json` writes a Go string, with what is special in
HTML escaped.
-/

namespace Csar.Json

/-- Characters, and halves of surrogate pairs that are alone. -/
inductive CodePoint
  | scalar (c : Char)
  | surrogate (n : Nat)
  deriving DecidableEq

def CodePoint.toChar : CodePoint → Char
  | .scalar c => c
  | .surrogate _ => runeError

def goString (s : List CodePoint) : Bytes := encodeRunes (s.map CodePoint.toChar)

/-! ## Reading -/

/-- A character, or the code unit of an escape `\u`. -/
inductive CodeUnit
  | char (c : Char)
  | unit (n : Nat)

def hexValue (c : Char) : Option Nat :=
  if '0' ≤ c ∧ c ≤ '9' then some (c.toNat - 48)
  else if 'a' ≤ c ∧ c ≤ 'f' then some (c.toNat - 87)
  else if 'A' ≤ c ∧ c ≤ 'F' then some (c.toNat - 55)
  else none

def hexFour (a b c d : Char) : Option Nat :=
  match hexValue a, hexValue b, hexValue c, hexValue d with
  | some a, some b, some c, some d => some (a * 4096 + b * 256 + c * 16 + d)
  | _, _, _, _ => none

def shortEscapes : List (Char × Char) :=
  [('"', '"'), ('\\', '\\'), ('/', '/'), ('b', '\x08'), ('f', '\x0c'), ('n', '\n'), ('r', '\r'), ('t', '\t')]

def unescape : List Char → Option (List CodeUnit)
  | [] => some []
  | '\\' :: 'u' :: a :: b :: c :: d :: rest =>
    match hexFour a b c d, unescape rest with
    | some n, some us => some (.unit n :: us)
    | _, _ => none
  | '\\' :: e :: rest =>
    match shortEscapes.lookup e, unescape rest with
    | some c, some us => some (.char c :: us)
    | _, _ => none
  | c :: rest => if c = '\\' ∨ c = '"' ∨ c.toNat < 32 then none else (unescape rest).map (.char c :: ·)

def pairUp : List CodeUnit → List CodePoint
  | [] => []
  | .char c :: us => .scalar c :: pairUp us
  | .unit n :: .unit m :: us =>
    if 0xD800 ≤ n ∧ n < 0xDC00 ∧ 0xDC00 ≤ m ∧ m < 0xE000 then
      .scalar (Char.ofNat (0x10000 + (n - 0xD800) * 0x400 + (m - 0xDC00))) :: pairUp us
    else if 0xD800 ≤ n ∧ n < 0xE000 then .surrogate n :: pairUp (.unit m :: us)
    else .scalar (Char.ofNat n) :: pairUp (.unit m :: us)
  | .unit n :: us =>
    if 0xD800 ≤ n ∧ n < 0xE000 then .surrogate n :: pairUp us else .scalar (Char.ofNat n) :: pairUp us

def unquote (cs : List Char) : Option (List CodePoint) := (unescape cs).map pairUp

/-! ## Writing -/

def escapeUnit (n : Nat) : List Char :=
  ['\\', 'u', Nat.digitChar (n / 4096 % 16), Nat.digitChar (n / 256 % 16), Nat.digitChar (n / 16 % 16),
    Nat.digitChar (n % 16)]

def writtenShort : List (Char × Char) :=
  [('"', '"'), ('\\', '\\'), ('\x08', 'b'), ('\x0c', 'f'), ('\n', 'n'), ('\r', 'r'), ('\t', 't')]

def shortEscape (c : Char) : Option Char := writtenShort.lookup c

/-- Other control characters, those that are special in HTML, and two that are line ends in JavaScript. -/
def unsafeChar (c : Char) : Bool :=
  c.toNat < 32 ∨ c = '<' ∨ c = '>' ∨ c = '&' ∨ c.toNat = 0x2028 ∨ c.toNat = 0x2029

/-- `appendString`, on one rune. -/
def escape : Option Char → List Char
  | none => escapeUnit 0xFFFD
  | some c =>
    match shortEscape c with
    | some e => ['\\', e]
    | none => if unsafeChar c then escapeUnit c.toNat else [c]

def quote (s : Bytes) : List Char := (runes s).flatMap escape

/-! ## What is written is read back -/

theorem hexValue_digitChar : ∀ n < 16, hexValue (Nat.digitChar n) = some n := by decide

variable {n : Nat} {e : Char}

theorem unescape_escapeUnit (hn : n < 65536) (cs : List Char) :
    unescape (escapeUnit n ++ cs) = (unescape cs).map (.unit n :: ·) := by
  have hlt : ∀ m, m % 16 < 16 := fun m => Nat.mod_lt m (by decide)
  have hsum : n / 4096 % 16 * 4096 + n / 256 % 16 * 256 + n / 16 % 16 * 16 + n % 16 = n := by omega
  simp only [escapeUnit, List.cons_append, List.nil_append, unescape, hexFour, hexValue_digitChar _ (hlt _), hsum]
  cases unescape cs <;> rfl

theorem shortEscape_some {c : Char} (h : shortEscape c = some e) : shortEscapes.lookup e = some c ∧ e ≠ 'u' := by
  obtain ⟨l₁, l₂, hl, -⟩ := List.lookup_eq_some_iff.mp h
  have hmem : (c, e) ∈ l₁ ++ (c, e) :: l₂ := List.mem_append_right l₁ List.mem_cons_self
  have hall : ∀ p ∈ writtenShort, shortEscapes.lookup p.2 = some p.1 ∧ p.2 ≠ 'u' := by decide
  exact hall (c, e) (hl ▸ hmem)

def unitOf : Option Char → CodeUnit
  | none => .unit 0xFFFD
  | some c => if shortEscape c = none ∧ unsafeChar c then .unit c.toNat else .char c

theorem unsafeChar_lt {c : Char} (h : unsafeChar c) : c.toNat < 0xD800 := by
  simp only [unsafeChar, decide_eq_true_eq] at h
  rcases h with h | rfl | rfl | rfl | h | h <;> first | omega | decide

theorem unescape_escape (r : Option Char) (cs : List Char) :
    unescape (escape r ++ cs) = (unescape cs).map (unitOf r :: ·) := by
  cases r with
  | none => exact unescape_escapeUnit (by decide) cs
  | some c =>
    rcases hs : shortEscape c with _ | e
    · by_cases hu : unsafeChar c
      · have hlt := unsafeChar_lt hu
        simp only [escape, unitOf, hs, hu, true_and, if_true]
        exact unescape_escapeUnit (by omega) cs
      · have hshort : ∀ c', shortEscape c' ≠ none → c ≠ c' := by
          rintro c' hc' rfl
          exact hc' hs
        have hslash : c ≠ '\\' := hshort _ (by decide)
        have hquote : c ≠ '"' := hshort _ (by decide)
        have hctl : ¬ c.toNat < 32 := fun h => hu (by simp [unsafeChar, h])
        simp [escape, unitOf, hs, hu, unescape, hslash, hquote, hctl]
    · obtain ⟨hl, hne⟩ := shortEscape_some hs
      cases hcs : unescape cs <;> simp [escape, unitOf, hs, unescape, hl, hne, hcs]

theorem pairUp_unit (hn : ¬ (0xD800 ≤ n ∧ n < 0xE000)) (us : List CodeUnit) :
    pairUp (.unit n :: us) = .scalar (Char.ofNat n) :: pairUp us := by
  rcases us with _ | ⟨_ | m, us⟩
  · simp only [pairUp, if_neg hn]
  · simp only [pairUp, if_neg hn]
  · rw [pairUp, if_neg (by omega), if_neg hn]

theorem pairUp_unitOf (r : Option Char) (us : List CodeUnit) :
    pairUp (unitOf r :: us) = .scalar (r.getD runeError) :: pairUp us := by
  cases r with
  | none => exact pairUp_unit (by decide) us
  | some c =>
    by_cases h : shortEscape c = none ∧ unsafeChar c
    · have hlt := unsafeChar_lt h.2
      rw [unitOf, if_pos h, pairUp_unit (by omega), Char.ofNat_toNat]
      rfl
    · rw [unitOf, if_neg h]
      rfl

theorem unquote_quote (s : Bytes) : unquote (quote s) = some ((text s).map .scalar) := by
  have hunits : ∀ rs : List (Option Char), unescape (rs.flatMap escape) = some (rs.map unitOf) := by
    intro rs
    induction rs with
    | nil => rfl
    | cons r rs ih => rw [List.flatMap_cons, unescape_escape, ih, Option.map_some, List.map_cons]
  have hpairs : ∀ rs : List (Option Char),
      pairUp (rs.map unitOf) = rs.map fun r => .scalar (r.getD runeError) := by
    intro rs
    induction rs with
    | nil => rfl
    | cons r rs ih => rw [List.map_cons, pairUp_unitOf, ih, List.map_cons]
  rw [unquote, quote, hunits, Option.map_some, hpairs, text, List.map_map]
  rfl

/-! ## What stands between quotes -/

variable {c : Char} {cs : List Char}

theorem unescape_cases (h : (unescape cs).isSome) : cs = [] ∨
    (∃ a b c d n rest, cs = '\\' :: 'u' :: a :: b :: c :: d :: rest ∧ hexFour a b c d = some n ∧ (unescape rest).isSome) ∨
    (∃ e c rest, cs = '\\' :: e :: rest ∧ shortEscapes.lookup e = some c ∧ (unescape rest).isSome) ∨
    ∃ c rest, cs = c :: rest ∧ c ≠ '\\' ∧ c ≠ '"' ∧ 32 ≤ c.toNat ∧ (unescape rest).isSome := by
  unfold unescape at h
  split at h
  · exact .inl rfl
  · split at h
    · rename_i hn hrest
      exact .inr (.inl ⟨_, _, _, _, _, _, rfl, hn, by rw [hrest]; rfl⟩)
    · cases h
  · split at h
    · rename_i hc hrest
      exact .inr (.inr (.inl ⟨_, _, _, rfl, hc, by rw [hrest]; rfl⟩))
    · cases h
  · split at h
    · cases h
    · rename_i hc
      rw [not_or, not_or, Nat.not_lt] at hc
      exact .inr (.inr (.inr ⟨_, _, rfl, hc.1, hc.2.1, hc.2.2, by simpa using h⟩))

theorem hexFour_digits {a b d : Char} (h : hexFour a b c d = some n) :
    ∀ x ∈ [a, b, c, d], (hexValue x).isSome := by
  unfold hexFour at h
  split at h
  · rename_i ha hb hc hd
    simp [ha, hb, hc, hd]
  · cases h

theorem hexValue_ne {x : Char} (h : (hexValue x).isSome) (hc : hexValue c = none) : x ≠ c := by
  rintro rfl
  rw [hc] at h
  cases h

theorem hexValue_ascii {x : Char} (h : (hexValue x).isSome) : x.toNat < 128 := by
  have hle : ∀ c : Char, c.toNat < 128 → x ≤ c → x.toNat < 128 := fun c hc hx => Nat.lt_of_le_of_lt hx hc
  unfold hexValue at h
  split at h
  · exact hle '9' (by decide) (by tauto)
  · split at h
    · exact hle 'f' (by decide) (by tauto)
    · split at h
      · exact hle 'F' (by decide) (by tauto)
      · cases h

theorem shortEscapes_letter (h : shortEscapes.lookup e = some c) : e ∈ shortEscapes.map Prod.fst := by
  obtain ⟨l₁, l₂, hl, -⟩ := List.lookup_eq_some_iff.mp h
  exact List.mem_map_of_mem (hl ▸ List.mem_append_right l₁ List.mem_cons_self)

/-- Induction along escapes, characters, and bytes that belong to none. -/
theorem content_ind {motive : Bytes → Prop} (nil : motive [])
    (unit : ∀ a b c d n bs, hexFour a b c d = some n → motive bs → motive (encodeRunes ['\\', 'u', a, b, c, d] ++ bs))
    (short : ∀ e c bs, shortEscapes.lookup e = some c → motive bs → motive (encodeRunes ['\\', e] ++ bs))
    (char : ∀ c bs, c ≠ '\\' → c ≠ '"' → 32 ≤ c.toNat → motive bs → motive (String.utf8EncodeChar c ++ bs))
    (stray : ∀ b bs, firstRune (b :: bs) = none → motive bs → motive (b :: bs))
    (s : Bytes) (h : (unescape (text s)).isSome) : motive s := by
  have hne : ∀ {α : Type} (f : Char → Option α) {x : Char}, f runeError = none → (f x).isSome → x ≠ runeError := by
    rintro α f x hf hx rfl
    rw [hf] at hx
    cases hx
  have hshorter : ∀ (cs : List Char) (bs : Bytes), cs ≠ [] → bs.length < (encodeRunes cs ++ bs).length := by
    intro cs bs hcs
    obtain ⟨c, cs, rfl⟩ := List.exists_cons_of_ne_nil hcs
    have hpos := List.length_pos_iff.mpr (utf8EncodeChar_ne_nil c)
    rw [encodeRunes_cons, List.append_assoc, List.length_append, List.length_append]
    omega
  induction hlen : s.length using Nat.strongRecOn generalizing s with
  | ind k ih =>
    subst hlen
    have hnext : ∀ bs, bs.length < s.length → (unescape (text bs)).isSome → motive bs := fun bs hlt hbs =>
      ih _ hlt bs hbs rfl
    rcases unescape_cases h with hs | ⟨a, b, c, d, n, rest, hs, hn, hrest⟩ | ⟨e, c, rest, hs, he, hrest⟩ |
      ⟨c, rest, hs, hslash, hquote, hctl, hrest⟩
    · rw [text_eq_nil hs]
      exact nil
    · have hdigits : ∀ x ∈ ['\\', 'u', a, b, c, d], x ≠ runeError := by
        refine List.forall_mem_cons.mpr ⟨by decide, List.forall_mem_cons.mpr ⟨by decide, fun x hx => ?_⟩⟩
        exact hne hexValue (by decide) (hexFour_digits hn x hx)
      obtain ⟨bs, rfl, rfl⟩ := eq_of_text_append ['\\', 'u', a, b, c, d] hs hdigits
      exact unit a b c d n bs hn (hnext bs (hshorter _ bs (List.cons_ne_nil _ _)) hrest)
    · have hletters : ∀ x ∈ ['\\', e], x ≠ runeError :=
        List.forall_mem_cons.mpr ⟨by decide, List.forall_mem_cons.mpr
          ⟨hne (shortEscapes.lookup ·) (by decide) (by rw [he]; rfl), by simp⟩⟩
      obtain ⟨bs, rfl, rfl⟩ := eq_of_text_append ['\\', e] hs hletters
      exact short e c bs he (hnext bs (hshorter _ bs (List.cons_ne_nil _ _)) hrest)
    · rcases runes_cases s with rfl | ⟨c', bs, rfl⟩ | ⟨b, bs, rfl, hb⟩
      · cases hs
      · rw [text_char, List.cons.injEq] at hs
        obtain ⟨rfl, rfl⟩ := hs
        have hlt := hshorter [c'] bs (List.cons_ne_nil _ _)
        rw [encodeRunes_cons, List.append_assoc] at hlt
        exact char c' bs hslash hquote hctl (hnext bs hlt hrest)
      · rw [text_stray hb, List.cons.injEq] at hs
        obtain ⟨-, rfl⟩ := hs
        exact stray b bs hb (hnext bs (Nat.lt_succ_self _) hrest)

theorem unescape_unit {a b d : Char} (h : hexFour a b c d = some n) (rest : List Char) :
    unescape (['\\', 'u', a, b, c, d] ++ rest) = (unescape rest).map (.unit n :: ·) := by
  simp only [List.cons_append, List.nil_append, unescape, h]
  cases unescape rest <;> rfl

theorem unescape_short (h : shortEscapes.lookup e = some c) (rest : List Char) :
    unescape (['\\', e] ++ rest) = (unescape rest).map (.char c :: ·) := by
  have hu : e ≠ 'u' := by
    rintro rfl
    cases h
  cases hr : unescape rest <;> simp [unescape, h, hu, hr]

theorem unescape_char (hslash : c ≠ '\\') (hquote : c ≠ '"') (hctl : 32 ≤ c.toNat) (rest : List Char) :
    unescape (c :: rest) = (unescape rest).map (.char c :: ·) := by
  simp [unescape, hslash, hquote, Nat.not_lt.mpr hctl]

end Csar.Json
