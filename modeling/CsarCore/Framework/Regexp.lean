import CsarCore.Framework.Strings

/-!
# Regular expressions

Patterns as the package `regexp` runs them: of the matches that start first, the one
that is found first if the left alternative is tried before the right one and one more
repetition before none. `run` gives all matches at a place in that order. A Go string is
read as its characters, each with the bytes it stands for.
-/

namespace Csar

inductive Regexp (τ : Type)
  | empty
  | symbol (p : τ → Bool)
  /-- `\b`: exactly one of the symbols before and behind is part of a word. -/
  | boundary (word : τ → Bool)
  | seq (a b : Regexp τ)
  | alt (a b : Regexp τ)
  | star (a : Regexp τ)
  /-- A group, with its number. -/
  | group (n : Nat) (a : Regexp τ)

namespace Regexp

variable {τ β : Type}

/-- What is before a place, the last symbol first, what is behind it, and what the groups have matched,
the last one first. -/
structure Cursor (τ : Type) where
  before : List τ
  rest : List τ
  groups : List (Nat × List τ)

def Cursor.next (c : Cursor τ) (p : τ → Bool) : List (Cursor τ) :=
  match c.rest with
  | [] => []
  | x :: rest => if p x then [{ c with before := x :: c.before, rest }] else []

def Cursor.atBoundary (c : Cursor τ) (word : τ → Bool) : Bool := c.before.head?.any word != c.rest.head?.any word

def Cursor.close (n : Nat) (c c' : Cursor τ) : Cursor τ :=
  { c' with groups := (n, c.rest.take (c.rest.length - c'.rest.length)) :: c'.groups }

def Cursor.get (c : Cursor τ) (n : Nat) : List τ := (c.groups.lookup n).getD []

/-- At most `n` repetitions, as many as possible first; one of nothing does not count. -/
def repeated (step : Cursor τ → List (Cursor τ)) : Nat → Cursor τ → List (Cursor τ)
  | 0, c => [c]
  | n + 1, c => ((step c).filter fun c' => c'.rest.length < c.rest.length).flatMap (repeated step n) ++ [c]

/-- Where a match that starts at a place can end. -/
def run : Regexp τ → Cursor τ → List (Cursor τ)
  | .empty, c => [c]
  | .symbol p, c => c.next p
  | .boundary word, c => if c.atBoundary word then [c] else []
  | .seq a b, c => (a.run c).flatMap b.run
  | .alt a b, c => a.run c ++ b.run c
  | .star a, c => repeated a.run c.rest.length c
  | .group n a, c => (a.run c).map (Cursor.close n c)

/-- `+`. -/
def plus (a : Regexp τ) : Regexp τ := .seq a (.star a)

/-- `?`. -/
def opt (a : Regexp τ) : Regexp τ := .alt a .empty

def cat : List (Regexp τ) → Regexp τ
  | [] => .empty
  | [a] => a
  | a :: as => .seq a (cat as)

def oneOf (a : Regexp τ) (as : List (Regexp τ)) : Regexp τ := as.foldl .alt a

/-- Replaces matches, `n` symbols at most; a symbol in no match is kept. -/
def replaceFrom (a : Regexp τ) (replace : Cursor τ → List β) (keep : τ → List β) :
    Nat → List τ → List τ → List β
  | 0, _, _ => []
  | _ + 1, _, [] => []
  | n + 1, before, x :: rest =>
    match (a.run ⟨before, x :: rest, []⟩).head? with
    | some c => replace c ++ replaceFrom a replace keep n c.before c.rest
    | none => keep x ++ replaceFrom a replace keep n (x :: before) rest

/-! ## Symbols of matches -/

section Over

variable {P : τ → Prop}

structure Cursor.Over (P : τ → Prop) (c : Cursor τ) : Prop where
  before : ∀ x ∈ c.before, P x
  rest : ∀ x ∈ c.rest, P x
  groups : ∀ g ∈ c.groups, ∀ x ∈ g.2, P x

theorem over_repeated {step : Cursor τ → List (Cursor τ)}
    (hstep : ∀ c, c.Over P → ∀ c' ∈ step c, c'.Over P) (n : Nat) :
    ∀ c, c.Over P → ∀ c' ∈ repeated step n c, c'.Over P := by
  induction n with
  | zero =>
    intro c hc c' hc'
    rw [List.mem_singleton.mp hc']
    exact hc
  | succ n ih =>
    intro c hc c' hc'
    rcases List.mem_append.mp hc' with hmore | hlast
    · obtain ⟨d, hd, hc'⟩ := List.mem_flatMap.mp hmore
      exact ih d (hstep c hc d (List.mem_filter.mp hd).1) c' hc'
    · rw [List.mem_singleton.mp hlast]
      exact hc

theorem over_run (a : Regexp τ) : ∀ c, c.Over P → ∀ c' ∈ a.run c, c'.Over P := by
  induction a with
  | empty =>
    intro c hc c' hc'
    rw [List.mem_singleton.mp hc']
    exact hc
  | symbol p =>
    intro c hc c' hc'
    rw [run, Cursor.next] at hc'
    cases hrest : c.rest with
    | nil =>
      rw [hrest] at hc'
      cases hc'
    | cons x rest =>
      rw [hrest] at hc'
      obtain ⟨-, hc'⟩ := List.mem_ite_nil_right.mp hc'
      have hall := hc.rest
      rw [hrest] at hall
      obtain ⟨hx, hall⟩ := List.forall_mem_cons.mp hall
      rw [List.mem_singleton.mp hc']
      exact ⟨List.forall_mem_cons.mpr ⟨hx, hc.before⟩, hall, hc.groups⟩
  | boundary word =>
    intro c hc c' hc'
    obtain ⟨-, hc'⟩ := List.mem_ite_nil_right.mp hc'
    rw [List.mem_singleton.mp hc']
    exact hc
  | seq a b iha ihb =>
    intro c hc c' hc'
    obtain ⟨d, hd, hc'⟩ := List.mem_flatMap.mp hc'
    exact ihb d (iha c hc d hd) c' hc'
  | alt a b iha ihb =>
    intro c hc c' hc'
    rcases List.mem_append.mp hc' with hleft | hright
    · exact iha c hc c' hleft
    · exact ihb c hc c' hright
  | star a ih => exact fun c => over_repeated ih c.rest.length c
  | group n a ih =>
    intro c hc c' hc'
    obtain ⟨d, hd, rfl⟩ := List.mem_map.mp hc'
    have hover := ih c hc d hd
    refine ⟨hover.before, hover.rest, List.forall_mem_cons.mpr ⟨?_, hover.groups⟩⟩
    exact fun x hx => hc.rest x (List.mem_of_mem_take hx)

theorem over_get {c : Cursor τ} (h : c.Over P) (n : Nat) : ∀ x ∈ c.get n, P x := by
  unfold Cursor.get
  cases hg : c.groups.lookup n with
  | none => exact fun x hx => absurd hx List.not_mem_nil
  | some xs =>
    obtain ⟨l₁, l₂, hl, -⟩ := List.lookup_eq_some_iff.mp hg
    exact h.groups (n, xs) (hl ▸ List.mem_append_right l₁ List.mem_cons_self)

/-- What holds of replacements and kept symbols, and of what they make up, holds of the text after all. -/
theorem replaceFrom_ind {Q : List β → Prop} (a : Regexp τ) {replace : Cursor τ → List β} {keep : τ → List β} (hnil : Q [])
    (happend : ∀ {s t}, Q s → Q t → Q (s ++ t)) (hreplace : ∀ c, c.Over P → Q (replace c)) (hkeep : ∀ x, P x → Q (keep x))
    (n : Nat) : ∀ {before rest : List τ}, (∀ x ∈ before, P x) → (∀ x ∈ rest, P x) →
      Q (replaceFrom a replace keep n before rest) := by
  induction n with
  | zero =>
    intro before rest _ _
    exact hnil
  | succ n ih =>
    intro before rest hbefore hrest
    cases rest with
    | nil => exact hnil
    | cons x rest =>
      obtain ⟨hx, hxs⟩ := List.forall_mem_cons.mp hrest
      rw [replaceFrom]
      cases hmatch : (a.run ⟨before, x :: rest, []⟩).head? with
      | none => exact happend (hkeep x hx) (ih (List.forall_mem_cons.mpr ⟨hx, hbefore⟩) hxs)
      | some c =>
        have hover := over_run a ⟨before, x :: rest, []⟩ ⟨hbefore, hrest, fun g hg => absurd hg List.not_mem_nil⟩ c
          (List.mem_of_mem_head? hmatch)
        exact happend (hreplace c hover) (ih hover.before hover.rest)

end Over

/-! ## On Go strings -/

abbrev Rune := Char × Bytes

def runePieces : List (Option Char) → Bytes → List Rune
  | [], _ => []
  | some c :: rs, s => (c, s.take c.utf8Size) :: runePieces rs (s.drop c.utf8Size)
  | none :: rs, s => (runeError, s.take 1) :: runePieces rs (s.drop 1)

def toRunes (s : Bytes) : List Rune := runePieces (runes s) s

@[simp] theorem toRunes_nil : toRunes [] = [] := rfl

@[simp] theorem toRunes_char (c : Char) (bs : Bytes) :
    toRunes (String.utf8EncodeChar c ++ bs) = (c, String.utf8EncodeChar c) :: toRunes bs := by
  rw [toRunes, runes_char, runePieces, ← String.length_utf8EncodeChar c, List.take_left, List.drop_left]
  rfl

theorem toRunes_stray {b : UInt8} {bs : Bytes} (h : firstRune (b :: bs) = none) :
    toRunes (b :: bs) = (runeError, [b]) :: toRunes bs := by
  rw [toRunes, runes_stray h]
  rfl

def chars (p : Char → Bool) : Regexp Rune := .symbol fun r => p r.1

def char (c : Char) : Regexp Rune := chars fun d => d = c

def literal (s : String) : Regexp Rune := cat (s.toList.map char)

/-- A text of ASCII but for case: what it is with `(?i)`. -/
def folded (s : String) : Regexp Rune :=
  cat (s.toList.map fun c => chars fun d => Strings.foldChar d = Strings.foldChar c)

/-- `\s`. -/
def isBlank (c : Char) : Bool := c = '\t' || c = '\n' || c = '\x0c' || c = '\r' || c = ' '

/-- `\b`. -/
def wordBoundary : Regexp Rune := .boundary fun r => r.1.isAlphanum || r.1 = '_'

inductive Piece
  | text (s : Bytes)
  | group (n : Nat)

def Piece.expand (c : Cursor Rune) : Piece → Bytes
  | .text s => s
  | .group n => (c.get n).flatMap Prod.snd

/-- `ReplaceAllString`, for a pattern that does not match the empty text. -/
def replaceAllString (a : Regexp Rune) (src : Bytes) (repl : List Piece) : Bytes :=
  replaceFrom a (fun c => repl.flatMap (Piece.expand c)) Prod.snd (toRunes src).length [] (toRunes src)

theorem toRunes_valid {s : Bytes} (h : validUtf8 s) : ∀ r ∈ toRunes s, validUtf8 r.2 := by
  obtain ⟨cs, rfl⟩ := validUtf8_iff.mp h
  clear h
  induction cs with
  | nil => exact fun r hr => absurd hr List.not_mem_nil
  | cons c cs ih =>
    rw [encodeRunes_cons, toRunes_char]
    refine List.forall_mem_cons.mpr ⟨validUtf8_iff.mpr ⟨[c], ?_⟩, ih⟩
    rw [encodeRunes_cons, encodeRunes, List.flatMap_nil, List.append_nil]

theorem validUtf8_replaceAllString (a : Regexp Rune) {src : Bytes} {repl : List Piece} (hsrc : validUtf8 src)
    (hrepl : ∀ s, Piece.text s ∈ repl → validUtf8 s) : validUtf8 (replaceAllString a src repl) := by
  refine replaceFrom_ind (P := fun r : Rune => validUtf8 r.2) (Q := fun s => validUtf8 s) a rfl validUtf8_append ?_
    (fun _ h => h) _ (fun x hx => absurd hx List.not_mem_nil) (toRunes_valid hsrc)
  intro c hc
  refine validUtf8_flatMap fun p hp => ?_
  cases p with
  | text s => exact hrepl s hp
  | group n => exact validUtf8_flatMap (over_get hc n)

end Regexp

end Csar
