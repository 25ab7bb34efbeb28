import CsarCore.Framework.Hex

/-!
# References to shell variables (`os.Expand`)

`pieces` cuts a text as `os.Expand` does: it is its pieces one after the other
(`flatMap_text_pieces`), and is expanded piece by piece (`expand_eq_flatMap`).
-/

namespace Csar.Shell

def dollar : UInt8 := 0x24
def openBrace : UInt8 := 0x7B
def closeBrace : UInt8 := 0x7D

def isDigit (c : UInt8) : Bool := 0x30 ≤ c && c ≤ 0x39

def isShellSpecialVar (c : UInt8) : Bool := c ∈ [0x2A, 0x23, dollar, 0x40, 0x21, 0x3F, 0x2D] || isDigit c

def isAlphaNum (c : UInt8) : Bool :=
  c = 0x5F || isDigit c || (0x61 ≤ c && c ≤ 0x7A) || (0x41 ≤ c && c ≤ 0x5A)

def braceName (s : Bytes) : Bytes × Nat :=
  if s.head?.any isShellSpecialVar ∧ s.tail.head? = some closeBrace then (s.take 1, 3)
  else if closeBrace ∉ s then ([], 1)
  else
    let name := s.takeWhile fun c => c ≠ closeBrace
    (name, name.length + 2)

/-- `getShellName`: the name that begins a text, and the number of bytes that are used up. -/
def getShellName : Bytes → Bytes × Nat
  | [] => ([], 0)
  | c :: cs =>
    if c = openBrace then braceName cs
    else if isShellSpecialVar c then ([c], 1)
    else
      let name := (c :: cs).takeWhile isAlphaNum
      (name, name.length)

/-- The loop of `os.Expand`, over at most `n` bytes. -/
def expandIn (mapping : Bytes → Bytes) : Nat → Bytes → Bytes
  | _, [] => []
  | 0, s => s
  | n + 1, c :: cs =>
    if c = dollar ∧ cs ≠ [] then
      let (name, w) := getShellName cs
      -- without a name, bad braces are dropped and any other dollar stays
      (if name ≠ [] then mapping name else if w > 0 then [] else [dollar]) ++ expandIn mapping n (cs.drop w)
    else c :: expandIn mapping n cs

def expand (s : Bytes) (mapping : Bytes → Bytes) : Bytes := expandIn mapping s.length s

/-! ## Pieces -/

/-- A byte that stands for itself, braces without a name, or a reference, with how it is written. -/
inductive Piece
  | byte (c : UInt8)
  | bad (text : Bytes)
  | ref (name text : Bytes)
  deriving DecidableEq

namespace Piece

def text : Piece → Bytes
  | byte c => [c]
  | bad text => text
  | ref _ text => text

def expand (mapping : Bytes → Bytes) : Piece → Bytes
  | byte c => [c]
  | bad _ => []
  | ref name _ => mapping name

end Piece

/-- What begins with a dollar before `cs`, of which `w` bytes belong to it. -/
def pieceAt (cs : Bytes) (name : Bytes) (w : Nat) : Piece :=
  if name ≠ [] then .ref name (dollar :: cs.take w) else if w > 0 then .bad (dollar :: cs.take w) else .byte dollar

/-- The parts of a text, of which the first at most `n` bytes are looked at. -/
def piecesIn : Nat → Bytes → List Piece
  | _, [] => []
  | 0, s => s.map .byte
  | n + 1, c :: cs =>
    if c = dollar ∧ cs ≠ [] then
      pieceAt cs (getShellName cs).1 (getShellName cs).2 :: piecesIn n (cs.drop (getShellName cs).2)
    else .byte c :: piecesIn n cs

def pieces (s : Bytes) : List Piece := piecesIn s.length s

theorem text_pieceAt (cs name : Bytes) (w : Nat) : (pieceAt cs name w).text ++ cs.drop w = dollar :: cs := by
  unfold pieceAt
  split
  · rw [Piece.text, List.cons_append, List.take_append_drop]
  · split
    · rw [Piece.text, List.cons_append, List.take_append_drop]
    · rename_i hw
      rw [Nat.eq_zero_of_not_pos hw, List.drop_zero]
      rfl

theorem flatMap_text_pieces (s : Bytes) : (pieces s).flatMap Piece.text = s := by
  have hall : ∀ n s, (piecesIn n s).flatMap Piece.text = s := by
    intro n
    induction n with
    | zero =>
      rintro (_ | ⟨c, cs⟩)
      · rfl
      · simp [piecesIn, List.flatMap_map, Piece.text]
    | succ n ih =>
      rintro (_ | ⟨c, cs⟩)
      · rfl
      · rw [piecesIn]
        split
        · rename_i hc
          rw [List.flatMap_cons, ih, text_pieceAt, hc.1]
        · rw [List.flatMap_cons, ih]
          rfl
  exact hall s.length s

theorem expand_eq_flatMap (s : Bytes) (mapping : Bytes → Bytes) :
    expand s mapping = (pieces s).flatMap (Piece.expand mapping) := by
  have hall : ∀ n s, expandIn mapping n s = (piecesIn n s).flatMap (Piece.expand mapping) := by
    intro n
    induction n with
    | zero =>
      rintro (_ | ⟨c, cs⟩)
      · rfl
      · simp [expandIn, piecesIn, List.flatMap_map, Piece.expand]
    | succ n ih =>
      rintro (_ | ⟨c, cs⟩)
      · rfl
      · rw [expandIn, piecesIn]
        split
        · rw [List.flatMap_cons, ← ih, pieceAt]
          show (if (getShellName cs).1 ≠ [] then mapping (getShellName cs).1
              else if (getShellName cs).2 > 0 then [] else [dollar]) ++ expandIn mapping n (cs.drop (getShellName cs).2) = _
          congr 1
          split
          · rfl
          · split <;> rfl
        · rw [List.flatMap_cons, ← ih]
          rfl
  exact hall s.length s

/-- How a reference is written: after a dollar, where a number has one digit, or in braces. -/
def Written (name text : Bytes) : Prop :=
  (text = dollar :: name ∧ ∀ c ∈ name.head?, isDigit c → name = [c]) ∨
    text = dollar :: openBrace :: (name ++ [closeBrace])

theorem takeWhile_ne_append {c : UInt8} {s : Bytes} (h : c ∈ s) : ∃ rest, s = s.takeWhile (fun d => d ≠ c) ++ c :: rest := by
  induction s with
  | nil => cases h
  | cons d s ih =>
    by_cases hd : d = c
    · refine ⟨s, ?_⟩
      rw [List.takeWhile_cons_of_neg (by simp [hd]), hd]
      rfl
    · obtain ⟨rest, hrest⟩ := ih ((List.mem_cons.mp h).resolve_left fun hc => hd hc.symm)
      refine ⟨rest, ?_⟩
      rw [List.takeWhile_cons_of_pos (by simp [hd]), List.cons_append, ← hrest]

theorem take_braceName {s : Bytes} (h : (braceName s).1 ≠ []) :
    (openBrace :: s).take (braceName s).2 = openBrace :: ((braceName s).1 ++ [closeBrace]) := by
  unfold braceName at h ⊢
  split
  · rename_i hone
    obtain ⟨hspecial, hclose⟩ := hone
    cases s with
    | nil => cases hspecial
    | cons c s =>
      cases s with
      | nil => cases hclose
      | cons d s =>
        cases hclose
        rfl
  · split
    · rename_i hnot hopen
      rw [if_neg hnot, if_pos hopen] at h
      exact absurd rfl h
    · rename_i hclose
      obtain ⟨rest, hs⟩ := takeWhile_ne_append (Classical.not_not.mp hclose)
      show (openBrace :: s).take ((s.takeWhile fun c => c ≠ closeBrace).length + 2) =
        openBrace :: ((s.takeWhile fun c => c ≠ closeBrace) ++ [closeBrace])
      generalize (s.takeWhile fun c => c ≠ closeBrace) = name at hs ⊢
      rw [hs, List.take_succ_cons, List.take_append, List.take_of_length_le (Nat.le_succ _), Nat.add_sub_cancel_left]
      rfl

theorem take_getShellName {cs : Bytes} (h : (getShellName cs).1 ≠ []) :
    Written (getShellName cs).1 (dollar :: cs.take (getShellName cs).2) := by
  cases cs with
  | nil => exact absurd rfl h
  | cons c cs =>
    rw [getShellName] at h ⊢
    split
    · rename_i hc
      rw [if_pos hc] at h
      rw [hc, take_braceName h]
      exact .inr rfl
    · split
      · refine .inl ⟨rfl, ?_⟩
        rintro c ⟨⟩ -
        rfl
      · rename_i hspecial
        refine .inl ⟨congrArg (dollar :: ·) (List.prefix_iff_eq_take.mp (List.takeWhile_prefix isAlphaNum)).symm, ?_⟩
        -- a digit would be a name by itself
        intro d hd hdigit
        have hdc : d = c := by
          rw [List.takeWhile_cons] at hd
          split at hd
          · exact (Option.some.inj hd).symm
          · cases hd
        rw [isShellSpecialVar, ← hdc, hdigit, Bool.or_true] at hspecial
        exact absurd rfl hspecial

theorem written_of_mem {s : Bytes} {name text : Bytes} (h : Piece.ref name text ∈ pieces s) :
    name ≠ [] ∧ Written name text := by
  have hall : ∀ n s, Piece.ref name text ∈ piecesIn n s → name ≠ [] ∧ Written name text := by
    intro n
    induction n with
    | zero =>
      rintro (_ | ⟨c, cs⟩) h
      · cases h
      · obtain ⟨c', -, hc'⟩ := List.mem_map.mp h
        cases hc'
    | succ n ih =>
      rintro (_ | ⟨c, cs⟩) h
      · cases h
      · rw [piecesIn] at h
        split at h
        · rcases List.mem_cons.mp h with hhere | hlater
          · unfold pieceAt at hhere
            split at hhere
            · rename_i hname
              cases hhere
              exact ⟨hname, take_getShellName hname⟩
            · split at hhere <;> cases hhere
          · exact ih _ hlater
        · rcases List.mem_cons.mp h with hhere | hlater
          · cases hhere
          · exact ih _ hlater
  exact hall s.length s h

end Csar.Shell
