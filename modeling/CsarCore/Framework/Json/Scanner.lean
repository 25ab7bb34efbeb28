import CsarCore.Framework.Hex

/-!
# The scanner of `encoding/json`, and the values that a `Decoder` reads

An object or array ends with its last byte, and any other value before the byte that
does not continue it (`done`). A `Decoder` reads as far as the first value goes
(`read_split`), whatever ends it (`read_append`).
-/

namespace Csar.Json

inductive ScanState
  | beginValue
  | beginValueOrEmpty
  | beginString
  | beginStringOrEmpty
  | endValue
  | endTop
  | inString
  | escape
  | escapeU (left : Nat)
  | neg
  | int
  | zero
  | dot
  | fraction
  | exp
  | expSign
  | expDigits
  | literal (rest : Bytes)
  deriving DecidableEq

/-- `parseState`: what the innermost brackets are in. -/
inductive Nesting
  | objectKey
  | objectValue
  | arrayValue
  deriving DecidableEq

structure Scanner where
  state : ScanState
  stack : List Nesting
  deriving DecidableEq

/-- What comes of a byte. With `done` it is not part of the value. -/
inductive Scanned
  | next (s : Scanner)
  | done
  | error
  deriving DecidableEq

def isSpaceByte (c : UInt8) : Bool := c ∈ [0x20, 0x09, 0x0D, 0x0A]

def isDigitByte (c : UInt8) : Bool := 0x30 ≤ c && c ≤ 0x39

def isHexByte (c : UInt8) : Bool := isDigitByte c || (0x61 ≤ c && c ≤ 0x66) || (0x41 ≤ c && c ≤ 0x46)

namespace Scanner

def maxNestingDepth : Nat := 10000

def start : Scanner := ⟨.beginValue, []⟩

/-- `pushParseState`. -/
def push (stack : List Nesting) (top : Nesting) (state : ScanState) : Scanned :=
  if stack.length < maxNestingDepth then .next ⟨state, top :: stack⟩ else .error

/-- `popParseState`. -/
def pop (stack : List Nesting) : Scanned := .next ⟨if stack = [] then .endTop else .endValue, stack⟩

/-- `stateEndValue`. -/
def endValue (stack : List Nesting) (c : UInt8) : Scanned :=
  match stack with
  | [] => .done
  | top :: rest =>
    if isSpaceByte c then .next ⟨.endValue, stack⟩
    else
      match top with
      | .objectKey => if c = 0x3A then .next ⟨.beginValue, .objectValue :: rest⟩ else .error
      | .objectValue =>
        if c = 0x2C then .next ⟨.beginString, .objectKey :: rest⟩ else if c = 0x7D then pop rest else .error
      | .arrayValue =>
        if c = 0x2C then .next ⟨.beginValue, .arrayValue :: rest⟩ else if c = 0x5D then pop rest else .error

/-- `stateBeginValue`. -/
def beginValue (stack : List Nesting) (state : ScanState) (c : UInt8) : Scanned :=
  if isSpaceByte c then .next ⟨state, stack⟩
  else if c = 0x7B then push stack .objectKey .beginStringOrEmpty
  else if c = 0x5B then push stack .arrayValue .beginValueOrEmpty
  else if c = 0x22 then .next ⟨.inString, stack⟩
  else if c = 0x2D then .next ⟨.neg, stack⟩
  else if c = 0x30 then .next ⟨.zero, stack⟩
  else if isDigitByte c then .next ⟨.int, stack⟩
  else if c = 0x74 then .next ⟨.literal (utf8 "rue"), stack⟩
  else if c = 0x66 then .next ⟨.literal (utf8 "alse"), stack⟩
  else if c = 0x6E then .next ⟨.literal (utf8 "ull"), stack⟩
  else .error

/-- `stateBeginString`. -/
def beginString (stack : List Nesting) (state : ScanState) (c : UInt8) : Scanned :=
  if isSpaceByte c then .next ⟨state, stack⟩ else if c = 0x22 then .next ⟨.inString, stack⟩ else .error

/-- A number that may end here. -/
def endNumber (s : Scanner) (digits : ScanState) (dot : Bool) (c : UInt8) : Scanned :=
  if isDigitByte c && s.state ≠ .zero then .next ⟨digits, s.stack⟩
  else if dot && c = 0x2E then .next ⟨.dot, s.stack⟩
  else if s.state ≠ .expDigits && c ∈ [0x65, 0x45] then .next ⟨.exp, s.stack⟩
  else endValue s.stack c

def step (s : Scanner) (c : UInt8) : Scanned :=
  match s.state with
  | .beginValue => beginValue s.stack .beginValue c
  | .beginValueOrEmpty => if c = 0x5D then pop s.stack.tail else beginValue s.stack .beginValueOrEmpty c
  | .beginString => beginString s.stack .beginString c
  | .beginStringOrEmpty =>
    if c = 0x7D then pop s.stack.tail else beginString s.stack .beginStringOrEmpty c
  | .endValue => endValue s.stack c
  | .endTop => .done
  | .inString =>
    if c = 0x22 then .next ⟨.endValue, s.stack⟩
    else if c = 0x5C then .next ⟨.escape, s.stack⟩
    else if c < 0x20 then .error
    else .next s
  | .escape =>
    if c ∈ [0x62, 0x66, 0x6E, 0x72, 0x74, 0x5C, 0x2F, 0x22] then .next ⟨.inString, s.stack⟩
    else if c = 0x75 then .next ⟨.escapeU 4, s.stack⟩
    else .error
  | .escapeU left =>
    if isHexByte c then .next ⟨if left ≤ 1 then .inString else .escapeU (left - 1), s.stack⟩ else .error
  | .neg =>
    if c = 0x30 then .next ⟨.zero, s.stack⟩ else if isDigitByte c then .next ⟨.int, s.stack⟩ else .error
  | .int => endNumber s .int true c
  | .zero => endNumber s .int true c
  | .dot => if isDigitByte c then .next ⟨.fraction, s.stack⟩ else .error
  | .fraction => endNumber s .fraction false c
  | .exp =>
    if c ∈ [0x2B, 0x2D] then .next ⟨.expSign, s.stack⟩
    else if isDigitByte c then .next ⟨.expDigits, s.stack⟩
    else .error
  | .expSign => if isDigitByte c then .next ⟨.expDigits, s.stack⟩ else .error
  | .expDigits => endNumber s .expDigits false c
  | .literal rest =>
    match rest with
    | [] => .error
    | d :: ds => if c = d then .next ⟨if ds = [] then .endValue else .literal ds, s.stack⟩ else .error

/-- What is left behind the value, or an error. `eof`: the text ends with `io.EOF`. -/
def read (eof : Bool) (s : Scanner) : Bytes → Option Bytes
  | [] => if eof ∧ s.step 0x20 = .done then some [] else none
  | c :: cs =>
    match s.step c with
    | .error => none
    | .done => some (c :: cs)
    | .next s' => if s'.state = .endTop then some cs else read eof s' cs

def ends (c : UInt8) : Bool := isSpaceByte c || c ∈ [0x5D, 0x7D]

variable {s : Scanner} {c : UInt8} {eof : Bool} {data rest v : Bytes} {stack : List Nesting}

theorem stack_of_endValue (h : endValue stack c = .done) : stack = [] := by
  cases stack with
  | nil => rfl
  | cons top rest => cases top <;> simp only [endValue, pop] at h <;> split_ifs at h

theorem endNumber_ends {digits : ScanState} {dot : Bool} {d : UInt8} (h : endNumber s digits dot c = .done)
    (hd : ends d = true) : endNumber s digits dot d = .done := by
  have hstack : s.stack = [] := by
    unfold endNumber at h
    split_ifs at h
    exact stack_of_endValue h
  have hplain : isDigitByte d = false ∧ d ≠ 0x2E ∧ d ∉ [0x65, 0x45] := by
    simp only [ends, isSpaceByte, Bool.or_eq_true, decide_eq_true_eq, List.mem_cons, List.not_mem_nil, or_false] at hd
    rcases hd with (rfl | rfl | rfl | rfl) | rfl | rfl <;> decide
  simp [endNumber, hplain, endValue, hstack]

theorem beginValue_ne_done {state : ScanState} : beginValue stack state c ≠ .done := by
  unfold beginValue push
  split_ifs <;> intro h <;> cases h

theorem beginString_ne_done {state : ScanState} : beginString stack state c ≠ .done := by
  unfold beginString
  split_ifs <;> intro h <;> cases h

/-- Where a value may end, it ends before every byte that continues none. -/
theorem step_ends {d : UInt8} (h : s.step c = .done) (hd : ends d = true) : s.step d = .done := by
  obtain ⟨state, stack⟩ := s
  cases state with
  | endTop => rfl
  | endValue =>
    obtain rfl : stack = [] := stack_of_endValue h
    rfl
  | int | zero | fraction | expDigits => exact endNumber_ends h hd
  -- in all other states a byte continues the value, or is an error
  | beginValue => exact absurd h beginValue_ne_done
  | beginString => exact absurd h beginString_ne_done
  | beginValueOrEmpty =>
    simp only [step, pop] at h
    split_ifs at h
    exact absurd h beginValue_ne_done
  | beginStringOrEmpty =>
    simp only [step, pop] at h
    split_ifs at h
    exact absurd h beginString_ne_done
  | literal rest =>
    cases rest with
    | nil => cases h
    | cons e es =>
      simp only [step] at h
      split_ifs at h
  | inString | escape | escapeU | neg | dot | exp | expSign =>
    simp only [step] at h
    split_ifs at h

theorem read_split (h : read eof s data = some rest) : ∃ v, data = v ++ rest ∧ read true s v = some [] := by
  induction data generalizing s with
  | nil =>
    rw [read] at h
    split at h <;> cases h
    rename_i hend
    exact ⟨[], rfl, if_pos ⟨rfl, hend.2⟩⟩
  | cons c cs ih =>
    rw [read] at h
    cases hstep : s.step c with
    | error => rw [hstep] at h; cases h
    | done =>
      rw [hstep] at h
      cases h
      exact ⟨[], rfl, if_pos ⟨rfl, step_ends hstep (by decide)⟩⟩
    | next s' =>
      simp only [hstep] at h
      by_cases htop : s'.state = .endTop
      · rw [if_pos htop] at h
        cases h
        exact ⟨[c], rfl, by rw [read, hstep]; exact if_pos htop⟩
      · rw [if_neg htop] at h
        obtain ⟨v, rfl, hv⟩ := ih h
        refine ⟨c :: v, rfl, ?_⟩
        rw [read, hstep]
        exact (if_neg htop).trans hv

theorem read_append (h : read true s v = some []) (hrest : ∀ c ∈ rest.head?, ends c = true)
    (heof : rest ≠ [] ∨ eof = true) : read eof s (v ++ rest) = some rest := by
  induction v generalizing s with
  | nil =>
    cases rest with
    | nil =>
      obtain rfl := heof.resolve_left (· rfl)
      exact h
    | cons c cs =>
      rw [read] at h
      split at h
      · rename_i hend
        rw [List.nil_append, read, step_ends hend.2 (hrest c rfl)]
      · cases h
  | cons c cs ih =>
    rw [read] at h
    rw [List.cons_append, read]
    cases hstep : s.step c with
    | error | done => rw [hstep] at h; cases h
    | next s' =>
      simp only [hstep] at h ⊢
      by_cases htop : s'.state = .endTop
      · rw [if_pos htop] at h ⊢
        cases h
        rfl
      · rw [if_neg htop] at h ⊢
        exact ih h

theorem read_spaces (h : ∀ c ∈ v, isSpaceByte c = true) : read eof start (v ++ data) = read eof start data := by
  induction v with
  | nil => rfl
  | cons c v ih =>
    obtain ⟨hc, hv⟩ := List.forall_mem_cons.mp h
    have hstep : start.step c = .next start := if_pos hc
    rw [List.cons_append, read, hstep]
    exact ih hv

end Scanner

end Csar.Json
