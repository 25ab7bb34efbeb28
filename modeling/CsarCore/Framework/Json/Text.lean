import CsarCore.Framework.Json.Tree
import CsarCore.Framework.Utf8

/-!
# JSON texts

The text of a value whose numbers and strings are still texts (`Raw`). A text is cut
into tokens by a lexer and read by a parser that keeps a stack, both one step for a
byte or a token; bytes that are no UTF-8 may stand in strings. `print` writes a value
without spaces, and `parseRaw_print` reads it back.
-/

namespace Csar.Json

/-- A value with its numbers and strings as they are written. -/
abbrev Raw := Json Bytes Bytes

inductive Token
  | openObject
  | closeObject
  | openArray
  | closeArray
  | colon
  | comma
  | string (s : Bytes)
  | atom (s : Bytes)
  deriving DecidableEq

/-! ## Lexing -/

inductive ByteClass
  | space
  | quote
  | punct (t : Token)
  | other
  deriving DecidableEq

/-- Spaces, the quote, and `{`, `}`, `[`, `]`, `:` and `,`. -/
def classify : UInt8 → ByteClass
  | 0x20 | 0x09 | 0x0A | 0x0D => .space
  | 0x22 => .quote
  | 0x7B => .punct .openObject
  | 0x7D => .punct .closeObject
  | 0x5B => .punct .openArray
  | 0x5D => .punct .closeArray
  | 0x3A => .punct .colon
  | 0x2C => .punct .comma
  | _ => .other

/-- What the lexer is in the middle of, the last byte first; `escaped`: after a backslash. -/
inductive Lexing
  | between
  | inString (s : Bytes) (escaped : Bool)
  | inAtom (s : Bytes)

structure Lexer where
  mode : Lexing
  out : List Token

def Lexer.start (out : List Token) (b : UInt8) : Lexer :=
  match classify b with
  | .space => ⟨.between, out⟩
  | .quote => ⟨.inString [] false, out⟩
  | .punct t => ⟨.between, t :: out⟩
  | .other => ⟨.inAtom [b], out⟩

def Lexer.step (l : Lexer) (b : UInt8) : Lexer :=
  match l.mode with
  | .between => start l.out b
  | .inString s true => ⟨.inString (b :: s) false, l.out⟩
  | .inString s false =>
    if b = 0x22 then ⟨.between, .string s.reverse :: l.out⟩ else ⟨.inString (b :: s) (b = 0x5C), l.out⟩
  | .inAtom s => if classify b = .other then ⟨.inAtom (b :: s), l.out⟩ else start (.atom s.reverse :: l.out) b

def Lexer.tokens (l : Lexer) : Option (List Token) :=
  match l.mode with
  | .between => some l.out
  | .inString _ _ => none
  | .inAtom s => some (.atom s.reverse :: l.out)

def lex (s : Bytes) : Option (List Token) := (s.foldl Lexer.step ⟨.between, []⟩).tokens.map List.reverse

/-! ## Parsing -/

def nullWord : Bytes := encodeRunes ['n', 'u', 'l', 'l']

def trueWord : Bytes := encodeRunes ['t', 'r', 'u', 'e']

def falseWord : Bytes := encodeRunes ['f', 'a', 'l', 's', 'e']

def atom (s : Bytes) : Raw :=
  if s = nullWord then .null
  else if s = trueWord then .bool true
  else if s = falseWord then .bool false
  else .number s

/-- What it holds, the last first, and the key whose value is being read. -/
inductive Open
  | array (done : List Raw)
  | object (done : List (Bytes × Raw)) (key : Bytes)

inductive Parsing
  | value
  | elementOrEnd
  | nameOrEnd
  | name (done : List (Bytes × Raw))
  | colon (done : List (Bytes × Raw)) (key : Bytes)
  | after (v : Raw)

structure Parser where
  mode : Parsing
  stack : List Open

def Parser.value (stack : List Open) : Token → Option Parser
  | .openObject => some ⟨.nameOrEnd, stack⟩
  | .openArray => some ⟨.elementOrEnd, stack⟩
  | .string s => some ⟨.after (.string s), stack⟩
  | .atom s => some ⟨.after (Json.atom s), stack⟩
  | _ => none

def Parser.next (v : Raw) : List Open → Token → Option Parser
  | .array done :: stack, .comma => some ⟨.value, .array (v :: done) :: stack⟩
  | .array done :: stack, .closeArray => some ⟨.after (.array (v :: done).reverse), stack⟩
  | .object done k :: stack, .comma => some ⟨.name ((k, v) :: done), stack⟩
  | .object done k :: stack, .closeObject => some ⟨.after (.object ((k, v) :: done).reverse), stack⟩
  | _, _ => none

def Parser.step (p : Parser) (t : Token) : Option Parser :=
  match p.mode, t with
  | .value, t => value p.stack t
  | .elementOrEnd, .closeArray => some ⟨.after (.array []), p.stack⟩
  | .elementOrEnd, t => value (.array [] :: p.stack) t
  | .nameOrEnd, .closeObject => some ⟨.after (.object []), p.stack⟩
  | .nameOrEnd, .string k => some ⟨.colon [] k, p.stack⟩
  | .name done, .string k => some ⟨.colon done k, p.stack⟩
  | .colon done k, .colon => some ⟨.value, .object done k :: p.stack⟩
  | .after v, t => next v p.stack t
  | _, _ => none

def Parser.run (p : Parser) : List Token → Option Parser
  | [] => some p
  | t :: ts => (p.step t).bind fun p => p.run ts

def Parser.result : Parser → Option Raw
  | ⟨.after v, []⟩ => some v
  | _ => none

def parseTokens (ts : List Token) : Option Raw := (Parser.run ⟨.value, []⟩ ts).bind Parser.result

def parseRaw (s : Bytes) : Option Raw := (lex s).bind parseTokens

/-! ## Printing -/

def commaJoin : List (List Token) → List Token
  | [] => []
  | ts :: tss => ts ++ tss.flatMap (Token.comma :: ·)

def tokens : Raw → List Token :=
  fold ⟨[.atom nullWord], fun b => [.atom (if b then trueWord else falseWord)],
    fun s => [.atom s], fun s => [.string s],
    fun tss => .openArray :: (commaJoin tss ++ [.closeArray]),
    fun ms => .openObject :: (commaJoin (ms.map fun m => .string m.1 :: .colon :: m.2) ++ [.closeObject])⟩

def Token.bytes : Token → Bytes
  | .openObject => [0x7B]
  | .closeObject => [0x7D]
  | .openArray => [0x5B]
  | .closeArray => [0x5D]
  | .colon => [0x3A]
  | .comma => [0x2C]
  | .string s => 0x22 :: (s ++ [0x22])
  | .atom s => s

def print (r : Raw) : Bytes := (tokens r).flatMap Token.bytes

def newline (depth : Nat) : Bytes := 0x0A :: List.replicate (2 * depth) 0x20

/-- `json.Indent` with two spaces, from the middle of a text; `needIndent`: an array or object was just
opened. -/
def indentFrom (depth : Nat) (needIndent : Bool) : List Token → Bytes
  | [] => []
  | t :: ts =>
    match t with
    | .closeObject | .closeArray =>
      -- what is empty stays on one line
      if needIndent then t.bytes ++ indentFrom depth false ts
      else newline (depth - 1) ++ t.bytes ++ indentFrom (depth - 1) false ts
    | .openObject | .openArray =>
      if needIndent then newline (depth + 1) ++ t.bytes ++ indentFrom (depth + 1) true ts
      else t.bytes ++ indentFrom depth true ts
    | .comma => t.bytes ++ newline depth ++ indentFrom depth false ts
    | .colon => t.bytes ++ 0x20 :: indentFrom depth false ts
    | .string _ | .atom _ =>
      if needIndent then newline (depth + 1) ++ t.bytes ++ indentFrom (depth + 1) false ts
      else t.bytes ++ indentFrom depth false ts

def printIndent (r : Raw) : Bytes := indentFrom 0 false (tokens r)

/-! ## What may be written -/

def plain (s : Bytes) : Bool :=
  s ≠ [] && s.all (fun b => classify b = .other) && s ≠ nullWord && s ≠ trueWord && s ≠ falseWord

/-- A text does not end its string; `escaped`: after a backslash. -/
def closedFrom : Bool → Bytes → Bool
  | escaped, [] => !escaped
  | true, _ :: s => closedFrom false s
  | false, b :: s => b ≠ 0x22 && closedFrom (b = 0x5C) s

def closed (s : Bytes) : Bool := closedFrom false s

theorem closedFrom_skip {s : Bytes} (hquote : 0x22 ∉ s) (hslash : 0x5C ∉ s) (t : Bytes) :
    closedFrom false (s ++ t) = closedFrom false t := by
  induction s with
  | nil => rfl
  | cons b s ih =>
    rw [List.mem_cons, not_or] at hquote hslash
    rw [List.cons_append, closedFrom, decide_eq_true (Ne.symm hquote.1), decide_eq_false (Ne.symm hslash.1),
      ih hquote.2 hslash.2, Bool.true_and]

/-! ## The tokens of what is written -/

variable {out : List Token} {b : UInt8} {s : Bytes} {ts : List Token} {r : Raw}

theorem Lexer.step_of_tokens {l : Lexer} (h : l.tokens = some out)
    (hb : classify b ≠ .other) : l.step b = start out b := by
  obtain ⟨mode, out'⟩ := l
  cases mode with
  | between =>
    cases h
    rfl
  | inString => cases h
  | inAtom s =>
    cases h
    exact if_neg hb

theorem Lexer.step_inString (hb : b ≠ 0x22) :
    step ⟨.inString s false, out⟩ b = ⟨.inString (b :: s) (b = 0x5C), out⟩ := if_neg hb

theorem Lexer.step_inAtom (hb : classify b = .other) :
    step ⟨.inAtom s, out⟩ b = ⟨.inAtom (b :: s), out⟩ := if_pos hb

/-- Some tokens are read, whatever stood before; the last may be an atom that has not ended. -/
def Reads (ts : List Token) : Prop :=
  ∀ out, ((ts.flatMap Token.bytes).foldl Lexer.step ⟨.between, out⟩).tokens = some (ts.reverse ++ out)

def Stops (ts : List Token) : Prop :=
  ∀ out, (ts.flatMap Token.bytes).foldl Lexer.step ⟨.between, out⟩ = ⟨.between, ts.reverse ++ out⟩

theorem Stops.reads (h : Stops ts) : Reads ts := fun out => by
  rw [h out]
  rfl

theorem Stops.append_reads {us : List Token} (ht : Stops ts) (hu : Reads us) : Reads (ts ++ us) := fun out => by
  rw [List.flatMap_append, List.foldl_append, ht out, hu, List.reverse_append, List.append_assoc]

theorem Reads.punct {t : Token} (ht : Reads ts) (hb : t.bytes = [b])
    (hp : classify b = .punct t) : Stops (ts ++ [t]) := fun out => by
  rw [List.flatMap_append, List.foldl_append, List.flatMap_singleton, hb, List.foldl_cons, List.foldl_nil,
    Lexer.step_of_tokens (ht out) (by simp [hp]), Lexer.start, hp, List.reverse_append]
  rfl

theorem foldl_inString : ∀ {acc : Bytes} {escaped : Bool} {out : List Token}, closedFrom escaped s →
      (s ++ [0x22]).foldl Lexer.step ⟨.inString acc escaped, out⟩ = ⟨.between, .string (acc.reverse ++ s) :: out⟩ := by
  induction s with
  | nil =>
    intro acc escaped out h
    cases escaped with
    | true => cases h
    | false => simp [Lexer.step]
  | cons b s ih =>
    intro acc escaped out h
    rw [List.cons_append, List.foldl_cons]
    cases escaped with
    | true =>
      have hs : closedFrom false s := h
      rw [Lexer.step, ih hs]
      simp
    | false =>
      obtain ⟨hb, hs⟩ := (Bool.and_eq_true _ _).mp h
      rw [Lexer.step_inString (by simpa using hb), ih hs]
      simp

theorem stops_string (h : closed s) : Stops [.string s] := fun out => by
  rw [List.flatMap_singleton, Token.bytes, List.foldl_cons]
  exact foldl_inString h

theorem foldl_inAtom (h : ∀ b ∈ s, classify b = .other) : ∀ {acc : Bytes} {out : List Token},
    s.foldl Lexer.step ⟨.inAtom acc, out⟩ = ⟨.inAtom (s.reverse ++ acc), out⟩ := by
  induction s with
  | nil => intros; rfl
  | cons b s ih =>
    intro acc out
    obtain ⟨hb, hs⟩ := List.forall_mem_cons.mp h
    rw [List.foldl_cons, Lexer.step_inAtom hb, ih hs]
    simp

theorem reads_atom (hne : s ≠ []) (h : s.all fun b => classify b = .other) : Reads [.atom s] := by
  intro out
  obtain ⟨b, s, rfl⟩ := List.exists_cons_of_ne_nil hne
  have hall : ∀ b' ∈ b :: s, classify b' = .other := by simpa [List.all_eq_true] using h
  obtain ⟨hb, hs⟩ := List.forall_mem_cons.mp hall
  rw [List.flatMap_singleton, Token.bytes, List.foldl_cons, Lexer.step, Lexer.start, hb, foldl_inAtom hs]
  simp [Lexer.tokens]

theorem reads_commas {tss : List (List Token)} (ht : Reads ts) (hts : ∀ us ∈ tss, Reads us) :
    Reads (ts ++ tss.flatMap (Token.comma :: ·)) := by
  induction tss generalizing ts with
  | nil => simpa using ht
  | cons us tss ih =>
    obtain ⟨hu, hus⟩ := List.forall_mem_cons.mp hts
    have hstep : Reads (ts ++ [.comma] ++ us) := (ht.punct (b := 0x2C) rfl rfl).append_reads hu
    simpa using ih hstep hus

theorem reads_commaJoin {tss : List (List Token)} (hts : ∀ ts ∈ tss, Reads ts) : Reads (commaJoin tss) := by
  cases tss with
  | nil => exact fun out => rfl
  | cons ts tss =>
    obtain ⟨ht, hts⟩ := List.forall_mem_cons.mp hts
    exact reads_commas ht hts

theorem tokens_array (vs : List Raw) :
    tokens (.array vs) = .openArray :: (commaJoin (vs.map tokens) ++ [.closeArray]) := fold_array _ vs

theorem tokens_object (ms : List (Bytes × Raw)) : tokens (.object ms) =
    .openObject :: (commaJoin (ms.map fun m => .string m.1 :: .colon :: tokens m.2) ++ [.closeObject]) := by
  rw [tokens, fold_object]
  dsimp only
  rw [List.map_map]
  rfl

theorem plain_bytes (h : plain s) : s ≠ [] ∧ s.all fun b => classify b = .other := by
  simp only [plain, Bool.and_eq_true, decide_eq_true_eq] at h
  exact ⟨h.1.1.1.1, h.1.1.1.2⟩

theorem plain_atom (h : plain s) : atom s = .number s := by
  simp only [plain, Bool.and_eq_true, decide_eq_true_eq] at h
  rw [atom, if_neg h.1.1.2, if_neg h.1.2, if_neg h.2]

theorem reads_tokens (h : r.all plain closed) : Reads (tokens r) := by
  induction r using ind with
  | null => exact reads_atom (List.cons_ne_nil _ _) (by decide)
  | bool b => cases b <;> exact reads_atom (List.cons_ne_nil _ _) (by decide)
  | number s => exact reads_atom (plain_bytes h).1 (plain_bytes h).2
  | string s => exact (stops_string h).reads
  | array vs ih =>
    have helems : ∀ ts ∈ vs.map tokens, Reads ts :=
      List.forall_mem_map.mpr fun v hv => ih v hv (all_array.mp h v hv)
    have hopen : Stops ([] ++ [.openArray]) := Reads.punct (b := 0x5B) (fun _ => rfl) rfl rfl
    have hclose := (hopen.append_reads (reads_commaJoin helems)).punct (b := 0x5D) rfl rfl
    rw [tokens_array]
    simpa using hclose.reads
  | object ms ih =>
    have hmember : ∀ m ∈ ms, Reads (.string m.1 :: .colon :: tokens m.2) := by
      intro m hm
      obtain ⟨hk, hv⟩ := all_object.mp h m hm
      have hname : Stops ([.string m.1] ++ [.colon]) := (stops_string hk).reads.punct (b := 0x3A) rfl rfl
      exact hname.append_reads (ih m hm hv)
    have hopen : Stops ([] ++ [.openObject]) := Reads.punct (b := 0x7B) (fun _ => rfl) rfl rfl
    have hjoin := reads_commaJoin (List.forall_mem_map.mpr hmember)
    have hclose := (hopen.append_reads hjoin).punct (b := 0x7D) rfl rfl
    rw [tokens_object]
    simpa using hclose.reads

theorem lex_print (h : r.all plain closed) : lex (print r) = some (tokens r) := by
  rw [lex, print, reads_tokens h, Option.map_some, List.append_nil, List.reverse_reverse]

/-! ## The value of what is written -/

def Parses (ts : List Token) (r : Raw) : Prop :=
  ∀ stack us, Parser.run ⟨.value, stack⟩ (ts ++ us) = Parser.run ⟨.after r, stack⟩ us

theorem run_elements {vs : List Raw} (hvs : ∀ v ∈ vs, Parses (tokens v) v) :
    ∀ {v : Raw} {done : List Raw} {stack : List Open} {us : List Token},
      Parser.run ⟨.after v, .array done :: stack⟩ ((vs.map tokens).flatMap (Token.comma :: ·) ++ .closeArray :: us) =
        Parser.run ⟨.after (.array (done.reverse ++ v :: vs)), stack⟩ us := by
  induction vs with
  | nil =>
    intro v done stack us
    rw [← List.reverse_cons]
    rfl
  | cons w vs ih =>
    intro v done stack us
    obtain ⟨hw, hvs⟩ := List.forall_mem_cons.mp hvs
    rw [List.map_cons, List.flatMap_cons, List.cons_append, List.cons_append, List.append_assoc]
    refine (hw (.array (v :: done) :: stack) _).trans ?_
    rw [ih hvs, List.reverse_cons, List.append_assoc]
    rfl

theorem run_members {ms : List (Bytes × Raw)} (hms : ∀ m ∈ ms, Parses (tokens m.2) m.2) :
    ∀ {k : Bytes} {v : Raw} {done : List (Bytes × Raw)} {stack : List Open} {us : List Token},
      Parser.run ⟨.after v, .object done k :: stack⟩
        ((ms.map fun m => .string m.1 :: .colon :: tokens m.2).flatMap (Token.comma :: ·) ++ .closeObject :: us) =
        Parser.run ⟨.after (.object (done.reverse ++ (k, v) :: ms)), stack⟩ us := by
  induction ms with
  | nil =>
    intro k v done stack us
    rw [← List.reverse_cons]
    rfl
  | cons m ms ih =>
    intro k v done stack us
    obtain ⟨hm, hms⟩ := List.forall_mem_cons.mp hms
    rw [List.map_cons, List.flatMap_cons, List.cons_append, List.cons_append, List.cons_append, List.cons_append,
      List.append_assoc]
    refine (hm (.object ((k, v) :: done) m.1 :: stack) _).trans ?_
    rw [ih hms, List.reverse_cons, List.append_assoc]
    rfl

theorem run_elementOrEnd (r : Raw) (stack : List Open) (us : List Token) :
    Parser.run ⟨.elementOrEnd, stack⟩ (tokens r ++ us) = Parser.run ⟨.value, .array [] :: stack⟩ (tokens r ++ us) := by
  cases r with
  | null | bool | number | string => rfl
  | array vs =>
    rw [tokens_array]
    rfl
  | object ms =>
    rw [tokens_object]
    rfl

theorem parses_tokens (h : r.all plain closed) : Parses (tokens r) r := by
  induction r using ind with
  | null | string s => exact fun _ _ => rfl
  | bool b => cases b <;> exact fun _ _ => rfl
  | number s =>
    intro stack us
    exact congrArg (fun v => Parser.run ⟨.after v, stack⟩ us) (plain_atom h)
  | array vs ih =>
    intro stack us
    have hvs := fun v hv => ih v hv (all_array.mp h v hv)
    rw [tokens_array]
    cases vs with
    | nil => rfl
    | cons v vs =>
      obtain ⟨hv, hvs⟩ := List.forall_mem_cons.mp hvs
      show Parser.run ⟨.elementOrEnd, stack⟩ (commaJoin (tokens v :: vs.map tokens) ++ [.closeArray] ++ us) = _
      rw [commaJoin, List.append_assoc, List.append_assoc, run_elementOrEnd, hv]
      exact run_elements hvs
  | object ms ih =>
    intro stack us
    have hms := fun m hm => ih m hm (all_object.mp h m hm).2
    rw [tokens_object]
    cases ms with
    | nil => rfl
    | cons m ms =>
      obtain ⟨hm, hms⟩ := List.forall_mem_cons.mp hms
      show Parser.run ⟨.nameOrEnd, stack⟩ (commaJoin (_ :: ms.map _) ++ [.closeObject] ++ us) = _
      rw [commaJoin, List.append_assoc, List.append_assoc]
      exact (hm (.object [] m.1 :: stack) _).trans (run_members hms)

theorem parseRaw_print (h : r.all plain closed) : parseRaw (print r) = some r := by
  have hrun := parses_tokens h [] []
  rw [List.append_nil] at hrun
  rw [parseRaw, lex_print h, Option.bind_some, parseTokens, hrun]
  rfl

end Csar.Json
