import CsarCore.Framework.Hex
import Mathlib.Data.List.Infix

/-!
# Texts that end with a dot (`textproto.DotWriter`, `textproto.DotReader`)

A line of one dot ends a text. The writer puts a second dot before one that begins a
line, makes every line break `\r\n` and ends the text in `close`. The reader has got the
whole text in the state `eof`; the end that it sees is the one that `close` writes
(`eq_of_ended`).
-/

namespace Csar.DotLines

inductive WState
  | begin
  | beginLine
  | cr
  | data
  deriving DecidableEq

structure Writer where
  state : WState := .begin
  written : Bytes := []

def dot : UInt8 := 0x2E
def cr : UInt8 := 0x0D
def lf : UInt8 := 0x0A

/-- A turn of the loop of `Write`: what is written for a byte, and the next state. -/
def writeByte (c : UInt8) : WState → Bytes × WState
  | .begin | .beginLine =>
    if c = cr then ([c], .cr)
    else if c = lf then ([cr, c], .beginLine)
    else if c = dot then ([dot, c], .data)
    else ([c], .data)
  | .data => if c = cr then ([c], .cr) else if c = lf then ([cr, c], .beginLine) else ([c], .data)
  | .cr => ([c], if c = lf then .beginLine else .data)

def Writer.write (d : Writer) : Bytes → Writer
  | [] => d
  | c :: cs =>
    let (bs, state) := writeByte c d.state
    Writer.write ⟨state, d.written ++ bs⟩ cs

/-- The end of the last line, and the line of one dot. -/
def ending : WState → Bytes
  | .begin | .data => [cr, lf, dot, cr, lf]
  | .cr => [lf, dot, cr, lf]
  | .beginLine => [dot, cr, lf]

def Writer.close (d : Writer) : Bytes := d.written ++ ending d.state

inductive RState
  | beginLine
  | dot
  | dotCR
  | cr
  | data
  | eof
  deriving DecidableEq

/-- How the reader goes on with a byte. -/
def readByte (c : UInt8) : RState → RState
  | .beginLine => if c = DotLines.dot then .dot else if c = DotLines.cr then .cr else .data
  | .dot => if c = DotLines.cr then .dotCR else if c = lf then .eof else .data
  | .dotCR => if c = lf then .eof else if c = DotLines.cr then .cr else .data
  | .cr => if c = lf then .beginLine else if c = DotLines.cr then .cr else .data
  | .data => if c = DotLines.cr then .cr else if c = lf then .beginLine else .data
  | .eof => .eof

def read (bs : Bytes) (r : RState) : RState := bs.foldl (fun r c => readByte c r) r

def Ended (bs : Bytes) : Prop := read bs .beginLine = .eof

instance (bs : Bytes) : Decidable (Ended bs) := inferInstanceAs (Decidable (_ = _))

theorem read_append (bs cs : Bytes) (r : RState) : read (bs ++ cs) r = read cs (read bs r) :=
  List.foldl_append

theorem read_eof (bs : Bytes) : read bs .eof = .eof := by
  induction bs with
  | nil => rfl
  | cons c cs ih => exact ih

theorem Ended.of_isPrefix {bs cs : Bytes} (h : Ended bs) (hle : bs <+: cs) : Ended cs := by
  obtain ⟨rest, rfl⟩ := hle
  unfold Ended at h ⊢
  rw [read_append, h, read_eof]

/-- Where the reader is when it has read what the writer has written. -/
inductive Follows : WState → RState → Prop
  | begin : Follows .begin .beginLine
  | beginLine : Follows .beginLine .beginLine
  | cr : Follows .cr .cr
  | data : Follows .data .data
  | dataCR : Follows .data .cr

variable {w : WState} {r : RState}

theorem Follows.ne_eof (h : Follows w r) : r ≠ .eof := by
  cases h <;> decide

theorem Follows.writeByte (h : Follows w r) (c : UInt8) :
    Follows (writeByte c w).2 (read (writeByte c w).1 r) := by
  by_cases hcr : c = DotLines.cr
  · subst hcr
    cases h <;> constructor
  by_cases hlf : c = lf
  · subst hlf
    cases h <;> constructor
  by_cases hdot : c = DotLines.dot
  · subst hdot
    cases h <;> constructor
  -- any other byte is written as it is
  cases h <;>
    simp only [DotLines.writeByte, read, readByte, hcr, hlf, hdot, List.foldl_cons, List.foldl_nil, if_false] <;>
    constructor

theorem Follows.write {d : Writer} (h : Follows d.state (read d.written .beginLine)) (body : Bytes) :
    Follows (d.write body).state (read (d.write body).written .beginLine) := by
  induction body generalizing d with
  | nil => exact h
  | cons c cs ih =>
    refine ih ?_
    show Follows (DotLines.writeByte c d.state).2 (read (d.written ++ (DotLines.writeByte c d.state).1) .beginLine)
    rw [read_append]
    exact h.writeByte c

theorem follows_write (body : Bytes) :
    Follows (({} : Writer).write body).state (read (({} : Writer).write body).written .beginLine) :=
  Follows.write .begin body

theorem Follows.ending (h : Follows w r) : read (ending w).dropLast r ≠ .eof := by
  cases h <;> decide

theorem not_ended_written (body : Bytes) : ¬ Ended (({} : Writer).write body).written :=
  (follows_write body).ne_eof

theorem eq_of_ended {arrived body : Bytes} (h : Ended arrived) (hle : arrived <+: (({} : Writer).write body).close) :
    arrived = (({} : Writer).write body).close := by
  set d := ({} : Writer).write body with hd
  have hlast : d.close = d.written ++ (ending d.state).dropLast ++ [lf] := by
    rw [Writer.close, List.append_assoc]
    cases d.state <;> rfl
  rw [hlast] at hle ⊢
  refine (List.prefix_concat_iff.mp hle).resolve_right fun hshort => ?_
  have hend := h.of_isPrefix hshort
  rw [Ended, read_append] at hend
  exact (follows_write body).ending hend

end Csar.DotLines
