import CsarCore.Framework.Hex
import Mathlib.Data.List.Induction

/-!
# Readers (`io.Reader`) and streams

A reader is a state and what a call of `Read` does to it. `Delivers` is the contract: a
call gives the next bytes of what is left, at most as many as the buffer takes and
perhaps none, and says that it is at the end only if nothing is left. A call may fail
at any time. A stream is what a reader delivers until it ends, in whatever pieces: its
bytes and, unless it ends with `io.EOF`, the error that it ends with.
-/

namespace Csar

section

/-- The errors of a call: `io.EOF`, or another one. -/
inductive ReadError (ε : Type)
  | eof
  | other (err : ε)
  deriving DecidableEq

structure ReadResult (ε : Type) where
  data : Bytes
  err : Option (ReadError ε)
  deriving DecidableEq

structure Reader (σ ε : Type) where
  read : σ → Nat → σ × ReadResult ε

variable {σ ε : Type}

namespace Reader

def delivered (results : List (ReadResult ε)) : Bytes := results.flatMap ReadResult.data

theorem delivered_concat (xs : List (ReadResult ε)) (x : ReadResult ε) :
    delivered (xs ++ [x]) = delivered xs ++ x.data := by
  rw [delivered, List.flatMap_append, List.flatMap_singleton]
  rfl

variable (R : Reader σ ε)

/-- Calls with buffers of the sizes `ns`. -/
def calls : σ → List Nat → List (ReadResult ε) × σ
  | s, [] => ([], s)
  | s, n :: ns =>
    let rest := calls (R.read s n).1 ns
    ((R.read s n).2 :: rest.1, rest.2)

/-- The contract of a reader with `rest s` still to deliver. -/
structure Delivers (rest : σ → Bytes) : Prop where
  fits : ∀ s n, (R.read s n).2.data.length ≤ n
  next : ∀ s n, rest s = (R.read s n).2.data ++ rest (R.read s n).1
  atEnd : ∀ s n, (R.read s n).2.err = some .eof → rest (R.read s n).1 = []

variable {R}

theorem calls_append (s : σ) (ns ms : List Nat) :
    R.calls s (ns ++ ms) = ((R.calls s ns).1 ++ (R.calls (R.calls s ns).2 ms).1, (R.calls (R.calls s ns).2 ms).2) := by
  induction ns generalizing s with
  | nil => rfl
  | cons n ns ih =>
    rw [List.cons_append, calls, ih]
    rfl

theorem calls_inv {I : List (ReadResult ε) → σ → Prop}
    (hstep : ∀ {out s} n, I out s → I (out ++ [(R.read s n).2]) (R.read s n).1) {s : σ} (h0 : I [] s) (ns : List Nat) :
    I (R.calls s ns).1 (R.calls s ns).2 := by
  induction ns using List.reverseRecOn with
  | nil => exact h0
  | append_singleton ns n ih =>
    rw [calls_append]
    exact hstep n ih

theorem calls_split {s : σ} {ns : List Nat} {pre post : List (ReadResult ε)} {res : ReadResult ε}
    (h : (R.calls s ns).1 = pre ++ res :: post) :
    ∃ ms n, (R.calls s ms).1 = pre ∧ (R.read (R.calls s ms).2 n).2 = res := by
  induction pre generalizing s ns with
  | nil =>
    cases ns with
    | nil => cases h
    | cons n ns =>
      refine ⟨[], n, rfl, ?_⟩
      exact (List.cons.inj h).1
  | cons x pre ih =>
    cases ns with
    | nil => cases h
    | cons n ns =>
      obtain ⟨hx, hrest⟩ := List.cons.inj h
      obtain ⟨ms, m, hpre, hres⟩ := ih hrest
      refine ⟨n :: ms, m, ?_, hres⟩
      rw [calls, hpre, ← hx]

end Reader

end

/-! ## Streams -/

/-- A stream: its bytes, and the error after them; `none`: `io.EOF`. -/
structure Stream (ε : Type) where
  data : Bytes
  err : Option ε

namespace Stream

variable {ε : Type}

def readAll (s : Stream ε) : Except ε Bytes :=
  match s.err with
  | some err => .error err
  | none => .ok s.data

/-- `io.LimitReader`: the end after `n` bytes, at once if `n` is not positive. -/
def limit (s : Stream ε) (n : Int) : Stream ε :=
  if n ≤ s.data.length then ⟨s.data.take n.toNat, none⟩ else s

/-- `http.MaxBytesReader`: an error in place of the bytes after the first `n`. -/
def maxBytes (s : Stream ε) (n : Nat) (tooLarge : ε) : Stream ε :=
  if s.data.length ≤ n then s else ⟨s.data.take n, some tooLarge⟩

theorem limit_of_ends (data : Bytes) (n : Int) : (⟨data, none⟩ : Stream ε).limit n = ⟨data.take n.toNat, none⟩ := by
  by_cases h : n ≤ data.length
  · exact if_pos h
  · have hle : data.length ≤ n.toNat := by omega
    rw [List.take_of_length_le hle]
    exact if_neg h

theorem readAll_limit (data : Bytes) (n : Int) : ((⟨data, none⟩ : Stream ε).limit n).readAll = .ok (data.take n.toNat) := by
  rw [limit_of_ends]
  rfl

theorem data_maxBytes (s : Stream ε) (n : Nat) (tooLarge : ε) : (s.maxBytes n tooLarge).data = s.data.take n := by
  rw [maxBytes]
  split
  · rename_i h
    rw [List.take_of_length_le h]
  · rfl

theorem err_maxBytes (s : Stream ε) {n : Nat} (h : n < s.data.length) (tooLarge : ε) :
    (s.maxBytes n tooLarge).err = some tooLarge := by
  rw [maxBytes, if_neg (Nat.not_le.mpr h)]

end Stream

end Csar
