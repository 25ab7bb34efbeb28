import Mathlib.Data.List.Basic

/-!
# Buffered channels

A channel of Go with a buffer, oldest first. `trySend` is a send in a `select` with a
default, `recv` a receive. A send on a closed channel, and closing it twice, panic.
-/

namespace Csar

structure Chan (α : Type) where
  buf : List α
  cap : Nat
  closed : Bool
  within : buf.length ≤ cap

namespace Chan

variable {α : Type}

/-- `make(chan α, cap)`. -/
def make (cap : Nat) : Chan α := ⟨[], cap, false, Nat.zero_le cap⟩

def Free (c : Chan α) : Prop := c.buf.length < c.cap

instance (c : Chan α) : Decidable c.Free := inferInstanceAs (Decidable (_ < _))

inductive TrySend (α : Type)
  | sent (c : Chan α)
  | full
  | panic

/-- `select { case c <- x: default: }`. -/
def trySend (c : Chan α) (x : α) : TrySend α :=
  if c.closed then .panic
  else if h : c.Free then
    .sent ⟨c.buf ++ [x], c.cap, c.closed, by rw [List.length_append]; exact h⟩
  else .full

inductive Received (α : Type)
  | value (x : α) (c : Chan α)
  | closed

def tail (c : Chan α) : Chan α :=
  ⟨c.buf.tail, c.cap, c.closed, by rw [List.length_tail]; exact Nat.le_trans (Nat.sub_le _ 1) c.within⟩

/-- `x, ok := <-c`; `none`: it waits. -/
def recv (c : Chan α) : Option (Received α) :=
  match c.buf with
  | x :: _ => some (.value x c.tail)
  | [] => if c.closed then some .closed else none

/-- `close(c)`; `none`: it panics. -/
def close (c : Chan α) : Option (Chan α) :=
  if c.closed then none else some ⟨c.buf, c.cap, true, c.within⟩

variable {c c' : Chan α} {x : α}

theorem trySend_sent (h : c.trySend x = .sent c') :
    c.closed = false ∧ c.Free ∧ c'.buf = c.buf ++ [x] ∧ c'.cap = c.cap ∧ c'.closed = false := by
  unfold trySend at h
  split at h
  · cases h
  · rename_i hc
    have hc : c.closed = false := by simpa using hc
    split at h <;> cases h
    rename_i hf
    exact ⟨hc, hf, rfl, rfl, hc⟩

theorem trySend_full (h : c.trySend x = .full) : c.closed = false ∧ ¬ c.Free := by
  unfold trySend at h
  split at h
  · cases h
  · rename_i hc
    split at h
    · cases h
    · rename_i hf
      exact ⟨by simpa using hc, hf⟩

theorem trySend_panic (h : c.trySend x = .panic) : c.closed = true := by
  unfold trySend at h
  split at h
  · assumption
  · split at h <;> cases h

theorem recv_value (h : c.recv = some (.value x c')) :
    c.buf = x :: c'.buf ∧ c'.cap = c.cap ∧ c'.closed = c.closed := by
  unfold recv at h
  split at h
  · rename_i hb
    cases h
    refine ⟨?_, rfl, rfl⟩
    show c.buf = x :: c.buf.tail
    rw [hb, List.tail_cons]
  · split at h <;> cases h

theorem recv_closed (h : c.recv = some .closed) : c.buf = [] ∧ c.closed = true := by
  unfold recv at h
  split at h
  · cases h
  · rename_i hb
    split at h <;> [exact ⟨hb, ‹_›⟩; cases h]

theorem recv_none (h : c.recv = none) : c.buf = [] ∧ c.closed = false := by
  unfold recv at h
  split at h
  · cases h
  · rename_i hb
    split at h
    · cases h
    · exact ⟨hb, by simpa using ‹¬ c.closed = true›⟩

theorem close_some (h : c.close = some c') :
    c.closed = false ∧ c'.buf = c.buf ∧ c'.cap = c.cap ∧ c'.closed = true := by
  unfold close at h
  split at h
  · cases h
  · cases h
    exact ⟨by simpa using ‹¬ c.closed = true›, rfl, rfl, rfl⟩

theorem close_none (h : c.close = none) : c.closed = true := by
  unfold close at h
  split at h
  · assumption
  · cases h

end Chan

end Csar
