import CsarCore.Impl.Delivery
import CsarCore.Spec.Delivery.Pipeline
import Mathlib.Algebra.BigOperators.Ring.Finset

/-!
# The batching pipeline

`PipeMoves` is what a step can do (`moves_of_pipe`). What was admitted is what was
formed, in order, followed by what waits, and every batch is at one place (`PipeInv`);
nothing panics (`no_panic`); each step is one of finitely many (`work_decreases`), and
one can be made as long as something is on its way (`enabled_of_not_drained`).
`CloseMoves` is what a call of `Close` can do once the queue is closed. It changes
nothing but that call's own place, and passes `wg.Wait` only when the wait group is at
0.
-/

namespace Csar.Proof.Delivery

open Impl.Delivery Spec.Delivery

section

variable {ι ε : Type} {cfg : Settings} {tr : PipeHistory ι ε} {p p' : Pipeline ι} {a : PipeOp ι ε}
  {o : Option (PipeEvent ι ε)} {w : Nat}

/-! ## Steps -/

/-- What a step can do. -/
inductive PipeMoves (cfg : Settings) (p : Pipeline ι) :
    PipeOp ι ε → Pipeline ι → Option (PipeEvent ι ε) → Prop
  | push {x : ι} {q : Chan ι} (hq : p.queue.trySend x = .sent q) :
    PipeMoves cfg p (.push x) { p with queue := q } (some (.admitted x))
  | full {x : ι} (hq : p.queue.trySend x = .full) :
    PipeMoves cfg p (.push x) p (some (.full x (logFallback cfg.fallbackLog "buffer_full" x)))
  | pushPanic {x : ι} (hq : p.queue.closed = true) : PipeMoves cfg p (.push x) p (some .panicked)
  | closeQueue {q : Chan ι} (hq : p.queue.close = some q) :
    PipeMoves cfg p .closeQueue { p with queue := q } none
  | closePanic (hq : p.queue.closed = true) : PipeMoves cfg p .closeQueue p (some .panicked)
  | receive {batch : List ι} {x : ι} {q : Chan ι} (hd : p.dispatcher = .loop batch)
    (hq : p.queue.recv = some (.value x q)) :
    PipeMoves cfg p (.act .receive) { p with queue := q, dispatcher := afterReceive batch x } none
  | last {batch : List ι} (hd : p.dispatcher = .loop batch) (hq : p.queue.recv = some .closed) :
    PipeMoves cfg p (.act .receive) { p with dispatcher := .flush batch true } none
  | timer {x : ι} {batch : List ι} (hd : p.dispatcher = .loop (x :: batch)) :
    PipeMoves cfg p (.act .timer) { p with dispatcher := .flush (x :: batch) false } none
  | nothing {last : Bool} (hd : p.dispatcher = .flush [] last) :
    PipeMoves cfg p (.act .flush) { p with dispatcher := afterFlush last } none
  | queued {batch : List ι} {last : Bool} {c : Chan (Batch ι)} (hd : p.dispatcher = .flush batch last)
    (hne : batch ≠ []) (hc : p.batches.trySend ⟨p.made, batch⟩ = .sent c) :
    PipeMoves cfg p (.act .flush)
      { p with batches := c, dispatcher := afterFlush last, made := p.made + 1 } (some (.queued ⟨p.made, batch⟩))
  | dropped {batch : List ι} {last : Bool} (hd : p.dispatcher = .flush batch last) (hne : batch ≠ [])
    (hc : p.batches.trySend ⟨p.made, batch⟩ = .full) :
    PipeMoves cfg p (.act .flush) { p with dispatcher := afterFlush last, made := p.made + 1 }
      (some (.dropped ⟨p.made, batch⟩
        (if cfg.fallbackLog then batch.flatMap (logFallback cfg.fallbackLog "batch_channel_full") else [])))
  | flushPanic {batch : List ι} {last : Bool} (hd : p.dispatcher = .flush batch last)
    (hc : p.batches.closed = true) : PipeMoves cfg p (.act .flush) p (some .panicked)
  | closeBatches {c : Chan (Batch ι)} (hd : p.dispatcher = .closeBatches) (hc : p.batches.close = some c) :
    PipeMoves cfg p (.act .closeBatches) { p with batches := c, dispatcher := .done } none
  | closeBatchesPanic (hd : p.dispatcher = .closeBatches) (hc : p.batches.closed = true) :
    PipeMoves cfg p (.act .closeBatches) p (some .panicked)
  | dispatcherDone (hd : p.dispatcher = .done) (hw : 1 ≤ p.wg) :
    PipeMoves cfg p (.act .dispatcherDone) { p with wg := p.wg - 1, dispatcher := .stopped } none
  | dispatcherPanic (hd : p.dispatcher = .done) (hw : p.wg < 1) :
    PipeMoves cfg p (.act .dispatcherDone) p (some .panicked)
  | take {w : Nat} {b : Batch ι} {c : Chan (Batch ι)} (hw : w < cfg.workers) (hs : p.workers w = .range)
    (hc : p.batches.recv = some (.value b c)) :
    PipeMoves cfg p (.act (.take w)) ({ p with batches := c }.goto w (.taken b)) none
  | finish {w : Nat} (hw : w < cfg.workers) (hs : p.workers w = .range) (hc : p.batches.recv = some .closed) :
    PipeMoves cfg p (.act (.take w)) (p.goto w .done) none
  | send {w : Nat} {b : Batch ι} (hs : p.workers w = .taken b) :
    PipeMoves cfg p (.act (.send w)) (p.goto w (.sending b)) (some (.handed b))
  | sent {w : Nat} {b : Batch ι} {err : Option ε} (hs : p.workers w = .sending b) :
    PipeMoves cfg p (.act (.sent w err)) (p.goto w .range) (some (.answered b (sendLog cfg b err)))
  | workerDone {w : Nat} (hs : p.workers w = .done) (hw : 1 ≤ p.wg) :
    PipeMoves cfg p (.act (.workerDone w)) ({ p with wg := p.wg - 1 }.goto w .stopped) none
  | workerPanic {w : Nat} (hs : p.workers w = .done) (hw : p.wg < 1) :
    PipeMoves cfg p (.act (.workerDone w)) p (some .panicked)

theorem wgDone_some {n m : Int} (h : wgDone n = some m) : 1 ≤ n ∧ m = n - 1 := by
  unfold wgDone at h
  split at h <;> cases h
  exact ⟨by omega, rfl⟩

theorem wgDone_none {n : Int} (h : wgDone n = none) : n < 1 := by
  unfold wgDone at h
  split at h <;> cases h
  omega

theorem moves_push {x : ι} (h : p.push cfg x = (p', o)) : PipeMoves cfg p (.push x) p' o := by
  unfold Pipeline.push at h
  split at h <;> cases h
  · exact .push ‹_›
  · exact .full ‹_›
  · exact .pushPanic (Chan.trySend_panic ‹_›)

theorem moves_closeQueue (h : p.closeQueue = (p', o)) : PipeMoves cfg p .closeQueue p' o := by
  unfold Pipeline.closeQueue at h
  split at h <;> cases h
  · exact .closeQueue ‹_›
  · exact .closePanic (Chan.close_none ‹_›)

theorem moves_flush {batch : List ι} {last : Bool} (hd : p.dispatcher = .flush batch last)
    (h : p.flush cfg batch last = (p', o)) : PipeMoves cfg p (.act .flush) p' o := by
  unfold Pipeline.flush at h
  split at h
  · cases h
    exact .nothing hd
  · rename_i hne
    dsimp only at h
    split at h <;> cases h
    · exact .queued hd hne ‹_›
    · exact .dropped hd hne ‹_›
    · exact .flushPanic hd (Chan.trySend_panic ‹_›)

theorem moves_of_pipeStep {a : PipeAct ε} (h : pipeStep cfg p a = some (p', o)) : PipeMoves cfg p (.act a) p' o := by
  cases a with
  | receive =>
    simp only [pipeStep] at h
    split at h <;> cases h
    · exact .receive ‹_› ‹_›
    · exact .last ‹_› ‹_›
  | timer =>
    simp only [pipeStep] at h
    split at h <;> cases h
    exact .timer ‹_›
  | flush =>
    simp only [pipeStep] at h
    split at h <;> [skip; cases h]
    exact moves_flush ‹_› (Option.some.inj h)
  | closeBatches =>
    simp only [pipeStep] at h
    split at h <;> cases h
    · exact .closeBatches ‹_› ‹_›
    · exact .closeBatchesPanic ‹_› (Chan.close_none ‹_›)
  | dispatcherDone =>
    simp only [pipeStep] at h
    split at h <;> cases h
    · rename_i n hd hw
      obtain ⟨hpos, rfl⟩ := wgDone_some hw
      exact .dispatcherDone hd hpos
    · exact .dispatcherPanic ‹_› (wgDone_none ‹_›)
  | take w =>
    simp only [pipeStep] at h
    split at h <;> [skip; cases h]
    split at h <;> cases h
    · exact .take ‹_› ‹_› ‹_›
    · exact .finish ‹_› ‹_› ‹_›
  | send w =>
    simp only [pipeStep] at h
    split at h <;> cases h
    exact .send ‹_›
  | sent w err =>
    simp only [pipeStep] at h
    split at h <;> cases h
    exact .sent ‹_›
  | workerDone w =>
    simp only [pipeStep] at h
    split at h <;> cases h
    · rename_i n hs hw
      obtain ⟨hpos, rfl⟩ := wgDone_some hw
      exact .workerDone hs hpos
    · exact .workerPanic ‹_› (wgDone_none ‹_›)

theorem moves_of_pipe (h : (pipeSystem cfg).step p a = some (p', o)) : PipeMoves cfg p a p' o := by
  cases a with
  | push x => exact moves_push (Option.some.inj h)
  | closeQueue => exact moves_closeQueue (Option.some.inj h)
  | act a => exact moves_of_pipeStep h

/-! ## Order -/

def Small : DispatchState ι → Prop
  | .loop batch => batch.length < defaultClientMaxBatch
  | .flush batch _ => batch.length ≤ defaultClientMaxBatch
  | _ => True

/-- What was admitted went into batches in order, but for what waits. -/
structure Ordered (tr : PipeHistory ι ε) (p : Pipeline ι) : Prop where
  order : admitted tr = (formed tr).flatMap Batch.events ++ batchOf p.dispatcher ++ p.queue.buf
  sizes : ∀ b ∈ formed tr, 0 < b.events.length ∧ b.events.length ≤ defaultClientMaxBatch
  small : Small p.dispatcher
  ids : (formed tr).map Batch.id = List.range p.made

theorem batchOf_afterReceive (batch : List ι) (x : ι) : batchOf (afterReceive batch x) = batch ++ [x] := by
  unfold afterReceive
  split
  · rfl
  · split <;> rfl

theorem small_afterReceive {batch : List ι} (h : batch.length < defaultClientMaxBatch) (x : ι) :
    Small (afterReceive batch x) := by
  unfold afterReceive
  split
  · show 1 < defaultClientMaxBatch
    decide
  · split
    · show (batch ++ [x]).length ≤ defaultClientMaxBatch
      rw [List.length_append]
      exact h
    · exact Nat.lt_of_not_le ‹_›

theorem batchOf_afterFlush (last : Bool) : batchOf (afterFlush last : DispatchState ι) = [] := by
  cases last <;> rfl

theorem small_afterFlush (last : Bool) : Small (afterFlush last : DispatchState ι) := by
  cases last
  · show 0 < defaultClientMaxBatch
    decide
  · trivial

theorem Ordered.form (h : Ordered tr p) {batch : List ι} {last : Bool} (hd : p.dispatcher = .flush batch last)
    (hne : batch ≠ []) {e : PipeOp ι ε × Option (PipeEvent ι ε)} (ha : admitted (e :: tr) = admitted tr)
    (hf : formed (e :: tr) = formed tr ++ [⟨p.made, batch⟩]) (hp : p'.dispatcher = afterFlush last)
    (hq : p'.queue = p.queue) (hm : p'.made = p.made + 1) : Ordered (e :: tr) p' := by
  have horder := h.order
  have hsmall := h.small
  rw [hd] at horder hsmall
  constructor
  · rw [ha, hf, hp, hq, batchOf_afterFlush, horder, List.flatMap_append, List.flatMap_singleton, List.append_nil]
    rfl
  · rw [hf]
    intro b hb
    rcases List.mem_append.mp hb with hb | hb
    · exact h.sizes b hb
    · rw [List.mem_singleton.mp hb]
      exact ⟨List.length_pos_iff.mpr hne, hsmall⟩
  · rw [hp]
    exact small_afterFlush last
  · rw [hf, hm, List.map_append, h.ids, List.range_succ]
    rfl

theorem ordered_step (h : Ordered tr p) (hs : PipeMoves cfg p a p' o) : Ordered ((a, o) :: tr) p' := by
  have horder := h.order
  have hsmall := h.small
  cases hs with
  | push hq =>
    obtain ⟨-, -, hb, -, -⟩ := Chan.trySend_sent hq
    refine ⟨?_, h.sizes, hsmall, h.ids⟩
    show admitted tr ++ [_] = _ ++ _ ++ Chan.buf _
    rw [hb, horder, List.append_assoc]
    rfl
  | closeQueue hq =>
    obtain ⟨-, hb, -, -⟩ := Chan.close_some hq
    refine ⟨?_, h.sizes, hsmall, h.ids⟩
    show admitted tr = _ ++ _ ++ Chan.buf _
    rw [hb]
    exact horder
  | @receive batch x q hd hq =>
    obtain ⟨hb, -, -⟩ := Chan.recv_value hq
    rw [hd] at horder hsmall
    refine ⟨?_, h.sizes, small_afterReceive hsmall x, h.ids⟩
    show admitted tr = _ ++ batchOf (afterReceive batch x) ++ q.buf
    rw [horder, hb, batchOf_afterReceive, ← List.append_assoc, List.append_assoc _ [x]]
    rfl
  | last hd _ | timer hd =>
    rw [hd] at horder hsmall
    exact ⟨horder, h.sizes, Nat.le_of_lt hsmall, h.ids⟩
  | @nothing last hd =>
    rw [hd] at horder
    refine ⟨?_, h.sizes, small_afterFlush last, h.ids⟩
    show admitted tr = _ ++ batchOf (afterFlush last) ++ _
    rw [batchOf_afterFlush]
    exact horder
  | queued hd hne _ | dropped hd hne _ => exact h.form hd hne rfl rfl rfl rfl rfl
  | closeBatches hd _ | dispatcherDone hd _ =>
    rw [hd] at horder
    exact ⟨horder, h.sizes, trivial, h.ids⟩
  | _ => exact ⟨horder, h.sizes, hsmall, h.ids⟩

/-! ## Places -/

section Parts

variable {β : Type}

/-- What was made is sent, lost, queued or in hand, each occurrence once. -/
def Parts (made sent lost queued : List β) (inHand : Multiset β) : Prop :=
  (made : Multiset β) = (sent : Multiset β) + (lost : Multiset β) + (queued : Multiset β) + inHand

variable {made sent lost queued : List β} {inHand : Multiset β} {b : β}

theorem coe_append_singleton (l : List β) (b : β) : ((l ++ [b] : List β) : Multiset β) = l + {b} := by
  rw [← Multiset.coe_add, Multiset.coe_singleton]

theorem Parts.queue (h : Parts made sent lost queued inHand) (b : β) :
    Parts (made ++ [b]) sent lost (queued ++ [b]) inHand := by
  unfold Parts at *
  rw [coe_append_singleton, coe_append_singleton, h]
  simp only [add_assoc, add_comm]

theorem Parts.lose (h : Parts made sent lost queued inHand) (b : β) :
    Parts (made ++ [b]) sent (lost ++ [b]) queued inHand := by
  unfold Parts at *
  rw [coe_append_singleton, coe_append_singleton, h]
  simp only [add_assoc, add_comm, add_left_comm]

theorem Parts.take (h : Parts made sent lost (b :: queued) (0 + inHand)) : Parts made sent lost queued ({b} + inHand) := by
  unfold Parts at *
  rw [h, ← Multiset.cons_coe, ← Multiset.singleton_add, zero_add, add_comm {b} (queued : Multiset β)]
  simp only [add_assoc]

theorem Parts.send (h : Parts made sent lost queued ({b} + inHand)) : Parts made (sent ++ [b]) lost queued (0 + inHand) := by
  unfold Parts at *
  rw [h, coe_append_singleton, zero_add]
  simp only [add_assoc, add_comm, add_left_comm]

end Parts

/-- Every batch is with `Send`, dropped, in the channel, or with a worker. -/
structure Accounted (cfg : Settings) (tr : PipeHistory ι ε) (p : Pipeline ι) : Prop where
  parts : Parts (formed tr) (handed tr) (dropped tr) p.batches.buf (held cfg p)
  beyond : ∀ w, cfg.workers ≤ w → p.workers w = .range

theorem Accounted.lt (h : Accounted cfg tr p) (hw : p.workers w ≠ .range) : w < cfg.workers :=
  Nat.lt_of_not_le fun hle => hw (h.beyond w hle)

theorem Accounted.beyond_goto (h : Accounted cfg tr p) (hw : w < cfg.workers) (x : WorkerState ι) (v : Nat)
    (hv : cfg.workers ≤ v) : Function.update p.workers w x v = .range := by
  rw [Function.update_of_ne (by omega)]
  exact h.beyond v hv

theorem sum_goto {M : Type} [AddCommMonoid M] (p : Pipeline ι) (hw : w < cfg.workers) (f : WorkerState ι → M) :
    ∃ rest : M, ∑ v ∈ Finset.range cfg.workers, f (p.workers v) = f (p.workers w) + rest ∧
      ∀ x, ∑ v ∈ Finset.range cfg.workers, f ((p.goto w x).workers v) = f x + rest := by
  have hmem : w ∈ Finset.range cfg.workers := Finset.mem_range.mpr hw
  refine ⟨∑ v ∈ (Finset.range cfg.workers).erase w, f (p.workers v), (Finset.add_sum_erase _ _ hmem).symm, fun x => ?_⟩
  rw [← Finset.add_sum_erase _ _ hmem]
  congr 1
  · exact congrArg f (Function.update_self ..)
  · refine Finset.sum_congr rfl fun v hv => ?_
    exact congrArg f (Function.update_of_ne (Finset.ne_of_mem_erase hv) ..)

theorem Accounted.keep (h : Accounted cfg tr p) (hw : w < cfg.workers) {x : WorkerState ι}
    (hx : takenBy x = takenBy (p.workers w)) :
    Parts (formed tr) (handed tr) (dropped tr) p.batches.buf (held cfg (p.goto w x)) := by
  obtain ⟨rest, hheld, hgoto⟩ := sum_goto p hw takenBy
  unfold held
  rw [hgoto, hx, ← hheld]
  exact h.parts

theorem accounted_step (h : Accounted cfg tr p) (hs : PipeMoves cfg p a p' o) : Accounted cfg ((a, o) :: tr) p' := by
  have hparts := h.parts
  cases hs with
  | @queued batch last c _ _ hc =>
    obtain ⟨-, -, hb, -, -⟩ := Chan.trySend_sent hc
    refine ⟨?_, h.beyond⟩
    show Parts (formed tr ++ [⟨p.made, batch⟩]) _ _ c.buf (held cfg p)
    rw [hb]
    exact hparts.queue _
  | dropped _ _ _ => exact ⟨hparts.lose _, h.beyond⟩
  | @closeBatches c _ hc =>
    obtain ⟨-, hb, -, -⟩ := Chan.close_some hc
    refine ⟨?_, h.beyond⟩
    show Parts (formed tr) _ _ c.buf (held cfg p)
    rw [hb]
    exact hparts
  | @take w b c hw hs hc =>
    obtain ⟨hb, -, -⟩ := Chan.recv_value hc
    obtain ⟨rest, hheld, hgoto⟩ := sum_goto p hw takenBy
    refine ⟨?_, h.beyond_goto hw _⟩
    show Parts (formed tr) _ _ c.buf (held cfg (p.goto w (.taken b)))
    unfold held at hparts ⊢
    rw [hgoto]
    rw [hb, hheld, hs] at hparts
    exact hparts.take
  | finish hw hs _ => exact ⟨h.keep hw (by rw [hs]; rfl), h.beyond_goto hw _⟩
  | @send w b hs =>
    have hw : w < cfg.workers := h.lt (by rw [hs]; exact nofun)
    obtain ⟨rest, hheld, hgoto⟩ := sum_goto p hw takenBy
    refine ⟨?_, h.beyond_goto hw _⟩
    show Parts (formed tr) (handed tr ++ [b]) _ p.batches.buf (held cfg (p.goto w (.sending b)))
    unfold held at hparts ⊢
    rw [hgoto]
    rw [hheld, hs] at hparts
    exact hparts.send
  | @sent w b err hs | @workerDone w hs _ =>
    have hw : w < cfg.workers := h.lt (by rw [hs]; exact nofun)
    exact ⟨h.keep hw (by rw [hs]; rfl), h.beyond_goto hw _⟩
  | _ => exact ⟨hparts, h.beyond⟩

/-! ## The end -/

def Ended : DispatchState ι → Prop
  | .loop _ => False
  | .flush _ last => last = true
  | _ => True

def Closed : DispatchState ι → Prop
  | .done => True
  | .stopped => True
  | _ => False

def Left : WorkerState ι → Prop
  | .done => True
  | .stopped => True
  | _ => False

def dispatchLive : DispatchState ι → Nat
  | .stopped => 0
  | _ => 1

def workerLive : WorkerState ι → Nat
  | .stopped => 0
  | _ => 1

/-- The goroutines that have not called `wg.Done`. -/
def live (cfg : Settings) (p : Pipeline ι) : Nat :=
  dispatchLive p.dispatcher + ∑ w ∈ Finset.range cfg.workers, workerLive (p.workers w)

/-- The dispatcher goes when the queue is closed and empty, a worker when the channel of batches is; the
wait group counts the rest. -/
structure Ending (cfg : Settings) (p : Pipeline ι) : Prop where
  queue : Ended p.dispatcher → p.queue.closed = true ∧ p.queue.buf = []
  batches : p.batches.closed = true ↔ Closed p.dispatcher
  workers : ∀ w < cfg.workers, Left (p.workers w) → p.batches.closed = true ∧ p.batches.buf = []
  wg : p.wg = live cfg p

theorem not_ended_afterReceive (batch : List ι) (x : ι) : ¬ Ended (afterReceive batch x) := by
  unfold afterReceive
  split
  · exact id
  · split
    · exact Bool.false_ne_true
    · exact id

theorem not_closed_afterReceive (batch : List ι) (x : ι) : ¬ Closed (afterReceive batch x) := by
  unfold afterReceive
  split
  · exact id
  · split <;> exact id

theorem ended_afterFlush {last : Bool} (h : Ended (afterFlush last : DispatchState ι)) : last = true := by
  cases last
  · exact h.elim
  · rfl

theorem not_closed_afterFlush (last : Bool) : ¬ Closed (afterFlush last : DispatchState ι) := by
  cases last <;> exact id

theorem dispatchLive_of_not_closed {d : DispatchState ι} (h : ¬ Closed d) : dispatchLive d = 1 := by
  cases d <;> first | rfl | exact absurd trivial h

theorem ending_init : Ending cfg (Pipeline.init cfg : Pipeline ι) where
  queue := False.elim
  batches := iff_of_false Bool.false_ne_true id
  workers _ _ := False.elim
  wg := by
    show (1 + cfg.workers : Int) = ((1 + ∑ w ∈ Finset.range cfg.workers, 1 : Nat) : Int)
    simp

theorem Ending.dispatch (h : Ending cfg p) {d d' : DispatchState ι} (hd : p.dispatcher = d) (hp : p'.dispatcher = d')
    (hne : ¬ Closed d) (hne' : ¬ Closed d') (hq : Ended d' → p'.queue.closed = true ∧ p'.queue.buf = [])
    (hb : p'.batches.closed = p.batches.closed) (hw : p'.workers = p.workers) (hg : p'.wg = p.wg) : Ending cfg p' := by
  rw [← hd] at hne
  have hopen : ¬ p.batches.closed = true := fun hc => hne (h.batches.mp hc)
  constructor
  · rw [hp]
    exact hq
  · rw [hb, hp]
    exact iff_of_false hopen hne'
  · intro w hlt hleft
    rw [hw] at hleft
    exact absurd (h.workers w hlt hleft).1 hopen
  · have hwg := h.wg
    unfold live at hwg ⊢
    rw [dispatchLive_of_not_closed hne] at hwg
    rw [hg, hp, hw, dispatchLive_of_not_closed hne', hwg]

theorem Ending.goto_left (h : Ending cfg p) {x : WorkerState ι}
    (hx : Left x → p.batches.closed = true ∧ p.batches.buf = []) :
    ∀ v < cfg.workers, Left ((p.goto w x).workers v) → p.batches.closed = true ∧ p.batches.buf = [] := by
  intro v hv hleft
  by_cases hvw : v = w
  · subst hvw
    rw [show (p.goto v x).workers v = x from Function.update_self ..] at hleft
    exact hx hleft
  · rw [show (p.goto w x).workers v = p.workers v from Function.update_of_ne hvw ..] at hleft
    exact h.workers v hv hleft

theorem Ending.wg_goto (h : Ending cfg p) (hw : w < cfg.workers) {x : WorkerState ι}
    (hx : workerLive x = workerLive (p.workers w)) : p.wg = live cfg (p.goto w x) := by
  obtain ⟨rest, hsum, hgoto⟩ := sum_goto p hw workerLive
  have hwg := h.wg
  unfold live at hwg ⊢
  rw [hgoto, hx, ← hsum]
  exact hwg

theorem ending_step (h : Ending cfg p) (hacc : Accounted cfg tr p) (hs : PipeMoves cfg p a p' o) : Ending cfg p' := by
  cases hs with
  | push hq =>
    obtain ⟨ho, -, -, -, -⟩ := Chan.trySend_sent hq
    refine ⟨fun he => ?_, h.batches, h.workers, h.wg⟩
    rw [(h.queue he).1] at ho
    exact Bool.noConfusion ho
  | closeQueue hq =>
    obtain ⟨ho, -, -, -⟩ := Chan.close_some hq
    refine ⟨fun he => ?_, h.batches, h.workers, h.wg⟩
    rw [(h.queue he).1] at ho
    exact Bool.noConfusion ho
  | receive hd _ =>
    exact h.dispatch hd rfl id (not_closed_afterReceive _ _) (fun he => absurd he (not_ended_afterReceive _ _)) rfl rfl rfl
  | last hd hq =>
    obtain ⟨hb, hc⟩ := Chan.recv_closed hq
    exact h.dispatch hd rfl id id (fun _ => ⟨hc, hb⟩) rfl rfl rfl
  | timer hd => exact h.dispatch hd rfl id id (fun he => absurd he Bool.false_ne_true) rfl rfl rfl
  | nothing hd | dropped hd _ _ =>
    exact h.dispatch hd rfl id (not_closed_afterFlush _) (fun he => h.queue (hd ▸ ended_afterFlush he)) rfl rfl rfl
  | queued hd _ hc =>
    obtain ⟨ho, -, -, -, hc⟩ := Chan.trySend_sent hc
    exact h.dispatch hd rfl id (not_closed_afterFlush _) (fun he => h.queue (hd ▸ ended_afterFlush he))
      (hc.trans ho.symm) rfl rfl
  | closeBatches hd hc =>
    obtain ⟨ho, -, -, hcl⟩ := Chan.close_some hc
    refine ⟨fun _ => h.queue (hd ▸ trivial), iff_of_true hcl trivial, fun w hw hleft => ?_, ?_⟩
    · rw [(h.workers w hw hleft).1] at ho
      exact Bool.noConfusion ho
    · have hwg := h.wg
      unfold live at hwg
      rw [hd] at hwg
      exact hwg
  | dispatcherDone hd hw =>
    refine ⟨fun _ => h.queue (hd ▸ trivial), iff_of_true (h.batches.mpr (hd ▸ trivial)) trivial, h.workers, ?_⟩
    have hwg := h.wg
    unfold live at hwg
    rw [hd] at hwg
    show p.wg - 1 = ((0 + ∑ w ∈ Finset.range cfg.workers, workerLive (p.workers w) : Nat) : Int)
    rw [hwg, show dispatchLive (.done : DispatchState ι) = 1 from rfl]
    omega
  | @take w b c hw hs hc =>
    obtain ⟨hb, -, hcl⟩ := Chan.recv_value hc
    refine ⟨h.queue, hcl ▸ h.batches, ?_, h.wg_goto hw (by rw [hs]; rfl)⟩
    intro v hv hleft
    -- a worker that has left found the channel empty, and it is not
    have hempty := (h.goto_left (w := w) (x := .taken b) False.elim v hv hleft).2
    rw [hb] at hempty
    cases hempty
  | finish hw hs hc =>
    obtain ⟨hb, hcl⟩ := Chan.recv_closed hc
    exact ⟨h.queue, h.batches, h.goto_left fun _ => ⟨hcl, hb⟩, h.wg_goto hw (by rw [hs]; rfl)⟩
  | @send w b hs | @sent w b err hs =>
    have hw : w < cfg.workers := hacc.lt (by rw [hs]; exact nofun)
    exact ⟨h.queue, h.batches, h.goto_left False.elim, h.wg_goto hw (by rw [hs]; rfl)⟩
  | @workerDone w hs hpos =>
    have hw : w < cfg.workers := hacc.lt (by rw [hs]; exact nofun)
    refine ⟨h.queue, h.batches, h.goto_left fun _ => h.workers w hw (hs ▸ trivial), ?_⟩
    obtain ⟨rest, hsum, hgoto⟩ := sum_goto p hw workerLive
    have hwg := h.wg
    unfold live at hwg
    rw [hsum, hs, show workerLive (.done : WorkerState ι) = 1 from rfl] at hwg
    show p.wg - 1 =
      ((dispatchLive p.dispatcher + ∑ v ∈ Finset.range cfg.workers, workerLive ((p.goto w .stopped).workers v) : Nat) : Int)
    rw [hgoto, hwg, show workerLive (.stopped : WorkerState ι) = 0 from rfl]
    omega
  | _ => exact h

theorem no_panic (h : Ending cfg p) (hacc : Accounted cfg tr p) {a : PipeAct ε} (hs : PipeMoves cfg p (.act a) p' o) :
    o ≠ some .panicked := by
  have hwg := h.wg
  unfold live at hwg
  cases hs with
  | flushPanic hd hc | closeBatchesPanic hd hc =>
    have hclosed := h.batches.mp hc
    rw [hd] at hclosed
    exact hclosed.elim
  | dispatcherPanic hd hlt =>
    rw [hd, show dispatchLive (.done : DispatchState ι) = 1 from rfl] at hwg
    omega
  | @workerPanic w hs hlt =>
    have hw : w < cfg.workers := hacc.lt (by rw [hs]; exact nofun)
    obtain ⟨rest, hsum, -⟩ := sum_goto p hw workerLive
    rw [hsum, hs, show workerLive (.done : WorkerState ι) = 1 from rfl] at hwg
    omega
  | _ => exact nofun

theorem queue_closed_step (hs : PipeMoves cfg p a p' o) (ha : a ≠ .closeQueue) : p'.queue.closed = p.queue.closed := by
  cases hs with
  | push hq =>
    obtain ⟨ho, -, -, -, hc⟩ := Chan.trySend_sent hq
    exact hc.trans ho.symm
  | closeQueue => exact absurd rfl ha
  | receive _ hq => exact (Chan.recv_value hq).2.2
  | _ => rfl

theorem queue_closed (hs : PipeMoves cfg p .closeQueue p' o) : p'.queue.closed = true := by
  cases hs with
  | closeQueue hq => exact (Chan.close_some hq).2.2.2
  | closePanic hq => exact hq

theorem wg_zero_step (hs : PipeMoves cfg p a p' o) (hz : p.wg = 0) : p'.wg = 0 := by
  cases hs with
  | dispatcherDone _ hpos => omega
  | workerDone _ hpos => omega
  | _ => exact hz

theorem Ending.finished (h : Ending cfg p) (hz : p.wg = 0) : Finished cfg p := by
  have hwg := h.wg
  unfold live at hwg
  have hd : dispatchLive p.dispatcher = 0 := by omega
  have hsum : ∑ w ∈ Finset.range cfg.workers, workerLive (p.workers w) = 0 := by omega
  constructor
  · rcases hp : p.dispatcher with _ | _ | _ | _ | _ <;> rw [hp] at hd <;> first | rfl | cases hd
  · intro w hw
    have hlive := Finset.sum_eq_zero_iff.mp hsum w (Finset.mem_range.mpr hw)
    rcases hp : p.workers w with _ | _ | _ | _ | _ <;> rw [hp] at hlive <;> first | rfl | cases hlive

theorem Ending.empty (h : Ending cfg p) (hf : Finished cfg p) :
    p.queue.closed = true ∧ p.queue.buf = [] ∧ batchOf p.dispatcher = [] ∧ p.batches.buf = [] ∧ held cfg p = 0 := by
  obtain ⟨hd, hw⟩ := hf
  obtain ⟨hc, hq⟩ := h.queue (hd ▸ trivial)
  refine ⟨hc, hq, by rw [hd]; rfl, (h.workers 0 cfg.pos.2.1 (hw 0 cfg.pos.2.1 ▸ trivial)).2, ?_⟩
  refine Finset.sum_eq_zero fun w hmem => ?_
  rw [hw w (Finset.mem_range.mp hmem)]
  rfl

/-! ## Progress -/

theorem dispatchWork_afterFlush (last : Bool) :
    dispatchWork (afterFlush last : DispatchState ι) = if last then 2 else 4 := by
  cases last <;> rfl

theorem dispatchWork_afterReceive (batch : List ι) (x : ι) :
    dispatchWork (afterReceive batch x) < dispatchWork (.loop batch) + 8 := by
  unfold afterReceive
  rcases batch with _ | ⟨y, batch⟩
  · show 11 < 12
    decide
  · dsimp only
    have hlen : (y :: batch ++ [x]).length = (y :: batch).length + 1 := by simp
    split
    · show 5 * (y :: batch ++ [x]).length + 5 < 5 * (y :: batch).length + 6 + 8
      omega
    · show 5 * (y :: batch ++ [x]).length + 6 < 5 * (y :: batch).length + 6 + 8
      omega

theorem dispatchWork_last (batch : List ι) : dispatchWork (.flush batch true) < dispatchWork (.loop batch) := by
  rcases batch with _ | ⟨y, batch⟩
  · show 3 < 4
    decide
  · show 5 * (y :: batch).length + 3 < 5 * (y :: batch).length + 6
    omega

theorem dispatchWork_flush {batch : List ι} (hne : batch ≠ []) (last : Bool) :
    dispatchWork (afterFlush last : DispatchState ι) + 3 < dispatchWork (.flush batch last) := by
  have hlen := List.length_pos_iff.mpr hne
  rw [dispatchWork_afterFlush]
  show _ < 5 * batch.length + if last then 3 else 5
  split <;> omega

theorem work_dispatch {d : DispatchState ι} (hd : p.dispatcher = d) (hw : p'.workers = p.workers)
    (hlt : 8 * p'.queue.buf.length + dispatchWork p'.dispatcher + 3 * p'.batches.buf.length <
      8 * p.queue.buf.length + dispatchWork d + 3 * p.batches.buf.length) : work cfg p' < work cfg p := by
  unfold work
  rw [hw, hd]
  exact Nat.add_lt_add_right hlt _

theorem work_goto (hw : w < cfg.workers) {x : WorkerState ι} (hx : workerWork x < workerWork (p.workers w)) :
    work cfg (p.goto w x) < work cfg p := by
  obtain ⟨rest, hsum, hgoto⟩ := sum_goto p hw workerWork
  unfold work
  rw [hgoto, hsum]
  show 8 * p.queue.buf.length + dispatchWork p.dispatcher + 3 * p.batches.buf.length + _ < _
  omega

theorem work_decreases (h : Ending cfg p) (hacc : Accounted cfg tr p) {a : PipeAct ε}
    (hs : PipeMoves cfg p (.act a) p' o) : work cfg p' < work cfg p := by
  have hno := no_panic h hacc hs
  cases hs with
  | @receive batch x q hd hq =>
    obtain ⟨hb, -, -⟩ := Chan.recv_value hq
    have hlt := dispatchWork_afterReceive batch x
    refine work_dispatch hd rfl ?_
    rw [hb, List.length_cons]
    dsimp only
    omega
  | @last batch hd _ =>
    have hlt := dispatchWork_last batch
    refine work_dispatch hd rfl ?_
    dsimp only
    omega
  | @timer x batch hd =>
    refine work_dispatch hd rfl ?_
    simp only [dispatchWork, Bool.false_eq_true, if_false]
    omega
  | @nothing last hd =>
    refine work_dispatch hd rfl ?_
    dsimp only
    rw [dispatchWork_afterFlush, dispatchWork, List.length_nil]
    split <;> omega
  | @queued batch last c hd hne hc =>
    obtain ⟨-, -, hb, -, -⟩ := Chan.trySend_sent hc
    have hlt := dispatchWork_flush hne last
    refine work_dispatch hd rfl ?_
    dsimp only
    rw [hb, List.length_append, List.length_singleton]
    omega
  | @dropped batch last hd hne _ =>
    have hlt := dispatchWork_flush hne last
    refine work_dispatch hd rfl ?_
    dsimp only
    omega
  | @closeBatches c hd hc =>
    obtain ⟨-, hb, -, -⟩ := Chan.close_some hc
    refine work_dispatch hd rfl ?_
    simp only [dispatchWork, hb]
    omega
  | dispatcherDone hd _ =>
    refine work_dispatch hd rfl ?_
    simp only [dispatchWork]
    omega
  | @take w b c hw hs hc =>
    obtain ⟨hb, -, -⟩ := Chan.recv_value hc
    obtain ⟨rest, hsum, hgoto⟩ := sum_goto p hw workerWork
    unfold work
    show 8 * p.queue.buf.length + dispatchWork p.dispatcher + 3 * c.buf.length +
      ∑ v ∈ Finset.range cfg.workers, workerWork ((p.goto w (.taken b)).workers v) < _
    rw [hgoto, hsum, hs, hb, List.length_cons]
    show _ + (4 + rest) < _ + (2 + rest)
    omega
  | finish hw hs _ => exact work_goto hw (by rw [hs]; show 1 < 2; decide)
  | @send w b hs => exact work_goto (hacc.lt (by rw [hs]; exact nofun)) (by rw [hs]; show 3 < 4; decide)
  | @sent w b err hs => exact work_goto (hacc.lt (by rw [hs]; exact nofun)) (by rw [hs]; show 2 < 3; decide)
  | @workerDone w hs _ =>
    exact work_goto (p := { p with wg := p.wg - 1 }) (hacc.lt (by rw [hs]; exact nofun)) (by rw [hs]; show 0 < 1; decide)
  | _ => exact absurd rfl hno

theorem canStep_busy (hw : p.workers w ≠ .range) (hl : ¬ Left (p.workers w)) : CanStep ε cfg p := by
  rcases hp : p.workers w with _ | b | b | _ | _
  · exact absurd hp hw
  · refine ⟨.send w, ?_⟩
    simp only [pipeStep, hp, Option.isSome_some]
  · refine ⟨.sent w none, ?_⟩
    simp only [pipeStep, hp, Option.isSome_some]
  · exact absurd (hp ▸ trivial) hl
  · exact absurd (hp ▸ trivial) hl

theorem canStep_take (hlt : w < cfg.workers) (hw : p.workers w = .range) (hr : p.batches.recv ≠ none) :
    CanStep ε cfg p := by
  refine ⟨.take w, ?_⟩
  rcases hc : p.batches.recv with _ | ⟨b, c⟩ | _
  · exact absurd hc hr
  · simp only [pipeStep, if_pos hlt, hw, hc, Option.isSome_some]
  · simp only [pipeStep, if_pos hlt, hw, hc, Option.isSome_some]

theorem canStep_workers (h : Ending cfg p)
    (hd : p.batches.buf ≠ [] ∨ ∃ w < cfg.workers, p.workers w ≠ .range ∧ ¬ Left (p.workers w)) : CanStep ε cfg p := by
  rcases hd with hb | ⟨w, -, hw, hl⟩
  · -- there is a worker, and it has not left
    have hlt := cfg.pos.2.1
    have hl : ¬ Left (p.workers 0) := fun hl => hb (h.workers 0 hlt hl).2
    by_cases hw : p.workers 0 = .range
    · exact canStep_take hlt hw fun hr => hb (Chan.recv_none hr).1
    · exact canStep_busy hw hl
  · exact canStep_busy hw hl

theorem canStep_stopped (h : Ending cfg p) (hd : p.dispatcher = .stopped) (hlt : w < cfg.workers)
    (hw : p.workers w ≠ .stopped) : CanStep ε cfg p := by
  have hclosed : p.batches.closed = true := h.batches.mpr (hd ▸ trivial)
  by_cases hr : p.workers w = .range
  · refine canStep_take hlt hr fun hn => ?_
    rw [(Chan.recv_none hn).2] at hclosed
    exact Bool.noConfusion hclosed
  · by_cases hdone : p.workers w = .done
    · refine ⟨.workerDone w, ?_⟩
      rcases hg : wgDone p.wg with _ | n <;> simp only [pipeStep, hdone, hg, Option.isSome_some]
    · refine canStep_busy hr fun hl => ?_
      rcases hp : p.workers w with _ | _ | _ | _ | _ <;> rw [hp] at hl
      · exact hl
      · exact hl
      · exact hl
      · exact hdone hp
      · exact hw hp

theorem busy_of_not_drained (hd : ¬ Drained cfg p) (hq : p.queue.buf = []) (hb : batchOf p.dispatcher = []) :
    p.batches.buf ≠ [] ∨ ∃ w < cfg.workers, p.workers w ≠ .range ∧ ¬ Left (p.workers w) := by
  by_contra hno
  obtain ⟨hbuf, hall⟩ := not_or.mp hno
  refine hd ⟨hq, hb, not_not.mp hbuf, fun w hw => ?_⟩
  by_contra hx
  refine hall ⟨w, hw, fun hr => hx (.inl hr), fun hl => hx (.inr ?_)⟩
  rcases hp : p.workers w with _ | _ | _ | _ | _ <;> rw [hp] at hl <;> first | exact hl.elim | simp

/-- As long as something is on its way, or the queue is closed and not all are gone, a goroutine can go on. -/
theorem canStep_of_not_drained (h : Ending cfg p)
    (hd : ¬ Drained cfg p ∨ (p.queue.closed = true ∧ ¬ Finished cfg p)) : CanStep ε cfg p := by
  rcases hp : p.dispatcher with batch | ⟨batch, last⟩ | _ | _ | _
  · -- at the head of its loop the dispatcher waits for an open and empty queue, without a batch
    rcases hr : p.queue.recv with _ | ⟨x, q⟩ | _
    · obtain ⟨hq, ho⟩ := Chan.recv_none hr
      have hd : ¬ Drained cfg p := hd.resolve_right fun hc => Bool.noConfusion (ho.symm.trans hc.1)
      rcases batch with _ | ⟨x, batch⟩
      · exact canStep_workers h (busy_of_not_drained hd hq (by rw [hp]; rfl))
      · exact ⟨.timer, by simp only [pipeStep, hp, Option.isSome_some]⟩
    · exact ⟨.receive, by simp only [pipeStep, hp, hr, Option.isSome_some]⟩
    · exact ⟨.receive, by simp only [pipeStep, hp, hr, Option.isSome_some]⟩
  · exact ⟨.flush, by simp only [pipeStep, hp, Option.isSome_some]⟩
  · refine ⟨.closeBatches, ?_⟩
    rcases hc : p.batches.close with _ | c <;> simp only [pipeStep, hp, hc, Option.isSome_some]
  · refine ⟨.dispatcherDone, ?_⟩
    rcases hg : wgDone p.wg with _ | n <;> simp only [pipeStep, hp, hg, Option.isSome_some]
  · by_cases hall : ∀ w < cfg.workers, p.workers w = .stopped
    · have hf : Finished cfg p := ⟨hp, hall⟩
      obtain ⟨-, hq, hb, hc, -⟩ := h.empty hf
      exact absurd hd (not_or.mpr ⟨not_not.mpr ⟨hq, hb, hc, fun w hw => .inr (.inr (hall w hw))⟩, fun hx => hx.2 hf⟩)
    · push Not at hall
      obtain ⟨w, hw, hne⟩ := hall
      exact canStep_stopped h hp hw hne

/-! ## Runs -/

structure PipeInv (cfg : Settings) (tr : PipeHistory ι ε) (p : Pipeline ι) : Prop
    extends Ordered tr p, Accounted cfg tr p, Ending cfg p

theorem pipe_inv (h : (pipeSystem cfg).Run tr p) : PipeInv cfg tr p := by
  refine h.inv ?_ fun hinv _ hs => ?_
  · have hsmall : 0 < defaultClientMaxBatch := by decide
    have hheld : held cfg (Pipeline.init cfg : Pipeline ι) = 0 := Finset.sum_eq_zero fun _ _ => rfl
    refine ⟨⟨rfl, nofun, hsmall, rfl⟩, ⟨?_, fun _ _ => rfl⟩, ending_init⟩
    show (0 : Multiset (Batch ι)) = 0 + 0 + 0 + held cfg (Pipeline.init cfg)
    rw [hheld]
    rfl
  · have hm := moves_of_pipe hs
    exact ⟨ordered_step hinv.toOrdered hm, accounted_step hinv.toAccounted hm,
      ending_step hinv.toEnding hinv.toAccounted hm⟩

theorem Ordered.nodup (h : Ordered tr p) : (formed tr).Nodup :=
  List.Nodup.of_map Batch.id (h.ids ▸ List.nodup_range)

/-- When all are gone, every admitted value is in one batch that was sent or dropped. -/
theorem PipeInv.settled (h : PipeInv cfg tr p) (hf : Finished cfg p) :
    admitted tr = (formed tr).flatMap Batch.events ∧
      (formed tr : Multiset (Batch ι)) = (handed tr : Multiset (Batch ι)) + (dropped tr : Multiset (Batch ι)) := by
  obtain ⟨-, hq, hb, hc, hheld⟩ := h.toEnding.empty hf
  have horder := h.order
  have hparts := h.parts
  rw [hq, hb, List.append_nil, List.append_nil] at horder
  unfold Parts at hparts
  rw [hc, hheld, Multiset.coe_nil, add_zero, add_zero] at hparts
  exact ⟨horder, hparts⟩

theorem log_dropped (batch : List ι) :
    (if cfg.fallbackLog then batch.flatMap (logFallback (ε := ε) cfg.fallbackLog "batch_channel_full") else []) =
      if cfg.fallbackLog then batch.map (.notDelivered "batch_channel_full") else [] := by
  cases cfg.fallbackLog
  · rfl
  · exact List.flatMap_pure_eq_map ..

end

/-! ## `Close` -/

variable {ι ε κ : Type} [DecidableEq κ] {c c' : Client ι ε κ} {k j : κ} {o : Option (ClientEvent ι ε)}

/-- What a step of `Close` can do. -/
inductive CloseMoves (c : Client ι ε κ) (k : κ) : CloseAct ε → Client ι ε κ → Option (ClientEvent ι ε) → Prop
  | waited (hk : c.closers k = .waiting) (hw : c.pipe.wg = 0) : CloseMoves c k .waited (c.goto k (.closing true)) none
  | transport {first : Bool} (hk : c.closers k = .closing first) :
    CloseMoves c k .transport (c.goto k (.inTransport first)) (some .transportClose)
  | returned {first : Bool} {err : Option ε} (hk : c.closers k = .inTransport first) :
    CloseMoves c k (.returned err) (c.goto k (.returned first err)) none

theorem moves_of_closeStep {a : CloseAct ε} (h : closeStep c k a = some (c', o)) : CloseMoves c k a c' o := by
  cases a with
  | waited =>
    simp only [closeStep] at h
    split at h <;> [skip; cases h]
    split at h <;> cases h
    exact .waited ‹_› ‹_›
  | transport =>
    simp only [closeStep] at h
    split at h <;> cases h
    exact .transport ‹_›
  | returned err =>
    simp only [closeStep] at h
    split at h <;> cases h
    exact .returned ‹_›

/-- Past `wg.Wait`; `any`: or a later call, which does not wait. -/
def Passed (any : Bool) : CloseState ε → Prop
  | .closing first => any = true ∨ first = true
  | .inTransport first => any = true ∨ first = true
  | .returned first _ => any = true ∨ first = true
  | _ => False

theorem goto_all {P : CloseState ε → Prop} {R : Prop} (h : ∀ j, P (c.closers j) → R) {x : CloseState ε} (hx : P x → R) :
    ∀ j, P ((c.goto k x).closers j) → R := by
  intro j hj
  by_cases hjk : j = k
  · subst hjk
    rw [show (c.goto j x).closers j = x from Function.update_self ..] at hj
    exact hx hj
  · rw [show (c.goto k x).closers j = c.closers j from Function.update_of_ne hjk ..] at hj
    exact h j hj

end Csar.Proof.Delivery
