import CsarCore.Proof.Delivery

/-!
# The notification client

`NotifyMoves` is what a step can do (`moves_of_notify`). The flag is set before the
channel is closed, but a call of `Record` may have looked at it before. If none has,
nothing panics (`notify_no_panic`); otherwise its send does (`notify_send_panics`).
-/

namespace Csar.Proof.Notify

open Impl.Delivery Impl.Notify Spec.Delivery Spec.Notify Proof.Delivery

variable {ι ε κ ρ : Type} [DecidableEq κ] [DecidableEq ρ] {cfg : Settings}

/-! ## Steps -/

inductive NotifyMoves (cfg : Settings) (c : NotifyClient ι ε κ ρ) :
    NotifyAct ι ε κ ρ → NotifyClient ι ε κ ρ → Option (ClientEvent ι ε) → Prop
  | absent {r : ρ} : NotifyMoves cfg c (.record r none) c none
  | refused {r : ρ} {x : ι} (hr : c.records r = none) (hc : c.closed = true) :
    NotifyMoves cfg c (.record r (some x)) c (some (.refused x (logFallback cfg.fallbackLog "client_closed" x)))
  | record {r : ρ} {x : ι} (hr : c.records r = none) (hc : c.closed = false) :
    NotifyMoves cfg c (.record r (some x)) { c with records := Function.update c.records r (some x) } none
  | send {r : ρ} {x : ι} {p : Pipeline ι} {o : Option (PipeEvent ι ε)} (hr : c.records r = some x)
    (hs : (pipeSystem cfg).step c.pipe (.push x) = some (p, o)) :
    NotifyMoves cfg c (.send r) { c with pipe := p, records := Function.update c.records r none } (o.map .pipe)
  | again {k : κ} (hk : c.closers k = .idle) (hc : c.closed = true) :
    NotifyMoves cfg c (.close k) { c with toClient := c.goto k (.closing false) } (some (.locked false))
  | close {k : κ} (hk : c.closers k = .idle) (hc : c.closed = false) :
    NotifyMoves cfg c (.close k) { c with toClient := { c.goto k .unlocked with closed := true } } (some (.locked true))
  | closeQueue {k : κ} {p : Pipeline ι} {o : Option (PipeEvent ι ε)} (hk : c.closers k = .unlocked)
    (hs : (pipeSystem cfg).step c.pipe .closeQueue = some (p, o)) :
    NotifyMoves cfg c (.closeQueue k) { c with toClient := { c.goto k .waiting with pipe := p } } (o.map .pipe)
  | closer {k : κ} {a : CloseAct ε} {d : Client ι ε κ} {o : Option (ClientEvent ι ε)}
    (hs : CloseMoves c.toClient k a d o) : NotifyMoves cfg c (.closer k a) { c with toClient := d } o
  | act {a : PipeAct ε} {p : Pipeline ι} {o : Option (PipeEvent ι ε)}
    (hs : (pipeSystem cfg).step c.pipe (.act a) = some (p, o)) :
    NotifyMoves cfg c (.act a) { c with pipe := p } (o.map .pipe)

theorem moves_of_notify {c c' : NotifyClient ι ε κ ρ} {a : NotifyAct ι ε κ ρ} {o : Option (ClientEvent ι ε)}
    (h : (notifySystem cfg).step c a = some (c', o)) : NotifyMoves cfg c a c' o := by
  cases a with
  | record r notification =>
    rcases notification with _ | x
    · cases h
      exact .absent
    · simp only [notifySystem, record] at h
      split at h <;> [skip; cases h]
      split at h <;> cases h
      · exact .refused ‹_› ‹_›
      · exact .record ‹_› (by simpa using ‹¬ c.closed = true›)
  | send r =>
    simp only [notifySystem, send] at h
    split at h <;> cases h
    exact .send ‹_› rfl
  | close k =>
    simp only [notifySystem, close] at h
    split at h <;> [skip; cases h]
    split at h <;> cases h
    · exact .again ‹_› ‹_›
    · exact .close ‹_› (by simpa using ‹¬ c.closed = true›)
  | closeQueue k =>
    simp only [notifySystem, closeQueue] at h
    split at h <;> cases h
    exact .closeQueue ‹_› rfl
  | closer k a =>
    obtain ⟨⟨d, o⟩, hd, hx⟩ := Option.map_eq_some_iff.mp h
    cases hx
    exact .closer (moves_of_closeStep hd)
  | act a =>
    obtain ⟨⟨p, o⟩, hp, hx⟩ := Option.map_eq_some_iff.mp h
    cases hx
    exact .act hp

/-! ## Closing -/

/-- At most one call of `Close` has the channel to close, and once it is closed nobody has looked at an
open flag. -/
structure Quiet (c : NotifyClient ι ε κ ρ) : Prop where
  flag : c.pipe.queue.closed = true → c.closed = true
  unlocked : ∀ k, c.closers k = .unlocked → c.closed = true ∧ c.pipe.queue.closed = false
  one : ∀ j k, c.closers j = .unlocked → c.closers k = .unlocked → j = k
  records : c.pipe.queue.closed = true → ∀ r, c.records r = none

section Closing

variable {C : NotifyHistory ι ε κ ρ → NotifyClient ι ε κ ρ → NotifyAct ι ε κ ρ → Prop} {tr : NotifyHistory ι ε κ ρ}
  {c c' : NotifyClient ι ε κ ρ} {a : NotifyAct ι ε κ ρ} {o : Option (ClientEvent ι ε)} {j k : κ} {x : CloseState ε}

theorem unlocked_goto {d : Client ι ε κ} (h : (d.goto k x).closers j = .unlocked) (hx : x ≠ .unlocked) :
    j ≠ k ∧ d.closers j = .unlocked := by
  by_cases hjk : j = k
  · subst hjk
    rw [show (d.goto j x).closers j = x from Function.update_self ..] at h
    exact absurd h hx
  · rw [show (d.goto k x).closers j = d.closers j from Function.update_of_ne hjk ..] at h
    exact ⟨hjk, h⟩

omit [DecidableEq κ] [DecidableEq ρ] in
theorem Quiet.keep (h : Quiet c) (hflag : c'.closed = c.closed) (hq : c'.pipe.queue.closed = c.pipe.queue.closed)
    (hk : ∀ k, c'.closers k = .unlocked → c.closers k = .unlocked)
    (hr : c.pipe.queue.closed = true → ∀ r, c'.records r = none) : Quiet c' where
  flag hc := by
    rw [hq] at hc
    rw [hflag]
    exact h.flag hc
  unlocked k hu := by
    rw [hq, hflag]
    exact h.unlocked k (hk k hu)
  one i j hi hj := h.one i j (hk i hi) (hk j hj)
  records hc := hr (hq ▸ hc)

theorem quiet_step (h : Quiet c) (hc : ClosesQuietly tr c a) (hs : NotifyMoves cfg c a c' o) : Quiet c' := by
  cases hs with
  | absent => exact h
  | refused => exact h
  | record hr ho =>
    -- the flag is not set, so the channel is open
    refine h.keep rfl rfl (fun _ hu => hu) fun hcl => ?_
    rw [h.flag hcl] at ho
    exact Bool.noConfusion ho
  | @send r x p o hr hp =>
    refine h.keep rfl (queue_closed_step (moves_of_pipe hp) nofun) (fun _ hu => hu) fun hcl => ?_
    rw [h.records hcl r] at hr
    cases hr
  | again => exact h.keep rfl rfl (fun _ hu => (unlocked_goto hu nofun).2) h.records
  | @close k hk ho =>
    -- no call had set the flag before
    have hno : ∀ j, c.closers j ≠ .unlocked := fun j hj => Bool.noConfusion (ho.symm.trans (h.unlocked j hj).1)
    have hopen : c.pipe.queue.closed = false := by
      by_contra hcl
      exact Bool.noConfusion (ho.symm.trans (h.flag (by simpa using hcl)))
    have hself : ∀ j, (c.goto k .unlocked).closers j = .unlocked → j = k := by
      intro j hj
      by_contra hjk
      rw [show (c.goto k .unlocked).closers j = c.closers j from Function.update_of_ne hjk ..] at hj
      exact hno j hj
    exact ⟨fun _ => rfl, fun _ _ => ⟨rfl, hopen⟩, fun i j hi hj => (hself i hi).trans (hself j hj).symm, h.records⟩
  | @closeQueue k p o hk hp =>
    -- the call that closes the channel was the only one to
    have hno : ∀ j, (c.goto k .waiting).closers j ≠ .unlocked := by
      intro j hj
      obtain ⟨hjk, hu⟩ := unlocked_goto hj nofun
      exact hjk (h.one j k hu hk)
    exact ⟨fun _ => (h.unlocked k hk).1, fun j hj => absurd hj (hno j), fun i _ hi => absurd hi (hno i),
      fun _ => hc k rfl⟩
  | closer hp =>
    cases hp with
    | waited | transport
    | returned => exact h.keep rfl rfl (fun _ hu => (unlocked_goto hu nofun).2) h.records
  | act hp => exact h.keep rfl (queue_closed_step (moves_of_pipe hp) nofun) (fun _ hu => hu) h.records

theorem quiet_init : Quiet (notifySystem cfg : System (NotifyClient ι ε κ ρ) _ _).init := by
  refine ⟨fun hc => ?_, fun k hk => ?_, fun i _ hi => ?_, fun _ _ => rfl⟩
  · exact absurd hc Bool.false_ne_true
  · cases hk
  · cases hi

theorem quiet_run (h : (notifySystem cfg).RunIf ClosesQuietly tr c) : Quiet c :=
  h.inv (I := fun _ c => Quiet c) quiet_init fun ih hc hs => quiet_step ih hc (moves_of_notify hs)

theorem pipe_reached (h : (notifySystem cfg).RunIf C tr c) :
    ∃ H : PipeHistory ι ε, (pipeSystem cfg).Run H c.pipe := by
  refine h.inv (I := fun _ c => ∃ H : PipeHistory ι ε, (pipeSystem cfg).Run H c.pipe) ⟨[], .init⟩ ?_
  intro tr c a c' o ⟨H, hH⟩ _ hs
  cases moves_of_notify hs with
  | send _ hp | closeQueue _ hp | act hp => exact ⟨_, hH.step hp⟩
  | closer hp => cases hp <;> exact ⟨H, hH⟩
  | _ => exact ⟨H, hH⟩

theorem step_no_panic (h : (notifySystem cfg).RunIf ClosesQuietly tr c)
    (hs : (notifySystem cfg).step c a = some (c', o)) : o ≠ some (.pipe .panicked) := by
  have hquiet := quiet_run h
  obtain ⟨H, hH⟩ := pipe_reached h
  have hinv := pipe_inv hH
  intro ho
  cases moves_of_notify hs with
  | send hr hp =>
    obtain ⟨e, rfl, hx⟩ := Option.map_eq_some_iff.mp ho
    cases hx
    cases moves_of_pipe hp with
    | pushPanic hq =>
      rw [hquiet.records hq] at hr
      cases hr
  | closeQueue hk hp =>
    obtain ⟨e, rfl, hx⟩ := Option.map_eq_some_iff.mp ho
    cases hx
    cases moves_of_pipe hp with
    | closePanic hq => exact Bool.noConfusion ((hquiet.unlocked _ hk).2.symm.trans hq)
  | closer hp => cases hp <;> cases ho
  | act hp =>
    obtain ⟨e, rfl, hx⟩ := Option.map_eq_some_iff.mp ho
    cases hx
    exact no_panic hinv.toEnding hinv.toAccounted (moves_of_pipe hp) rfl
  | _ => cases ho

/-- Nothing panics, and a `Record` that finds the client closed only logs, if no call that found it open
has its send to make when the channel is closed. -/
theorem notify_no_panic (h : (notifySystem cfg).RunIf ClosesQuietly tr c) :
    (∀ e ∈ tr, e.2 ≠ some (.pipe .panicked)) ∧
    ∀ {post pre : NotifyHistory ι ε κ ρ} {r : ρ} {x : ι} {o : Option (ClientEvent ι ε)},
      tr = post ++ (.record r (some x), o) :: pre →
      ∃ c₀ c₁, (notifySystem cfg).RunIf ClosesQuietly pre c₀ ∧
        (notifySystem cfg).step c₀ (.record r (some x)) = some (c₁, o) ∧
        (c₀.closed = true → c₁ = c₀ ∧
          o = some (.refused x (if cfg.fallbackLog then [.notDelivered "client_closed" x] else []))) := by
  constructor
  · intro e he
    obtain ⟨post, pre, rfl⟩ := List.append_of_mem he
    obtain ⟨c₀, c₁, h₀, -, hs⟩ := h.split rfl
    exact step_no_panic h₀ hs
  · intro post pre r x o htr
    obtain ⟨c₀, c₁, h₀, -, hs⟩ := h.split htr
    refine ⟨c₀, c₁, h₀, hs, fun hcl => ?_⟩
    cases moves_of_notify hs with
    | refused => exact ⟨rfl, rfl⟩
    | record _ ho => exact Bool.noConfusion (ho.symm.trans hcl)

theorem notify_no_panic_refused :
    let cfg : Settings := ⟨2, 1, 1, 4, true, by decide⟩
    ∃ (tr : NotifyHistory Nat Empty Unit Unit) (c : NotifyClient Nat Empty Unit Unit),
      (notifySystem cfg).RunIf ClosesQuietly tr c ∧ c.pipe.queue.buf = [7] ∧
        (.record () (some 8), some (.refused 8 [.notDelivered "client_closed" 8])) ∈ tr ∧
        ∀ e ∈ tr, e.2 ≠ some (.pipe .panicked) := by
  intro cfg
  have h₁ := System.RunIf.init.execFrom (M := notifySystem cfg) (C := ClosesQuietly)
    [(.record () (some 7) : NotifyAct Nat Empty Unit Unit), .send (), .close ()] (by simp [ClosesQuietly]) rfl
  have h₂ := (h₁.step (a := .closeQueue ()) (fun _ _ _ => rfl) rfl).execFrom
    [.record () (some 8)] (by simp [ClosesQuietly]) rfl
  exact ⟨_, _, h₂, rfl, List.mem_cons_self, (notify_no_panic h₂).1⟩

/-- `Record` finds the client open, `Close` closes the channel, and the send of
`Record` panics. -/
theorem notify_send_panics :
    let cfg : Settings := ⟨2, 1, 1, 4, true, by decide⟩
    ∃ (tr : NotifyHistory Nat Empty Unit Unit) (c : NotifyClient Nat Empty Unit Unit),
      (notifySystem cfg).Run ((.send (), some (.pipe .panicked)) :: tr) c := by
  intro cfg
  have h := System.run_of_exec (notifySystem cfg)
    [(.record () (some 7) : NotifyAct Nat Empty Unit Unit), .close (), .closeQueue (), .send ()] rfl
  exact ⟨_, _, h⟩

end Closing

end Csar.Proof.Notify
