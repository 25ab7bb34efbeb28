import CsarCore.Spec.AMQPConfirm.Await

/-!
# A confirmed publish

`AwaitMoves` is what a step can do (`moves_of_await`). Until `Await` returns, a return
that has arrived is in the channel it listens on (`Pending`), so the inner `select`
sees it. `await_sound` is the result for whole runs.
-/

namespace Csar.Proof.AMQPConfirm

open Impl.AMQPConfirm Spec.AMQPConfirm

variable {ε : Type} {action : String} {s s' : Await ε} {tr : AwaitHistory ε} {a : AwaitAct ε} {o : AwaitEvent}

/-! ## Steps -/

inductive AwaitMoves (s : Await ε) : AwaitAct ε → Await ε → AwaitEvent → Prop
  | returned {tag : UInt64} {r : Return} {c c' : Chan Return} (hc : s.returns = some c) (hopen : c.closed = false)
      (hbuf : c'.buf = c.buf ++ [r]) : AwaitMoves s (.returned tag r) { s with returns := some c' } .arrived
  | confirmed {x : Confirmation} {c c' : Chan Confirmation} (hc : s.confirms = some c)
      (hbuf : c'.buf = c.buf ++ [x]) : AwaitMoves s (.confirmed x) { s with confirms := some c' } .arrived
  | closeReturns {c c' : Chan Return} (hc : s.returns = some c) (hopen : c.closed = false) (hbuf : c'.buf = c.buf) :
    AwaitMoves s .closeReturns { s with returns := some c' } .arrived
  | closeConfirms {c c' : Chan Confirmation} (hc : s.confirms = some c) (hbuf : c'.buf = c.buf) :
    AwaitMoves s .closeConfirms { s with confirms := some c' } .arrived
  | cancel {err : ε} : AwaitMoves s (.cancel err) { s with done := some err } .arrived
  | again {c : Chan Return} (hp : s.point = .selecting) (hc : s.listened = some c) (hbuf : c.buf = [])
      (hclosed : c.closed = true) : AwaitMoves s (.select .returns) { s with listening := false } .again
  | failed {a : AwaitAct ε} {o : AwaitEvent} {s' : Await ε} {err : AwaitError ε}
      (hp : s'.point = .finished (.error err)) : AwaitMoves s a s' o
  | acked {x : Confirmation} {c c' : Chan Confirmation} (hp : s.point = .selecting) (hc : s.confirms = some c)
      (hx : x ∈ c.buf) (hack : x.ack = true) :
    AwaitMoves s (.select .confirms) { s with confirms := some c', point := .draining } (.received x)
  | drained (hp : s.point = .draining) (hempty : ∀ c, s.listened = some c → c.buf = []) :
    AwaitMoves s .drain (s.finish (.ok ())) .finished

theorem deliver_some {α : Type} {c : Option (Chan α)} {c' : Chan α} {x : α} (h : deliver c x = some c') :
    ∃ c₀, c = some c₀ ∧ c₀.closed = false ∧ c'.buf = c₀.buf ++ [x] := by
  rcases c with _ | c
  · cases h
  · rw [deliver] at h
    split at h <;> cases h
    obtain ⟨hopen, -, hbuf, -⟩ := Chan.trySend_sent ‹_›
    exact ⟨c, rfl, hopen, hbuf⟩

theorem close_bind_some {α : Type} {c : Option (Chan α)} {c' : Chan α} (h : c.bind Chan.close = some c') :
    ∃ c₀, c = some c₀ ∧ c₀.closed = false ∧ c'.buf = c₀.buf := by
  rcases c with _ | c
  · cases h
  · obtain ⟨hopen, hbuf, -⟩ := Chan.close_some h
    exact ⟨c, rfl, hopen, hbuf⟩

theorem moves_of_select {i : SelectCase} (hp : s.point = .selecting) (h : select action s i = some (s', o)) :
    AwaitMoves s (.select i) s' o := by
  cases i with
  | returns =>
    rw [select] at h
    split at h <;> cases h
    · rename_i hr
      rcases hc : s.listened with _ | c
      · rw [hc] at hr; cases hr
      · rw [hc] at hr
        obtain ⟨hbuf, hclosed⟩ := Chan.recv_closed hr
        exact .again hp hc hbuf hclosed
    · exact .failed rfl
  | confirms =>
    rw [select] at h
    split at h
    · cases h
    · cases h
      exact .failed rfl
    · rename_i x c' hr
      split at h <;> cases h
      · exact .failed rfl
      · rename_i hack
        rcases hc : s.confirms with _ | c
        · rw [hc] at hr; cases hr
        · rw [hc] at hr
          obtain ⟨hbuf, -⟩ := Chan.recv_value hr
          exact .acked hp hc (hbuf ▸ List.mem_cons_self) (by simpa using hack)
  | done =>
    rw [select] at h
    split at h <;> cases h
    exact .failed rfl

theorem moves_of_drain (hp : s.point = .draining) : AwaitMoves s .drain (drain action s) .finished := by
  unfold drain
  split
  · exact .failed rfl
  · rename_i hr
    refine .drained hp fun c hc => ?_
    rw [hc] at hr
    exact (Chan.recv_closed hr).1
  · rename_i hr
    refine .drained hp fun c hc => ?_
    rw [hc] at hr
    exact (Chan.recv_none hr).1

theorem moves_of_await (h : awaitStep action s a = some (s', o)) : AwaitMoves s a s' o := by
  cases a with
  | returned tag r =>
    rw [awaitStep] at h
    split at h <;> cases h
    obtain ⟨c, hc, hopen, hbuf⟩ := deliver_some ‹_›
    exact .returned hc hopen hbuf
  | confirmed x =>
    rw [awaitStep] at h
    split at h <;> cases h
    obtain ⟨c, hc, -, hbuf⟩ := deliver_some ‹_›
    exact .confirmed hc hbuf
  | closeReturns =>
    rw [awaitStep] at h
    split at h <;> cases h
    obtain ⟨c, hc, hopen, hbuf⟩ := close_bind_some ‹_›
    exact .closeReturns hc hopen hbuf
  | closeConfirms =>
    rw [awaitStep] at h
    split at h <;> cases h
    obtain ⟨c, hc, -, hbuf⟩ := close_bind_some ‹_›
    exact .closeConfirms hc hbuf
  | cancel err =>
    rw [awaitStep] at h
    split at h <;> cases h
    exact .cancel
  | select i =>
    rw [awaitStep] at h
    split at h <;> [skip; cases h]
    exact moves_of_select ‹_› h
  | drain =>
    rw [awaitStep] at h
    split at h <;> cases h
    exact moves_of_drain ‹_›

/-! ## Returns -/

/-- A return that has arrived waits in the channel that `Await` listens on, which it leaves only when it
is closed. -/
structure Pending (tr : AwaitHistory ε) (s : Await ε) : Prop where
  buffered : NoReturn tr ∨ ∃ c, s.listened = some c ∧ c.buf ≠ []
  closed : s.listening = false → ∃ c, s.returns = some c ∧ c.closed = true

theorem noReturn_cons (h : NoReturn tr) (ha : ∀ tag r, a ≠ .returned tag r) : NoReturn ((a, o) :: tr) := by
  intro tag r p hmem
  rcases List.mem_cons.mp hmem with heq | hmem
  · exact ha tag r (Prod.mk.inj heq).1.symm
  · exact h tag r p hmem

theorem Pending.frame (h : Pending tr s) (ha : ∀ tag r, a ≠ .returned tag r) (hret : s'.returns = s.returns)
    (hlist : s'.listening = s.listening) : Pending ((a, o) :: tr) s' := by
  have hl : s'.listened = s.listened := by unfold Await.listened; rw [hret, hlist]
  refine ⟨?_, by rw [hret, hlist]; exact h.closed⟩
  rw [hl]
  exact h.buffered.imp_left fun hno => noReturn_cons hno ha

theorem listened_of_open (h : Pending tr s) {c : Chan Return} (hc : s.returns = some c) (hopen : c.closed = false) :
    s.listening = true := by
  by_contra hl
  obtain ⟨c', hc', hclosed⟩ := h.closed (by simpa using hl)
  rw [hc] at hc'
  cases hc'
  rw [hopen] at hclosed
  cases hclosed

theorem listened_some {c : Chan Return} (h : s.listened = some c) : s.listening = true ∧ s.returns = some c := by
  unfold Await.listened at h
  split at h
  · exact ⟨‹_›, h⟩
  · cases h

/-- As long as `Await` goes on, a return is in the channel. -/
theorem pending_step (h : Pending tr s) (hm : AwaitMoves s a s' o) :
    (∃ result, s'.point = .finished result) ∨ Pending ((a, o) :: tr) s' := by
  cases hm with
  | @returned tag r c c' hc hopen hbuf =>
    have hl := listened_of_open h hc hopen
    refine .inr ⟨.inr ⟨c', ?_, by simp [hbuf]⟩, fun hl' => ?_⟩
    · show (if s.listening then some c' else none) = some c'
      rw [if_pos hl]
    · rw [hl] at hl'
      cases hl'
  | confirmed hc hbuf | closeConfirms hc hbuf | cancel
  | acked hp hc hx hack => exact .inr (h.frame nofun rfl rfl)
  | @closeReturns c c' hc hopen hbuf =>
    have hl := listened_of_open h hc hopen
    refine .inr ⟨?_, fun hl' => ?_⟩
    · refine h.buffered.imp (fun hno => noReturn_cons hno nofun) ?_
      rintro ⟨d, hd, hne⟩
      obtain ⟨-, hd⟩ := listened_some hd
      rw [hc] at hd
      cases hd
      refine ⟨c', ?_, by rwa [hbuf]⟩
      show (if s.listening then some c' else none) = some c'
      rw [if_pos hl]
    · rw [hl] at hl'
      cases hl'
  | @again c hp hc hbuf hclosed =>
    have hno : NoReturn tr := by
      refine h.buffered.resolve_right ?_
      rintro ⟨d, hd, hne⟩
      rw [hc] at hd
      cases hd
      exact hne hbuf
    exact .inr ⟨.inl (noReturn_cons hno nofun), fun _ => ⟨c, (listened_some hc).2, hclosed⟩⟩
  | failed hp => exact .inl ⟨_, hp⟩
  | drained hp hempty => exact .inl ⟨_, rfl⟩

/-! ## Confirmations -/

/-- A positive confirmation has arrived and been received. -/
structure Acked (c : Confirmation) (tr : AwaitHistory ε) : Prop where
  ack : c.ack = true
  received : ∃ a, (a, AwaitEvent.received c) ∈ tr
  arrived : ∃ o, (AwaitAct.confirmed c, o) ∈ tr

theorem Acked.cons {c : Confirmation} (h : Acked c tr) : Acked c ((a, o) :: tr) :=
  ⟨h.ack, h.received.imp fun _ => List.mem_cons_of_mem _, h.arrived.imp fun _ => List.mem_cons_of_mem _⟩

def Arrived (tr : AwaitHistory ε) (s : Await ε) : Prop :=
  ∀ ch, s.confirms = some ch → ∀ c ∈ ch.buf, ∃ o, (AwaitAct.confirmed c, o) ∈ tr

theorem Arrived.frame (h : Arrived tr s) (hc : s'.confirms = s.confirms) : Arrived ((a, o) :: tr) s' := by
  intro ch hch c hmem
  exact (h ch (hc ▸ hch) c hmem).imp fun _ => List.mem_cons_of_mem _

theorem arrived_step (h : Arrived tr s) (hp' : s'.point = .selecting) (hm : AwaitMoves s a s' o) :
    Arrived ((a, o) :: tr) s' := by
  cases hm with
  | returned hc hopen hbuf | closeReturns hc hopen hbuf | cancel
  | again hp hc hbuf hclosed => exact h.frame rfl
  | @confirmed x ch ch' hc hbuf =>
    rintro _ ⟨⟩ c hmem
    rw [hbuf, List.mem_append, List.mem_singleton] at hmem
    rcases hmem with hmem | rfl
    · exact (h ch hc c hmem).imp fun _ => List.mem_cons_of_mem _
    · exact ⟨_, List.mem_cons_self⟩
  | @closeConfirms ch ch' hc hbuf =>
    rintro _ ⟨⟩ c hmem
    rw [hbuf] at hmem
    exact (h ch hc c hmem).imp fun _ => List.mem_cons_of_mem _
  | failed hp => rw [hp] at hp'; cases hp'
  | acked hp hc hx hack => cases hp'
  | drained hp hempty => cases hp'

/-! ## Whole runs -/

structure Inv (tr : AwaitHistory ε) (s : Await ε) : Prop where
  pending : (∃ result, s.point = .finished result) ∨ Pending tr s
  selecting : s.point = .selecting → Arrived tr s ∧ ∀ a c, (a, AwaitEvent.received c) ∉ tr
  draining : s.point = .draining → ∃ c, Acked c tr
  finished : s.point = .finished (.ok ()) →
    ∃ c, Acked c tr ∧ (∀ r o, (AwaitAct.returned c.deliveryTag r, o) ∉ tr) ∧
      ∃ post pre, tr = post ++ (.drain, .finished) :: pre ∧ NoReturn pre

theorem Inv.stay (h : Inv tr s) (hf : ReturnFirst tr s a) (hm : AwaitMoves s a s' o) (hp : s'.point = s.point)
    (ho : ∀ c, o ≠ .received c) : Inv ((a, o) :: tr) s' := by
  refine ⟨?_, fun hp' => ?_, fun hp' => ?_, fun hp' => ?_⟩
  · rcases h.pending with hfin | hpend
    · rw [hp]
      exact .inl hfin
    · exact pending_step hpend hm
  · obtain ⟨harr, hno⟩ := h.selecting (hp ▸ hp')
    refine ⟨arrived_step harr hp' hm, fun b c hmem => ?_⟩
    rcases List.mem_cons.mp hmem with heq | hmem
    · exact ho c (Prod.mk.inj heq).2.symm
    · exact hno b c hmem
  · exact (h.draining (hp ▸ hp')).imp fun c hc => hc.cons
  · obtain ⟨c, hc, hno, post, pre, rfl, hpre⟩ := h.finished (hp ▸ hp')
    refine ⟨c, hc.cons, fun r p hmem => ?_, (a, o) :: post, pre, rfl, hpre⟩
    rcases List.mem_cons.mp hmem with heq | hmem
    · obtain ⟨o', harr⟩ := hc.arrived
      exact hf _ r (Prod.mk.inj heq).1.symm c o' harr rfl
    · exact hno r p hmem

theorem inv_step (h : Inv tr s) (hf : ReturnFirst tr s a) (hm : AwaitMoves s a s' o) : Inv ((a, o) :: tr) s' := by
  cases hm with
  | returned hc hopen hbuf => exact h.stay hf (.returned hc hopen hbuf) rfl nofun
  | confirmed hc hbuf => exact h.stay hf (.confirmed hc hbuf) rfl nofun
  | closeReturns hc hopen hbuf => exact h.stay hf (.closeReturns hc hopen hbuf) rfl nofun
  | closeConfirms hc hbuf => exact h.stay hf (.closeConfirms hc hbuf) rfl nofun
  | cancel => exact h.stay hf .cancel rfl nofun
  | again hp hc hbuf hclosed => exact h.stay hf (.again hp hc hbuf hclosed) rfl nofun
  | failed hp =>
    refine ⟨.inl ⟨_, hp⟩, ?_, ?_, ?_⟩ <;>
      · intro hp'
        rw [hp] at hp'
        cases hp'
  | @acked x ch ch' hp hc hx hack =>
    obtain ⟨harr, -⟩ := h.selecting hp
    have hpend : Pending tr s := by
      refine h.pending.resolve_left ?_
      rintro ⟨result, hp'⟩
      rw [hp] at hp'
      cases hp'
    have hx' : Acked x ((AwaitAct.select .confirms, .received x) :: tr : AwaitHistory ε) :=
      ⟨hack, ⟨_, List.mem_cons_self⟩, (harr ch hc x hx).imp fun _ => List.mem_cons_of_mem _⟩
    exact ⟨.inr (hpend.frame nofun rfl rfl), nofun, fun _ => ⟨x, hx'⟩, nofun⟩
  | drained hp hempty =>
    have hno : NoReturn tr := by
      have hpend : Pending tr s := by
        refine h.pending.resolve_left ?_
        rintro ⟨result, hp'⟩
        rw [hp] at hp'
        cases hp'
      refine hpend.buffered.resolve_right ?_
      rintro ⟨c, hc, hne⟩
      exact hne (hempty c hc)
    obtain ⟨c, hc⟩ := h.draining hp
    have hno' : NoReturn ((.drain, .finished) :: tr) := noReturn_cons hno fun _ _ => nofun
    exact ⟨.inl ⟨_, rfl⟩, nofun, nofun, fun _ => ⟨c, hc.cons, hno' c.deliveryTag, [], tr, rfl, hno⟩⟩

theorem inv_run {confirms returns : Option Nat} (h : (awaitSystem ε action confirms returns).RunIf ReturnFirst tr s) :
    Inv tr s := by
  refine System.RunIf.inv ?_ (fun hi hf hs => inv_step hi hf (moves_of_await hs)) h
  refine ⟨.inr ⟨.inl fun _ _ _ => List.not_mem_nil, nofun⟩, fun _ => ⟨?_, fun _ _ => List.not_mem_nil⟩, nofun, nofun⟩
  rintro ch hch c hmem
  rcases confirms with _ | n
  · cases hch
  · cases hch
    cases hmem

theorem settled_of_point (h : s.point ≠ .selecting) : Settled action s := by
  cases hp : s.point with
  | selecting => exact absurd hp h
  | finished result => exact .inl ⟨result, hp⟩
  | draining =>
    have hfin : ∃ result, (drain action s).point = .finished result := by
      unfold drain
      split <;> exact ⟨_, rfl⟩
    obtain ⟨result, hfin⟩ := hfin
    exact .inr ⟨drain action s, result, by rw [awaitStep, hp], hfin⟩

/-- Whatever arrives, if a message is returned before it is confirmed, and whichever ready case a
`select` takes: a `nil` of `Await` means that a positive confirmation was received and nothing was
returned, and after a confirmation `Await` waits for nothing. -/
theorem await_sound {confirms returns : Option Nat}
    (h : (awaitSystem ε action confirms returns).RunIf ReturnFirst tr s) :
    (s.point = .finished (.ok ()) → Confirmed tr) ∧
      ∀ a c, (a, AwaitEvent.received c) ∈ tr → Settled action s := by
  have hi := inv_run h
  refine ⟨fun hp => ?_, fun a c hmem => settled_of_point fun hp => (hi.selecting hp).2 a c hmem⟩
  obtain ⟨c, hc, hno, hpre⟩ := hi.finished hp
  exact ⟨c, hc.ack, hc.received, hno, hpre⟩

theorem await_sound_ack :
    ∃ tr s, (awaitSystem Unit "publish" (some 1) (some 1)).RunIf ReturnFirst tr s ∧ s.point = .finished (.ok ()) ∧
      Confirmed tr ∧ Settled "publish" s := by
  let acts : List (AwaitAct Unit) := [.confirmed ⟨7, true⟩, .closeReturns, .select .returns, .select .confirms, .drain]
  have hcond : ∀ a ∈ acts, ∀ tr s, ReturnFirst tr s a := by
    intro a ha tr s tag r heq
    subst heq
    simp [acts] at ha
  obtain ⟨tr, s, h, hp, hmem⟩ : ∃ tr s, (awaitSystem Unit "publish" (some 1) (some 1)).RunIf ReturnFirst tr s ∧
      s.point = .finished (.ok ()) ∧ (.select .confirms, .received ⟨7, true⟩) ∈ tr :=
    ⟨_, _, System.RunIf.init.execFrom acts hcond rfl, rfl, .tail _ (.head _)⟩
  exact ⟨tr, s, h, hp, (await_sound h).1 hp, (await_sound h).2 _ _ hmem⟩

end Csar.Proof.AMQPConfirm
