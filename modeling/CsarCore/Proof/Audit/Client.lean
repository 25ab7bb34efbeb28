import CsarCore.Proof.Delivery
import CsarCore.Spec.Audit.Client

/-!
# The audit client

`ClientMoves` is what a step can do (`moves_of_client`). A client's runs are runs of its
pipeline (`pipe_run`): `client_accounting`. The first `Close` returns when all
goroutines are gone, with every event sent if no batch was dropped (`close_flushes`); a
later one does not wait, so the transport may be closed too early (`close_after_send`).
-/

namespace Csar.Proof.Audit

open Impl.Delivery Impl.Audit Spec.Delivery Spec.Audit Proof.Delivery

variable {ι ε κ : Type} [DecidableEq κ] {cfg : Settings}

/-! ## Steps -/

inductive ClientMoves (cfg : Settings) (c : Client ι ε κ) :
    ClientAct ι ε κ → Client ι ε κ → Option (ClientEvent ι ε) → Prop
  | absent : ClientMoves cfg c (.record none) c none
  | rejected {err : ε} : ClientMoves cfg c (.record (some (.error err))) c (some (.rejected [.rejected err]))
  | refused {x : ι} (hc : c.closed = true) :
    ClientMoves cfg c (.record (some (.ok x))) c (some (.refused x (logFallback cfg.fallbackLog "client_closed" x)))
  | record {x : ι} {p : Pipeline ι} {e : PipeEvent ι ε} (hc : c.closed = false)
    (hs : (pipeSystem cfg).step c.pipe (.push x) = some (p, some e)) :
    ClientMoves cfg c (.record (some (.ok x))) { c with pipe := p } (some (.pipe e))
  | again {k : κ} (hk : c.closers k = .idle) (hc : c.closed = true) :
    ClientMoves cfg c (.close k) (c.goto k (.closing false)) (some (.locked false))
  | close {k : κ} {p : Pipeline ι} (hk : c.closers k = .idle) (hc : c.closed = false)
    (hs : (pipeSystem (ε := ε) cfg).step c.pipe .closeQueue = some (p, none)) :
    ClientMoves cfg c (.close k) ({ c with pipe := p, closed := true }.goto k .waiting) (some (.locked true))
  | closePanic {k : κ} {p : Pipeline ι} {e : PipeEvent ι ε} (hk : c.closers k = .idle) (hc : c.closed = false)
    (hs : (pipeSystem cfg).step c.pipe .closeQueue = some (p, some e)) :
    ClientMoves cfg c (.close k) { c with pipe := p, closed := true } (some (.pipe e))
  | closer {k : κ} {a : CloseAct ε} {c' : Client ι ε κ} {o : Option (ClientEvent ι ε)} (hs : CloseMoves c k a c' o) :
    ClientMoves cfg c (.closer k a) c' o
  | act {a : PipeAct ε} {p : Pipeline ι} {o : Option (PipeEvent ι ε)}
    (hs : (pipeSystem cfg).step c.pipe (.act a) = some (p, o)) :
    ClientMoves cfg c (.act a) { c with pipe := p } (o.map .pipe)

variable {C : ClientHistory ι ε κ → Client ι ε κ → ClientAct ι ε κ → Prop} {tr post pre : ClientHistory ι ε κ}
  {c c' : Client ι ε κ} {a : ClientAct ι ε κ} {o : Option (ClientEvent ι ε)} {k : κ} {err : Option ε}

theorem push_event (p : Pipeline ι) (x : ι) : ∃ p' e, p.push (ε := ε) cfg x = (p', some e) := by
  unfold Pipeline.push
  split <;> exact ⟨_, _, rfl⟩

theorem moves_record {prepared : Option (Except ε ι)} (h : record cfg c prepared = (c', o)) :
    ClientMoves cfg c (.record prepared) c' o := by
  rcases prepared with _ | err | x
  · cases h
    exact .absent
  · cases h
    exact .rejected
  · simp only [record] at h
    split at h
    · cases h
      exact .refused ‹_›
    · obtain ⟨p, e, hp⟩ : ∃ p e, c.pipe.push (ε := ε) cfg x = (p, some e) := push_event c.pipe x
      rw [hp] at h
      cases h
      exact .record (by simpa using ‹¬ c.closed = true›) (congrArg some hp)

theorem moves_close (h : close c k = some (c', o)) : ClientMoves cfg c (.close k) c' o := by
  unfold close at h
  split at h <;> [skip; cases h]
  rename_i hk
  split at h
  · cases h
    exact .again hk ‹_›
  · rename_i hc
    have hc : c.closed = false := by simpa using hc
    split at h <;> cases h
    · exact .close hk hc (congrArg some ‹_›)
    · exact .closePanic hk hc (congrArg some ‹_›)

theorem moves_of_client (h : (clientSystem cfg).step c a = some (c', o)) :
    ClientMoves cfg c a c' o := by
  cases a with
  | record prepared => exact moves_record (Option.some.inj h)
  | close k => exact moves_close h
  | closer k a => exact .closer (moves_of_closeStep h)
  | act a =>
    obtain ⟨⟨p, o⟩, hp, hx⟩ := Option.map_eq_some_iff.mp h
    cases hx
    exact .act hp

/-! ## The pipeline of a client -/

/-- A step of a client is one of its pipeline, or leaves the pipeline alone. -/
theorem pipeView_step (hs : ClientMoves cfg c a c' o) : (pipeView (a, o) = none ∧ c'.pipe = c.pipe) ∨
      ∃ b p, pipeView (a, o) = some (b, p) ∧ (pipeSystem cfg).step c.pipe b = some (c'.pipe, p) := by
  cases hs with
  | record _ hs | close _ _ hs | closePanic _ _ hs => exact .inr ⟨_, _, rfl, hs⟩
  | @act a p o hs => cases o <;> exact .inr ⟨_, _, rfl, hs⟩
  | closer hs => cases hs <;> exact .inl ⟨rfl, rfl⟩
  | _ => exact .inl ⟨rfl, rfl⟩

theorem pipe_run (h : (clientSystem cfg).RunIf C tr c) : (pipeSystem cfg).Run (pipeHistory tr) c.pipe := by
  refine h.view (pipeSystem cfg) Client.pipe pipeView rfl (fun hs hv => ?_) (fun hs hv => ?_)
  · rcases pipeView_step (moves_of_client hs) with ⟨-, hp⟩ | ⟨b, p, hv', -⟩
    · exact hp
    · rw [hv] at hv'
      cases hv'
  · rcases pipeView_step (moves_of_client hs) with ⟨hv', -⟩ | ⟨b, p, hv', hp⟩ <;> rw [hv] at hv' <;> cases hv'
    exact hp

theorem pipe_event {e : PipeEvent ι ε} (hs : ClientMoves cfg c a c' o) (ho : o = some (.pipe e)) :
    ∃ b p, (pipeSystem cfg).step c.pipe b = some (p, some e) := by
  cases hs with
  | record _ hp | closePanic _ _ hp =>
    cases ho
    exact ⟨_, _, hp⟩
  | act hp =>
    obtain ⟨e, rfl, hx⟩ := Option.map_eq_some_iff.mp ho
    cases hx
    exact ⟨_, _, hp⟩
  | closer hp => cases hp <;> cases ho
  | _ => cases ho

theorem closed_eq (h : (clientSystem cfg).RunIf C tr c) : c.closed = c.pipe.queue.closed := by
  refine h.inv (I := fun _ c => c.closed = c.pipe.queue.closed) rfl fun {tr c a c' o} ih _ hs => ?_
  cases moves_of_client hs with
  | record _ hp | act hp => exact ih.trans (queue_closed_step (moves_of_pipe hp) nofun).symm
  | close _ _ hp | closePanic _ _ hp => exact (queue_closed (moves_of_pipe hp)).symm
  | closer hp => cases hp <;> exact ih
  | _ => exact ih

/-! ## Accounting -/

theorem client_inv (h : (clientSystem cfg).RunIf C tr c) : PipeInv cfg (pipeHistory tr) c.pipe := pipe_inv (pipe_run h)

/-- `Record` and `Close` look at the flag before they touch the queue. -/
theorem step_no_panic (h : (clientSystem cfg).RunIf C tr c) (hs : (clientSystem cfg).step c a = some (c', o)) :
    o ≠ some (.pipe .panicked) := by
  have hinv := client_inv h
  have hclosed := closed_eq h
  cases moves_of_client hs with
  | record hc hp =>
    cases moves_of_pipe hp with
    | pushPanic hq => exact Bool.noConfusion (hc.symm.trans (hclosed.trans hq))
    | _ => exact nofun
  | closePanic _ hc hp =>
    cases moves_of_pipe hp with
    | closePanic hq => exact Bool.noConfusion (hc.symm.trans (hclosed.trans hq))
  | closer hp => cases hp <;> exact nofun
  | act hp =>
    intro ho
    obtain ⟨e, he, hx⟩ := Option.map_eq_some_iff.mp ho
    cases hx
    exact no_panic hinv.toEnding hinv.toAccounted (moves_of_pipe hp) he
  | _ => exact nofun

/-- The steps of goroutines on their own are bounded by the work that is left. -/
theorem execFrom_act_le (h : (clientSystem cfg).Run tr c) (acts : List (PipeAct ε))
    (hx : ((clientSystem cfg).execFrom tr c (acts.map .act)).isSome) : acts.length ≤ work cfg c.pipe := by
  induction acts generalizing tr c with
  | nil => exact Nat.zero_le _
  | cons a acts ih =>
    rw [List.map_cons, System.execFrom] at hx
    split at hx
    · exact absurd hx Bool.false_ne_true
    · rename_i c' o hs
      have hrest := ih (h.step hs) hx
      have hinv := client_inv h
      cases moves_of_client hs with
      | @act _ p _ hp =>
        have hlt := work_decreases hinv.toEnding hinv.toAccounted (moves_of_pipe hp)
        rw [List.length_cons]
        show acts.length + 1 ≤ work cfg c.pipe
        exact Nat.lt_of_le_of_lt hrest hlt

theorem step_dropped {b : Batch ι} {log : List (LogLine ι ε)}
    (hs : (clientSystem cfg).step c a = some (c', some (.pipe (.dropped b log)))) :
    ¬ c.pipe.batches.Free ∧
      log = if cfg.fallbackLog then b.events.map (.notDelivered "batch_channel_full") else [] := by
  obtain ⟨_, _, hp⟩ := pipe_event (moves_of_client hs) rfl
  cases moves_of_pipe hp with
  | dropped _ _ hc => exact ⟨(Chan.trySend_full hc).2, log_dropped _⟩

theorem client_accounting (h : (clientSystem cfg).Run tr c) : Accounting cfg tr c := by
  have hinv := client_inv h
  constructor
  · intro e he
    obtain ⟨post, pre, rfl⟩ := List.append_of_mem he
    obtain ⟨c₀, c₁, h₀, -, hs⟩ := h.split rfl
    exact step_no_panic h₀ hs
  · exact hinv.order
  · exact hinv.sizes
  · exact hinv.toOrdered.nodup
  · exact hinv.parts
  · intro post pre a b log htr
    obtain ⟨c₀, c₁, h₀, -, hs⟩ := h.split htr
    exact ⟨c₀, h₀, step_dropped hs⟩
  · exact execFrom_act_le h
  · exact fun hd => canStep_of_not_drained hinv.toEnding (.inl hd)

theorem client_accounting_sent :
    let cfg : Settings := ⟨2, 1, 1, 4, true, by decide⟩
    ∃ (tr : ClientHistory Bool Empty Unit) (c : Client Bool Empty Unit), (clientSystem cfg).Run tr c ∧
      handed (pipeHistory tr) = [⟨0, [true]⟩] ∧ Accounting cfg tr c := by
  intro cfg
  have h := System.run_of_exec (clientSystem cfg) [(.record (some (.ok true)) : ClientAct Bool Empty Unit),
    .act .receive, .act .timer, .act .flush, .act (.take 0), .act (.send 0)] rfl
  exact ⟨_, _, h, rfl, client_accounting h⟩

/-! ## Close -/

theorem client_wg_zero (hs : ClientMoves cfg c a c' o) (hz : c.pipe.wg = 0) : c'.pipe.wg = 0 := by
  rcases pipeView_step hs with ⟨-, hp⟩ | ⟨b, p, -, hp⟩
  · rw [hp]
    exact hz
  · exact wg_zero_step (moves_of_pipe hp) hz

/-- A call passes `wg.Wait` only at 0; so does a later one that comes then. -/
theorem passed_wg_zero {any : Bool}
    (hC : any = true → ∀ {tr c k}, C tr c (.close k) → c.closed = true → c.pipe.wg = 0)
    (h : (clientSystem cfg).RunIf C tr c) : ∀ j, Passed any (c.closers j) → c.pipe.wg = 0 := by
  refine h.inv (I := fun _ c => ∀ j, Passed any (c.closers j) → c.pipe.wg = 0) (fun _ => False.elim) ?_
  intro tr c a c' o ih hc hs
  have hm := moves_of_client hs
  have hkeep : ∀ j, Passed any (c.closers j) → c'.pipe.wg = 0 := fun j hj => client_wg_zero hm (ih j hj)
  cases hm with
  | again _ hclosed => exact goto_all ih fun hx => hC (hx.resolve_right Bool.false_ne_true) hc hclosed
  | close _ _ hp => exact goto_all (c := { c with pipe := _, closed := true }) hkeep False.elim
  | closer hp =>
    cases hp with
    | waited _ hz => exact goto_all ih fun _ => hz
    | transport hk | returned hk => exact goto_all ih fun hx => ih _ (by rw [hk]; exact hx)
  | _ => exact hkeep

theorem dropped_eq_nil (h : (clientSystem cfg).RunIf FlushesWithRoom tr c) : dropped (pipeHistory tr) = [] := by
  refine h.inv (I := fun tr _ => dropped (pipeHistory tr) = []) rfl fun {tr c a c' o} ih hc hs => ?_
  cases moves_of_client hs with
  | record _ hp => cases moves_of_pipe hp <;> exact ih
  | closePanic _ _ hp =>
    cases moves_of_pipe hp
    exact ih
  | closer hp => cases hp <;> exact ih
  | act hp =>
    cases moves_of_pipe hp with
    | dropped hd hne hfull =>
      rcases hc rfl with hb | hroom
      · rw [hd] at hb
        exact absurd hb hne
      · exact absurd hroom (Chan.trySend_full hfull).2
    | _ => exact ih
  | _ => exact ih

/-- The first `Close` returns when every admitted event was handed to `Send` once, unless a batch is
flushed into a full channel. -/
theorem close_flushes (h : (clientSystem cfg).RunIf FlushesWithRoom tr c) (hk : c.closers k = .returned true err) :
    (handed (pipeHistory tr)).Nodup ∧
      ((handed (pipeHistory tr)).flatMap Batch.events).Perm (admitted (pipeHistory tr)) := by
  have hinv := client_inv h
  have hz : c.pipe.wg = 0 := passed_wg_zero (fun hany => absurd hany Bool.false_ne_true) h k (by rw [hk]; exact .inr rfl)
  obtain ⟨horder, hparts⟩ := hinv.settled (hinv.toEnding.finished hz)
  rw [dropped_eq_nil h, Multiset.coe_nil, add_zero, Multiset.coe_eq_coe] at hparts
  refine ⟨hparts.nodup_iff.mp hinv.toOrdered.nodup, ?_⟩
  rw [horder]
  exact hparts.symm.flatMap_right _

theorem close_flushes_one :
    let cfg : Settings := ⟨8, 1, 1, 4, true, by decide⟩
    ∃ (tr : ClientHistory Nat Empty Unit) (c : Client Nat Empty Unit),
      (clientSystem cfg).RunIf FlushesWithRoom tr c ∧ c.closers () = .returned true none ∧
        admitted (pipeHistory tr) = [7] ∧
        ((handed (pipeHistory tr)).flatMap Batch.events).Perm (admitted (pipeHistory tr)) := by
  intro cfg
  have h₁ := System.RunIf.init.execFrom (M := clientSystem cfg) (C := FlushesWithRoom)
    [(.record (some (.ok 7)) : ClientAct Nat Empty Unit), .act .receive, .act .timer] (by simp [FlushesWithRoom]) rfl
  have h₂ := (h₁.step (a := .act .flush) (fun _ => .inr (by decide)) rfl).execFrom
    [.act (.take 0), .act (.send 0), .act (.sent 0 none), .close (), .act .receive] (by simp [FlushesWithRoom]) rfl
  have h₃ := (h₂.step (a := .act .flush) (fun _ => .inl rfl) rfl).execFrom
    [.act .closeBatches, .act .dispatcherDone, .act (.take 0), .act (.workerDone 0), .closer () .waited,
      .closer () .transport, .closer () (.returned none)] (by simp [FlushesWithRoom]) rfl
  obtain ⟨tr, c, h, hk, hadmitted⟩ : ∃ tr c, (clientSystem cfg).RunIf FlushesWithRoom tr c ∧
      c.closers () = .returned true none ∧ admitted (pipeHistory tr) = [7] := ⟨_, _, h₃, rfl, rfl⟩
  exact ⟨tr, c, h, hk, hadmitted, (close_flushes h hk).2⟩

/-- Six events, each a batch. The worker is in `Send` with the first and four wait in the channel when
`Close` finds the sixth in the queue: it is dropped. -/
theorem close_drops :
    let cfg : Settings := ⟨8, 1, 1, 4, true, by decide⟩
    ∃ (tr : ClientHistory Nat Empty Unit) (c : Client Nat Empty Unit), (clientSystem cfg).Run tr c ∧
      c.closers () = .returned true none ∧ admitted (pipeHistory tr) = [1, 2, 3, 4, 5, 6] ∧
      (handed (pipeHistory tr)).flatMap Batch.events = [1, 2, 3, 4, 5] := by
  intro cfg
  have hx : ((clientSystem cfg).exec
      [(.record (some (.ok 1)) : ClientAct Nat Empty Unit), .act .receive, .act .timer, .act .flush,
        .act (.take 0), .act (.send 0),
        .record (some (.ok 2)), .act .receive, .act .timer, .act .flush,
        .record (some (.ok 3)), .act .receive, .act .timer, .act .flush,
        .record (some (.ok 4)), .act .receive, .act .timer, .act .flush,
        .record (some (.ok 5)), .act .receive, .act .timer, .act .flush,
        .record (some (.ok 6)), .close (), .act .receive, .act .receive, .act .flush,
        .act .closeBatches, .act .dispatcherDone, .act (.sent 0 none),
        .act (.take 0), .act (.send 0), .act (.sent 0 none), .act (.take 0), .act (.send 0), .act (.sent 0 none),
        .act (.take 0), .act (.send 0), .act (.sent 0 none), .act (.take 0), .act (.send 0), .act (.sent 0 none),
        .act (.take 0), .act (.workerDone 0), .closer () .waited, .closer () .transport,
        .closer () (.returned none)]).map (fun x => (x.2.closers (), admitted (pipeHistory x.1),
          (handed (pipeHistory x.1)).flatMap Batch.events)) =
      some (.returned true none, [1, 2, 3, 4, 5, 6], [1, 2, 3, 4, 5]) := by decide +kernel
  obtain ⟨⟨tr, c⟩, he, hf⟩ := Option.map_eq_some_iff.mp hx
  simp only [Prod.mk.injEq] at hf
  exact ⟨tr, c, System.run_of_exec _ _ he, hf⟩

theorem step_not_handed (hf : Finished cfg c.pipe) (hinv : PipeInv cfg (pipeHistory tr) c.pipe)
    (hs : (clientSystem cfg).step c a = some (c', o)) (b : Batch ι) : o ≠ some (.pipe (.handed b)) := by
  intro ho
  obtain ⟨_, _, hp⟩ := pipe_event (moves_of_client hs) ho
  cases moves_of_pipe hp with
  | @send w _ hw =>
    rw [hf.2 w (hinv.toAccounted.lt (by rw [hw]; exact nofun))] at hw
    cases hw

/-- Once the transport is closed, no `Send` runs or starts, unless `Close` is called on a closed client
that is not done. -/
theorem close_after_send
    (h : (clientSystem cfg).RunIf ClosesOnceDone (post ++ (.closer k .transport, some .transportClose) :: pre) c) :
    (∃ c₀, (clientSystem cfg).RunIf ClosesOnceDone pre c₀ ∧ Finished cfg c₀.pipe) ∧
      Finished cfg c.pipe ∧ ∀ e ∈ post, ∀ b, e.2 ≠ some (.pipe (.handed b)) := by
  obtain ⟨c₀, c₁, h₀, hc, hs⟩ := h.split rfl
  have hpassed : Passed true (c₀.closers k) := by
    cases moves_of_client hs with
    | closer hp =>
      cases hp with
      | transport hk =>
        rw [hk]
        exact .inl rfl
  have hz₀ : c₀.pipe.wg = 0 := passed_wg_zero (fun _ => fun hC => hC _ rfl) h₀ k hpassed
  have hz₁ : c₁.pipe.wg = 0 := client_wg_zero (moves_of_client hs) hz₀
  have hpost := System.RunIf.after (I := fun post c => c.pipe.wg = 0 ∧ ∀ e ∈ post, ∀ b, e.2 ≠ some (.pipe (.handed b)))
    (h₀.step hc hs) ⟨hz₁, nofun⟩ (fun {post c a c' o} h ih hs => ?_) h
  · refine ⟨⟨c₀, h₀, (client_inv h₀).toEnding.finished hz₀⟩, (client_inv h).toEnding.finished hpost.1, hpost.2⟩
  · refine ⟨client_wg_zero (moves_of_client hs) ih.1, ?_⟩
    intro e he b
    rcases List.mem_cons.mp he with rfl | he
    · exact step_not_handed ((client_inv h).toEnding.finished ih.1) (client_inv h) hs b
    · exact ih.2 e he b

theorem close_after_send_one :
    let cfg : Settings := ⟨8, 1, 1, 4, true, by decide⟩
    ∃ (pre : ClientHistory Nat Empty Unit) (c : Client Nat Empty Unit),
      (clientSystem cfg).RunIf ClosesOnceDone ((.closer () .transport, some .transportClose) :: pre) c ∧
        handed (pipeHistory pre) = [⟨0, [7]⟩] ∧ Finished cfg c.pipe := by
  intro cfg
  have h₁ := System.RunIf.init.execFrom (M := clientSystem cfg) (C := ClosesOnceDone)
    [(.record (some (.ok 7)) : ClientAct Nat Empty Unit), .act .receive, .act .timer, .act .flush,
      .act (.take 0), .act (.send 0), .act (.sent 0 none)] (by simp [ClosesOnceDone]) rfl
  have h₂ := (h₁.step (a := .close ()) (fun _ _ => nofun) rfl).execFrom
    [.act .receive, .act .flush, .act .closeBatches, .act .dispatcherDone, .act (.take 0), .act (.workerDone 0),
      .closer () .waited, .closer () .transport] (by simp [ClosesOnceDone]) rfl
  have hclose := close_after_send (show (clientSystem cfg).RunIf ClosesOnceDone ([] ++ _ :: _) _ from h₂)
  exact ⟨_, _, h₂, rfl, hclose.2.1⟩

/-- A second `Close` closes the transport while a worker is in `Send`. -/
theorem close_cuts_send :
    let cfg : Settings := ⟨8, 1, 1, 4, true, by decide⟩
    ∃ (pre : ClientHistory Nat Empty Bool) (c : Client Nat Empty Bool),
      (clientSystem cfg).Run ((.closer true .transport, some .transportClose) :: pre) c ∧
        c.pipe.workers 0 = .sending ⟨0, [7]⟩ ∧ ¬ Finished cfg c.pipe := by
  intro cfg
  have h := System.run_of_exec (clientSystem cfg)
    [(.record (some (.ok 7)) : ClientAct Nat Empty Bool), .act .receive, .act .timer, .act .flush,
      .act (.take 0), .act (.send 0), .close false, .close true, .closer true .transport] rfl
  refine ⟨_, _, h, rfl, fun hf => ?_⟩
  have hw := hf.2 0 (by decide)
  cases hw

end Csar.Proof.Audit
