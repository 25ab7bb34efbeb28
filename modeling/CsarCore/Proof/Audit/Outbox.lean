import CsarCore.Impl.Audit.Outbox

/-!
# The audit outbox: no row is lost, and an old claim changes nothing

Each statement is described once by the rows it leaves (`mem_claim`, `mem_finish`). The
invariant (`Inv`): a row leased under the token of a worker's claim is the row that this
claim returned, so a `finish`, which looks at the id and the token only, reaches the row
whose payload was sent. Tokens are new, so it survives the row's deletion and a new row
with its id: `outbox_no_loss`. A relay alone takes the rows in order: `relay_in_order`.
-/

namespace Csar.Proof.Audit

open Impl.Audit

/-! ## The statements -/

variable {t : Outbox} {service : String} {now : Int} {r : Row} {locked : List Uuid} {q : Row} {token : Uuid}
    {call : Call} {c : OutboxClaim}

theorem mem_insertOutbox {id : Uuid} {payload : Bytes} :
    r ∈ (insertOutbox t id service payload now).1 → r ∈ t ∨ r = newRow id service payload now := by
  unfold insertOutbox
  split
  · intro h; rw [Table.mem_insert] at h; exact h.symm
  · exact .inl

theorem mem_insertOutbox_of_mem {id : Uuid} {payload : Bytes}
    (hr : r ∈ t) : r ∈ (insertOutbox t id service payload now).1 := by
  unfold insertOutbox
  split
  · rw [Table.mem_insert]; exact .inr hr
  · exact hr

theorem unleased_iff : r.unleased now = true ↔ ∀ l, r.lease = some l → l.expires ≤ now := by
  unfold Row.unleased
  rcases r.lease with _ | l <;> simp

theorem candidate_spec (h : candidate t service now locked = some r) :
    r ∈ t ∧ r.service = service ∧ r.nextAttempt ≤ now ∧ r.unleased now = true := by
  have hm := List.mem_filter.mp (Table.firstBy_mem h)
  simp only [Bool.and_eq_true, beq_iff_eq, decide_eq_true_eq] at hm
  exact ⟨hm.1, hm.2.1.1.1, hm.2.1.1.2, hm.2.1.2⟩

/-- Nothing, without a claim; or one row is taken, and the claim is returned or lost with the answer. -/
theorem claim_cases (t : Outbox) (service : String) (token : Uuid) (now : Int)
    (locked : List Uuid) (call : Call) :
    ((claim t service token now locked call).1 = t ∧
      ∀ c, (claim t service token now locked call).2 ≠ .ok (some c)) ∨
    ∃ r ∈ t, r.service = service ∧ r.unleased now = true ∧
      (claim t service token now locked call).1 =
        t.updateWhere (fun q => q.id == r.id) (fun q => q.taken token now) (fun q => q.taken_id token now) ∧
      ∀ c, (claim t service token now locked call).2 = .ok (some c) →
        c = ⟨r.id, token, r.payload, r.attempts + 1⟩ := by
  unfold claim claimStmt
  rcases hc : candidate t service now locked with _ | r
  · left; cases call <;> simp
  · obtain ⟨hr, hs, -, hu⟩ := candidate_spec hc
    dsimp only
    split <;> rename_i h <;> split at h <;> simp only [Option.some.injEq, reduceCtorEq] at h
    · left; simp
    · left; simp
    · right; cases h; exact ⟨r, hr, hs, hu, rfl, by simp⟩
    · right; cases h; exact ⟨r, hr, hs, hu, rfl, fun c hc => by simpa [eq_comm] using hc⟩

theorem mem_updateWhere_id {f : Row → Row} {hf : ∀ r, (f r).id = r.id}
    (hr : r ∈ t) : q ∈ t.updateWhere (fun q => q.id == r.id) f hf ↔ (q ∈ t ∧ q.id ≠ r.id) ∨ q = f r := by
  rw [Table.mem_updateWhere]
  constructor
  · rintro ⟨p, hp, rfl⟩
    by_cases e : p.id = r.id
    · right; rw [Table.eq_of_key hp hr e]; simp
    · left; simp [e, hp]
  · rintro (⟨hq, e⟩ | rfl)
    · exact ⟨q, hq, by simp [e]⟩
    · exact ⟨r, hr, by simp⟩

theorem mem_claim (h : q ∈ (claim t service token now locked call).1) :
    q ∈ t ∨ ∃ r ∈ t, r.service = service ∧ q = r.taken token now ∧
      ∀ c, (claim t service token now locked call).2 = .ok (some c) →
        c = ⟨r.id, token, r.payload, r.attempts + 1⟩ := by
  rcases claim_cases t service token now locked call with ⟨e, -⟩ | ⟨r, hr, hs, -, e, hc⟩
  · exact .inl (e ▸ h)
  · rw [e, mem_updateWhere_id hr] at h
    rcases h with h | h
    · exact .inl h.1
    · exact .inr ⟨r, hr, hs, h, hc⟩

theorem mem_claim_of_service (hq : q ∈ t) (hs : q.service ≠ service) :
    q ∈ (claim t service token now locked call).1 := by
  rcases claim_cases t service token now locked call with ⟨e, -⟩ | ⟨r, hr, hrs, -, e, -⟩
  · exact e.symm ▸ hq
  · rw [e, mem_updateWhere_id hr]
    exact .inl ⟨hq, fun h => hs (Table.eq_of_key hq hr h ▸ hrs)⟩

theorem mem_claim_of_leased (service : String) (token : Uuid)
    (locked : List Uuid) (call : Call) {l : Lease} (hq : q ∈ t) (hl : q.lease = some l) (hn : now < l.expires) :
    q ∈ (claim t service token now locked call).1 ∧
      ∀ c, (claim t service token now locked call).2 = .ok (some c) → c.id ≠ q.id := by
  rcases claim_cases t service token now locked call with ⟨e, hc⟩ | ⟨r, hr, -, hu, e, hc⟩
  · exact ⟨e.symm ▸ hq, fun c h => absurd h (hc c)⟩
  · have hne : q.id ≠ r.id := by
      intro h
      have := unleased_iff.mp hu l (Table.eq_of_key hq hr h ▸ hl)
      omega
    refine ⟨by rw [e, mem_updateWhere_id hr]; exact .inl ⟨hq, hne⟩, fun c h => ?_⟩
    rw [hc c h]; exact hne.symm

theorem exists_mem_claim (service : String) (token : Uuid) (now : Int)
    (locked : List Uuid) (call : Call) (hq : q ∈ t) :
    ∃ q' ∈ (claim t service token now locked call).1, q'.id = q.id := by
  rcases claim_cases t service token now locked call with ⟨e, -⟩ | ⟨r, hr, -, -, e, -⟩
  · exact ⟨q, e.symm ▸ hq, rfl⟩
  · by_cases h : q.id = r.id
    · exact ⟨r.taken token now, by rw [e, mem_updateWhere_id hr]; exact .inr rfl, h.symm⟩
    · exact ⟨q, by rw [e, mem_updateWhere_id hr]; exact .inl ⟨hq, h⟩, rfl⟩

theorem claim_returns (h : (claim t service token now locked call).2 = .ok (some c)) :
    c.token = token ∧ ∃ r ∈ t, r.id = c.id ∧ r.payload = c.payload ∧ r.service = service := by
  rcases claim_cases t service token now locked call with ⟨-, hc⟩ | ⟨r, hr, hs, -, -, hc⟩
  · exact absurd h (hc c)
  · rw [hc c h]; exact ⟨rfl, r, hr, rfl, rfl, hs⟩

theorem holds_iff :
    c.holds now r = true ↔ r.id = c.id ∧ ∃ l, r.lease = some l ∧ l.token = c.token ∧ now < l.expires := by
  simp only [OutboxClaim.holds, Row.leasedTo, Bool.and_eq_true, beq_iff_eq]
  refine and_congr_right fun _ => ?_
  rcases r.lease with _ | l <;> simp

theorem finish_table (t : Outbox) (c : OutboxClaim) (delivered : Bool) (now : Int) (call : Call) :
    (finish t c delivered now call).1 = t ∨
      (finish t c delivered now call).1 = (finishStmt t c delivered now).1 := by
  cases call <;> simp [finish]

theorem mem_finish {delivered : Bool} (h : q ∈ (finish t c delivered now call).1) : q ∈ t ∨ q.lease = none := by
  rcases finish_table t c delivered now call with e | e <;> rw [e] at h
  · exact .inl h
  · cases delivered with
    | true => exact .inl (Table.mem_deleteWhere.mp h).1
    | false =>
      simp only [finishStmt, Bool.false_eq_true, ite_false, Table.mem_updateWhere] at h
      obtain ⟨r, hr, rfl⟩ := h
      split
      · exact .inr rfl
      · exact .inl hr

theorem mem_finish_of_not_held {delivered : Bool} (hq : q ∈ t) (hh : c.holds now q = false) :
    q ∈ (finish t c delivered now call).1 := by
  rcases finish_table t c delivered now call with e | e <;> rw [e]
  · exact hq
  · cases delivered with
    | true => exact Table.mem_deleteWhere.mpr ⟨hq, hh⟩
    | false =>
      simp only [finishStmt, Bool.false_eq_true, ite_false, Table.mem_updateWhere]
      exact ⟨q, hq, by simp [hh]⟩

theorem exists_mem_finish_false (c : OutboxClaim) (now : Int) (call : Call)
    (hq : q ∈ t) : ∃ q' ∈ (finish t c false now call).1, q'.id = q.id := by
  rcases finish_table t c false now call with e | e <;> rw [e]
  · exact ⟨q, hq, rfl⟩
  · simp only [finishStmt, Bool.false_eq_true, ite_false, Table.mem_updateWhere]
    exact ⟨_, ⟨q, hq, rfl⟩, by split <;> rfl⟩

theorem finish_of_none_held (delivered : Bool) (call : Call) (h : ∀ r ∈ t, c.holds now r = false) :
    (finish t c delivered now call).1 = t ∧ (finish t c delivered now call).2 ≠ .ok () ∧
      (call = .answered → (finish t c delivered now call).2 = .error .leaseLost) := by
  have hs : finishStmt t c delivered now = (t, 0) := by
    unfold finishStmt
    rw [Table.count_of_none h, Table.deleteWhere_of_none h, Table.updateWhere_of_none h, ite_self]
  cases call <;> simp [finish, hs]

/-! ## The invariant -/

section Runs

variable {ω ε : Type} {service : ω → String} {unmarshal : Bytes → Option ε}

/-- Leases carry used tokens; a row leased under the token of a worker's claim is the row of this claim;
a worker is past a successful `Send` only of its claim's payload. -/
structure Inv (service : ω → String) (unmarshal : Bytes → Option ε) (tr : List (Act ω × Obs ε))
    (s : OutboxState ω) : Prop where
  issued : ∀ r ∈ s.table, ∀ l, r.lease = some l → l.token ∈ s.tokens
  used : ∀ w c, (s.workers w).claim? = some c → c.token ∈ s.tokens
  own : ∀ w c, (s.workers w).claim? = some c → ∀ r ∈ s.table, ∀ l, r.lease = some l →
    l.token = c.token → r.id = c.id ∧ r.payload = c.payload ∧ r.service = service w
  delivered : ∀ w c, s.workers w = .sent c true →
    ∃ e, unmarshal c.payload = some e ∧ (.send w true, .sent c.token e true) ∈ tr

variable {tr : List (Act ω × Obs ε)} {s : OutboxState ω} {w : ω} {token : Uuid} {s' : OutboxState ω}
    {o : Obs ε}

theorem Inv.of_leased (h : Inv service unmarshal tr s)
    {t : Outbox} (ht : ∀ r ∈ t, r ∈ s.table ∨ r.lease = none) :
    Inv service unmarshal tr { s with table := t } where
  issued r hr l hl := by
    rcases ht r hr with hr | hn
    · exact h.issued r hr l hl
    · rw [hn] at hl; cases hl
  used := h.used
  own w c hc r hr l hl := by
    rcases ht r hr with hr | hn
    · exact h.own w c hc r hr l hl
    · rw [hn] at hl; cases hl
  delivered := h.delivered

theorem Inv.cons (h : Inv service unmarshal tr s) (e : Act ω × Obs ε) : Inv service unmarshal (e :: tr) s where
  issued := h.issued
  used := h.used
  own := h.own
  delivered w c hw := by
    obtain ⟨ev, h₁, h₂⟩ := h.delivered w c hw
    exact ⟨ev, h₁, List.mem_cons_of_mem _ h₂⟩

variable [DecidableEq ω] {a : Act ω}

/-- A worker that drops its claim, or goes on with it, keeps the invariant if its new state is justified. -/
theorem Inv.update (h : Inv service unmarshal tr s) {x : Worker} {e : Act ω × Obs ε}
    (hc : ∀ c, x.claim? = some c → (s.workers w).claim? = some c)
    (hd : ∀ c, x = .sent c true →
      ∃ ev, unmarshal c.payload = some ev ∧ (.send w true, .sent c.token ev true) ∈ e :: tr) :
    Inv service unmarshal (e :: tr) { s with workers := Function.update s.workers w x } where
  issued := h.issued
  used w' c hw := by
    by_cases ew : w' = w
    · subst ew; exact h.used w' c (hc c (by simpa using hw))
    · exact h.used w' c (by simpa [ew] using hw)
  own w' c hw := by
    by_cases ew : w' = w
    · subst ew; exact h.own w' c (hc c (by simpa using hw))
    · exact h.own w' c (by simpa [ew] using hw)
  delivered w' c hw := by
    by_cases ew : w' = w
    · subst ew; exact hd c (by simpa using hw)
    · obtain ⟨ev, h₁, h₂⟩ := h.delivered w' c (by simpa [ew] using hw)
      exact ⟨ev, h₁, List.mem_cons_of_mem _ h₂⟩

theorem afterClaim_claim? {r : Except OutboxErr (Option OutboxClaim)} {c : OutboxClaim} :
    (afterClaim r).claim? = some c ↔ r = .ok (some c) := by
  rcases r with _ | _ | c' <;> simp [afterClaim, Worker.claim?]

/-- The token is new, so no worker's claim and no leased row has it. -/
theorem inv_claim (h : Inv service unmarshal tr s)
    (ht : token ∉ s.tokens) (now : Int) (locked : List Uuid) (call : Call) (e : Act ω × Obs ε) :
    Inv service unmarshal (e :: tr)
      ⟨(claim s.table (service w) token now locked call).1,
        Function.update s.workers w (afterClaim (claim s.table (service w) token now locked call).2),
        token :: s.tokens⟩ where
  issued r hr l hl := by
    rcases mem_claim hr with hr | ⟨q, -, -, rfl, -⟩
    · exact List.mem_cons_of_mem _ (h.issued r hr l hl)
    · simp only [Row.taken, Option.some.injEq] at hl
      simp [← hl]
  used w' c hw := by
    by_cases ew : w' = w
    · subst ew
      simp only [Function.update_self, afterClaim_claim?] at hw
      simp [(claim_returns hw).1]
    · exact List.mem_cons_of_mem _ (h.used w' c (by simpa [ew] using hw))
  own w' c hw r hr l hl he := by
    by_cases ew : w' = w
    · subst ew
      simp only [Function.update_self, afterClaim_claim?] at hw
      rw [(claim_returns hw).1] at he
      rcases mem_claim hr with hr | ⟨q, -, hs, rfl, hc⟩
      · exact absurd (he ▸ h.issued r hr l hl) ht
      · rw [hc c hw]; exact ⟨rfl, rfl, hs⟩
    · have hw : (s.workers w').claim? = some c := by simpa [ew] using hw
      rcases mem_claim hr with hr | ⟨q, -, -, rfl, -⟩
      · exact h.own w' c hw r hr l hl he
      · simp only [Row.taken, Option.some.injEq] at hl
        have he : token = c.token := by rw [← hl] at he; exact he
        exact absurd (he ▸ h.used w' c hw) ht
  delivered w' c hw := by
    by_cases ew : w' = w
    · subst ew
      simp only [Function.update_self] at hw
      rcases hr : (claim s.table (service w') token now locked call).2 with _ | _ | c' <;>
        rw [hr] at hw <;> cases hw
    · obtain ⟨ev, h₁, h₂⟩ := h.delivered w' c (by simpa [ew] using hw)
      exact ⟨ev, h₁, List.mem_cons_of_mem _ h₂⟩

/-! ## The steps -/

theorem step_enqueue {id : Uuid} {svc : String} {payload : Bytes}
    {now : Int} (h : step service unmarshal s (.enqueue id svc payload now) = some (s', o)) :
    s' = { s with table := (insertOutbox s.table id svc payload now).1 } := by
  simp only [step, Option.some.injEq, Prod.mk.injEq] at h
  exact h.1.symm

theorem step_claim {now : Int} {locked : List Uuid} {call : Call}
    (h : step service unmarshal s (.claim w token now locked call) = some (s', o)) :
    token ∉ s.tokens ∧
      s' = ⟨(claim s.table (service w) token now locked call).1,
        Function.update s.workers w (afterClaim (claim s.table (service w) token now locked call).2),
        token :: s.tokens⟩ ∧
      o = .claimed (claim s.table (service w) token now locked call).2 := by
  simp only [step] at h
  split at h <;> [skip; cases h]
  rename_i hg
  simp only [Option.some.injEq, Prod.mk.injEq] at h
  exact ⟨hg.2, h.1.symm, h.2.symm⟩

theorem step_send {ok : Bool} (h : step service unmarshal s (.send w ok) = some (s', o)) :
    ∃ c, s.workers w = .claimed c ∧
      s' = { s with workers := Function.update s.workers w (.sent c (sendPayload unmarshal c ok)) } ∧
      ∀ e, unmarshal c.payload = some e → o = .sent c.token e ok := by
  simp only [step] at h
  split at h <;> [skip; cases h]
  rename_i c hw
  simp only [Option.some.injEq, Prod.mk.injEq] at h
  exact ⟨c, hw, h.1.symm, fun e he => by simpa [he] using h.2.symm⟩

theorem step_finish {now : Int} {call : Call}
    (h : step service unmarshal s (.finish w now call) = some (s', o)) :
    ∃ c delivered, s.workers w = .sent c delivered ∧
      s' = { s with
        table := (finish s.table c delivered now call).1
        workers := Function.update s.workers w .idle } ∧
      o = .finished (finish s.table c delivered now call).2 := by
  simp only [step] at h
  split at h <;> [skip; cases h]
  rename_i c d hw
  simp only [Option.some.injEq, Prod.mk.injEq] at h
  exact ⟨c, d, hw, h.1.symm, h.2.symm⟩

theorem step_crash (h : step service unmarshal s (.crash w) = some (s', o)) :
    s' = { s with workers := Function.update s.workers w .idle } := by
  simp only [step, Option.some.injEq, Prod.mk.injEq] at h
  exact h.1.symm

theorem inv_step (h : Inv service unmarshal tr s) (hs : step service unmarshal s a = some (s', o)) :
    Inv service unmarshal ((a, o) :: tr) s' := by
  cases a with
  | enqueue id svc payload now =>
    rw [step_enqueue hs]
    refine (h.of_leased fun r hr => ?_).cons _
    exact (mem_insertOutbox hr).imp_right fun (e : r = _) => e ▸ rfl
  | claim w token now locked call =>
    obtain ⟨hnew, rfl, -⟩ := step_claim hs
    exact inv_claim h hnew now locked call _
  | send w ok =>
    obtain ⟨c, hw, rfl, ho⟩ := step_send hs
    refine h.update (fun c' hc => ?_) fun c' hc => ?_
    · rw [hw]; exact hc
    · simp only [Worker.sent.injEq, sendPayload, Bool.and_eq_true, Option.isSome_iff_exists] at hc
      obtain ⟨rfl, ⟨ev, hev⟩, rfl⟩ := hc
      exact ⟨ev, hev, by rw [ho ev hev]; exact List.mem_cons_self⟩
  | finish w now call =>
    obtain ⟨c, d, -, rfl, -⟩ := step_finish hs
    exact (h.of_leased fun r hr => mem_finish hr).update (by simp [Worker.claim?]) (by simp)
  | crash w =>
    rw [step_crash hs]
    exact h.update (by simp [Worker.claim?]) (by simp)

theorem inv_run (h : (system service unmarshal).Run tr s) : Inv service unmarshal tr s := by
  refine System.RunIf.inv ?_ (fun h _ hs => inv_step h hs) h
  exact ⟨by simp [system], by simp [system, Worker.claim?], by simp [system], by simp [system]⟩

/-! ## Every step of every run -/

/-- A row goes only in a `finish` after a `Send` of its payload by the worker with its lease. -/
theorem removed_by_finish
    (h : Inv service unmarshal tr s) (hs : step service unmarshal s a = some (s', o)) {r : Row}
    (hr : r ∈ s.table) (hgone : ∀ q ∈ s'.table, q.id ≠ r.id) :
    ∃ w now call c l e, a = .finish w now call ∧ s.workers w = .sent c true ∧ r.id = c.id ∧
      r.lease = some l ∧ l.token = c.token ∧ now < l.expires ∧ unmarshal r.payload = some e ∧
      (.send w true, .sent c.token e true) ∈ tr := by
  cases a with
  | enqueue id svc payload now =>
    rw [step_enqueue hs] at hgone
    exact absurd rfl (hgone r (mem_insertOutbox_of_mem hr))
  | claim w token now locked call =>
    obtain ⟨-, rfl, -⟩ := step_claim hs
    obtain ⟨q, hq, e⟩ := exists_mem_claim (service w) token now locked call hr
    exact absurd e (hgone q hq)
  | send w ok =>
    obtain ⟨c, -, rfl, -⟩ := step_send hs
    exact absurd rfl (hgone r hr)
  | finish w now call =>
    obtain ⟨c, d, hw, rfl, -⟩ := step_finish hs
    cases d with
    | false =>
      obtain ⟨q, hq, e⟩ := exists_mem_finish_false c now call hr
      exact absurd e (hgone q hq)
    | true =>
      have hh : c.holds now r = true := by
        by_contra hn
        exact absurd rfl (hgone r (mem_finish_of_not_held hr (by simpa using hn)))
      obtain ⟨hid, l, hl, htok, hexp⟩ := holds_iff.mp hh
      obtain ⟨e, he, hm⟩ := h.delivered w c hw
      have hp := (h.own w c (by rw [hw]; rfl) r hr l hl htok).2.1
      exact ⟨w, now, call, c, l, e, rfl, hw, hid, hl, htok, hexp, by rw [hp]; exact he, hm⟩
  | crash w =>
    rw [step_crash hs] at hgone
    exact absurd rfl (hgone r hr)

theorem kept_of_service
    (h : Inv service unmarshal tr s) (hs : step service unmarshal s a = some (s', o))
    (hw : a.worker = some w) {r : Row} (hr : r ∈ s.table) (hne : r.service ≠ service w) :
    r ∈ s'.table := by
  cases a with
  | enqueue => cases hw
  | claim w' token now locked call =>
    cases hw
    obtain ⟨-, rfl, -⟩ := step_claim hs
    exact mem_claim_of_service hr hne
  | send w' ok =>
    obtain ⟨c, -, rfl, -⟩ := step_send hs
    exact hr
  | finish w' now call =>
    cases hw
    obtain ⟨c, d, hc, rfl, -⟩ := step_finish hs
    refine mem_finish_of_not_held hr ?_
    -- the statement does not look at the service: the invariant does
    by_contra hh
    obtain ⟨-, l, hl, htok, -⟩ := holds_iff.mp (by simpa using hh)
    exact hne (h.own w c (by rw [hc]; rfl) r hr l hl htok).2.2
  | crash w' =>
    rw [step_crash hs]
    exact hr

/-- The steps of a worker that nobody interrupts are `DeliverOne`. -/
theorem deliverOne_steps (hw : s.workers w = .idle)
    (ht : token ∉ s.tokens) (now₁ : Int) (locked : List Uuid) (call₁ : Call) (ok : Bool) (now₂ : Int)
    (call₂ : Call) (tr : List (Act ω × Obs ε)) :
    ∃ as s', ((system service unmarshal).execFrom tr s as).map Prod.snd = some s' ∧
      s'.table =
        (deliverOne unmarshal s.table (service w) token now₁ locked call₁ ok now₂ call₂).1 ∧
      s'.workers = s.workers := by
  have hidle : Function.update s.workers w .idle = s.workers := by rw [← hw, Function.update_eq_self]
  rcases hc : claim s.table (service w) token now₁ locked call₁ with ⟨t, r⟩
  by_cases hr : ∃ c, r = .ok (some c)
  · obtain ⟨c, rfl⟩ := hr
    refine ⟨[.claim w token now₁ locked call₁, .send w ok, .finish w now₂ call₂],
      ⟨(finish t c (sendPayload unmarshal c ok) now₂ call₂).1, s.workers, token :: s.tokens⟩, ?_, ?_, rfl⟩
    · simp [System.execFrom, system, step, hw, ht, hc, afterClaim, hidle]
    · simp only [deliverOne, hc]
      rcases finish t c (sendPayload unmarshal c ok) now₂ call₂ with ⟨t', _ | _⟩ <;> rfl
  · have ha : afterClaim r = .idle := by
      rcases r with _ | _ | c
      · rfl
      · rfl
      · exact absurd ⟨c, rfl⟩ hr
    refine ⟨[.claim w token now₁ locked call₁], ⟨t, s.workers, token :: s.tokens⟩, ?_, ?_, rfl⟩
    · simp [System.execFrom, system, step, hw, ht, hc, ha, hidle]
    · simp only [deliverOne, hc]
      rcases r with _ | _ | c
      · rfl
      · rfl
      · exact absurd ⟨c, rfl⟩ hr

/-- In every run of any number of workers, a row goes only by a `finish` after its worker's own
successful `Send` of the payload, under an unexpired lease with its token; a `finish` without that
changes nothing and does not succeed; a `claim` leaves rows with an unexpired lease alone; and a worker
changes and gets no row of another service. -/
theorem outbox_no_loss {tr : List (Act ω × Obs ε)} {s s' : OutboxState ω} {a : Act ω} {o : Obs ε}
    (h : (system service unmarshal).Run tr s) (hs : step service unmarshal s a = some (s', o)) :
    (∀ r ∈ s.table, (∀ q ∈ s'.table, q.id ≠ r.id) →
      ∃ w now call c l e, a = .finish w now call ∧ s.workers w = .sent c true ∧ r.id = c.id ∧
        r.lease = some l ∧ l.token = c.token ∧ now < l.expires ∧ unmarshal r.payload = some e ∧
        (.send w true, .sent c.token e true) ∈ tr) ∧
    (∀ w now call c d, a = .finish w now call → s.workers w = .sent c d →
      (∀ r ∈ s.table, r.id = c.id → ∀ l, r.lease = some l → l.token = c.token → l.expires ≤ now) →
      s'.table = s.table ∧ o ≠ .finished (.ok ()) ∧
        (call = .answered → o = .finished (.error .leaseLost))) ∧
    (∀ w token now locked call r l, a = .claim w token now locked call → r ∈ s.table →
      r.lease = some l → now < l.expires →
      r ∈ s'.table ∧ ∀ c, o = .claimed (.ok (some c)) → c.id ≠ r.id) ∧
    (∀ w, a.worker = some w → ∀ r ∈ s.table, r.service ≠ service w → r ∈ s'.table) ∧
    (∀ w token now locked call c, a = .claim w token now locked call →
      o = .claimed (.ok (some c)) →
      ∃ r ∈ s.table, r.id = c.id ∧ r.payload = c.payload ∧ r.service = service w) := by
  have hi := inv_run h
  refine ⟨fun r hr hgone => removed_by_finish hi hs hr hgone, ?_, ?_,
    fun w hw r hr hne => kept_of_service hi hs hw hr hne, ?_⟩
  · rintro w now call c d rfl hw hn
    obtain ⟨c', d', hw', rfl, rfl⟩ := step_finish hs
    obtain ⟨rfl, rfl⟩ := Worker.sent.inj (hw.symm.trans hw')
    have hnone : ∀ r ∈ s.table, c.holds now r = false := by
      intro r hr
      by_contra hh
      obtain ⟨hid, l, hl, htok, hexp⟩ := holds_iff.mp (by simpa using hh)
      have := hn r hr hid l hl htok
      omega
    obtain ⟨h₁, h₂, h₃⟩ := finish_of_none_held d call hnone
    exact ⟨h₁, fun e => h₂ (Obs.finished.inj e), fun e => by rw [h₃ e]⟩
  · rintro w token now locked call r l rfl hr hl hexp
    obtain ⟨-, rfl, rfl⟩ := step_claim hs
    obtain ⟨h₁, h₂⟩ := mem_claim_of_leased (service w) token locked call hr hl hexp
    exact ⟨h₁, fun c hc => h₂ c (Obs.claimed.inj hc)⟩
  · rintro w token now locked call c rfl hc
    obtain ⟨-, -, rfl⟩ := step_claim hs
    exact (claim_returns (Obs.claimed.inj hc)).2

end Runs

theorem outbox_no_loss_delivery :
    ∃ tr s s' o r, (system (fun _ : Nat => "csar") fun b : Bytes => some b).Run tr s ∧
      step (fun _ => "csar") (fun b => some b) s (.finish 0 5 .answered) = some (s', o) ∧
      r ∈ s.table ∧ (∀ q ∈ s'.table, q.id ≠ r.id) ∧
      ∃ w now call c l e, Act.finish 0 5 .answered = .finish w now call ∧ s.workers w = .sent c true ∧
        r.id = c.id ∧ r.lease = some l ∧ l.token = c.token ∧ now < l.expires ∧
        some r.payload = some e ∧ (.send w true, .sent c.token e true) ∈ tr := by
  have hrun := System.run_of_exec (system (fun _ : Nat => "csar") fun b : Bytes => some b)
    [.enqueue 1 "csar" [1] 0, .claim 0 7 1 [] .answered, .send 0 true] rfl
  have hgone : ∀ q ∈ (Table.empty : Outbox), q.id ≠ 1 := by simp
  exact ⟨_, _, _, _, _, hrun, rfl, List.mem_cons_self, hgone,
    (outbox_no_loss hrun rfl).1 _ List.mem_cons_self hgone⟩

/-! ## A relay alone -/

section Relay

variable {ε : Type} {unmarshal : Bytes → Option ε} {e : Round} {ok : Bool} {now₂ T : Int}

def Row.retried (r : Row) (e : Round) : Row := (r.taken e.token e.now₁).givenBack (r.attempts + 1) e.now₂

def accepted (unmarshal : Bytes → Option ε) (r : Row) (e : Round) : Bool := (unmarshal r.payload).isSome && e.ok

/-- Nothing goes wrong but the delivery: the lease lasts until the end of the round. -/
structure Smooth (T : Int) (e : Round) : Prop where
  alone : e.locked = [] ∧ e.call₁ = .answered ∧ e.call₂ = .answered
  times : T ≤ e.now₁ ∧ e.now₁ ≤ e.now₂ ∧ e.now₂ < e.now₁ + outboxLease * intervalSecond

theorem claim_candidate (h : candidate t service now locked = some r) (hr : r.attempts < maxInt64) :
    claim t service token now locked .answered =
      (t.updateWhere (fun q => q.id == r.id) (fun q => q.taken token now) fun q => q.taken_id token now,
        .ok (some ⟨r.id, token, r.payload, r.attempts + 1⟩)) := by
  have hle : r.attempts + 1 ≤ maxInt64 := by omega
  unfold claim claimStmt
  rw [h]
  dsimp only
  rw [if_pos hle]

theorem finish_taken (token : Uuid) (hr : r ∈ t) (hlease : now₂ < now + outboxLease * intervalSecond) {p : Bytes} {n : Int}
    (delivered : Bool) {t₁ : Outbox}
    (ht₁ : t₁ = t.updateWhere (fun q => q.id == r.id) (fun q => q.taken token now) fun q => q.taken_id token now) :
    (finish t₁ ⟨r.id, token, p, n⟩ delivered now₂ .answered).2 = .ok () ∧
      ∀ q, q ∈ (finish t₁ ⟨r.id, token, p, n⟩ delivered now₂ .answered).1 ↔
        q ∈ t ∧ q.id ≠ r.id ∨ delivered = false ∧ q = (r.taken token now).givenBack n now₂ := by
  have hmem : ∀ q, q ∈ t₁ ↔ q ∈ t ∧ q.id ≠ r.id ∨ q = r.taken token now := fun q => ht₁ ▸ mem_updateWhere_id hr
  have hholds : ∀ q ∈ t₁, OutboxClaim.holds ⟨r.id, token, p, n⟩ now₂ q = true ↔ q = r.taken token now := by
    intro q hq
    rw [holds_iff]
    constructor
    · rintro ⟨hid, -⟩
      exact ((hmem q).mp hq).resolve_left fun h => h.2 hid
    · rintro rfl
      exact ⟨rfl, _, rfl, rfl, hlease⟩
  have hone : t₁.count (OutboxClaim.holds ⟨r.id, token, p, n⟩ now₂) = 1 := by
    have htaken := (hmem _).mpr (.inr rfl)
    refine (Table.count_key_and htaken fun q => q.leasedTo token now₂).trans (if_pos ?_)
    simp [Row.leasedTo, Row.taken, hlease]
  have hother : ∀ q, q ∈ t ∧ q.id ≠ r.id → q ∈ t₁ ∧ q ≠ r.taken token now :=
    fun q hq => ⟨(hmem q).mpr (.inl hq), fun he => hq.2 (he ▸ rfl)⟩
  cases delivered with
  | true =>
    refine ⟨by simp [finish, finishStmt, hone], fun q => ?_⟩
    simp only [finish, finishStmt, if_true, Table.mem_deleteWhere, Bool.true_eq_false, false_and, or_false]
    constructor
    · rintro ⟨hq, hnot⟩
      refine ((hmem q).mp hq).resolve_right fun he => ?_
      rw [(hholds q hq).mpr he] at hnot
      cases hnot
    · intro hq
      obtain ⟨hq₁, hne⟩ := hother q hq
      exact ⟨hq₁, Bool.eq_false_iff.mpr fun h => hne ((hholds q hq₁).mp h)⟩
  | false =>
    refine ⟨by simp [finish, finishStmt, hone], fun q => ?_⟩
    simp only [finish, finishStmt, Bool.false_eq_true, if_false, Table.mem_updateWhere, true_and]
    constructor
    · rintro ⟨q', hq', rfl⟩
      rcases (hmem q').mp hq' with h | rfl
      · rw [if_neg fun hh => (hother q' h).2 ((hholds q' hq').mp hh)]
        exact .inl h
      · rw [if_pos ((hholds _ hq').mpr rfl)]
        exact .inr rfl
    · rintro (hq | rfl)
      · obtain ⟨hq₁, hne⟩ := hother q hq
        exact ⟨q, hq₁, if_neg fun hh => hne ((hholds q hq₁).mp hh)⟩
      · have htaken := (hmem _).mpr (.inr rfl)
        exact ⟨_, htaken, if_pos ((hholds _ htaken).mpr rfl)⟩

/-- A round delivers the candidate or gives it back, and leaves the other rows alone. -/
theorem deliverOne_candidate (unmarshal : Bytes → Option ε) (he : Smooth T e) (h : candidate t service e.now₁ [] = some r)
    (hr : r.attempts < maxInt64) :
    (deliverOne unmarshal t service e.token e.now₁ e.locked e.call₁ e.ok e.now₂ e.call₂).2 =
        (true, if accepted unmarshal r e then .ok () else .error .deliveryFailed) ∧
      ∀ q, q ∈ (deliverOne unmarshal t service e.token e.now₁ e.locked e.call₁ e.ok e.now₂ e.call₂).1 ↔
        q ∈ t ∧ q.id ≠ r.id ∨ accepted unmarshal r e = false ∧ q = Row.retried r e := by
  obtain ⟨hlocked, hcall₁, hcall₂⟩ := he.alone
  have hfinish := finish_taken e.token (p := r.payload) (n := r.attempts + 1) (candidate_spec h).1 he.times.2.2
    (accepted unmarshal r e) rfl
  rw [hlocked, hcall₁, hcall₂, deliverOne, claim_candidate h hr]
  dsimp only
  rw [show sendPayload unmarshal ⟨r.id, e.token, r.payload, r.attempts + 1⟩ e.ok = accepted unmarshal r e from rfl]
  rcases hf : finish _ _ (accepted unmarshal r e) e.now₂ .answered with ⟨t', r'⟩
  rw [hf] at hfinish
  obtain ⟨hok, hmem⟩ := hfinish
  dsimp only at hok hmem
  rw [hok]
  exact ⟨rfl, hmem⟩

/-- The rows of a service that are due at `T`, in order and without leases. -/
structure Queue (t : Outbox) (service : String) (T : Int) (rows : List Row) : Prop where
  sorted : rows.Pairwise fun r q => r.before q = true
  due : ∀ r, r ∈ rows ↔ r ∈ t ∧ r.service = service ∧ r.nextAttempt ≤ T
  free : ∀ r ∈ rows, r.unleased T = true ∧ r.attempts < maxInt64

variable {rows : List Row}

theorem before_asymm (h : r.before q = true) : q.before r = false := by
  simp only [Row.before, Bool.or_eq_true, Bool.and_eq_true, decide_eq_true_eq, beq_iff_eq, Bool.or_eq_false_iff,
    Bool.and_eq_false_iff, decide_eq_false_iff_not, beq_eq_false_iff_ne] at h ⊢
  omega

theorem Queue.notMem (h : Queue t service T (r :: rows)) : r ∉ rows := fun hmem => by
  have hself := (List.pairwise_cons.mp h.sorted).1 r hmem
  rw [before_asymm hself] at hself
  cases hself

theorem Queue.id_ne (h : Queue t service T (r :: rows)) (hq : q ∈ t) : q.id ≠ r.id ↔ q ≠ r := by
  have hr := ((h.due r).mp List.mem_cons_self).1
  exact not_congr ⟨fun hid => Table.eq_of_key hq hr hid, fun he => he ▸ rfl⟩

/-- A row that becomes due later comes behind them. -/
theorem Queue.candidate_eq (h : Queue t service T (r :: rows)) (hT : T ≤ now) : candidate t service now [] = some r := by
  obtain ⟨hr, hs, hdue⟩ := (h.due r).mp List.mem_cons_self
  have hfree : r.unleased now = true :=
    unleased_iff.mpr fun l hl => Int.le_trans (unleased_iff.mp (h.free r List.mem_cons_self).1 l hl) hT
  refine Table.firstBy_eq_some (List.mem_filter.mpr ⟨hr, ?_⟩) fun q hq hne => ?_
  · simp [hs, Int.le_trans hdue hT, hfree]
  · obtain ⟨hqt, hcond⟩ := List.mem_filter.mp hq
    simp only [Bool.and_eq_true, beq_iff_eq] at hcond
    have hbefore : r.before q = true := by
      by_cases hq' : q.nextAttempt ≤ T
      · have hmem := (h.due q).mpr ⟨hqt, hcond.1.1.1, hq'⟩
        exact (List.pairwise_cons.mp h.sorted).1 q ((List.mem_cons.mp hmem).resolve_left hne)
      · have hlt : r.nextAttempt < q.nextAttempt := by omega
        simp [Row.before, hlt]
    exact ⟨hbefore, before_asymm hbefore⟩

theorem one_le_retrySeconds (n : Int) : 1 ≤ retrySeconds n := by
  unfold retrySeconds
  split
  · decide
  · split
    · decide
    · exact Int.pow_pos (by decide)

theorem retried_later (he : Smooth T e) : T < (Row.retried r e).nextAttempt := by
  have hone := one_le_retrySeconds (r.attempts + 1)
  have htimes := he.times
  show T < e.now₂ + retrySeconds (r.attempts + 1) * 1000000
  omega

theorem Queue.tail {t' : Outbox} (h : Queue t service T (r :: rows)) (he : Smooth T e) {b : Bool}
    (ht' : ∀ q, q ∈ t' ↔ q ∈ t ∧ q.id ≠ r.id ∨ b = false ∧ q = Row.retried r e) : Queue t' service T rows where
  sorted := (List.pairwise_cons.mp h.sorted).2
  free := fun q hq => h.free q (List.mem_cons_of_mem r hq)
  due := by
    intro q
    rw [ht']
    constructor
    · intro hq
      obtain ⟨hqt, hdue⟩ := (h.due q).mp (List.mem_cons_of_mem r hq)
      exact ⟨.inl ⟨hqt, (h.id_ne hqt).mpr fun heq => h.notMem (heq ▸ hq)⟩, hdue⟩
    · rintro ⟨⟨hqt, hid⟩ | ⟨-, rfl⟩, hdue⟩
      · exact (List.mem_cons.mp ((h.due q).mpr ⟨hqt, hdue⟩)).resolve_left ((h.id_ne hqt).mp hid)
      · have hlater := retried_later (r := r) he
        omega

/-- A relay that runs alone takes the due rows one after the other in their order, each once, whatever
becomes of the ones before: those that are accepted go, the others stay to be retried, and no other row
is touched. -/
theorem relay_in_order (unmarshal : Bytes → Option ε) (service : String) (T : Int) (rows : List Row)
    (es : List Round) (t : Outbox) (hqueue : Queue t service T rows) (hes : ∀ e ∈ es, Smooth T e)
    (hlen : es.length = rows.length) :
    (run unmarshal service t es).2 = (rows.zip es).map (fun p =>
        (true, if accepted unmarshal p.1 p.2 then .ok () else .error .deliveryFailed)) ∧
      ∀ q, q ∈ (run unmarshal service t es).1 ↔
        q ∈ t ∧ q ∉ rows ∨ ∃ p ∈ rows.zip es, accepted unmarshal p.1 p.2 = false ∧ q = Row.retried p.1 p.2 := by
  induction rows generalizing es t with
  | nil =>
    obtain rfl := List.length_eq_zero_iff.mp hlen
    simp [run]
  | cons r rows ih =>
    rcases es with _ | ⟨e, es⟩
    · cases hlen
    obtain ⟨he, hes⟩ := List.forall_mem_cons.mp hes
    obtain ⟨hresult, hmem⟩ := deliverOne_candidate unmarshal he (hqueue.candidate_eq he.times.1)
      (hqueue.free r List.mem_cons_self).2
    obtain ⟨hresults, hmems⟩ := ih es _ (hqueue.tail he hmem) hes (Nat.succ.inj hlen)
    refine ⟨?_, fun q => ?_⟩
    · rw [run, hresults, hresult]
      rfl
    · have hretried : Row.retried r e ∉ rows := fun h => by
        have hdue := ((hqueue.due _).mp (List.mem_cons_of_mem r h)).2.2
        have hlater := retried_later (r := r) he
        omega
      rw [run, hmems, hmem, List.zip_cons_cons, List.exists_mem_cons_iff, List.mem_cons]
      constructor
      · rintro (⟨⟨hq, hid⟩ | hq, hnot⟩ | hq)
        · exact .inl ⟨hq, not_or.mpr ⟨(hqueue.id_ne hq).mp hid, hnot⟩⟩
        · exact .inr (.inl hq)
        · exact .inr (.inr hq)
      · rintro (⟨hq, hnot⟩ | ⟨hb, rfl⟩ | hq)
        · obtain ⟨hne, hnot⟩ := not_or.mp hnot
          exact .inl ⟨.inl ⟨hq, (hqueue.id_ne hq).mpr hne⟩, hnot⟩
        · exact .inl ⟨.inr ⟨hb, rfl⟩, hretried⟩
        · exact .inr hq

def twoRows : Outbox := ⟨[newRow 1 "csar" [1] 0, newRow 2 "csar" [2] 0], by decide⟩

theorem queue_twoRows : Queue twoRows "csar" 0 twoRows.rows where
  sorted := by decide
  free := by decide
  due := fun r => ⟨fun hr => ⟨hr, (by decide : ∀ r ∈ twoRows.rows, r.service = "csar" ∧ r.nextAttempt ≤ 0) r hr⟩, And.left⟩

/-- An event that is rejected does not hold up the one behind it. -/
theorem relay_in_order_rejected :
    (run some "csar" twoRows [⟨7, 0, [], .answered, false, 1, .answered⟩, ⟨8, 2, [], .answered, true, 3, .answered⟩]).2 =
      [(true, .error .deliveryFailed), (true, .ok ())] := by
  refine (relay_in_order some "csar" 0 twoRows.rows _ twoRows queue_twoRows ?_ rfl).1
  simp only [List.forall_mem_cons]
  exact ⟨⟨by decide, by decide⟩, ⟨by decide, by decide⟩, fun e he => absurd he List.not_mem_nil⟩

end Relay

end Csar.Proof.Audit
