import CsarCore.Spec.HTTP

/-!
# The life of a server

`ServerMoves` is what a step can do (`moves_of_server`). Only one call gets past the
first compare-and-swap (`Inv.one`), and the state goes from idle to serving only while
nothing has ended (`Inv.going`): `server_lifecycle`.
-/

namespace Csar.Proof.HTTPServer

open Impl.HTTPServer Spec.HTTPServer

variable {ν κ : Type} [DecidableEq κ] {s s' : Server ν κ} {tr : ServerHistory ν κ} {a : ServerAct ν κ}
  {o : ServerEvent ν} {j k : κ}

/-! ## Steps -/

inductive ServerMoves (s : Server ν κ) : ServerAct ν κ → Server ν κ → ServerEvent ν → Prop
  | listenAndServe {k : κ} (hk : s.calls k = .idle) (hs : s.state = .idle) :
    ServerMoves s (.listenAndServe k) ({ s with state := .starting }.goto k .listening) .started
  | serve {k : κ} {ln : ν} (hk : s.calls k = .idle) (hs : s.state = .idle) :
    ServerMoves s (.serve k ln) ({ s with state := .starting }.goto k (.bound ln)) .started
  | refused {a : ServerAct ν κ} {k : κ} {closed : Option ν} (hk : s.calls k = .idle) (hs : s.state ≠ .idle) :
    ServerMoves s a (s.goto k .refused) (.refused closed)
  | bound {k : κ} {ln : ν} (hk : s.calls k = .listening) :
    ServerMoves s (.listen k (some ln)) (s.goto k (.bound ln)) (.bound ln)
  | unbound {k : κ} (hk : s.calls k = .listening) : ServerMoves s (.listen k none) (s.goto k .unbound) .unbound
  | failed {k : κ} (hk : s.calls k = .unbound) :
    ServerMoves s (.unbound k) ({ s with state := .stopped }.goto k .returned) .failed
  | served {k : κ} {ln : ν} (hk : s.calls k = .bound ln) :
    ServerMoves s (.enter k) (s.goto k (.serving ln)) (.served ln)
  | first {k : κ} {ln : ν} (hk : s.calls k = .serving ln) (hs : s.state = .starting) :
    ServerMoves s (.accept k) { s with state := .serving } (.accept ln)
  | accept {k : κ} {ln : ν} (hk : s.calls k = .serving ln) (hs : s.state ≠ .starting) :
    ServerMoves s (.accept k) s (.accept ln)
  | left {k : κ} {ln : ν} (hk : s.calls k = .serving ln) : ServerMoves s (.leave k) (s.goto k (.leaving ln)) .left
  | returned {k : κ} {ln : ν} (hk : s.calls k = .leaving ln) :
    ServerMoves s (.stop k) ({ s with state := .stopped }.goto k .returned) .returned
  | shutdown : ServerMoves s .shutdown { s with state := .draining } .shutdown
  | isServing : ServerMoves s .isServing s (.answer (isServing s))

theorem start_eq {next : Call ν} {closed : Option ν} :
    start s k next closed =
      if s.state = .idle then ({ s with state := .starting }.goto k next, .started)
      else (s.goto k .refused, .refused closed) := by
  unfold start compareAndSwap
  by_cases h : s.state = .idle
  · rw [if_pos h, if_pos h]
  · rw [if_neg h, if_neg h]

theorem moves_of_server (h : serverSystem.step s a = some (s', o)) : ServerMoves s a s' o := by
  cases a with
  | listenAndServe k =>
    simp only [serverSystem, serverStep, start_eq] at h
    split at h <;> [skip; cases h]
    split at h <;> cases h
    · exact .listenAndServe ‹_› ‹_›
    · exact .refused ‹_› ‹_›
  | serve k ln =>
    simp only [serverSystem, serverStep, start_eq] at h
    split at h <;> [skip; cases h]
    split at h <;> cases h
    · exact .serve ‹_› ‹_›
    · exact .refused ‹_› ‹_›
  | listen k ln =>
    simp only [serverSystem, serverStep] at h
    split at h <;> cases h
    · exact .bound ‹_›
    · exact .unbound ‹_›
  | unbound k =>
    simp only [serverSystem, serverStep] at h
    split at h <;> cases h
    exact .failed ‹_›
  | enter k =>
    simp only [serverSystem, serverStep] at h
    split at h <;> cases h
    exact .served ‹_›
  | accept k =>
    simp only [serverSystem, serverStep, compareAndSwap] at h
    split at h <;> [skip; cases h]
    split at h <;> cases h
    · exact .first ‹_› ‹_›
    · exact .accept ‹_› ‹_›
  | leave k =>
    simp only [serverSystem, serverStep] at h
    split at h <;> cases h
    exact .left ‹_›
  | stop k =>
    simp only [serverSystem, serverStep] at h
    split at h <;> cases h
    exact .returned ‹_›
  | shutdown =>
    cases h
    exact .shutdown
  | isServing =>
    cases h
    exact .isServing

/-! ## Calls -/

def Started : Call ν → Prop
  | .idle => False
  | .refused => False
  | _ => True

/-- A call may have had a listener served. -/
def Entered : Call ν → Prop
  | .serving _ => True
  | .leaving _ => True
  | .returned => True
  | _ => False

def listener : Call ν → Option ν
  | .serving ln => some ln
  | .leaving ln => some ln
  | _ => none

/-- One call gets to serve, and has one listener. -/
structure Calls (tr : ServerHistory ν κ) (s : Server ν κ) : Prop where
  idle : s.state = .idle → ∀ k, ¬ Started (s.calls k)
  one : ∀ j k, Started (s.calls j) → Started (s.calls k) → j = k
  before : (∀ k, ¬ Entered (s.calls k)) → served tr = []
  during : ∀ k ln, listener (s.calls k) = some ln → served tr = [ln]
  atMost : (served tr).length ≤ 1

variable {x : Call ν}

omit [DecidableEq κ] in
theorem started_of_entered (h : Entered x) : Started x := by
  cases x <;> trivial

omit [DecidableEq κ] in
theorem entered_of_listener {ln : ν} (h : listener x = some ln) : Entered x := by
  cases x <;> trivial

theorem goto_calls {P : κ → Call ν → Prop} (hx : P k x) (h : ∀ j, j ≠ k → P j (s.calls j)) :
    ∀ j, P j ((s.goto k x).calls j) := by
  intro j
  by_cases hjk : j = k
  · subst hjk
    rw [show (s.goto j x).calls j = x from Function.update_self ..]
    exact hx
  · rw [show (s.goto k x).calls j = s.calls j from Function.update_of_ne hjk ..]
    exact h j hjk

theorem Calls.goto (h : Calls tr s) (hcalls : s'.calls = (s.goto k x).calls)
    (hst : Started x → Started (s.calls k)) (hen : Entered (s.calls k) → Entered x)
    (hln : ∀ ln, listener x = some ln → listener (s.calls k) = some ln) (hidle : s'.state = .idle → s.state = .idle)
    (htr : served ((a, o) :: tr) = served tr) : Calls ((a, o) :: tr) s' := by
  have hst' : ∀ j, Started ((s.goto k x).calls j) → Started (s.calls j) :=
    goto_calls (P := fun j y => Started y → Started (s.calls j)) hst fun _ _ => id
  have hen' : ∀ j, Entered (s.calls j) → Entered ((s.goto k x).calls j) :=
    goto_calls (P := fun j y => Entered (s.calls j) → Entered y) hen fun _ _ => id
  have hln' : ∀ j ln, listener ((s.goto k x).calls j) = some ln → listener (s.calls j) = some ln :=
    goto_calls (P := fun j y => ∀ ln, listener y = some ln → listener (s.calls j) = some ln) hln fun _ _ _ => id
  constructor
  · intro hs k hk
    rw [hcalls] at hk
    exact h.idle (hidle hs) k (hst' k hk)
  · intro i j hi hj
    rw [hcalls] at hi hj
    exact h.one i j (hst' i hi) (hst' j hj)
  · intro hno
    rw [htr]
    refine h.before fun j hj => hno j ?_
    rw [hcalls]
    exact hen' j hj
  · intro j ln hj
    rw [hcalls] at hj
    rw [htr]
    exact h.during j ln (hln' j ln hj)
  · rw [htr]
    exact h.atMost

theorem Calls.start (h : Calls tr s) (hs : s.state = .idle) (hln : listener x = none)
    (htr : served ((a, o) :: tr) = served tr) : Calls ((a, o) :: tr) ({ s with state := .starting }.goto k x) := by
  have hno := h.idle hs
  have hself : ∀ j, Started ((s.goto k x).calls j) → j = k :=
    goto_calls (P := fun j y => Started y → j = k) (fun _ => rfl) fun j _ hj => absurd hj (hno j)
  have hnone : served tr = [] := h.before fun j hj => hno j (started_of_entered hj)
  refine ⟨nofun, fun i j hi hj => (hself i hi).trans (hself j hj).symm, fun _ => htr.trans hnone, ?_, ?_⟩
  · refine goto_calls (s := s) (P := fun _ y => ∀ ln, listener y = some ln → served ((a, o) :: tr) = [ln]) ?_
      fun j _ ln hj => ?_
    · intro ln hln'
      rw [hln] at hln'
      cases hln'
    · exact absurd (started_of_entered (entered_of_listener hj)) (hno j)
  · rw [htr, hnone]
    exact Nat.zero_le 1

theorem Calls.enter (h : Calls tr s) {ln : ν} (hk : s.calls k = .bound ln) :
    served tr = [] ∧ Calls ((.enter k, .served ln) :: tr) (s.goto k (.serving ln)) := by
  have hst : Started (s.calls k) := by rw [hk]; trivial
  have hself : ∀ j, Started (s.calls j) → j = k := fun j hj => h.one j k hj hst
  have hnone : served tr = [] := by
    refine h.before fun j hj => ?_
    rw [hself j (started_of_entered hj), hk] at hj
    exact hj
  have hserved : served ((.enter k, .served ln) :: tr : ServerHistory ν κ) = [ln] := by
    show served tr ++ [ln] = [ln]
    rw [hnone]
    rfl
  have hst' : ∀ j, Started ((s.goto k (.serving ln)).calls j) → j = k :=
    goto_calls (P := fun j y => Started y → j = k) (fun _ => rfl) fun j _ => hself j
  refine ⟨hnone, fun hs => absurd hst (h.idle hs k), fun i j hi hj => (hst' i hi).trans (hst' j hj).symm, ?_, ?_, ?_⟩
  · intro hno
    refine absurd ?_ (hno k)
    rw [show (s.goto k (.serving ln)).calls k = .serving ln from Function.update_self ..]
    trivial
  · rw [hserved]
    refine goto_calls (P := fun _ y => ∀ l, listener y = some l → [ln] = [l]) ?_ fun j hj l hl => ?_
    · intro l hl
      cases hl
      rfl
    · have hd := h.during j l hl
      rw [hnone] at hd
      cases hd
  · rw [hserved]
    exact Nat.le_refl 1

theorem calls_step (h : Calls tr s) (hs : ServerMoves s a s' o) : Calls ((a, o) :: tr) s' := by
  cases hs with
  | listenAndServe hk hs | serve hk hs => exact h.start hs rfl rfl
  | refused hk _ => exact h.goto rfl False.elim (by rw [hk]; exact False.elim) nofun id rfl
  | bound hk
  | unbound hk => exact h.goto rfl (by rw [hk]; exact id) (by rw [hk]; exact id) nofun id rfl
  | failed hk
  | returned hk => exact h.goto rfl (by rw [hk]; exact id) (fun _ => trivial) nofun nofun rfl
  | served hk => exact (h.enter hk).2
  | left hk => exact h.goto rfl (by rw [hk]; exact id) (fun _ => trivial) (by rw [hk]; exact fun _ => id) id rfl
  | first hk hs | shutdown => exact ⟨nofun, h.one, h.before, h.during, h.atMost⟩
  | accept | isServing => exact ⟨h.idle, h.one, h.before, h.during, h.atMost⟩

/-! ## The state word -/

/-- The word has only been swapped. -/
def Going : State → Prop
  | .draining => False
  | .stopped => False
  | _ => True

/-- While the word was only swapped nothing has ended, and it says serving only for a listener that was
asked. -/
structure Word (tr : ServerHistory ν κ) (s : Server ν κ) : Prop where
  going : Going s.state → ¬ Over tr
  ready : s.state = .serving → Accepting tr

omit [DecidableEq κ] in
theorem over_cons (h : ¬ Over tr) (ho : ¬ Ends o) : ¬ Over ((a, o) :: tr) := by
  rintro ⟨e, he, hends⟩
  rcases List.mem_cons.mp he with rfl | he
  · exact ho hends
  · exact h ⟨e, he, hends⟩

omit [DecidableEq κ] in
theorem accepting_cons (h : Accepting tr) (htr : served ((a, o) :: tr) = served tr) : Accepting ((a, o) :: tr) := by
  obtain ⟨ln, hserved, e, he, hacc⟩ := h
  exact ⟨ln, htr.trans hserved, e, List.mem_cons_of_mem _ he, hacc⟩

omit [DecidableEq κ] in
theorem Word.keep (h : Word tr s) (hs : s'.state = s.state) (ho : ¬ Ends o)
    (htr : served ((a, o) :: tr) = served tr) : Word ((a, o) :: tr) s' where
  going hg := over_cons (h.going (hs ▸ hg)) ho
  ready hr := accepting_cons (h.ready (hs ▸ hr)) htr

theorem word_step (h : Word tr s) (hcalls : Calls tr s) (hs : ServerMoves s a s' o) : Word ((a, o) :: tr) s' := by
  cases hs with
  | listenAndServe _ hs
  | serve _ hs => exact ⟨fun _ => over_cons (h.going (by rw [hs]; trivial)) id, nofun⟩
  | failed | returned | shutdown => exact ⟨False.elim, nofun⟩
  | @served k ln hk =>
    refine ⟨fun hg => over_cons (h.going hg) id, fun hr => ?_⟩
    -- nothing is ready before the first listener is served
    obtain ⟨l, hserved, -⟩ := h.ready hr
    rw [(hcalls.enter hk).1] at hserved
    cases hserved
  | @first k ln hk hs =>
    refine ⟨fun _ => over_cons (h.going (by rw [hs]; trivial)) id, fun _ => ⟨ln, ?_, _, List.mem_cons_self, rfl⟩⟩
    exact hcalls.during k ln (by rw [hk]; rfl)
  | _ => exact h.keep rfl id rfl

/-! ## Runs -/

theorem server_inv (h : serverSystem.Run tr s) : Calls tr s ∧ Word tr s := by
  refine h.inv (I := fun tr s => Calls tr s ∧ Word tr s) ?_ fun hinv _ hs => ?_
  · refine ⟨⟨fun _ _ => id, nofun, fun _ => rfl, nofun, Nat.zero_le 1⟩, ⟨?_, nofun⟩⟩
    rintro - ⟨e, he, -⟩
    cases he
  · have hm := moves_of_server hs
    exact ⟨calls_step hinv.1 hm, word_step hinv.2 hinv.1 hm⟩

omit [DecidableEq κ] in
theorem isServing_iff : isServing s = true ↔ s.state = .serving := beq_iff_eq

/-- At most one listener is served. `IsServing` is true only after it was asked for a connection, and
false once `Shutdown` was issued or `serve` has returned. -/
theorem server_lifecycle (h : serverSystem.Run tr s) :
    (served tr).length ≤ 1 ∧ (isServing s = true → Accepting tr ∧ ¬ Over tr) ∧ (Over tr → isServing s = false) ∧
    ∀ {post pre : ServerHistory ν κ} {b : Bool}, tr = post ++ (.isServing, .answer b) :: pre →
      (b = true → Accepting pre ∧ ¬ Over pre) ∧ (Over pre → b = false) := by
  have hserving : ∀ {tr : ServerHistory ν κ} {s}, serverSystem.Run tr s → isServing s = true →
      Accepting tr ∧ ¬ Over tr := by
    intro tr s h hs
    obtain ⟨-, hword⟩ := server_inv h
    rw [isServing_iff] at hs
    exact ⟨hword.ready hs, hword.going (by rw [hs]; trivial)⟩
  have hover : ∀ {tr : ServerHistory ν κ} {s}, serverSystem.Run tr s → Over tr → isServing s = false := by
    intro tr s h ho
    by_contra hs
    exact (hserving h (by simpa using hs)).2 ho
  refine ⟨(server_inv h).1.atMost, hserving h, hover h, fun {post pre b} htr => ?_⟩
  obtain ⟨s₀, s₁, h₀, -, hs⟩ := h.split htr
  cases moves_of_server hs with
  | isServing => exact ⟨hserving h₀, hover h₀⟩

theorem server_lifecycle_ready :
    ∃ (post pre : ServerHistory Unit Unit) (s : Server Unit Unit),
      serverSystem.Run (post ++ (.isServing, .answer true) :: pre) s ∧ Accepting pre ∧
        Over (post ++ (.isServing, .answer true) :: pre) ∧ isServing s = false := by
  have h := System.run_of_exec serverSystem
    [(.serve () () : ServerAct Unit Unit), .enter (), .accept (), .isServing, .shutdown, .leave (), .stop ()] rfl
  obtain ⟨post, pre, s, h, hend⟩ : ∃ (post pre : ServerHistory Unit Unit) (s : Server Unit Unit),
      serverSystem.Run (post ++ (.isServing, .answer true) :: pre) s ∧ Over (post ++ (.isServing, .answer true) :: pre) :=
    ⟨[_, _, _], _, _, h, (.stop (), .returned), List.mem_cons_self, trivial⟩
  obtain ⟨-, -, hover, hanswer⟩ := server_lifecycle h
  exact ⟨post, pre, s, h, ((hanswer rfl).1 rfl).1, hend, hover hend⟩

end Csar.Proof.HTTPServer
