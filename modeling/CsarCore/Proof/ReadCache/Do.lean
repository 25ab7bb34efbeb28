import CsarCore.Proof.ReadCache.Group

/-!
# The in-flight registry: agreement

A run with callers of `Do` is a run of the group's operations (`run_ops`). `Justified` is
what a caller relies on: its ticket is still the key's or is completed, and what it is
about to return is what that completed with. Operations of others keep it
(`Justified.mono`). `group_agreement` puts the parts together.
-/

namespace Csar.Proof.ReadCache

open Impl.ReadCache Spec.ReadCache

variable {θ τ ε : Type} {e : Op τ ε × Res τ ε} {H : History τ ε} {lim : Limits} {g g' : Group τ ε} {key : Key}
  {c : Nat} {out : Outcome τ ε} {s s' : DoSystemState θ τ ε} {o : DoObs τ ε} {t : θ}

/-! ## Longer histories -/

theorem completions_cons (c : Nat) (e : Op τ ε × Res τ ε) (H : History τ ε) :
    completions c (e :: H) = completions c H ∨
      ∃ key out, e = (.finish key (some c) out, .finished true) ∧
        completions c (e :: H) = out :: completions c H := by
  rcases e with ⟨_ | _ | ⟨key, _ | d, out⟩ | _, _ | _ | _ | _ | ⟨_ | _⟩ | _⟩ <;>
    try exact .inl rfl
  simp only [completions]
  split
  · rename_i hd; subst hd; exact .inr ⟨key, out, rfl, rfl⟩
  · exact .inl rfl

theorem mem_unfinished_cons {x : Key × Nat}
    (h : x ∈ unfinished (e :: H)) : x ∈ unfinished H ∨ ∃ i, e = (.begin x.1, .leader x.2 i) := by
  rcases e with ⟨key | _ | ⟨key, _ | d, out⟩ | _, _ | ⟨c, i⟩ | _ | _ | ⟨_ | _⟩ | _⟩ <;>
    try exact .inl h
  · simp only [unfinished, List.mem_cons] at h
    rcases h with rfl | h
    · exact .inr ⟨i, rfl⟩
    · exact .inl h
  · exact .inl (List.mem_of_mem_filter h)

theorem unfinished_or_completed {x : Key × Nat} (h : x ∈ unfinished H)
    (e : Op τ ε × Res τ ε) : x ∈ unfinished (e :: H) ∨ completions x.2 (e :: H) ≠ [] := by
  rcases e with ⟨_ | _ | ⟨key, _ | d, out⟩ | _, _ | _ | _ | _ | ⟨_ | _⟩ | _⟩ <;>
    try exact .inl h
  · exact .inl (List.mem_cons_of_mem _ h)
  · by_cases hd : d = x.2
    · exact .inr (by simp [completions, hd])
    · exact .inl (List.mem_filter.mpr ⟨h, by simpa using Ne.symm hd⟩)

theorem ops_cons_none {tr : List (DoAct θ τ ε × DoObs τ ε)} {a : DoAct θ τ ε}
    (ho : o.op = none) : ops ((a, o) :: tr) = ops tr :=
  List.filterMap_cons_none ho

theorem ops_cons_some {tr : List (DoAct θ τ ε × DoObs τ ε)} {a : DoAct θ τ ε}
    (ho : o.op = some e) : ops ((a, o) :: tr) = e :: ops tr :=
  List.filterMap_cons_some ho

theorem Inv.completed (h : Inv lim H g) (hm : out ∈ completions c H) : completions c H = [out] := by
  have := h.once c
  rcases hc : completions c H with _ | ⟨x, _ | ⟨y, l⟩⟩ <;> rw [hc] at this hm
  · cases hm
  · rw [List.mem_singleton.mp hm]
  · simp at this

theorem Inv.exists_completed (h : Inv lim H g) (hc : completions c H ≠ []) :
    ∃ out, completions c H = [out] := by
  obtain ⟨out, hm⟩ := List.exists_mem_of_ne_nil _ hc
  exact ⟨out, h.completed hm⟩

theorem Inv.result_eq (h : Inv lim H g) : (g.heap c).result = some out ↔ completions c H = [out] := by
  rw [h.results c]
  constructor
  · intro hr; exact h.completed (List.mem_of_mem_head? hr)
  · intro hr; rw [hr]; rfl

theorem Inv.completed_cons (h : Inv lim (e :: H) g)
    (hc : completions c H = [out]) : completions c (e :: H) = [out] := by
  refine h.completed ?_
  rcases completions_cons c e H with he | ⟨-, x, -, he⟩ <;> rw [he, hc] <;> simp

theorem Inv.finish_refused (h : Inv lim H g)
    {call : Option Nat} (out : Outcome τ ε) (hn : ∀ c, call = some c → (key, c) ∉ unfinished H) :
    g.finish key call out = (g, false) := by
  rcases finish_cases g key call out with ⟨e, -⟩ | ⟨c, hc, hm, -⟩
  · exact e
  · exact absurd (h.mem_calls.mp hm) (hn c hc)

/-! ## What a caller relies on -/

/-- The ticket `c` is the current one of `key`, or it is completed. -/
def Owned (H : History τ ε) (key : Key) (c : Nat) : Prop :=
  (key, c) ∈ unfinished H ∨ completions c H ≠ []

/-- What holds of the caller of a `Do` at each point. -/
def Justified (H : History τ ε) (g : Group τ ε) : DoState τ ε → Prop
  | .idle => True
  | .waiting _ i => i < g.nextRelease
  | .loading key c i => i < g.nextRelease ∧ Owned H key c
  | .loaded key c i _ => i < g.nextRelease ∧ Owned H key c
  | .deferred key c i ret => i < g.nextRelease ∧ Owned H key c ∧
      (ret = .panicked c ∨ ∃ out, ret = .loaded c out ∧ Settled H ret)
  | .releasing i ret => i < g.nextRelease ∧ Settled H ret

theorem Owned.cons (h : Owned H key c) : Owned (e :: H) key c := by
  rcases h with h | h
  · exact unfinished_or_completed h e
  · refine .inr ?_
    rcases completions_cons c e H with he | ⟨-, x, -, he⟩ <;> rw [he]
    · exact h
    · simp

theorem settled_cons (hi : Inv lim (e :: H) g) {ret : DoEnd τ ε} (h : Settled H ret) :
    Settled (e :: H) ret := by
  cases ret with
  | cancelled out => trivial
  | refused out => trivial
  | joined c out => exact hi.completed_cons h
  | loaded c out =>
    rcases h with h | ⟨⟨key, hf⟩, out', h⟩
    · exact .inl (hi.completed_cons h)
    · exact .inr ⟨⟨key, List.mem_cons_of_mem _ hf⟩, out', hi.completed_cons h⟩
  | panicked c =>
    obtain ⟨out, h⟩ := h
    exact ⟨out, hi.completed_cons h⟩

theorem Justified.mono (hi : Inv lim (e :: H) g') (hr : g.nextRelease ≤ g'.nextRelease)
    {x : DoState τ ε} (h : Justified H g x) : Justified (e :: H) g' x := by
  cases x with
  | idle => trivial
  | waiting c i => exact Nat.lt_of_lt_of_le h hr
  | loading key c i | loaded key c i out => exact ⟨Nat.lt_of_lt_of_le h.1 hr, h.2.cons⟩
  | deferred key c i ret =>
    refine ⟨Nat.lt_of_lt_of_le h.1 hr, h.2.1.cons, ?_⟩
    rcases h.2.2 with hp | ⟨out, hret, hs⟩
    · exact .inl hp
    · exact .inr ⟨out, hret, settled_cons hi hs⟩
  | releasing i ret => exact ⟨Nat.lt_of_lt_of_le h.1 hr, settled_cons hi h.2⟩

theorem begin_nextRelease (lim : Limits) (g : Group τ ε) (key : Key) :
    g.nextRelease ≤ (g.begin lim key).1.nextRelease := by
  rcases begin_cases lim g key with ⟨-, e⟩ | ⟨-, e, -⟩ | ⟨-, c, -, -, e⟩ | ⟨-, hn, -, e⟩ <;> rw [e]
  · exact Nat.le_succ _
  · exact Nat.le_succ _

section Runs

variable [Inhabited τ] {lim : GroupLimits} {r : Res τ ε} {ended : Option ε}

theorem step_nextRelease {o : Op τ ε} (h : step lim g o = some (g', r)) : g.nextRelease ≤ g'.nextRelease := by
  rcases step_cases h with ⟨key, -, e⟩ | ⟨i, -, -, rfl, -⟩ | ⟨key, call, out, -, rfl, -⟩ | ⟨-, -, -, -, rfl, -⟩
  · have := begin_nextRelease lim.toLimits g key
    rwa [e] at this
  · rcases release_cases g i with ⟨e, -⟩ | ⟨_, -, e⟩ <;> rw [e]
  · rcases finish_cases g key call out with ⟨e, -⟩ | ⟨_, -, -, e⟩ <;> rw [e]
  · exact le_rfl

theorem justified_afterBegin (hs : step lim g (.begin key) = some (g', r)) :
    Justified ((.begin key, r) :: H) g' (afterBegin key r).1 := by
  simp only [step, Option.some.injEq] at hs
  rcases begin_cases lim.toLimits g key with ⟨-, e⟩ | ⟨-, e, -⟩ | ⟨-, c, -, -, e⟩ | ⟨-, hn, -, e⟩ <;>
    cases e.symm.trans hs
  · trivial
  · trivial
  · exact Nat.lt_succ_self _
  · exact ⟨Nat.lt_succ_self _, .inl List.mem_cons_self⟩

/-- A `Finish` of a ticket that the caller owns completes it with `out`, unless it was before. -/
theorem finished_owned (hi : Inv lim.toLimits H g) (hown : Owned H key c)
    (hs : step lim g (.finish key (some c) out) = some (g', r)) :
    (r = .finished true ∧ (key, c) ∈ unfinished H ∧
      completions c ((.finish key (some c) out, r) :: H) = [out]) ∨
    (r = .finished false ∧ (key, c) ∉ unfinished H ∧ g' = g ∧ ∃ out', completions c H = [out'] ∧
      completions c ((.finish key (some c) out, r) :: H) = [out']) := by
  simp only [step, Option.some.injEq, Prod.mk.injEq] at hs
  obtain ⟨rfl, rfl⟩ := hs
  rcases finish_cases g key (some c) out with ⟨e, hn⟩ | ⟨d, hd, hm, e⟩ <;> rw [e]
  · have hn : (key, c) ∉ unfinished H := fun hm => hn c rfl (hi.mem_calls.mpr hm)
    obtain ⟨out', ho⟩ := hi.exists_completed (hown.resolve_left hn)
    exact .inr ⟨rfl, hn, rfl, out', ho, ho⟩
  · cases hd
    have hm := hi.mem_calls.mp hm
    exact .inl ⟨rfl, hm, by simp [completions, hi.pending _ hm]⟩

/-! ## The steps of `Do` -/

variable [DecidableEq θ]

/-- An operation of the caller `t` in its `Do`. -/
structure Called (lim : GroupLimits) (s : DoSystemState θ τ ε) (t : θ) (b : Op τ ε)
    (f : Res τ ε → DoState τ ε × Option (DoEnd τ ε)) (s' : DoSystemState θ τ ε) (o : DoObs τ ε) (r : Res τ ε) :
    Prop where
  step : step lim s.group b = some (s'.group, r)
  callers : s'.callers = Function.update s.callers t (f r).1
  op : o.op = some (b, r)
  ret : o.ret = (f r).2

theorem called_of_call {b : Op τ ε} {f : Res τ ε → DoState τ ε × Option (DoEnd τ ε)}
    (h : s.call lim t b f = some (s', o)) : ∃ r, Called lim s t b f s' o r := by
  simp only [DoSystemState.call, Option.map_eq_some_iff, Prod.mk.injEq] at h
  obtain ⟨⟨g, r⟩, hs, rfl, rfl⟩ := h
  exact ⟨r, hs, rfl, rfl, rfl⟩

theorem doStep_op {b : Op τ ε} (h : doStep lim s (.op b) = some (s', o)) :
    ∃ r, step lim s.group b = some (s'.group, r) ∧ s'.callers = s.callers ∧ o = ⟨some (b, r), none⟩ := by
  simp only [doStep, Option.map_eq_some_iff, Prod.mk.injEq] at h
  obtain ⟨⟨g, r⟩, hs, rfl, rfl⟩ := h
  exact ⟨r, hs, rfl, rfl⟩

theorem doStep_start (h : doStep lim s (.start t key ended) = some (s', o)) :
    (∃ e, (s', o) = s.goto t .idle (some (.cancelled (default, some (.other e))))) ∨
      ∃ r, Called lim s t (.begin key) (afterBegin key) s' o r := by
  simp only [doStep] at h
  split at h
  · exact .inl ⟨_, (Option.some.inj h).symm⟩
  · exact .inr (called_of_call h)
  · cases h

theorem doStep_wait (h : doStep lim s (.wait t ended) = some (s', o)) :
    ∃ c i, s.callers t = .waiting c i ∧ ∃ r, Called lim s t (.wait c ended) (afterWait c i ended) s' o r := by
  simp only [doStep] at h
  split at h <;> [skip; cases h]
  rename_i c i hw
  exact ⟨c, i, hw, called_of_call h⟩

theorem doStep_load {out : Option (Outcome τ ε)} (h : doStep lim s (.load t out) = some (s', o)) :
    ∃ key c i, s.callers t = .loading key c i ∧
      ((∃ v, (s', o) = s.goto t (.loaded key c i v) none) ∨
        (s', o) = s.goto t (.deferred key c i (.panicked c)) none) := by
  simp only [doStep] at h
  split at h
  · rename_i key c i v hw; exact ⟨key, c, i, hw, .inl ⟨v, (Option.some.inj h).symm⟩⟩
  · rename_i key c i hw; exact ⟨key, c, i, hw, .inr (Option.some.inj h).symm⟩
  · cases h

theorem doStep_next (h : doStep lim s (.next t) = some (s', o)) :
    (∃ key c i out, s.callers t = .loaded key c i out ∧ ∃ r, Called lim s t (.finish key (some c) out)
      (fun _ => (.deferred key c i (.loaded c out), none)) s' o r) ∨
    (∃ key c i ret, s.callers t = .deferred key c i ret ∧
      ∃ r, Called lim s t (.finish key (some c) (default, some .aborted))
        (fun _ => (.releasing i ret, none)) s' o r) ∨
    ∃ i ret, s.callers t = .releasing i ret ∧
      ∃ r, Called lim s t (.release i) (fun _ => (.idle, some ret)) s' o r := by
  simp only [doStep] at h
  split at h
  · rename_i key c i out hw; exact .inl ⟨key, c, i, out, hw, called_of_call h⟩
  · rename_i key c i ret hw; exact .inr (.inl ⟨key, c, i, ret, hw, called_of_call h⟩)
  · rename_i i ret hw; exact .inr (.inr ⟨i, ret, hw, called_of_call h⟩)
  · cases h

theorem doStep_group {a : DoAct θ τ ε} (h : doStep lim s a = some (s', o)) :
    (o.op = none ∧ s'.group = s.group) ∨
      ∃ b r, o.op = some (b, r) ∧ step lim s.group b = some (s'.group, r) := by
  cases a with
  | op b =>
    obtain ⟨r, hs, -, rfl⟩ := doStep_op h
    exact .inr ⟨b, r, rfl, hs⟩
  | start t key ended =>
    rcases doStep_start h with ⟨e, he⟩ | ⟨r, hc⟩
    · cases he; exact .inl ⟨rfl, rfl⟩
    · exact .inr ⟨_, r, hc.op, hc.step⟩
  | wait t ended =>
    obtain ⟨c, i, -, r, hc⟩ := doStep_wait h
    exact .inr ⟨_, r, hc.op, hc.step⟩
  | load t out =>
    obtain ⟨key, c, i, -, ⟨v, he⟩ | he⟩ := doStep_load h <;> cases he <;> exact .inl ⟨rfl, rfl⟩
  | next t =>
    rcases doStep_next h with ⟨_, _, _, _, -, r, hc⟩ | ⟨_, _, _, _, -, r, hc⟩ | ⟨_, _, -, r, hc⟩ <;>
      exact .inr ⟨_, r, hc.op, hc.step⟩

theorem run_ops {tr : List (DoAct θ τ ε × DoObs τ ε)} (h : (doSystem lim).Run tr s) :
    (system lim).Run (ops tr) s.group := by
  refine System.RunIf.view (system lim) DoSystemState.group (fun e => e.2.op) rfl
    (fun {s a s' o} hs hv => ?_) (fun {s a s' o b r} hs hv => ?_) h
  · rcases doStep_group hs with ⟨-, hg⟩ | ⟨b, r, ho, -⟩
    · exact hg
    · exact absurd (hv.symm.trans ho) (by simp)
  · rcases doStep_group hs with ⟨ho, -⟩ | ⟨b', r', ho, hg⟩
    · exact absurd (hv.symm.trans ho) (by simp)
    · cases hv.symm.trans ho
      exact hg

end Runs

/-! ## The invariant -/

section Invariant

variable {lim : GroupLimits} {tr : List (DoAct θ τ ε × DoObs τ ε)} {a : DoAct θ τ ε}

/-- Callers are justified, and what was returned is settled. -/
structure DoInv (lim : GroupLimits) (tr : List (DoAct θ τ ε × DoObs τ ε)) (s : DoSystemState θ τ ε) :
    Prop where
  group : Inv lim.toLimits (ops tr) s.group
  callers : ∀ t, Justified (ops tr) s.group (s.callers t)
  waits : ∀ c out, (.wait c none, .waited out) ∈ ops tr → completions c (ops tr) = [out]
  returned : ∀ e ∈ tr, ∀ ret, e.2.ret = some ret → Settled (ops tr) ret

theorem DoInv.goto [DecidableEq θ] (h : DoInv lim tr s) {x : DoState τ ε}
    {ret : Option (DoEnd τ ε)} (he : (s', o) = s.goto t x ret) (hx : Justified (ops tr) s.group x)
    (hret : ∀ r, ret = some r → Settled (ops tr) r) : DoInv lim ((a, o) :: tr) s' := by
  cases he
  have hops : ops ((a, ⟨none, ret⟩) :: tr) = ops tr := ops_cons_none rfl
  constructor <;> rw [hops]
  · exact h.group
  · intro t'
    by_cases e : t' = t
    · subst e; simpa using hx
    · simpa [e] using h.callers t'
  · exact h.waits
  · intro e he r hr
    rcases List.mem_cons.mp he with rfl | he
    · exact hret r hr
    · exact h.returned e he r hr

/-- An operation on the group, after which the callers that moved are justified again. -/
theorem DoInv.operation [Inhabited τ] (h : DoInv lim tr s) {b : Op τ ε} {r : Res τ ε}
    (hs : step lim s.group b = some (s'.group, r)) (ho : o.op = some (b, r))
    (hx : ∀ t, s'.callers t = s.callers t ∨ Justified ((b, r) :: ops tr) s'.group (s'.callers t))
    (hret : ∀ ret, o.ret = some ret → Settled ((b, r) :: ops tr) ret) :
    DoInv lim ((a, o) :: tr) s' := by
  have hops : ops ((a, o) :: tr) = (b, r) :: ops tr := ops_cons_some ho
  have hi := inv_step h.group hs
  constructor <;> rw [hops]
  · exact hi
  · intro t
    rcases hx t with e | hj
    · rw [e]; exact (h.callers t).mono hi (step_nextRelease hs)
    · exact hj
  · intro c out hm
    refine hi.completed_cons ?_
    rcases List.mem_cons.mp hm with he | hm
    · cases he
      rcases step_cases hs with ⟨_, hb, -⟩ | ⟨_, _, hb, -⟩ | ⟨_, _, _, hb, -⟩ | ⟨d, ended, v, hb, -, hw, hr⟩ <;>
        cases hb
      cases hr
      exact h.group.result_eq.mp hw
    · exact h.waits c out hm
  · intro e he ret hr
    rcases List.mem_cons.mp he with rfl | he
    · exact hret ret hr
    · exact settled_cons hi (h.returned e he ret hr)

variable [Inhabited τ] [DecidableEq θ]

theorem DoInv.called (h : DoInv lim tr s) {b : Op τ ε} {r : Res τ ε}
    {f : Res τ ε → DoState τ ε × Option (DoEnd τ ε)} (hc : Called lim s t b f s' o r)
    (hx : Justified ((b, r) :: ops tr) s'.group (f r).1)
    (hret : ∀ ret, (f r).2 = some ret → Settled ((b, r) :: ops tr) ret) :
    DoInv lim ((a, o) :: tr) s' := by
  refine h.operation hc.step hc.op (fun t' => ?_) fun ret hr => hret ret (hc.ret ▸ hr)
  rw [hc.callers]
  by_cases e : t' = t
  · subst e; exact .inr (by simpa using hx)
  · exact .inl (by simp [e])

theorem doInv_step (h : DoInv lim tr s) (hs : doStep lim s a = some (s', o)) :
    DoInv lim ((a, o) :: tr) s' := by
  cases a with
  | op b =>
    obtain ⟨r, hg, hc, rfl⟩ := doStep_op hs
    exact h.operation hg rfl (fun t => .inl (by rw [hc])) (by simp)
  | start t key ended =>
    rcases doStep_start hs with ⟨e, he⟩ | ⟨r, hc⟩
    · exact h.goto he trivial (by rintro _ ⟨⟩; trivial)
    · refine h.called hc (justified_afterBegin hc.step) fun ret hr => ?_
      rcases r with _ | _ | _ | _ | _ | _ <;> cases hr
      trivial
  | wait t ended =>
    obtain ⟨c, i, hw, r, hc⟩ := doStep_wait hs
    have hi : i < s.group.nextRelease := by simpa [hw, Justified] using h.callers t
    rcases step_cases hc.step with ⟨_, hb, -⟩ | ⟨_, _, hb, -⟩ | ⟨_, _, _, hb, -⟩ | ⟨d, e', v, hb, hg, hwait, rfl⟩ <;>
      cases hb
    refine h.called hc ⟨by rw [hg]; exact hi, ?_⟩ (by simp [afterWait])
    rcases ended with _ | e
    · exact h.group.result_eq.mp hwait
    · trivial
  | load t out =>
    obtain ⟨key, c, i, hw, he⟩ := doStep_load hs
    have hj : i < s.group.nextRelease ∧ Owned (ops tr) key c := by
      simpa [hw, Justified] using h.callers t
    rcases he with ⟨v, he⟩ | he
    · exact h.goto he hj (by simp)
    · exact h.goto he ⟨hj.1, hj.2, .inl rfl⟩ (by simp)
  | next t =>
    have hj := h.callers t
    rcases doStep_next hs with ⟨key, c, i, out, hw, r, hc⟩ | ⟨key, c, i, ret, hw, r, hc⟩ | ⟨i, ret, hw, r, hc⟩ <;>
      rw [hw] at hj
    · have hlt := Nat.lt_of_lt_of_le hj.1 (step_nextRelease hc.step)
      refine h.called hc ⟨hlt, hj.2.cons, .inr ⟨out, rfl, ?_⟩⟩ (by simp)
      rcases finished_owned h.group hj.2 hc.step with ⟨-, -, ho⟩ | ⟨rfl, -, -, out', -, ho⟩
      · exact .inl ho
      · exact .inr ⟨⟨key, List.mem_cons_self⟩, out', ho⟩
    · have hlt := Nat.lt_of_lt_of_le hj.1 (step_nextRelease hc.step)
      refine h.called hc ⟨hlt, ?_⟩ (by simp)
      rcases hj.2.2 with rfl | ⟨out, -, hset⟩
      · rcases finished_owned h.group hj.2.1 hc.step with ⟨-, -, ho⟩ | ⟨-, -, -, out', -, ho⟩
        · exact ⟨_, ho⟩
        · exact ⟨out', ho⟩
      · exact settled_cons (inv_step h.group hc.step) hset
    · refine h.called hc trivial fun ret' hr => ?_
      cases hr
      exact settled_cons (inv_step h.group hc.step) hj.2

theorem doInv_run (h : (doSystem lim).Run tr s) : DoInv lim tr s := by
  refine System.RunIf.inv (M := doSystem lim) ⟨inv_init, fun _ => trivial, ?_, ?_⟩ (fun h _ hs => doInv_step h hs) h
  · intro c out hm; cases hm
  · intro e he; cases he

/-! ## Agreement -/

variable {post pre : History τ ε}

/-- After an accepted `Finish` the key has no unfinished call until its next `Begin`. -/
theorem not_unfinished_after_finish (h : (system lim).Run H g)
    (hH : H = post ++ (.finish key (some c) out, .finished true) :: pre)
    (hpost : ∀ r, (.begin key, r) ∉ post) : ¬ lim.badKey key ∧ ∀ d, (key, d) ∉ unfinished H := by
  obtain ⟨g₀, g₁, h₀, -, hs⟩ := h.split hH
  have hi := inv_run h₀
  have hm : (key, c) ∈ unfinished pre := by
    simp only [system, step, Option.some.injEq, Prod.mk.injEq, Res.finished.injEq] at hs
    rcases finish_cases g₀ key (some c) out with ⟨e, -⟩ | ⟨d, hd, hm, -⟩
    · rw [e] at hs; cases hs.2
    · cases hd; exact hi.mem_calls.mp hm
  refine ⟨hi.keys _ hm, fun d hd => ?_⟩
  -- the call was the only one of its key, and only a `Begin` makes another
  subst hH
  clear h
  induction post with
  | nil =>
    obtain ⟨hd, hne⟩ := List.mem_filter.mp hd
    have := Table.eq_of_key (hi.mem_calls.mpr hd) (hi.mem_calls.mpr hm) rfl
    cases this
    simp at hne
  | cons e post ih =>
    rcases mem_unfinished_cons hd with hd | ⟨i, rfl⟩
    · exact ih (fun r hr => hpost r (List.mem_cons_of_mem _ hr)) hd
    · exact hpost _ List.mem_cons_self

theorem begin_after_finish (h : (system lim).Run H g)
    (hH : H = post ++ (.finish key (some c) out, .finished true) :: pre)
    (hpost : ∀ r, (.begin key, r) ∉ post) :
    ∃ g' r, step lim g (.begin key) = some (g', r) ∧
      ((∃ d i, r = .leader d i) ∨ r = .refused .capacity ∧ (unfinished H).length = lim.maxKeys) := by
  obtain ⟨hb, hn⟩ := not_unfinished_after_finish h hH hpost
  refine ⟨_, _, rfl, ?_⟩
  obtain ⟨hkey, hcap, hlead⟩ := (inv_run h).begin_answer key
  by_cases hr : ∃ e, (g.begin lim.toLimits key).2 = .refused e
  · obtain ⟨e, hr⟩ := hr
    right
    rcases begin_cases lim.toLimits g key with ⟨hb', -⟩ | ⟨-, e, -⟩ | ⟨-, d, -, -, e⟩ | ⟨-, _, -, e⟩
    · exact absurd hb' hb
    · have e := congrArg Prod.snd e
      rcases (hcap.mp e).2 with ⟨d, hd, -⟩ | ⟨-, hlen⟩
      · exact absurd hd (hn d)
      · exact ⟨e, hlen⟩
    · rw [e] at hr; cases hr
    · rw [e] at hr; cases hr
  · exact .inl ((hlead fun e he => hr ⟨e, he⟩).mpr hn)

theorem DoInv.aborts (h : DoInv lim tr s) {i : Nat}
    (hw : s.callers t = .deferred key c i (.panicked c)) :
    ∃ s' o, doStep lim s (.next t) = some (s', o) ∧
      (((key, c) ∈ unfinished (ops tr) ∧
        o.op = some (.finish key (some c) (default, some .aborted), .finished true) ∧
        completions c (ops ((.next t, o) :: tr)) = [(default, some .aborted)]) ∨
      ((key, c) ∉ unfinished (ops tr) ∧ s'.group = s.group ∧ ∃ out, completions c (ops tr) = [out])) := by
  have hs : ∃ s' o, doStep lim s (.next t) = some (s', o) := by simp [doStep, hw, DoSystemState.call, step]
  obtain ⟨s', o, hs⟩ := hs
  have hj := h.callers t
  rw [hw] at hj
  refine ⟨s', o, hs, ?_⟩
  rcases doStep_next hs with ⟨_, _, _, _, hw', -⟩ | ⟨_, _, _, _, hw', r, hc⟩ | ⟨_, _, hw', -⟩ <;>
    cases hw.symm.trans hw'
  rcases finished_owned h.group hj.2.1 hc.step with ⟨rfl, hm, ho⟩ | ⟨rfl, hm, hg, out, ho, -⟩
  · exact .inl ⟨hm, hc.op, by rw [ops_cons_some hc.op]; exact ho⟩
  · exact .inr ⟨hm, hg, out, ho⟩

end Invariant

section Main

variable [Inhabited τ] [DecidableEq θ]

/-- A ticket is completed by at most one accepted `Finish`, and by one as soon as it is no longer its
key's; any other changes nothing. Who returns because a ticket completed returns the outcome of that
`Finish`, which after a loader's panic is `ErrAborted`. The next `Begin` for the key is a leader, unless
`MaxKeys` other calls are unfinished then. -/
theorem group_agreement (lim : GroupLimits) (tr : List (DoAct θ τ ε × DoObs τ ε))
    (s : DoSystemState θ τ ε) (h : (doSystem lim).Run tr s) :
    (∀ c, (s.group.heap c).result = (completions c (ops tr)).head? ∧
      (completions c (ops tr)).length ≤ 1 ∧
      (c < s.group.next → ((∃ key, (key, c) ∈ unfinished (ops tr)) ↔ completions c (ops tr) = []))) ∧
    (∀ key call out, (∀ c, call = some c → (key, c) ∉ unfinished (ops tr)) →
      step lim s.group (.finish key call out) = some (s.group, .finished false)) ∧
    (∀ c out, (.wait c none, .waited out) ∈ ops tr → completions c (ops tr) = [out]) ∧
    (∀ e ∈ tr, ∀ ret, e.2.ret = some ret → Settled (ops tr) ret) ∧
    (∀ t key c i, s.callers t = .deferred key c i (.panicked c) →
      ∃ s' o, doStep lim s (.next t) = some (s', o) ∧
        (((key, c) ∈ unfinished (ops tr) ∧
          o.op = some (.finish key (some c) (default, some .aborted), .finished true) ∧
          completions c (ops ((.next t, o) :: tr)) = [(default, some .aborted)]) ∨
        ((key, c) ∉ unfinished (ops tr) ∧ s'.group = s.group ∧ ∃ out, completions c (ops tr) = [out]))) ∧
    (∀ t c i out, s.callers t = .waiting c i → completions c (ops tr) = [out] →
      ∃ s' o, doStep lim s (.wait t none) = some (s', o) ∧ s'.callers t = .releasing i (.joined c out)) ∧
    ∀ post pre key c out, ops tr = post ++ (.finish key (some c) out, .finished true) :: pre →
      (∀ r, (.begin key, r) ∉ post) → ∃ g' r, step lim s.group (.begin key) = some (g', r) ∧
        ((∃ d i, r = .leader d i) ∨ r = .refused .capacity ∧ (unfinished (ops tr)).length = lim.maxKeys) := by
  have hd := doInv_run h
  refine ⟨fun c => ⟨hd.group.results c, hd.group.once c, fun hc => ⟨?_, fun hn => ?_⟩⟩,
    fun key call out hn => ?_, hd.waits, hd.returned, fun t key c i hw => hd.aborts hw,
    fun t c i out hw ho => ?_, fun post pre key c out hH hpost => begin_after_finish (run_ops h) hH hpost⟩
  · rintro ⟨key, hm⟩
    exact hd.group.pending _ hm
  · exact (hd.group.done c hc).resolve_right (not_not.mpr hn)
  · simp [step, hd.group.finish_refused out hn]
  · have hr := hd.group.result_eq.mpr ho
    exact ⟨⟨s.group, _⟩, _, by simp [doStep, hw, DoSystemState.call, step, Call.wait, hr]; exact ⟨rfl, rfl⟩,
      by simp [afterWait]⟩

theorem group_agreement_panic :
    let lim : GroupLimits := ⟨⟨1, 1, 8⟩, by decide⟩
    ∃ (tr : List (DoAct Bool Nat Empty × DoObs Nat Empty)) (s : DoSystemState Bool Nat Empty),
      (doSystem lim).Run tr s ∧ (.wait 0 none, .waited (0, some .aborted)) ∈ ops tr ∧
      completions 0 (ops tr) = [(0, some .aborted)] := by
  intro lim
  have h := System.run_of_exec (doSystem lim) [(.start true [97] none : DoAct Bool Nat Empty),
    .start false [97] none, .load true none, .next true, .wait false none, .next false, .next true] rfl
  refine ⟨_, _, h, ?_, (group_agreement lim _ _ h).2.2.1 0 (0, some .aborted) ?_⟩ <;>
    exact .tail _ (.tail _ (.head _))

/-- If another holder finishes the ticket of a `Do`, the panic of its loader neither completes it with
`ErrAborted` nor makes way for a leader. -/
theorem group_panic_overtaken :
    let lim : GroupLimits := ⟨⟨1, 1, 8⟩, by decide⟩
    ∃ (tr : List (DoAct Unit Nat Empty × DoObs Nat Empty)) (s : DoSystemState Unit Nat Empty),
      (doSystem lim).Run tr s ∧ (∃ e ∈ tr, e.2.ret = some (.panicked 0)) ∧
      completions 0 (ops tr) = [(7, none)] ∧
      ∃ g' i, step lim s.group (.begin [97]) = some (g', .follower 1 i) := by
  intro lim
  have h := System.run_of_exec (doSystem lim) [(.start () [97] none : DoAct Unit Nat Empty),
    .op (.begin [97]), .op (.finish [97] (some 0) (7, none)), .op (.begin [97]), .load () none,
    .next (), .next ()] rfl
  exact ⟨_, _, h, ⟨_, List.mem_cons_self, rfl⟩, rfl, _, _, rfl⟩

end Main

end Csar.Proof.ReadCache
