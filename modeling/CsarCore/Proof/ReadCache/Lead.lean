import CsarCore.Proof.ReadCache.Do

/-!
# The in-flight registry: leaders

If a group is used through `Do` only, a caller whose loader runs leads the current call
of its key, and no other does (`Leads`). `Moves` is what a step can do then
(`moves_of_doStep`). So the loaders of a key never run at the same time
(`Leads.same_key`).
-/

namespace Csar.Proof.ReadCache

open Impl.ReadCache Spec.ReadCache

variable {θ τ ε : Type}

/-! ## Leaders -/

/-- The call that a caller of `Do` leads, until its first `Finish`. -/
def lead? : DoState τ ε → Option (Key × Nat)
  | .loading key c _ => some (key, c)
  | .loaded key c _ _ => some (key, c)
  | .deferred key c _ (.panicked _) => some (key, c)
  | _ => none

/-- Who leads a call leads the current one of its key, alone. -/
structure Leads (s : DoSystemState θ τ ε) : Prop where
  current : ∀ t x, lead? (s.callers t) = some x → x ∈ s.group.calls
  unique : ∀ t t' x, lead? (s.callers t) = some x → lead? (s.callers t') = some x → t = t'

theorem Leads.same_key {s : DoSystemState θ τ ε} (h : Leads s) {t t' : θ} {key : Key} {c c' : Nat}
    (ht : lead? (s.callers t) = some (key, c)) (ht' : lead? (s.callers t') = some (key, c')) : t = t' := by
  have he : (key, c) = (key, c') := Table.eq_of_key (h.current t _ ht) (h.current t' _ ht') rfl
  exact h.unique t t' (key, c') (he ▸ ht) ht'

/-! ## Moves -/

/-- The calls, and what they completed with, stay as they are. -/
structure Keeps (g g' : Group τ ε) : Prop where
  calls : g'.calls = g.calls
  results : ∀ c, (g'.heap c).result = (g.heap c).result

theorem Keeps.of_eq {g g' : Group τ ε} (h : g' = g) : Keeps g g' := by
  rw [h]; exact ⟨rfl, fun _ => rfl⟩

/-- The new call `c` of `key`. -/
structure Opens (g g' : Group τ ε) (key : Key) (c : Nat) : Prop where
  fresh : ∀ q ∈ g.calls, q.1 ≠ key ∧ q.2 ≠ c
  calls : ∀ q, q ∈ g'.calls ↔ q = (key, c) ∨ q ∈ g.calls
  results : ∀ d, (g'.heap d).result = (g.heap d).result

/-- The call `c` of `key` is completed with `out`. -/
structure Completes (g g' : Group τ ε) (key : Key) (c : Nat) (out : Outcome τ ε) : Prop where
  mem : (key, c) ∈ g.calls
  calls : ∀ q, q ∈ g'.calls ↔ q ∈ g.calls ∧ q.1 ≠ key
  result : (g'.heap c).result = some out
  others : ∀ d ≠ c, (g'.heap d).result = (g.heap d).result

/-- Why `Begin` refuses a key. -/
inductive Refuses (lim : Limits) (g : Group τ ε) (key : Key) : GroupErr ε → Prop
  | key (h : lim.badKey key) : Refuses lim g key .key
  | followers {c : Nat} (hm : (key, c) ∈ g.calls) (h : lim.maxFollowers ≤ (g.heap c).followers) :
    Refuses lim g key .capacity
  | keys (hn : ∀ q ∈ g.calls, q.1 ≠ key) (h : lim.maxKeys ≤ g.calls.rows.length) : Refuses lim g key .capacity

/-- What the caller `t` can do in its `Do`, and what the step returns. -/
inductive Moves [Inhabited τ] (lim : Limits) (s s' : DoSystemState θ τ ε) (t : θ) :
    DoAct θ τ ε → Option (DoEnd τ ε) → Prop
  | cancelled {key : Key} {e : ε} (hw : s.callers t = .idle) (hw' : s'.callers t = .idle)
    (hg : Keeps s.group s'.group) :
    Moves lim s s' t (.start t key (some e)) (some (.cancelled (default, some (.other e))))
  | refused {key : Key} {e : GroupErr ε} (hw : s.callers t = .idle) (hw' : s'.callers t = .idle)
    (hg : Keeps s.group s'.group) (hr : Refuses lim s.group key e) :
    Moves lim s s' t (.start t key none) (some (.refused (default, some e)))
  | follow {key : Key} {c i : Nat} (hw : s.callers t = .idle) (hw' : s'.callers t = .waiting c i)
    (hg : Keeps s.group s'.group) (hm : (key, c) ∈ s.group.calls) : Moves lim s s' t (.start t key none) none
  | lead {key : Key} {c i : Nat} (hw : s.callers t = .idle) (hw' : s'.callers t = .loading key c i)
    (hg : Opens s.group s'.group key c) : Moves lim s s' t (.start t key none) none
  | ended {c i : Nat} {e : ε} (hw : s.callers t = .waiting c i)
    (hw' : s'.callers t = .releasing i (.cancelled (default, some (.other e))))
    (hg : Keeps s.group s'.group) : Moves lim s s' t (.wait t (some e)) none
  | joined {c i : Nat} {out : Outcome τ ε} (hw : s.callers t = .waiting c i)
    (hw' : s'.callers t = .releasing i (.joined c out)) (hg : Keeps s.group s'.group)
    (hr : (s.group.heap c).result = some out) : Moves lim s s' t (.wait t none) none
  | loaded {key : Key} {c i : Nat} {out : Outcome τ ε} (hw : s.callers t = .loading key c i)
    (hw' : s'.callers t = .loaded key c i out) (hg : Keeps s.group s'.group) :
    Moves lim s s' t (.load t (some out)) none
  | panicked {key : Key} {c i : Nat} (hw : s.callers t = .loading key c i)
    (hw' : s'.callers t = .deferred key c i (.panicked c)) (hg : Keeps s.group s'.group) :
    Moves lim s s' t (.load t none) none
  | finished {key : Key} {c i : Nat} {out : Outcome τ ε} (hw : s.callers t = .loaded key c i out)
    (hw' : s'.callers t = .deferred key c i (.loaded c out)) (hg : Completes s.group s'.group key c out) :
    Moves lim s s' t (.next t) none
  | aborted {key : Key} {c i : Nat} (hw : s.callers t = .deferred key c i (.panicked c))
    (hw' : s'.callers t = .releasing i (.panicked c))
    (hg : Completes s.group s'.group key c (default, some .aborted)) : Moves lim s s' t (.next t) none
  | passed {key : Key} {c i : Nat} {out : Outcome τ ε} (hw : s.callers t = .deferred key c i (.loaded c out))
    (hw' : s'.callers t = .releasing i (.loaded c out)) (hg : Keeps s.group s'.group) :
    Moves lim s s' t (.next t) none
  | released {i : Nat} {ret : DoEnd τ ε} (hw : s.callers t = .releasing i ret) (hw' : s'.callers t = .idle)
    (hg : Keeps s.group s'.group) : Moves lim s s' t (.next t) (some ret)

section Steps

variable [DecidableEq θ] [Inhabited τ] {lim : GroupLimits} {s s' : DoSystemState θ τ ε} {o : DoObs τ ε}
  {tr : List (DoAct θ τ ε × DoObs τ ε)} {t : θ}

def actor : DoAct θ τ ε → Option θ
  | .op _ => none
  | .start t _ _ => some t
  | .wait t _ => some t
  | .load t _ => some t
  | .next t => some t

theorem doStep_others {a : DoAct θ τ ε} (ha : actor a = some t) (hs : doStep lim s a = some (s', o)) {t' : θ}
    (hne : t' ≠ t) : s'.callers t' = s.callers t' := by
  cases a with
  | op b => cases ha
  | start u key ended =>
    cases ha
    rcases doStep_start hs with ⟨e, he⟩ | ⟨r, hc⟩
    · cases he; exact Function.update_of_ne hne _ _
    · rw [hc.callers]; exact Function.update_of_ne hne _ _
  | wait u ended =>
    cases ha
    obtain ⟨c, i, -, r, hc⟩ := doStep_wait hs
    rw [hc.callers]; exact Function.update_of_ne hne _ _
  | load u out =>
    cases ha
    obtain ⟨key, c, i, -, ⟨v, he⟩ | he⟩ := doStep_load hs <;> cases he <;> exact Function.update_of_ne hne _ _
  | next u =>
    cases ha
    rcases doStep_next hs with ⟨_, _, _, _, -, r, hc⟩ | ⟨_, _, _, _, -, r, hc⟩ | ⟨_, _, -, r, hc⟩ <;>
      rw [hc.callers] <;> exact Function.update_of_ne hne _ _

variable {r : Res τ ε}

theorem Called.callers_self {b : Op τ ε} {f : Res τ ε → DoState τ ε × Option (DoEnd τ ε)}
    (hc : Called lim s t b f s' o r) : s'.callers t = (f r).1 := by
  rw [hc.callers, Function.update_self]

theorem completes_of_finish {g g' : Group τ ε} {key : Key} {c : Nat} {out : Outcome τ ε}
    (hm : (key, c) ∈ g.calls) (hs : step lim g (.finish key (some c) out) = some (g', r)) :
    Completes g g' key c out := by
  simp only [step, Option.some.injEq, Prod.mk.injEq] at hs
  obtain ⟨rfl, -⟩ := hs
  rcases finish_cases g key (some c) out with ⟨-, hn⟩ | ⟨d, hd, -, e⟩
  · exact absurd hm (hn c rfl)
  · cases hd
    rw [e]
    refine ⟨hm, fun q => ?_, by simp, fun d hd => by simp [Function.update_of_ne hd]⟩
    rw [Table.mem_deleteWhere, beq_eq_false_iff_ne]

theorem keeps_of_release {g g' : Group τ ε} {i : Nat}
    (hs : step lim g (.release i) = some (g', r)) : Keeps g g' := by
  rcases step_cases hs with ⟨_, hb, -⟩ | ⟨j, -, hb, rfl, -⟩ | ⟨_, _, _, hb, -⟩ | ⟨_, _, _, hb, -⟩ <;> cases hb
  rcases release_cases g i with ⟨e, -⟩ | ⟨c, -, e⟩ <;> rw [e]
  · exact ⟨rfl, fun _ => rfl⟩
  · refine ⟨rfl, fun d => ?_⟩
    simp only [Function.update_apply]
    split <;> simp [*]

theorem moves_begin (hd : DoInv lim tr s) (hw : s.callers t = .idle) {key : Key}
    (hc : Called lim s t (.begin key) (afterBegin key) s' o r) :
    Moves lim.toLimits s s' t (.start t key none) o.ret := by
  have hs := hc.step
  have hself := hc.callers_self
  rw [hc.ret]
  simp only [step, Option.some.injEq] at hs
  rcases begin_cases lim.toLimits s.group key with ⟨hb, e⟩ | ⟨-, e, hfull⟩ | ⟨-, c, hm, -, e⟩ | ⟨-, hn, -, e⟩ <;>
    rw [e, Prod.mk.injEq] at hs <;> obtain ⟨hg, rfl⟩ := hs
  · exact .refused hw hself (.of_eq hg.symm) (.key hb)
  · rcases hfull with ⟨c, hm, hf⟩ | ⟨hn, hk⟩
    · exact .refused hw hself (.of_eq hg.symm) (.followers hm hf)
    · exact .refused hw hself (.of_eq hg.symm) (.keys hn hk)
  · refine .follow hw hself ?_ hm
    rw [← hg]
    refine ⟨rfl, fun d => ?_⟩
    simp only [Group.follow, Function.update_apply]
    split <;> simp [*]
  · refine .lead hw hself ?_
    rw [← hg]
    refine ⟨fun q hq => ⟨hn q hq, ?_⟩, fun q => Table.mem_insert hn, fun d => ?_⟩
    · have := hd.group.issued q (hd.group.mem_calls.mp hq)
      omega
    · simp only [Group.lead, Function.update_apply]
      split
      · rename_i e
        rw [e, hd.group.results, (hd.group.fresh _ le_rfl).1]
        rfl
      · rfl

theorem moves_of_doStep (h : Leads s) (hd : DoInv lim tr s) {a : DoAct θ τ ε} (ha : actor a = some t)
    (hs : doStep lim s a = some (s', o)) : Moves lim.toLimits s s' t a o.ret := by
  cases a with
  | op b => cases ha
  | start u key ended =>
    cases ha
    simp only [doStep] at hs
    split at hs
    · rename_i hw
      cases hs
      exact .cancelled hw (Function.update_self _ _ _) (.of_eq rfl)
    · rename_i hw
      obtain ⟨r, hc⟩ := called_of_call hs
      exact moves_begin hd hw hc
    · cases hs
  | wait u ended =>
    cases ha
    obtain ⟨c, i, hw, r, hc⟩ := doStep_wait hs
    have hself := hc.callers_self
    rcases step_cases hc.step with ⟨_, hb, -⟩ | ⟨_, _, hb, -⟩ | ⟨_, _, _, hb, -⟩ | ⟨_, _, out, hb, hg, hwait, rfl⟩ <;>
      cases hb
    rw [hc.ret]
    rcases ended with _ | e
    · exact .joined hw hself (.of_eq hg) hwait
    · cases hwait
      exact .ended hw hself (.of_eq hg)
  | load u out =>
    cases ha
    simp only [doStep] at hs
    split at hs
    · rename_i hw
      cases hs
      exact .loaded hw (Function.update_self _ _ _) (.of_eq rfl)
    · rename_i hw
      cases hs
      exact .panicked hw (Function.update_self _ _ _) (.of_eq rfl)
    · cases hs
  | next u =>
    cases ha
    rcases doStep_next hs with ⟨key, c, i, out, hw, r, hc⟩ | ⟨key, c, i, ret, hw, r, hc⟩ | ⟨i, ret, hw, r, hc⟩ <;>
      rw [hc.ret]
    · exact .finished hw hc.callers_self (completes_of_finish (h.current t _ (by rw [hw]; rfl)) hc.step)
    · have hj := hd.callers t
      rw [hw] at hj
      rcases hj.2.2 with rfl | ⟨out, rfl, hset⟩
      · exact .aborted hw hc.callers_self (completes_of_finish (h.current t _ (by rw [hw]; rfl)) hc.step)
      -- the loader returned, so that the call is completed, and `Finish` refused
      · have hn : ∀ d, some c = some d → (key, d) ∉ unfinished (ops tr) := by
          rintro _ ⟨⟩ hm
          have hp := hd.group.pending _ hm
          rcases hset with hset | ⟨-, out', hset⟩ <;> rw [hp] at hset <;> cases hset
        have hg := hc.step
        simp only [step, hd.group.finish_refused _ hn, Option.some.injEq, Prod.mk.injEq] at hg
        exact .passed hw hc.callers_self (.of_eq hg.1.symm)
    · exact .released hw hc.callers_self (keeps_of_release hc.step)

end Steps

/-! ## Leaders stay leaders -/

section Leads

variable {s s' : DoSystemState θ τ ε} {t : θ}

/-- `t` leads no more than before, and no call of another leader is finished. -/
theorem Leads.keep (h : Leads s) (hothers : ∀ t' ≠ t, s'.callers t' = s.callers t')
    (hself : ∀ x, lead? (s'.callers t) = some x → lead? (s.callers t) = some x)
    (hcalls : ∀ t' x, lead? (s'.callers t') = some x → x ∈ s.group.calls → x ∈ s'.group.calls) : Leads s' := by
  have hold : ∀ t' x, lead? (s'.callers t') = some x → lead? (s.callers t') = some x := by
    intro t' x hx
    by_cases e : t' = t
    · rw [e] at hx ⊢; exact hself x hx
    · rwa [hothers t' e] at hx
  exact ⟨fun t' x hx => hcalls t' x hx (h.current t' x (hold t' x hx)),
    fun t₁ t₂ x h₁ h₂ => h.unique t₁ t₂ x (hold t₁ x h₁) (hold t₂ x h₂)⟩

theorem Leads.complete (h : Leads s) (hothers : ∀ t' ≠ t, s'.callers t' = s.callers t') {key : Key} {c : Nat}
    {out : Outcome τ ε} (ht : lead? (s.callers t) = some (key, c)) (ht' : lead? (s'.callers t) = none)
    (hg : Completes s.group s'.group key c out) : Leads s' := by
  refine h.keep hothers (fun x hx => by rw [ht'] at hx; cases hx) fun t' x hx hm => (hg.calls x).mpr ⟨hm, ?_⟩
  intro hk
  have hne : t' ≠ t := by intro e; rw [e, ht'] at hx; cases hx
  rw [hothers t' hne] at hx
  obtain ⟨k, d⟩ := x
  cases hk
  exact hne (h.same_key hx ht)

theorem Leads.opens (h : Leads s) (hothers : ∀ t' ≠ t, s'.callers t' = s.callers t') {key : Key} {c : Nat}
    (ht' : lead? (s'.callers t) = some (key, c)) (hg : Opens s.group s'.group key c) : Leads s' := by
  have hlead : ∀ t' x, lead? (s'.callers t') = some x →
      (t' = t ∧ x = (key, c)) ∨ (lead? (s.callers t') = some x ∧ x.2 ≠ c) := by
    intro t' x hx
    by_cases e : t' = t
    · rw [e, ht'] at hx; cases hx; exact .inl ⟨e, rfl⟩
    · rw [hothers t' e] at hx
      exact .inr ⟨hx, (hg.fresh x (h.current t' x hx)).2⟩
  constructor
  · intro t' x hx
    rcases hlead t' x hx with ⟨-, rfl⟩ | ⟨hx, -⟩
    · exact (hg.calls _).mpr (.inl rfl)
    · exact (hg.calls _).mpr (.inr (h.current t' x hx))
  · intro t₁ t₂ x h₁ h₂
    rcases hlead t₁ x h₁ with ⟨rfl, rfl⟩ | ⟨h₁, hne⟩ <;> rcases hlead t₂ _ h₂ with ⟨rfl, e⟩ | ⟨h₂, hne'⟩
    · rfl
    · exact absurd rfl hne'
    · exact absurd (congrArg Prod.snd e) hne
    · exact h.unique t₁ t₂ x h₁ h₂

theorem Moves.leads [Inhabited τ] {lim : Limits} {a : DoAct θ τ ε} {ret : Option (DoEnd τ ε)}
    (hm : Moves lim s s' t a ret) (h : Leads s) (hothers : ∀ t' ≠ t, s'.callers t' = s.callers t') : Leads s' := by
  cases hm with
  | lead _ hw' hg => exact h.opens hothers (by rw [hw']; rfl) hg
  | finished hw hw' hg
  | aborted hw hw' hg => exact h.complete hothers (by rw [hw]; rfl) (by rw [hw']; rfl) hg
  | _ hw hw' hg =>
    refine h.keep hothers (fun x hx => ?_) fun _ x _ hm => by rw [hg.calls]; exact hm
    rw [hw'] at hx
    rw [hw]
    exact hx

end Leads

end Csar.Proof.ReadCache
