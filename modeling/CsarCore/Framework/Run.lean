import Mathlib.Tactic.Common

/-!
# Runs of a system

A system is a state and what each action does to it; the actions carry every choice
that the code does not make itself. A history has the actions taken with what came of
each, newest first.

`System.RunIf C` are the runs whose every action meets the condition `C`. `RunIf.inv`
proves a fact of every run from one step, `RunIf.after` and `RunIf.since` from some
point on, `RunIf.split` goes back to an event, and `RunIf.view` is the refinement rule:
a map of states and events that turns steps into steps turns runs into runs.
-/

namespace Csar

/-- Its first state, and what an action does; `none`: it cannot be taken. -/
structure System (σ α ο : Type) where
  init : σ
  step : σ → α → Option (σ × ο)

namespace System

variable {σ α ο : Type}

/-- The condition may look at the history and the state. -/
inductive RunIf (M : System σ α ο) (C : List (α × ο) → σ → α → Prop) : List (α × ο) → σ → Prop
  | init : RunIf M C [] M.init
  | step {tr : List (α × ο)} {s s' : σ} {a : α} {o : ο} (h : RunIf M C tr s) (hc : C tr s a)
      (hs : M.step s a = some (s', o)) : RunIf M C ((a, o) :: tr) s'

/-- All runs of `M`. -/
abbrev Run (M : System σ α ο) : List (α × ο) → σ → Prop := M.RunIf fun _ _ _ => True

variable {M : System σ α ο} {C : List (α × ο) → σ → α → Prop} {tr : List (α × ο)} {s s' : σ}

theorem Run.step {a : α} {o : ο} (h : M.Run tr s)
    (hs : M.step s a = some (s', o)) : M.Run ((a, o) :: tr) s' :=
  RunIf.step h trivial hs

theorem RunIf.inv {I : List (α × ο) → σ → Prop} (h0 : I [] M.init)
    (hstep : ∀ {tr s a s' o}, I tr s → C tr s a → M.step s a = some (s', o) → I ((a, o) :: tr) s')
    (h : M.RunIf C tr s) : I tr s := by
  induction h with
  | init => exact h0
  | step _ hc hs ih => exact hstep ih hc hs

/-- A run that meets a condition meets every weaker one. -/
theorem RunIf.mono {D : List (α × ο) → σ → α → Prop} (hCD : ∀ {tr s a}, C tr s a → D tr s a)
    (h : M.RunIf C tr s) : M.RunIf D tr s := by
  induction h with
  | init => exact .init
  | step _ hc hs ih => exact ih.step (hCD hc) hs

/-- The state in which an event happened, and the one it led to. -/
theorem RunIf.split (h : M.RunIf C tr s) :
    ∀ {post pre : List (α × ο)} {e : α × ο}, tr = post ++ e :: pre →
      ∃ s₀ s₁, M.RunIf C pre s₀ ∧ C pre s₀ e.1 ∧ M.step s₀ e.1 = some (s₁, e.2) := by
  induction h with
  | init => intro post pre e he; simp at he
  | @step tr s s' a o h hc hs ih =>
    intro post pre e he
    rcases post with _ | ⟨x, post⟩
    · obtain ⟨rfl, rfl⟩ := List.cons_eq_cons.mp he
      exact ⟨s, s', h, hc, hs⟩
    · exact ih (List.cons_eq_cons.mp he).2

theorem RunIf.state_eq (h : M.RunIf C tr s) (h' : M.RunIf C tr s') : s = s' := by
  induction h generalizing s' with
  | init => cases h'; rfl
  | step _ _ hs ih =>
    cases h' with
    | step h' _ hs' =>
      cases ih h'
      exact congrArg Prod.fst (Option.some.inj (hs.symm.trans hs'))

/-- What holds at some point of a run, and is kept by every step, holds of what came since. -/
theorem RunIf.after {I : List (α × ο) → σ → Prop} {pre : List (α × ο)} {s₀ : σ} (h₀ : M.RunIf C pre s₀) (hI : I [] s₀)
    (hstep : ∀ {post s a s' o}, M.RunIf C (post ++ pre) s → I post s → M.step s a = some (s', o) →
      I ((a, o) :: post) s') :
    ∀ {post : List (α × ο)} {s : σ}, M.RunIf C (post ++ pre) s → I post s := by
  intro post
  induction post with
  | nil => intro s h; exact h.state_eq h₀ ▸ hI
  | cons e post ih =>
    intro s h
    cases h with
    | step h _ hs => exact hstep h (ih h) hs

/-- What holds at some point of a run, and is kept by actions that meet `D`, holds as long as only such
are taken. -/
theorem RunIf.since {I : σ → Prop} {D : α → Prop} {pre : List (α × ο)} {s₀ : σ} (h₀ : M.RunIf C pre s₀) (hI : I s₀)
    (hstep : ∀ {tr s a s' o}, M.RunIf C tr s → I s → D a → M.step s a = some (s', o) → I s')
    {post : List (α × ο)} (h : M.RunIf C (post ++ pre) s) (hD : ∀ e ∈ post, D e.1) : I s := by
  refine RunIf.after (I := fun post s => (∀ e ∈ post, D e.1) → I s) h₀ (fun _ => hI) (fun h ih hs hD => ?_) h hD
  exact hstep h (ih fun e he => hD e (List.mem_cons_of_mem _ he)) (hD _ List.mem_cons_self) hs

/-- If `view` turns each event of `M` into one of `N`, or into none where `N` stays, then runs of `M` are
runs of `N`. -/
theorem RunIf.view {σ' α' ο' : Type} (N : System σ' α' ο') (f : σ → σ')
    (view : α × ο → Option (α' × ο')) (h0 : f M.init = N.init)
    (hnone : ∀ {s a s' o}, M.step s a = some (s', o) → view (a, o) = none → f s' = f s)
    (hsome : ∀ {s a s' o b p}, M.step s a = some (s', o) → view (a, o) = some (b, p) →
      N.step (f s) b = some (f s', p))
    (h : M.RunIf C tr s) : N.Run (tr.filterMap view) (f s) := by
  induction h with
  | init => rw [h0]; exact .init
  | @step tr s s' a o _ _ hs ih =>
    rcases hv : view (a, o) with _ | ⟨b, p⟩
    · rw [List.filterMap_cons_none hv, hnone hs hv]
      exact ih
    · rw [List.filterMap_cons_some hv]
      exact ih.step (hsome hs hv)

/-- Runs `as`, oldest first, after the history `tr`. -/
def execFrom (M : System σ α ο) : List (α × ο) → σ → List α → Option (List (α × ο) × σ)
  | tr, s, [] => some (tr, s)
  | tr, s, a :: as =>
    match M.step s a with
    | none => none
    | some (s', o) => execFrom M ((a, o) :: tr) s' as

theorem execFrom_append {M : System σ α ο} {tr' : List (α × ο)} {as : List α}
    (h : M.execFrom tr s as = some (tr', s')) : ∃ new, tr' = new ++ tr := by
  induction as generalizing tr s with
  | nil =>
    simp only [System.execFrom, Option.some.injEq, Prod.mk.injEq] at h
    exact ⟨[], h.1.symm⟩
  | cons a as ih =>
    simp only [System.execFrom] at h
    split at h <;> [cases h; skip]
    obtain ⟨new, rfl⟩ := ih h
    exact ⟨new ++ [_], by rw [List.append_assoc]; rfl⟩

/-- Runs the actions `as`, oldest first. -/
def exec (M : System σ α ο) (as : List α) : Option (List (α × ο) × σ) := M.execFrom [] M.init as

/-- A run goes on with actions that meet the condition. -/
theorem RunIf.execFrom {tr' : List (α × ο)} (h : M.RunIf C tr s) (as : List α)
    (hC : ∀ a ∈ as, ∀ tr s, C tr s a) (he : M.execFrom tr s as = some (tr', s')) : M.RunIf C tr' s' := by
  induction as generalizing tr s with
  | nil =>
    simp only [System.execFrom, Option.some.injEq, Prod.mk.injEq] at he
    obtain ⟨rfl, rfl⟩ := he
    exact h
  | cons a as ih =>
    simp only [System.execFrom] at he
    split at he <;> [cases he; skip]
    rename_i s₁ o hs
    exact ih (h.step (hC a List.mem_cons_self _ _) hs) (fun b hb => hC b (List.mem_cons_of_mem a hb)) he

theorem run_of_exec (M : System σ α ο) (as : List α) (h : M.exec as = some (tr, s)) : M.Run tr s :=
  RunIf.init.execFrom as (fun _ _ _ _ => trivial) h

end System

end Csar
