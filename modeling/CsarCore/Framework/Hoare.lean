import Mathlib.Tactic.Common

/-!
# Programs with a state and errors

Pre- and postconditions for `EStateM`: `Hoare P x Q E` says that from every state that
meets `P` the program `x` returns with `Q` or fails with `E`; `Keeps I x` is an
invariant that `x` keeps whether it returns or fails.
-/

namespace Csar

variable {σ ε ε' α β : Type}

/-- `Q` if a program has returned, and `E` if it has failed. -/
def Comes (Q : α → σ → Prop) (E : ε → σ → Prop) : EStateM.Result ε σ α → Prop
  | .ok a s => Q a s
  | .error e s => E e s

def Hoare (P : σ → Prop) (x : EStateM ε σ α) (Q : α → σ → Prop) (E : ε → σ → Prop) : Prop :=
  ∀ s, P s → Comes Q E (x s)

abbrev Keeps (I : σ → Prop) (x : EStateM ε σ α) : Prop := Hoare I x (fun _ => I) (fun _ => I)

def require (b : Bool) (e : ε) : EStateM ε σ Unit := if b then pure () else throw e

def onlyIf (b : Bool) (x : EStateM ε σ Unit) : EStateM ε σ Unit := if b then x else pure ()

def attempt (x : EStateM ε σ α) : EStateM ε' σ (Except ε α) := fun s =>
  match x s with
  | .ok a s' => .ok (.ok a) s'
  | .error e s' => .ok (.error e) s'

def rewriteError (f : ε → ε') (x : EStateM ε σ α) : EStateM ε' σ α := fun s =>
  match x s with
  | .ok a s' => .ok a s'
  | .error e s' => .error (f e) s'

def ofExcept : Except ε α → EStateM ε σ α
  | .ok a => pure a
  | .error e => throw e

variable {P P' I : σ → Prop} {x : EStateM ε σ α} {f : α → EStateM ε σ β} {E E' : ε → σ → Prop}

variable {Q : α → σ → Prop}

theorem Hoare.pure {a : α} (h : ∀ s, P s → Q a s) : Hoare P (pure a : EStateM ε σ α) Q E := h

theorem Hoare.throw {e : ε} (h : ∀ s, P s → E e s) : Hoare P (throw e : EStateM ε σ α) Q E := h

theorem Hoare.bind {R : α → σ → Prop} {Q : β → σ → Prop} (hx : Hoare P x R E) (hf : ∀ a, Hoare (R a) (f a) Q E) :
    Hoare P (x >>= f) Q E := by
  intro s hs
  have hr := hx s hs
  show Comes Q E (EStateM.bind x f s)
  unfold EStateM.bind
  cases h : x s with
  | ok a s' =>
    rw [h] at hr
    exact hf a s' hr
  | error e s' =>
    rw [h] at hr
    exact hr

theorem Hoare.get_bind {f : σ → EStateM ε σ β} {Q : β → σ → Prop}
    (h : ∀ s₀, Hoare (fun s => s = s₀ ∧ P s) (f s₀) Q E) : Hoare P (get >>= f) Q E :=
  fun s hs => h s s ⟨rfl, hs⟩

theorem Hoare.modify {g : σ → σ} {Q : Unit → σ → Prop} (h : ∀ s, P s → Q () (g s)) :
    Hoare P (modify g : EStateM ε σ Unit) Q E := h

theorem Hoare.weaken {Q' : α → σ → Prop} (h : Hoare P x Q E) (hp : ∀ s, P' s → P s) (hq : ∀ a s, Q a s → Q' a s)
    (he : ∀ e s, E e s → E' e s) : Hoare P' x Q' E' := by
  intro s hs
  have hr := h s (hp s hs)
  cases hx : x s with
  | ok a s' =>
    rw [hx] at hr
    exact hq a s' hr
  | error e s' =>
    rw [hx] at hr
    exact he e s' hr

theorem Hoare.of_and {p : Prop} (h : p → Hoare P x Q E) : Hoare (fun s => p ∧ P s) x Q E :=
  fun s hs => h hs.1 s hs.2

theorem Hoare.attempt {R : Except ε α → σ → Prop} {E' : ε' → σ → Prop} (h : Hoare P x Q E)
    (hok : ∀ a s, Q a s → R (.ok a) s) (herr : ∀ e s, E e s → R (.error e) s) : Hoare P (attempt x) R E' := by
  intro s hs
  have hr := h s hs
  unfold Csar.attempt
  cases hx : x s with
  | ok a s' =>
    rw [hx] at hr
    exact hok a s' hr
  | error e s' =>
    rw [hx] at hr
    exact herr e s' hr

theorem Hoare.rewriteError {g : ε → ε'} {E' : ε' → σ → Prop} (h : Hoare P x Q E)
    (he : ∀ e s, E e s → E' (g e) s) : Hoare P (rewriteError g x) Q E' := by
  intro s hs
  have hr := h s hs
  unfold Csar.rewriteError
  cases hx : x s with
  | ok a s' =>
    rw [hx] at hr
    exact hr
  | error e s' =>
    rw [hx] at hr
    exact he e s' hr

theorem Hoare.require {b : Bool} {e : ε} {Q : Unit → σ → Prop} (hok : ∀ s, P s → b = true → Q () s)
    (herr : ∀ s, P s → b = false → E e s) : Hoare P (require b e) Q E := by
  cases b with
  | true => exact fun s hs => hok s hs rfl
  | false => exact fun s hs => herr s hs rfl

theorem Hoare.ofExcept {x : Except ε α} (hok : ∀ a s, P s → x = .ok a → Q a s)
    (herr : ∀ e s, P s → x = .error e → E e s) : Hoare P (ofExcept x) Q E := by
  cases x with
  | ok a => exact fun s hs => hok a s hs rfl
  | error e => exact fun s hs => herr e s hs rfl

namespace Keeps

theorem pure (a : α) : Keeps I (Pure.pure a : EStateM ε σ α) := fun _ hs => hs

theorem throw (e : ε) : Keeps I (MonadExcept.throw e : EStateM ε σ α) := fun _ hs => hs

theorem bind (hx : Keeps I x) (hf : ∀ a, Keeps I (f a)) : Keeps I (x >>= f) := Hoare.bind hx hf

theorem get_bind {f : σ → EStateM ε σ β} (hf : ∀ s₀, Keeps I (f s₀)) : Keeps I (get >>= f) :=
  fun s hs => hf s s hs

theorem attempt (hx : Keeps I x) : Keeps I (attempt x : EStateM ε' σ (Except ε α)) :=
  Hoare.attempt hx (fun _ _ h => h) (fun _ _ h => h)

theorem ofExcept (x : Except ε α) : Keeps I (ofExcept x) := Hoare.ofExcept (fun _ _ h _ => h) (fun _ _ h _ => h)

end Keeps

end Csar
