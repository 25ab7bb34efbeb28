import CsarCore.Impl.Pgutil.Migrate

/-!
# Migrations applied once and in order

`AppliedOnce` is what is to hold of the database at every moment. `Accounted` says whose
commits its effects are, and that a run that fails keeps those it has made and makes no
more.
-/

namespace Csar.Spec.Pgutil

open Impl.Pgutil

abbrev MigrateHistory (κ : Type) := List ((κ × Request) × MigrateEvent)

/-- The committed migrations begin the list; every recorded name has the effect of its `Up` once, and no
effect is without its name. -/
structure AppliedOnce (ms : List Migration) (db : DB) : Prop where
  inOrder : db.effects <+: ms
  named : db.recorded <+: ms.map Migration.name
  once : ∀ name ∈ db.recorded, db.effects.countP (·.name = name) = 1
  recorded : ∀ m ∈ db.effects, m.name ∈ db.recorded

def Fails : MigrateEvent → Prop
  | .failed _ => True
  | .crashed => True
  | _ => False

variable {κ : Type}

/-- Which process has committed which migration, oldest first. -/
def commits (tr : MigrateHistory κ) : List (κ × Migration) :=
  tr.reverse.filterMap fun e =>
    match e.2 with
    | .committed m => some (e.1.1, m)
    | _ => none

variable [DecidableEq κ]

/-- The effects are what the processes have committed. One that fails, or crashes, has committed what it
had before, and takes no step after it. -/
structure Accounted (tr : MigrateHistory κ) (db : DB) : Prop where
  effects : db.effects = (commits tr).map Prod.snd
  failed : ∀ post pre k r o, tr = post ++ ((k, r), o) :: pre → Fails o →
    (commits tr).filter (·.1 = k) = (commits pre).filter (·.1 = k) ∧ ∀ e ∈ post, e.1.1 ≠ k

end Csar.Spec.Pgutil
