import CsarCore.Framework.Hex
import CsarCore.Framework.Run
import CsarCore.Framework.Table
import Mathlib.Logic.Function.Basic

/-!
# The in-flight registry (`readcache/group.go`)

Each operation on a `Group` holds its lock throughout and so is one step: `Begin`, the
release functions that it returns, `Finish` and the end of a `Wait`. Addresses of calls,
and release functions, are numbered as `Begin` makes them. `system` lets anyone call the
operations in any order, with any keys and tickets; `doSystem` adds callers of `Do`,
whose loader runs, and may panic, between the steps of its caller.
-/

namespace Csar.Impl.ReadCache

abbrev Key := Bytes

structure Limits where
  maxKeys : Int
  maxFollowers : Int
  maxKeyBytes : Int

structure GroupLimits extends Limits where
  pos : 0 < maxKeys ∧ 0 < maxFollowers ∧ 0 < maxKeyBytes

def newGroup (lim : Limits) : Except String GroupLimits :=
  if h : lim.maxKeys ≤ 0 ∨ lim.maxFollowers ≤ 0 ∨ lim.maxKeyBytes ≤ 0 then
    .error "readcache limits must be positive"
  else .ok ⟨lim, by omega⟩

/-- `ErrCapacity`, `ErrKey`, `ErrAborted`, and the errors of loaders and
contexts. -/
inductive GroupErr (ε : Type)
  | capacity
  | key
  | aborted
  | other (e : ε)
  deriving DecidableEq

/-- A value and an error, as a loader, `Wait` and `Do` return them. -/
abbrev Outcome (τ ε : Type) := τ × Option (GroupErr ε)

/-- `Call`: what it completed with, once `done` is closed, and its followers. -/
structure Call (τ ε : Type) where
  result : Option (Outcome τ ε)
  followers : Int

/-- A leader's does nothing, a follower's does its work the first time only (`once`). -/
inductive Release
  | leader
  | follower (call : Nat) (ran : Bool)
  deriving DecidableEq

/-- `Group`, with the calls and release functions it has made. -/
structure Group (τ ε : Type) where
  calls : Table (Key × Nat) Prod.fst
  heap : Nat → Call τ ε
  next : Nat
  releases : Nat → Release
  nextRelease : Nat

/-- The ticket of a `finish` may be nil or of another group. The context of a `wait` may have ended, with
an error. -/
inductive Op (τ ε : Type)
  | begin (key : Key)
  | release (i : Nat)
  | finish (key : Key) (call : Option Nat) (out : Outcome τ ε)
  | wait (call : Nat) (ended : Option ε)

inductive Res (τ ε : Type)
  | refused (e : GroupErr ε)
  | leader (call : Nat) (release : Nat)
  | follower (call : Nat) (release : Nat)
  | released
  | finished (accepted : Bool)
  | waited (out : Outcome τ ε)

section Ops

variable {τ ε : Type}

/-- `len(key) == 0 || len(key) > g.limits.MaxKeyBytes`. -/
def Limits.badKey (lim : Limits) (key : Key) : Prop := key.length = 0 ∨ lim.maxKeyBytes < key.length

instance (lim : Limits) (key : Key) : Decidable (lim.badKey key) :=
  inferInstanceAs (Decidable (_ ∨ _))

/-- A follower more for `c`, with its release function. -/
def Group.follow (g : Group τ ε) (c : Nat) : Group τ ε :=
  { g with
    heap := Function.update g.heap c { g.heap c with followers := (g.heap c).followers + 1 }
    releases := Function.update g.releases g.nextRelease (.follower c false)
    nextRelease := g.nextRelease + 1 }

/-- A new call for `key`. -/
def Group.lead (g : Group τ ε) (key : Key) (h : ∀ q ∈ g.calls.rows, q.1 ≠ key) : Group τ ε :=
  { g with
    calls := g.calls.insert (key, g.next) h
    heap := Function.update g.heap g.next ⟨none, 0⟩
    next := g.next + 1
    releases := Function.update g.releases g.nextRelease .leader
    nextRelease := g.nextRelease + 1 }

def Group.begin (lim : Limits) (g : Group τ ε) (key : Key) : Group τ ε × Res τ ε :=
  if lim.badKey key then (g, .refused .key)
  else match h : g.calls.find? key with
    | some (_, c) =>
      if (g.heap c).followers ≥ lim.maxFollowers then (g, .refused .capacity)
      else (g.follow c, .follower c g.nextRelease)
    | none =>
      if (g.calls.rows.length : Int) ≥ lim.maxKeys then (g, .refused .capacity)
      else (g.lead key (Table.find?_eq_none.mp h), .leader g.next g.nextRelease)

/-- A call of the release function `i`. -/
def Group.release (g : Group τ ε) (i : Nat) : Group τ ε :=
  match g.releases i with
  | .follower c false =>
    { g with
      heap := Function.update g.heap c { g.heap c with followers := (g.heap c).followers - 1 }
      releases := Function.update g.releases i (.follower c true) }
  | _ => g

def Group.finish (g : Group τ ε) (key : Key) (call : Option Nat) (out : Outcome τ ε) : Group τ ε × Bool :=
  match call with
  | none => (g, false)
  | some c =>
    if g.calls.find? key ≠ some (key, c) then (g, false)
    else ({ g with
        calls := g.calls.deleteWhere fun q => q.1 == key
        heap := Function.update g.heap c { g.heap c with result := some out } }, true)

/-- The error of an ended context, or what the call completed with; `none`: it still waits. If both are
there, either may be taken. -/
def Call.wait [Inhabited τ] (c : Call τ ε) : Option ε → Option (Outcome τ ε)
  | some e => some (default, some (.other e))
  | none => c.result

variable [Inhabited τ] (lim : GroupLimits)

/-- One operation. Only release functions that `Begin` returned can be
called. -/
def step (g : Group τ ε) : Op τ ε → Option (Group τ ε × Res τ ε)
  | .begin key => some (g.begin lim.toLimits key)
  | .release i => if i < g.nextRelease then some (g.release i, .released) else none
  | .finish key call out =>
    let r := g.finish key call out
    some (r.1, .finished r.2)
  | .wait c ended => ((g.heap c).wait ended).map fun out => (g, .waited out)

def Group.init : Group τ ε := ⟨.empty, fun _ => ⟨none, 0⟩, 0, fun _ => .leader, 0⟩

def system : System (Group τ ε) (Op τ ε) (Res τ ε) := ⟨.init, step lim⟩

end Ops

/-- Its context has ended, `Begin` refused it, the ticket it joined completed, or its loader returned; or
the loader's panic goes on. -/
inductive DoEnd (τ ε : Type)
  | cancelled (out : Outcome τ ε)
  | refused (out : Outcome τ ε)
  | joined (call : Nat) (out : Outcome τ ε)
  | loaded (call : Nat) (out : Outcome τ ε)
  | panicked (call : Nat)

/-- Where a caller is: before `Do`; in `Wait` as a follower; in its loader; about to call `Finish` with
what that returned; about to run the deferred `Finish` with `ErrAborted`; about to run the deferred
release. -/
inductive DoState (τ ε : Type)
  | idle
  | waiting (call : Nat) (release : Nat)
  | loading (key : Key) (call : Nat) (release : Nat)
  | loaded (key : Key) (call : Nat) (release : Nat) (out : Outcome τ ε)
  | deferred (key : Key) (call : Nat) (release : Nat) (ret : DoEnd τ ε)
  | releasing (release : Nat) (ret : DoEnd τ ε)

/-- An operation of someone else, or of the `Do` of the caller `t`. `ended`: its context has ended.
`out`: what the loader returns; `none`, if it panics. -/
inductive DoAct (θ τ ε : Type)
  | op (o : Op τ ε)
  | start (t : θ) (key : Key) (ended : Option ε)
  | wait (t : θ) (ended : Option ε)
  | load (t : θ) (out : Option (Outcome τ ε))
  | next (t : θ)

/-- The operation on the group, if there is one, and the end of its `Do`, if that is reached. -/
structure DoObs (τ ε : Type) where
  op : Option (Op τ ε × Res τ ε)
  ret : Option (DoEnd τ ε)

structure DoSystemState (θ τ ε : Type) where
  group : Group τ ε
  callers : θ → DoState τ ε

section Do

variable {θ τ ε : Type} [DecidableEq θ] [Inhabited τ] (lim : GroupLimits)

/-- The operation `o` on the group, after which the caller `t` goes on as
`f` says. -/
def DoSystemState.call (s : DoSystemState θ τ ε) (t : θ) (o : Op τ ε)
    (f : Res τ ε → DoState τ ε × Option (DoEnd τ ε)) : Option (DoSystemState θ τ ε × DoObs τ ε) :=
  (step lim s.group o).map fun x =>
    (⟨x.1, Function.update s.callers t (f x.2).1⟩, ⟨some (o, x.2), (f x.2).2⟩)

def DoSystemState.goto (s : DoSystemState θ τ ε) (t : θ) (x : DoState τ ε) (ret : Option (DoEnd τ ε)) :
    DoSystemState θ τ ε × DoObs τ ε :=
  (⟨s.group, Function.update s.callers t x⟩, ⟨none, ret⟩)

/-- After `Begin` in `Do`. -/
def afterBegin (key : Key) : Res τ ε → DoState τ ε × Option (DoEnd τ ε)
  | .leader c i => (.loading key c i, none)
  | .follower c i => (.waiting c i, none)
  | .refused e => (.idle, some (.refused (default, some e)))
  | _ => (.idle, none)

/-- After `Wait` in `Do`, which ended with the context or with the ticket. -/
def afterWait (c i : Nat) (ended : Option ε) : Res τ ε → DoState τ ε × Option (DoEnd τ ε)
  | .waited out => (.releasing i (if ended.isSome then .cancelled out else .joined c out), none)
  | _ => (.idle, none)

def doStep (s : DoSystemState θ τ ε) : DoAct θ τ ε → Option (DoSystemState θ τ ε × DoObs τ ε)
  | .op o => (step lim s.group o).map fun x => (⟨x.1, s.callers⟩, ⟨some (o, x.2), none⟩)
  | .start t key ended =>
    match s.callers t, ended with
    | .idle, some e => some (s.goto t .idle (some (.cancelled (default, some (.other e)))))
    | .idle, none => s.call lim t (.begin key) (afterBegin key)
    | _, _ => none
  | .wait t ended =>
    match s.callers t with
    | .waiting c i => s.call lim t (.wait c ended) (afterWait c i ended)
    | _ => none
  | .load t out =>
    match s.callers t, out with
    | .loading key c i, some out => some (s.goto t (.loaded key c i out) none)
    | .loading key c i, none => some (s.goto t (.deferred key c i (.panicked c)) none)
    | _, _ => none
  | .next t =>
    match s.callers t with
    | .loaded key c i out =>
      s.call lim t (.finish key (some c) out) fun _ => (.deferred key c i (.loaded c out), none)
    | .deferred key c i ret =>
      s.call lim t (.finish key (some c) (default, some .aborted)) fun _ => (.releasing i ret, none)
    | .releasing i ret => s.call lim t (.release i) fun _ => (.idle, some ret)
    | _ => none

/-- A group and any number of callers of `Do`, among other users. -/
def doSystem : System (DoSystemState θ τ ε) (DoAct θ τ ε) (DoObs τ ε) := ⟨⟨.init, fun _ => .idle⟩, doStep lim⟩

end Do

end Csar.Impl.ReadCache
