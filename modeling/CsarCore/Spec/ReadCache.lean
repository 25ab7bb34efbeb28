import CsarCore.Impl.ReadCache.Group
import CsarCore.Impl.ReadCache.Scope

/-!
# What the histories of a group and of a scope say

The calls that are in flight, the followers that are attached and the outcomes that
calls completed with, read off the history of operations alone, without the group's
map, counters or calls. `Settled` says what the end of a `Do` means for its ticket. Of a
scope: the steps of `Do` and the values that were stored; and of a state, which loads
run and the bytes of the stored values. `Serves` are the steps that a call needs to get
a value that is stored.
-/

namespace Csar.Spec.ReadCache

open Impl.ReadCache

section

variable {τ ε : Type}

abbrev History (τ ε : Type) := List (Op τ ε × Res τ ε)

/-- The keys and tickets of leaders without an accepted `Finish` yet. -/
def unfinished : History τ ε → List (Key × Nat)
  | [] => []
  | (.begin key, .leader c _) :: tr => (key, c) :: unfinished tr
  | (.finish _ (some c) _, .finished true) :: tr => (unfinished tr).filter fun x => x.2 != c
  | _ :: tr => unfinished tr

/-- The release functions of followers of `c` that have not run yet. -/
def attached (c : Nat) : History τ ε → List Nat
  | [] => []
  | (.begin _, .follower c' i) :: tr => if c' = c then i :: attached c tr else attached c tr
  | (.release i, _) :: tr => (attached c tr).filter fun j => j != i
  | _ :: tr => attached c tr

/-- The outcomes of accepted calls of `Finish` for `c`. -/
def completions (c : Nat) : History τ ε → List (Outcome τ ε)
  | [] => []
  | (.finish _ (some c') out, .finished true) :: tr =>
    if c' = c then out :: completions c tr else completions c tr
  | _ :: tr => completions c tr

def ops {θ : Type} (tr : List (DoAct θ τ ε × DoObs τ ε)) : History τ ε := tr.filterMap fun e => e.2.op

/-- A `Do` that returns because a ticket completed returns what that was completed with. One whose loader
returned has completed its ticket with that, unless it was completed already; one whose loader panicked
leaves it completed. -/
def Settled (H : History τ ε) : DoEnd τ ε → Prop
  | .cancelled _ => True
  | .refused _ => True
  | .joined c out => completions c H = [out]
  | .loaded c out => completions c H = [out] ∨
      (∃ key, (.finish key (some c) out, .finished false) ∈ H) ∧ ∃ out', completions c H = [out']
  | .panicked c => ∃ out, completions c H = [out]

end

/-! ## Scopes -/

variable {θ ε : Type}

abbrev ScopeHistory (θ ε : Type) := List (ScopeAct θ ε × ScopeObs θ ε)

def flights (tr : ScopeHistory θ ε) : List (FlightAct θ ε × FlightObs ε) :=
  tr.filterMap fun e => e.2.flight

def commits (key : Key) : ScopeHistory θ ε → List Bytes
  | [] => []
  | (_, ⟨_, some (.committed k data)⟩) :: tr => if k = key then data :: commits key tr else commits key tr
  | _ :: tr => commits key tr

/-- What a slice that held `bs` holds after the steps: what was last written to it. -/
def held (data : Slice) (bs : Bytes) : ScopeHistory θ ε → Bytes
  | [] => bs
  | (.write a new, _) :: tr => if data = some a then new else held data bs tr
  | _ :: tr => held data bs tr

/-- The loader of `t` has returned the slice `data`, which holds `bs` now. -/
def Got (tr : ScopeHistory θ ε) (t : θ) (key : Key) (data : Slice) (bs : Bytes) : Prop :=
  ∃ mid pre bs₀, tr = mid ++ (.load t (.ret data none), ⟨none, some (.loaded key bs₀)⟩) :: pre ∧
    bs = held data bs₀ mid

def Cleared (tr : ScopeHistory θ ε) : Prop := ∃ o, (ScopeAct.clear, o) ∈ tr

/-- The call has a reservation for the key, and has neither stored a value nor deleted it. -/
def Running (key : Key) : ResolveState ε → Prop
  | .loading k => k = key
  | .loaded k _ => k = key
  | .fits k _ => k = key
  | .rollback k _ => k = key
  | _ => False

def retained (m : Memory) (entries : Table (Key × Slice) Prod.fst) : Int :=
  (entries.rows.map fun e => ((m.read e.2).length : Int)).sum

/-- `Begin` refuses the key after these operations: its call has no room for a follower, or there are as
many calls of other keys as there may be. -/
def AtLimit (lim : Limits) (key : Key) (H : History Slice (ScopeErr ε)) : Prop :=
  (∃ c, (key, c) ∈ unfinished H ∧ lim.maxFollowers ≤ (attached c H).length) ∨
  (∀ c, (key, c) ∉ unfinished H) ∧ lim.maxKeys ≤ (unfinished H).length

/-- The `Begin` of `t` was refused for want of capacity, after `base`. -/
def Refused (lim : Limits) (base : ScopeHistory θ ε) (t : θ) (key : Key) (post : ScopeHistory θ ε) : Prop :=
  ∃ p₁ x p₂, post = p₁ ++ (.begin t, x) :: p₂ ∧ AtLimit lim key (ops (flights (p₂ ++ base)))

/-- The call `t`, made at the end of `base`, returns `bs` or was refused. -/
def Answer (lim : Limits) (base : ScopeHistory θ ε) (t : θ) (key : Key) (bs : Bytes) (post : ScopeHistory θ ε)
    (o : ScopeObs θ ε) : Prop :=
  o.event = some (.returned key (.ok bs)) ∨
  o.event = some (.returned key (.error .capacity)) ∧ Refused lim base t key post

/-- A step of `t`, or of `u` that it follows, in which neither is cancelled and no loader ends. -/
def Serves (t u : θ) : ScopeAct θ ε → Prop
  | .look v => v = t
  | .begin v => v = t
  | .wait v ended => v = t ∧ ended = false
  | .reserve v => v = t ∨ v = u
  | .next v => v = t ∨ v = u
  | .ret v => v = t
  | _ => False

end Csar.Spec.ReadCache
