import CsarCore.Impl.ReadCache.Group

/-!
# Memoization in a scope (`readcache/scope.go`)

`Scope.Resolve` and `Scope.Close`, cut at their lock sections, at the reads of a
context's `Err` and at the caller's loader. `Resolve` goes through the group's `Do`
(`doStep`); the function that it passes runs while its caller is `loading` there.

Slices are buffers in a memory, so that it shows who else can write to one: code outside
the scope writes to the buffers that it has made or was given (`known`), at any time. A
caller's context, the scope's, and the one that is derived from both are separate; the
derived one ends some time after one of the others.
-/

namespace Csar.Impl.ReadCache

structure ScopeLimits where
  flights : Limits
  maxEntries : Int
  maxBytes : Int
  maxValueBytes : Int
  maxAge : Int

/-- The limits of a scope that `NewScope` returned, and those of its group. -/
structure ScopeConfig extends ScopeLimits where
  group : GroupLimits
  group_eq : newGroup flights = .ok group
  pos : 0 < maxEntries ∧ 0 < maxBytes ∧ 0 < maxValueBytes ∧ maxValueBytes ≤ maxBytes ∧ 0 < maxAge

def newScope (lim : ScopeLimits) : Except String ScopeConfig :=
  if h : lim.maxEntries ≤ 0 ∨ lim.maxBytes ≤ 0 ∨ lim.maxValueBytes ≤ 0 ∨ lim.maxValueBytes > lim.maxBytes ∨
      lim.maxAge ≤ 0 then
    .error "readcache scope requires positive bounded storage and lifetime"
  else match hg : newGroup lim.flights with
    | .error e => .error e
    | .ok g => .ok ⟨lim, g, hg, by omega⟩

/-! ## Memory -/

/-- A `[]byte`: nil, or a buffer. -/
abbrev Slice := Option Nat

/-- The contents of the buffers, and which of them code outside the scope has. -/
structure Memory where
  bufs : Nat → Bytes
  next : Nat
  known : List Nat

def Memory.read (m : Memory) : Slice → Bytes
  | none => []
  | some a => m.bufs a

/-- A new buffer, which nobody else has. -/
def Memory.make (m : Memory) (data : Bytes) : Memory :=
  { m with bufs := Function.update m.bufs m.next data, next := m.next + 1 }

def Memory.give (m : Memory) (data : Bytes) : Memory :=
  { m.make data with known := m.next :: m.known }

def Memory.write (m : Memory) (a : Nat) (data : Bytes) : Memory :=
  { m with bufs := Function.update m.bufs a data }

/-! ## Calls of `Resolve` -/

/-- `context.Canceled`, and other errors of contexts and loaders. -/
inductive ScopeErr (ε : Type)
  | canceled
  | other (e : ε)
  deriving DecidableEq

/-- The calls of the group's `Do`. -/
abbrev Flights (θ ε : Type) := DoSystemState θ Slice (ScopeErr ε)

abbrev FlightAct (θ ε : Type) := DoAct θ Slice (ScopeErr ε)

abbrev FlightObs (ε : Type) := DoObs Slice (ScopeErr ε)

abbrev FlightState (ε : Type) := DoState Slice (ScopeErr ε)

inductive Loaded (ε : Type)
  | ret (data : Slice) (err : Option (GroupErr (ScopeErr ε)))
  | panic

/-- Where a call of `Resolve` is: not made; about to read the context's error in `Do`; about to call
`Begin`; in `Do`, but not in the function it was passed; about to look for an entry; in the loader; about
to look at what that returned; about to store it; about to delete the reservation; back from `Do`, which
returned `out` or panicked; done. -/
inductive ResolveState (ε : Type)
  | idle
  | entered (key : Key)
  | looked (key : Key)
  | inDo (key : Key)
  | reserve (key : Key)
  | loading (key : Key)
  | loaded (key : Key) (data : Slice)
  | fits (key : Key) (data : Slice)
  | rollback (key : Key) (out : Option (Outcome Slice (ScopeErr ε)))
  | returning (key : Key) (out : Option (Outcome Slice (ScopeErr ε)))
  | returned

/-- What a `Do` returns; `none`, if it panics. -/
def DoEnd.out {τ ε : Type} : DoEnd τ ε → Option (Outcome τ ε)
  | .cancelled out => some out
  | .refused out => some out
  | .joined _ out => some out
  | .loaded _ out => some out
  | .panicked _ => none

/-- After a step in `Do`. -/
def afterDo {ε : Type} (key : Key) (d : FlightState ε) (ret : Option (DoEnd Slice (ScopeErr ε))) :
    ResolveState ε :=
  match ret with
  | some r => .returning key r.out
  | none =>
    match d with
    | .loading _ _ _ => .reserve key
    | _ => .inDo key

/-! ## The scope -/

/-- The calls in its group, the error of its context, its entries (nil: reserved) and their bytes; how
many calls of `Close` have cancelled the context but not cleared the entries; and for each call of
`Resolve` the errors of its caller's context and of the derived one, and where it is. -/
structure Scope (θ ε : Type) where
  flights : Flights θ ε
  err : Option (ScopeErr ε)
  entries : Table (Key × Slice) Prod.fst
  bytes : Int
  closing : Nat
  mem : Memory
  ctx : θ → Option (ScopeErr ε)
  derived : θ → Option (ScopeErr ε)
  calls : θ → ResolveState ε

/-- The scope's context ends (by age, or with its parent); the two steps of `Close`; the caller's context
of a call ends, and the derived one; the steps of a call; and code outside makes a buffer, or writes to
one. -/
inductive ScopeAct (θ ε : Type)
  | expire (e : ScopeErr ε)
  | close
  | clear
  | cancel (t : θ) (e : ScopeErr ε)
  | propagate (t : θ) (fromScope : Bool)
  | resolve (t : θ) (key : Key)
  | look (t : θ)
  | begin (t : θ)
  | wait (t : θ) (ended : Bool)
  | reserve (t : θ)
  | load (t : θ) (res : Loaded ε)
  | check (t : θ)
  | commit (t : θ)
  | rollback (t : θ)
  | next (t : θ)
  | ret (t : θ)
  | give (data : Bytes)
  | write (a : Nat) (data : Bytes)

/-- A call's loader is called, and returns a slice that holds `data`; `data` is stored; it returns, or
panics. -/
inductive ScopeEvent (ε : Type)
  | invoked (key : Key)
  | loaded (key : Key) (data : Bytes)
  | committed (key : Key) (data : Bytes)
  | returned (key : Key) (r : Except (GroupErr (ScopeErr ε)) Bytes)
  | panicked (key : Key)
  deriving DecidableEq

/-- What comes of a step: the step of `Do`, if it is one, and an event. -/
structure ScopeObs (θ ε : Type) where
  flight : Option (FlightAct θ ε × FlightObs ε)
  event : Option (ScopeEvent ε)

section Steps

variable {θ ε : Type} [DecidableEq θ]

def Scope.goto (s : Scope θ ε) (t : θ) (x : ResolveState ε) : Scope θ ε :=
  { s with calls := Function.update s.calls t x }

variable (cfg : ScopeConfig)

def Scope.flight (s : Scope θ ε) (t : θ) (key : Key) (a : FlightAct θ ε)
    (event : Option (ScopeEvent ε)) : Option (Scope θ ε × ScopeObs θ ε) :=
  (doStep cfg.group s.flights a).map fun x =>
    ({ s with flights := x.1 }.goto t (afterDo key (x.1.callers t) x.2.ret), ⟨some (a, x.2), event⟩)

/-- The first lock section of the function in `Do`: an entry, or a reservation. -/
def Scope.reserve (s : Scope θ ε) (t : θ) (key : Key) : Option (Scope θ ε × ScopeObs θ ε) :=
  match s.entries.find? key with
  | some (_, some a) => s.flight cfg t key (.load t (some (some a, none))) none
  | _ =>
    if (s.entries.rows.length : Int) ≥ cfg.maxEntries then
      s.flight cfg t key (.load t (some (none, some .capacity))) none
    else some ({ s with entries := s.entries.upsert (key, none) }.goto t (.loading key),
      ⟨none, some (.invoked key)⟩)

/-- The loader has ended. It returns a slice that it has. -/
def Scope.load (s : Scope θ ε) (t : θ) (key : Key) : Loaded ε → Option (Scope θ ε × ScopeObs θ ε)
  | .panic => some (s.goto t (.rollback key none), ⟨none, none⟩)
  | .ret _ (some e) => some (s.goto t (.rollback key (some (none, some e))), ⟨none, none⟩)
  | .ret data none =>
    if data.all (s.mem.known.contains ·) then
      some (s.goto t (.loaded key data), ⟨none, some (.loaded key (s.mem.read data))⟩)
    else none

/-- The context and the length of what the loader returned. -/
def Scope.check (s : Scope θ ε) (t : θ) (key : Key) (data : Slice) : Scope θ ε :=
  match s.derived t with
  | some e => s.goto t (.rollback key (some (none, some (.other e))))
  | none =>
    if ((s.mem.read data).length : Int) > cfg.maxValueBytes then
      s.goto t (.rollback key (some (none, some .capacity)))
    else s.goto t (.fits key data)

/-- The second lock section: the value is stored, in a buffer of its own. -/
def Scope.commit (s : Scope θ ε) (t : θ) (key : Key) (data : Slice) : Option (Scope θ ε × ScopeObs θ ε) :=
  match s.err with
  | some e => some (s.goto t (.rollback key (some (none, some (.other e)))), ⟨none, none⟩)
  | none =>
    if ((s.mem.read data).length : Int) > cfg.maxBytes - s.bytes then
      some (s.goto t (.rollback key (some (none, some .capacity))), ⟨none, none⟩)
    else
      { s with
        mem := s.mem.make (s.mem.read data)
        entries := s.entries.upsert (key, some s.mem.next)
        bytes := s.bytes + (s.mem.read data).length }.flight cfg t key (.load t (some (some s.mem.next, none)))
        (some (.committed key (s.mem.read data)))

/-- The end of `Resolve`, after `Do`. A value is cloned. -/
def Scope.ret (s : Scope θ ε) (t : θ) (key : Key) :
    Option (Outcome Slice (ScopeErr ε)) → Scope θ ε × ScopeObs θ ε
  | none => (s.goto t .returned, ⟨none, some (.panicked key)⟩)
  | some (_, some e) => (s.goto t .returned, ⟨none, some (.returned key (.error e))⟩)
  | some (value, none) =>
    ({ s with mem := s.mem.give (s.mem.read value) }.goto t .returned,
      ⟨none, some (.returned key (.ok (s.mem.read value)))⟩)

def scopeStep (s : Scope θ ε) : ScopeAct θ ε → Option (Scope θ ε × ScopeObs θ ε)
  | .expire e =>
    match s.err with
    | none => some ({ s with err := some e }, ⟨none, none⟩)
    | some _ => none
  | .close => some ({ s with err := some (s.err.getD .canceled), closing := s.closing + 1 }, ⟨none, none⟩)
  | .clear =>
    if s.closing = 0 then none
    else some ({ s with entries := .empty, bytes := 0, closing := s.closing - 1 }, ⟨none, none⟩)
  | .cancel t e =>
    match s.ctx t with
    | none => some ({ s with ctx := Function.update s.ctx t (some e) }, ⟨none, none⟩)
    | some _ => none
  | .propagate t fromScope =>
    match s.derived t, if fromScope then s.err.map fun _ => .canceled else s.ctx t with
    | none, some e => some ({ s with derived := Function.update s.derived t (some e) }, ⟨none, none⟩)
    | _, _ => none
  | .resolve t key =>
    match s.calls t, s.err with
    | .idle, some e => some (s.goto t .returned, ⟨none, some (.returned key (.error (.other e)))⟩)
    | .idle, none =>
      some ({ s with derived := Function.update s.derived t (s.ctx t) }.goto t (.entered key), ⟨none, none⟩)
    | _, _ => none
  | .look t =>
    match s.calls t, s.derived t with
    | .entered key, some e => s.flight cfg t key (.start t key (some e)) none
    | .entered key, none => some (s.goto t (.looked key), ⟨none, none⟩)
    | _, _ => none
  | .begin t =>
    match s.calls t with
    | .looked key => s.flight cfg t key (.start t key none) none
    | _ => none
  | .wait t ended =>
    match s.calls t, ended, s.derived t with
    | .inDo key, true, some e => s.flight cfg t key (.wait t (some e)) none
    | .inDo key, false, _ => s.flight cfg t key (.wait t none) none
    | _, _, _ => none
  | .reserve t =>
    match s.calls t with
    | .reserve key => s.reserve cfg t key
    | _ => none
  | .load t res =>
    match s.calls t with
    | .loading key => s.load t key res
    | _ => none
  | .check t =>
    match s.calls t with
    | .loaded key data => some (s.check cfg t key data, ⟨none, none⟩)
    | _ => none
  | .commit t =>
    match s.calls t with
    | .fits key data => s.commit cfg t key data
    | _ => none
  | .rollback t =>
    match s.calls t with
    | .rollback key out =>
      { s with entries := s.entries.deleteWhere fun q => q.1 == key }.flight cfg t key (.load t out) none
    | _ => none
  | .next t =>
    match s.calls t with
    | .inDo key => s.flight cfg t key (.next t) none
    | _ => none
  | .ret t =>
    match s.calls t with
    | .returning key out => some (s.ret t key out)
    | _ => none
  | .give data => some ({ s with mem := s.mem.give data }, ⟨none, none⟩)
  | .write a data =>
    if a ∈ s.mem.known ∧ data.length = (s.mem.bufs a).length then
      some ({ s with mem := s.mem.write a data }, ⟨none, none⟩)
    else none

def scopeSystem : System (Scope θ ε) (ScopeAct θ ε) (ScopeObs θ ε) where
  init :=
    { flights := ⟨.init, fun _ => .idle⟩
      err := none
      entries := .empty
      bytes := 0
      closing := 0
      mem := ⟨fun _ => [], 0, []⟩
      ctx := fun _ => none
      derived := fun _ => none
      calls := fun _ => .idle }
  step := scopeStep cfg

end Steps

end Csar.Impl.ReadCache
