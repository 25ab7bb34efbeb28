import CsarCore.Proof.ReadCache.Lead
import CsarCore.Spec.ReadCache

/-!
# The scope: storage

`ScopeMoves` is what a step can do (`moves_of_scopeStep`). Each `Resolve` is where its
`Do` is (`FlightInv`), hence no two loads of a key run at once (`FlightInv.same_key`);
the entries are within the limits, each reservation that of a running load (`StoreInv`):
`scope_storage`.
-/

namespace Csar.Proof.ReadCache

open Impl.ReadCache Spec.ReadCache

variable {θ ε : Type} {cfg : ScopeConfig} {tr tr' : ScopeHistory θ ε} {s s' : Scope θ ε} {act : ScopeAct θ ε}
  {o : ScopeObs θ ε} {t t' : θ} {key : Key} {a : FlightAct θ ε} {y : ResolveState ε} {event : Option (ScopeEvent ε)}

/-! ## Steps -/

/-- A step of `t` in its `Do` that touches nothing else: which one, and when it is made. -/
inductive InFlight (cfg : ScopeConfig) (s : Scope θ ε) (t : θ) (key : Key) :
    ScopeAct θ ε → FlightAct θ ε → Prop
  | look {e : ScopeErr ε} (hw : s.calls t = .entered key) (he : s.derived t = some e) :
    InFlight cfg s t key (.look t) (.start t key (some e))
  | begin (hw : s.calls t = .looked key) : InFlight cfg s t key (.begin t) (.start t key none)
  | ended {e : ScopeErr ε} (hw : s.calls t = .inDo key) (he : s.derived t = some e) :
    InFlight cfg s t key (.wait t true) (.wait t (some e))
  | wait (hw : s.calls t = .inDo key) : InFlight cfg s t key (.wait t false) (.wait t none)
  | hit {a : Nat} (hw : s.calls t = .reserve key) (ha : (key, some a) ∈ s.entries) :
    InFlight cfg s t key (.reserve t) (.load t (some (some a, none)))
  | full (hw : s.calls t = .reserve key) (ha : ∀ a, (key, some a) ∉ s.entries)
    (hlen : cfg.maxEntries ≤ s.entries.rows.length) :
    InFlight cfg s t key (.reserve t) (.load t (some (none, some .capacity)))
  | next (hw : s.calls t = .inDo key) : InFlight cfg s t key (.next t) (.next t)

/-- A step of `t` outside of `Do`, from one place to another, with what there is to see. -/
inductive Goes (cfg : ScopeConfig) (s : Scope θ ε) (t : θ) :
    ScopeAct θ ε → ResolveState ε → Option (ScopeEvent ε) → Prop
  | look {key : Key} (hw : s.calls t = .entered key) (he : s.derived t = none) :
    Goes cfg s t (.look t) (.looked key) none
  | panic {key : Key} (hw : s.calls t = .loading key) : Goes cfg s t (.load t .panic) (.rollback key none) none
  | fail {key : Key} {data : Slice} {e : GroupErr (ScopeErr ε)} (hw : s.calls t = .loading key) :
    Goes cfg s t (.load t (.ret data (some e))) (.rollback key (some (none, some e))) none
  | load {key : Key} {data : Slice} (hw : s.calls t = .loading key) (hk : ∀ a, data = some a → a ∈ s.mem.known) :
    Goes cfg s t (.load t (.ret data none)) (.loaded key data) (some (.loaded key (s.mem.read data)))
  | late {key : Key} {data : Slice} {e : ScopeErr ε} (hw : s.calls t = .loaded key data)
    (he : s.derived t = some e) : Goes cfg s t (.check t) (.rollback key (some (none, some (.other e)))) none
  | long {key : Key} {data : Slice} (hw : s.calls t = .loaded key data) :
    Goes cfg s t (.check t) (.rollback key (some (none, some .capacity))) none
  | fits {key : Key} {data : Slice} (hw : s.calls t = .loaded key data)
    (hlen : ((s.mem.read data).length : Int) ≤ cfg.maxValueBytes) : Goes cfg s t (.check t) (.fits key data) none
  | closed {key : Key} {data : Slice} {e : ScopeErr ε} (hw : s.calls t = .fits key data) (he : s.err = some e) :
    Goes cfg s t (.commit t) (.rollback key (some (none, some (.other e)))) none
  | full {key : Key} {data : Slice} (hw : s.calls t = .fits key data) :
    Goes cfg s t (.commit t) (.rollback key (some (none, some .capacity))) none
  | panicked {key : Key} (hw : s.calls t = .returning key none) :
    Goes cfg s t (.ret t) .returned (some (.panicked key))
  | failed {key : Key} {v : Slice} {e : GroupErr (ScopeErr ε)} (hw : s.calls t = .returning key (some (v, some e))) :
    Goes cfg s t (.ret t) .returned (some (.returned key (.error e)))

section Moves

variable [DecidableEq θ]

inductive ScopeMoves (cfg : ScopeConfig) (s : Scope θ ε) : ScopeAct θ ε → Scope θ ε → ScopeObs θ ε → Prop
  | expire {e : ScopeErr ε} (he : s.err = none) :
    ScopeMoves cfg s (.expire e) { s with err := some e } ⟨none, none⟩
  | close : ScopeMoves cfg s .close
      { s with err := some (s.err.getD .canceled), closing := s.closing + 1 } ⟨none, none⟩
  | clear (hc : 0 < s.closing) : ScopeMoves cfg s .clear
      { s with entries := .empty, bytes := 0, closing := s.closing - 1 } ⟨none, none⟩
  | cancel {t : θ} {e : ScopeErr ε} : ScopeMoves cfg s (.cancel t e)
      { s with ctx := Function.update s.ctx t (some e) } ⟨none, none⟩
  | propagate {t : θ} {b : Bool} {e : ScopeErr ε} (he : s.err ≠ none ∨ s.ctx t ≠ none) :
    ScopeMoves cfg s (.propagate t b) { s with derived := Function.update s.derived t (some e) } ⟨none, none⟩
  | shut {t : θ} {key : Key} {e : ScopeErr ε} (hw : s.calls t = .idle) (he : s.err = some e) :
    ScopeMoves cfg s (.resolve t key) (s.goto t .returned) ⟨none, some (.returned key (.error (.other e)))⟩
  | enter {t : θ} {key : Key} (hw : s.calls t = .idle) (he : s.err = none) :
    ScopeMoves cfg s (.resolve t key)
      ({ s with derived := Function.update s.derived t (s.ctx t) }.goto t (.entered key)) ⟨none, none⟩
  | flight {act : ScopeAct θ ε} {t : θ} {key : Key} {a : FlightAct θ ε}
    {d : Flights θ ε} {x : FlightObs ε} (hin : InFlight cfg s t key act a)
    (hs : doStep cfg.group s.flights a = some (d, x)) :
    ScopeMoves cfg s act ({ s with flights := d }.goto t (afterDo key (d.callers t) x.ret)) ⟨some (a, x), none⟩
  | goes {act : ScopeAct θ ε} {t : θ} {y : ResolveState ε} {event : Option (ScopeEvent ε)}
    (hgo : Goes cfg s t act y event) : ScopeMoves cfg s act (s.goto t y) ⟨none, event⟩
  | reserve {t : θ} {key : Key} (hw : s.calls t = .reserve key) (ha : ∀ a, (key, some a) ∉ s.entries)
    (hlen : (s.entries.rows.length : Int) < cfg.maxEntries) :
    ScopeMoves cfg s (.reserve t) ({ s with entries := s.entries.upsert (key, none) }.goto t (.loading key))
      ⟨none, some (.invoked key)⟩
  | commit {t : θ} {key : Key} {data : Slice} {d : Flights θ ε}
    {x : FlightObs ε} (hw : s.calls t = .fits key data) (he : s.err = none)
    (hlen : ((s.mem.read data).length : Int) ≤ cfg.maxBytes - s.bytes)
    (hs : doStep cfg.group s.flights (.load t (some (some s.mem.next, none))) = some (d, x)) :
    ScopeMoves cfg s (.commit t)
      ({ s with
        flights := d
        mem := s.mem.make (s.mem.read data)
        entries := s.entries.upsert (key, some s.mem.next)
        bytes := s.bytes + (s.mem.read data).length }.goto t (afterDo key (d.callers t) x.ret))
      ⟨some (.load t (some (some s.mem.next, none)), x), some (.committed key (s.mem.read data))⟩
  | rollback {t : θ} {key : Key} {out : Option (Outcome Slice (ScopeErr ε))}
    {d : Flights θ ε} {x : FlightObs ε} (hw : s.calls t = .rollback key out)
    (hs : doStep cfg.group s.flights (.load t out) = some (d, x)) :
    ScopeMoves cfg s (.rollback t)
      ({ s with
        flights := d
        entries := s.entries.deleteWhere fun q => q.1 == key }.goto t (afterDo key (d.callers t) x.ret))
      ⟨some (.load t out, x), none⟩
  | clone {t : θ} {key : Key} {v : Slice} (hw : s.calls t = .returning key (some (v, none))) :
    ScopeMoves cfg s (.ret t) ({ s with mem := s.mem.give (s.mem.read v) }.goto t .returned)
      ⟨none, some (.returned key (.ok (s.mem.read v)))⟩
  | give {data : Bytes} : ScopeMoves cfg s (.give data) { s with mem := s.mem.give data } ⟨none, none⟩
  | write {a : Nat} {data : Bytes} (hk : a ∈ s.mem.known) (hlen : data.length = (s.mem.bufs a).length) :
    ScopeMoves cfg s (.write a data) { s with mem := s.mem.write a data } ⟨none, none⟩

theorem flight_eq
    (h : s.flight cfg t key a event = some (s', o)) :
    ∃ d x, doStep cfg.group s.flights a = some (d, x) ∧
      s' = { s with flights := d }.goto t (afterDo key (d.callers t) x.ret) ∧ o = ⟨some (a, x), event⟩ := by
  simp only [Scope.flight, Option.map_eq_some_iff, Prod.mk.injEq] at h
  obtain ⟨⟨d, x⟩, hs, rfl, rfl⟩ := h
  exact ⟨d, x, hs, rfl, rfl⟩

theorem moves_reserve (hw : s.calls t = .reserve key) (h : s.reserve cfg t key = some (s', o)) :
    ScopeMoves cfg s (.reserve t) s' o := by
  unfold Scope.reserve at h
  split at h
  · rename_i k a hf
    obtain ⟨hm, hk⟩ := Table.find?_eq_some.mp hf
    cases hk
    obtain ⟨d, x, hs, rfl, rfl⟩ := flight_eq h
    exact .flight (.hit hw hm) hs
  · rename_i hf
    have ha : ∀ a, (key, some a) ∉ s.entries := fun a hm => hf key a (Table.find?_eq_some.mpr ⟨hm, rfl⟩)
    split at h
    · rename_i hlen
      obtain ⟨d, x, hs, rfl, rfl⟩ := flight_eq h
      exact .flight (.full hw ha hlen) hs
    · rename_i hlen
      cases h
      exact .reserve hw ha (by omega)

theorem moves_load {res : Loaded ε}
    (hw : s.calls t = .loading key) (h : s.load t key res = some (s', o)) : ScopeMoves cfg s (.load t res) s' o := by
  unfold Scope.load at h
  split at h
  · cases h; exact .goes (.panic hw)
  · cases h; exact .goes (.fail hw)
  · rename_i data
    split at h <;> cases h
    rename_i hk
    refine .goes (.load hw fun a ha => ?_)
    cases ha
    simpa using hk

theorem moves_check {data : Slice} (hw : s.calls t = .loaded key data) :
    ScopeMoves cfg s (.check t) (s.check cfg t key data) ⟨none, none⟩ := by
  unfold Scope.check
  split
  · rename_i e he; exact .goes (.late hw he)
  · split
    · exact .goes (.long hw)
    · exact .goes (.fits hw (by omega))

theorem moves_commit {data : Slice}
    (hw : s.calls t = .fits key data) (h : s.commit cfg t key data = some (s', o)) :
    ScopeMoves cfg s (.commit t) s' o := by
  unfold Scope.commit at h
  split at h
  · rename_i e he; cases h; exact .goes (.closed hw he)
  · rename_i he
    split at h
    · cases h; exact .goes (.full hw)
    · rename_i hlen
      obtain ⟨d, x, hs, rfl, rfl⟩ := flight_eq h
      exact .commit hw he (by omega) hs

theorem moves_ret {out : Option (Outcome Slice (ScopeErr ε))} (hw : s.calls t = .returning key out) :
    ScopeMoves cfg s (.ret t) (s.ret t key out).1 (s.ret t key out).2 := by
  rcases out with _ | ⟨v, _ | e⟩
  · exact .goes (.panicked hw)
  · exact .clone hw
  · exact .goes (.failed hw)

theorem moves_of_scopeStep {a : ScopeAct θ ε}
    (h : scopeStep cfg s a = some (s', o)) : ScopeMoves cfg s a s' o := by
  cases a with
  | expire e =>
    simp only [scopeStep] at h
    split at h <;> cases h
    rename_i he
    exact .expire he
  | close => cases h; exact .close
  | clear =>
    simp only [scopeStep] at h
    split at h <;> cases h
    exact .clear (by omega)
  | cancel t e =>
    simp only [scopeStep] at h
    split at h <;> cases h
    exact .cancel
  | propagate t b =>
    simp only [scopeStep] at h
    split at h <;> cases h
    rename_i e _ he
    refine .propagate ?_
    cases b
    · exact .inr fun hn => by simp [hn] at he
    · exact .inl fun hn => by simp [hn] at he
  | resolve t key =>
    simp only [scopeStep] at h
    split at h <;> cases h
    · rename_i hw he; exact .shut hw he
    · rename_i hw he; exact .enter hw he
  | look t =>
    simp only [scopeStep] at h
    split at h
    · rename_i hw he
      obtain ⟨d, x, hs, rfl, rfl⟩ := flight_eq h
      exact .flight (.look hw he) hs
    · rename_i hw he
      cases h
      exact .goes (.look hw he)
    · cases h
  | begin t =>
    simp only [scopeStep] at h
    split at h <;> [skip; cases h]
    rename_i hw
    obtain ⟨d, x, hs, rfl, rfl⟩ := flight_eq h
    exact .flight (.begin hw) hs
  | wait t ended =>
    simp only [scopeStep] at h
    split at h
    · rename_i hw he
      obtain ⟨d, x, hs, rfl, rfl⟩ := flight_eq h
      exact .flight (.ended hw he) hs
    · rename_i hw
      obtain ⟨d, x, hs, rfl, rfl⟩ := flight_eq h
      exact .flight (.wait hw) hs
    · cases h
  | reserve t =>
    simp only [scopeStep] at h
    split at h <;> [skip; cases h]
    rename_i hw
    exact moves_reserve hw h
  | load t res =>
    simp only [scopeStep] at h
    split at h <;> [skip; cases h]
    rename_i hw
    exact moves_load hw h
  | check t =>
    simp only [scopeStep] at h
    split at h <;> cases h
    rename_i hw
    exact moves_check hw
  | commit t =>
    simp only [scopeStep] at h
    split at h <;> [skip; cases h]
    rename_i hw
    exact moves_commit hw h
  | rollback t =>
    simp only [scopeStep] at h
    split at h <;> [skip; cases h]
    rename_i hw
    obtain ⟨d, x, hs, rfl, rfl⟩ := flight_eq h
    exact .rollback hw hs
  | next t =>
    simp only [scopeStep] at h
    split at h <;> [skip; cases h]
    rename_i hw
    obtain ⟨d, x, hs, rfl, rfl⟩ := flight_eq h
    exact .flight (.next hw) hs
  | ret t =>
    simp only [scopeStep] at h
    split at h <;> [skip; cases h]
    rename_i hw
    have hm : ScopeMoves cfg s (.ret t) _ _ := moves_ret hw
    rw [Option.some.inj h] at hm
    exact hm
  | give data => cases h; exact .give
  | write b data =>
    simp only [scopeStep] at h
    split at h <;> cases h
    rename_i hk
    exact .write hk.1 hk.2

end Moves

/-! ## Where calls are -/

/-- Where the call is when its `Do` is at `d`: in the function that was passed, elsewhere in it, or not
in it. -/
def Placed (d : FlightState ε) : ResolveState ε → Prop
  | .reserve key => ∃ c i, d = .loading key c i
  | .loading key => ∃ c i, d = .loading key c i
  | .loaded key _ => ∃ c i, d = .loading key c i
  | .fits key _ => ∃ c i, d = .loading key c i
  | .rollback key _ => ∃ c i, d = .loading key c i
  | .inDo key => (∃ c i, d = .waiting c i) ∨ (∃ c i out, d = .loaded key c i out) ∨
      (∃ c i ret, d = .deferred key c i ret) ∨ ∃ i ret, d = .releasing i ret
  | _ => d = .idle

variable {d : FlightState ε} {x : ResolveState ε}

theorem placed_of_running (h : Placed d x) (hr : Running key x) : ∃ c i, d = .loading key c i := by
  cases x <;> first | exact absurd hr id | (cases hr; exact h)

def doKey? : FlightState ε → Option Key
  | .loading key _ _ => some key
  | .loaded key _ _ _ => some key
  | .deferred key _ _ _ => some key
  | _ => none

def resolveKey? : ResolveState ε → Option Key
  | .reserve key => some key
  | .loading key => some key
  | .loaded key _ => some key
  | .fits key _ => some key
  | .rollback key _ => some key
  | .inDo key => some key
  | _ => none

theorem doKey_eq_resolveKey {k : Key} (h : Placed d x) (hk : doKey? d = some k) : resolveKey? x = some k := by
  cases x with
  | inDo key =>
    rcases h with ⟨c, i, rfl⟩ | ⟨c, i, out, rfl⟩ | ⟨c, i, ret, rfl⟩ | ⟨i, ret, rfl⟩
    · cases hk
    · exact hk
    · exact hk
    · cases hk
  | reserve key | loading key | loaded key data | fits key data
  | rollback key out => obtain ⟨c, i, rfl⟩ := h; exact hk
  | _ => cases h; cases hk

/-- A step of `Do` takes the call where `afterDo` says. -/
theorem placed_afterDo {lim : Limits} {d d' : Flights θ ε}
    {ret : Option (DoEnd Slice (ScopeErr ε))} (hm : Moves lim d d' t a ret)
    (hstart : ∀ k e, a = .start t k e → k = key) (hkey : ∀ k, doKey? (d.callers t) = some k → k = key) :
    Placed (d'.callers t) (afterDo key (d'.callers t) ret) := by
  cases hm with
  | cancelled _ hw' _ => exact hw'
  | refused _ hw' _ _ => exact hw'
  | released _ hw' _ => exact hw'
  | follow _ hw' _ _ => rw [hw']; exact .inl ⟨_, _, rfl⟩
  | lead _ hw' _ =>
    rw [hw', hstart _ _ rfl]
    exact ⟨_, _, rfl⟩
  | ended _ hw' _ | joined _ hw' _ _ | aborted _ hw' _
  | passed _ hw' _ => rw [hw']; exact .inr (.inr (.inr ⟨_, _, rfl⟩))
  | loaded hw hw' _ =>
    have hk := hkey _ (by rw [hw]; rfl)
    rw [hw', hk]
    exact .inr (.inl ⟨_, _, _, rfl⟩)
  | panicked hw hw' _ | finished hw hw' _ =>
    have hk := hkey _ (by rw [hw]; rfl)
    rw [hw', hk]
    exact .inr (.inr (.inl ⟨_, _, _, rfl⟩))

/-- The calls of `Resolve` are where their `Do` is. -/
structure FlightInv (cfg : ScopeConfig) (tr : ScopeHistory θ ε) (s : Scope θ ε) : Prop where
  runs : DoInv cfg.group (flights tr) s.flights
  leads : Leads s.flights
  placed : ∀ t, Placed (s.flights.callers t) (s.calls t)

section Flights

theorem FlightInv.same_key (h : FlightInv cfg tr s) (ht : Running key (s.calls t))
    (ht' : Running key (s.calls t')) : t = t' := by
  obtain ⟨c, i, hd⟩ := placed_of_running (h.placed t) ht
  obtain ⟨c', i', hd'⟩ := placed_of_running (h.placed t') ht'
  exact h.leads.same_key (by rw [hd]; rfl) (by rw [hd']; rfl)

theorem flights_cons_none (ho : o.flight = none) : flights ((act, o) :: tr) = flights tr :=
  List.filterMap_cons_none ho

theorem Goes.placed (hgo : Goes cfg s t act y event)
    (h : Placed d (s.calls t)) : Placed d y := by
  cases hgo <;> rename_i hw <;> simp_all [Placed]

theorem InFlight.actor_eq (hin : InFlight cfg s t key act a) : actor a = some t := by
  cases hin <;> rfl

theorem InFlight.resolve_key (hin : InFlight cfg s t key act a) {k : Key}
    (hk : resolveKey? (s.calls t) = some k) : k = key := by
  cases hin <;> rename_i hw <;> simp_all [resolveKey?]

theorem InFlight.start_key (hin : InFlight cfg s t key act a) (k : Key)
    (e : Option (ScopeErr ε)) (ha : a = .start t k e) : k = key := by
  cases hin <;> cases ha <;> rfl

theorem FlightInv.same (h : FlightInv cfg tr s) (hf : s'.flights = s.flights) (ho : o.flight = none)
    (hp : ∀ t, Placed (s.flights.callers t) (s'.calls t)) : FlightInv cfg ((act, o) :: tr) s' := by
  constructor
  · rw [flights_cons_none ho, hf]; exact h.runs
  · rw [hf]; exact h.leads
  · rw [hf]; exact hp

variable [DecidableEq θ]

theorem FlightInv.goto (h : FlightInv cfg tr s) (hf : s'.flights = s.flights)
    (hc : s'.calls = Function.update s.calls t x) (ho : o.flight = none)
    (hx : Placed (s.flights.callers t) (s.calls t) → Placed (s.flights.callers t) x) :
    FlightInv cfg ((act, o) :: tr) s' := by
  refine h.same hf ho fun u => ?_
  rw [hc, Function.update_apply]
  split
  · rename_i e; rw [e]; exact hx (h.placed t)
  · exact h.placed u

theorem FlightInv.flight (h : FlightInv cfg tr s)
    {d : Flights θ ε} {x : FlightObs ε}
    (hs : doStep cfg.group s.flights a = some (d, x)) (ha : actor a = some t) (hf : s'.flights = d)
    (hc : s'.calls = Function.update s.calls t (afterDo key (d.callers t) x.ret))
    (hstart : ∀ k e, a = .start t k e → k = key) (hkey : ∀ k, doKey? (s.flights.callers t) = some k → k = key) :
    FlightInv cfg ((act, ⟨some (a, x), event⟩) :: tr) s' := by
  have hm := moves_of_doStep h.leads h.runs ha hs
  have hothers : ∀ u ≠ t, d.callers u = s.flights.callers u := fun u hu => doStep_others ha hs hu
  have htr : flights ((act, ⟨some (a, x), event⟩) :: tr) = (a, x) :: flights tr := List.filterMap_cons_some rfl
  constructor
  · rw [htr, hf]; exact doInv_step h.runs hs
  · rw [hf]; exact hm.leads h.leads hothers
  · intro u
    rw [hf, hc, Function.update_apply]
    split
    · rename_i e; rw [e]; exact placed_afterDo hm hstart hkey
    · rename_i e; rw [hothers u e]; exact h.placed u

theorem flightInv_step (h : FlightInv cfg tr s) (hs : ScopeMoves cfg s act s' o) :
    FlightInv cfg ((act, o) :: tr) s' := by
  cases hs with
  | shut hw _ | enter hw _ | reserve hw _ _
  | clone hw => exact h.goto rfl rfl rfl (by rw [hw]; exact id)
  | flight hin hs =>
    exact h.flight hs hin.actor_eq rfl rfl hin.start_key fun k hk =>
      hin.resolve_key (doKey_eq_resolveKey (h.placed _) hk)
  | goes hgo => exact h.goto rfl rfl rfl hgo.placed
  | commit hw _ _ hs | rollback hw hs =>
    refine h.flight hs rfl rfl rfl (fun _ _ ha => by cases ha) fun k hk => ?_
    have hx := doKey_eq_resolveKey (h.placed _) hk
    rw [hw] at hx
    exact (Option.some.inj hx).symm
  | _ => exact h.same rfl rfl h.placed

end Flights

/-! ## Memory -/

section Memory

variable {m : Memory} {v : Slice}

theorem read_make (data : Bytes) (h : ∀ a, v = some a → a < m.next) : (m.make data).read v = m.read v := by
  rcases v with _ | a
  · rfl
  · have hne : a ≠ m.next := Nat.ne_of_lt (h a rfl)
    show Function.update m.bufs m.next data a = m.bufs a
    rw [Function.update_of_ne hne]

theorem read_make_self (m : Memory) (data : Bytes) : (m.make data).read (some m.next) = data := by
  show Function.update m.bufs m.next data m.next = data
  rw [Function.update_self]

theorem read_give (data : Bytes) (h : ∀ a, v = some a → a < m.next) : (m.give data).read v = m.read v :=
  read_make data h

theorem read_write {a : Nat} (data : Bytes) (h : v ≠ some a) : (m.write a data).read v = m.read v := by
  rcases v with _ | b
  · rfl
  · have hne : b ≠ a := fun e => h (congrArg some e)
    show Function.update m.bufs a data b = m.bufs b
    rw [Function.update_of_ne hne]

theorem length_read_write {a : Nat} {data : Bytes} (h : data.length = (m.bufs a).length) (v : Slice) :
    ((m.write a data).read v).length = (m.read v).length := by
  by_cases e : v = some a
  · rw [e]
    show (Function.update m.bufs a data a).length = (m.bufs a).length
    rw [Function.update_self, h]
  · rw [read_write data e]

variable {entries : Table (Key × Slice) Prod.fst}

theorem retained_congr {m' : Memory} (h : ∀ e ∈ entries, (m'.read e.2).length = (m.read e.2).length) :
    retained m' entries = retained m entries := by
  refine congrArg List.sum (List.map_congr_left fun e he => ?_)
  rw [h e he]

theorem retained_deleteWhere {p : Key × Slice → Bool} (hp : ∀ k a, (k, some a) ∈ entries → p (k, some a) = false) :
    retained m (entries.deleteWhere p) = retained m entries := by
  refine Table.sum_deleteWhere fun e he hk => ?_
  obtain ⟨k, _ | a⟩ := e
  · rfl
  · rw [hp k a he] at hk
    cases hk

theorem retained_upsert (hn : ∀ a, (key, some a) ∉ entries) (v : Slice) :
    retained m (entries.upsert (key, v)) = ((m.read v).length : Int) + retained m entries := by
  have hdel : retained m (entries.deleteWhere fun q => decide (q.1 = key)) = retained m entries :=
    retained_deleteWhere fun k a hk => decide_eq_false fun e => hn a (e ▸ hk)
  rw [← hdel]
  rfl

theorem retained_of_reserved (hn : ∀ k a, (k, some a) ∉ entries) : retained m entries = 0 := by
  have hnil : retained m (entries.deleteWhere fun _ => true) = 0 := by simp [retained, Table.deleteWhere]
  rw [← hnil]
  exact (retained_deleteWhere fun k a hk => absurd hk (hn k a)).symm

end Memory

/-! ## Entries -/

/-- What a call holds is a slice that code outside has, with its length checked before it is stored. -/
def Lent (cfg : ScopeConfig) (m : Memory) : ResolveState ε → Prop
  | .loaded _ data => ∀ a, data = some a → a ∈ m.known
  | .fits _ data => (∀ a, data = some a → a ∈ m.known) ∧ ((m.read data).length : Int) ≤ cfg.maxValueBytes
  | _ => True

/-- The entries are within the limits, in buffers of their own; a load runs for each reservation, and has
one as long as the scope's context has not ended; nothing is stored once `Close` has cleared the entries. -/
structure StoreInv (cfg : ScopeConfig) (tr : ScopeHistory θ ε) (s : Scope θ ε) : Prop where
  size : (s.entries.rows.length : Int) ≤ cfg.maxEntries
  bytes : s.bytes = retained s.mem s.entries
  cap : s.bytes ≤ cfg.maxBytes
  owned : ∀ key a, (key, some a) ∈ s.entries →
    a < s.mem.next ∧ a ∉ s.mem.known ∧ ((s.mem.bufs a).length : Int) ≤ cfg.maxValueBytes
  reserved : ∀ key, (key, none) ∈ s.entries → ∃ t, Running key (s.calls t)
  running : ∀ t key, Running key (s.calls t) →
    (∀ a, (key, some a) ∉ s.entries) ∧ (s.err = none → (key, none) ∈ s.entries)
  lent : ∀ t, Lent cfg s.mem (s.calls t)
  known : ∀ a ∈ s.mem.known, a < s.mem.next
  closing : 0 < s.closing → s.err ≠ none
  cleared : Cleared tr → s.err ≠ none ∧ ∀ key a, (key, some a) ∉ s.entries

section Store

theorem cleared_of_cons (hne : act ≠ .clear) (h : Cleared ((act, o) :: tr)) : Cleared tr := by
  obtain ⟨x, hx⟩ := h
  rcases List.mem_cons.mp hx with e | hx
  · cases e; exact absurd rfl hne
  · exact ⟨x, hx⟩

theorem not_running_afterDo (d : FlightState ε) (ret : Option (DoEnd Slice (ScopeErr ε))) (k : Key) :
    ¬ Running k (afterDo key d ret) := by
  unfold afterDo
  split
  · exact id
  · split <;> exact id

variable {d : Flights θ ε}

theorem InFlight.not_running (hin : InFlight cfg s t key act a) (k : Key) : ¬ Running k (s.calls t) := by
  cases hin <;> rename_i hw <;> simp_all [Running]

theorem Goes.running_iff (hgo : Goes cfg s t act y event) (k : Key) : Running k y ↔ Running k (s.calls t) := by
  cases hgo <;> rename_i hw <;> simp_all [Running]

theorem InFlight.ne_clear (hin : InFlight cfg s t key act a) : act ≠ .clear := by
  cases hin <;> exact nofun

theorem Goes.ne_clear (hgo : Goes cfg s t act y event) : act ≠ .clear := by
  cases hgo <;> exact nofun

theorem lent_afterDo (m : Memory) (d : FlightState ε) (ret : Option (DoEnd Slice (ScopeErr ε))) :
    Lent cfg m (afterDo key d ret) := by
  unfold afterDo
  split
  · trivial
  · split <;> trivial

theorem Goes.lent (hgo : Goes cfg s t act y event) (h : Lent cfg s.mem (s.calls t)) : Lent cfg s.mem y := by
  cases hgo with
  | load _ hk => exact hk
  | fits hw hlen => rw [hw] at h; exact ⟨h, hlen⟩
  | _ => trivial

/-- A buffer that others get or write to is none of the entries'. -/
theorem StoreInv.memory (h : StoreInv cfg tr s) {m : Memory} (htr : Cleared tr' → Cleared tr)
    (hs : s' = { s with mem := m }) (hnext : s.mem.next ≤ m.next) (hknown : ∀ a ∈ m.known, a < m.next)
    (hgrow : ∀ a ∈ s.mem.known, a ∈ m.known) (hnew : ∀ a < s.mem.next, a ∈ m.known → a ∈ s.mem.known)
    (hread : ∀ a < s.mem.next, (m.bufs a).length = (s.mem.bufs a).length) : StoreInv cfg tr' s' := by
  have hlen : ∀ v : Slice, (∀ a, v = some a → a < s.mem.next) → (m.read v).length = (s.mem.read v).length := by
    intro v hv
    rcases v with _ | a
    · rfl
    · exact hread a (hv a rfl)
  subst hs
  refine ⟨h.size, ?_, h.cap, fun k a ha => ?_, h.reserved, h.running, fun u => ?_, hknown, h.closing,
    fun hc => h.cleared (htr hc)⟩
  · rw [h.bytes]
    exact (retained_congr fun e he => hlen e.2 fun a ha => (h.owned e.1 a (by rw [← ha]; exact he)).1).symm
  · obtain ⟨h₁, h₂, h₃⟩ := h.owned k a ha
    exact ⟨Nat.lt_of_lt_of_le h₁ hnext, fun hm => h₂ (hnew a h₁ hm), by simp only [hread a h₁]; exact h₃⟩
  · have hl := h.lent u
    show Lent cfg m (s.calls u)
    revert hl
    generalize s.calls u = x
    intro hl
    cases x with
    | loaded k data => exact fun a ha => hgrow a (hl a ha)
    | fits k data =>
      refine ⟨fun a ha => hgrow a (hl.1 a ha), ?_⟩
      rw [hlen data fun a ha => h.known a (hl.1 a ha)]
      exact hl.2
    | _ => trivial

theorem StoreInv.ended (h : StoreInv cfg tr s) (hne : act ≠ .clear) {e : ScopeErr ε} {n : Nat}
    (hs : s' = { s with err := some e, closing := n }) : StoreInv cfg ((act, o) :: tr) s' := by
  have herr : some e ≠ none := nofun
  subst hs
  exact ⟨h.size, h.bytes, h.cap, h.owned, h.reserved, fun t k ht => ⟨(h.running t k ht).1, fun he => absurd he herr⟩,
    h.lent, h.known, fun _ => herr, fun hc => ⟨herr, (h.cleared (cleared_of_cons hne hc)).2⟩⟩

theorem StoreInv.clear (h : StoreInv cfg tr s) (hc : 0 < s.closing) :
    StoreInv cfg ((.clear, o) :: tr) { s with entries := .empty, bytes := 0, closing := s.closing - 1 } := by
  have herr := h.closing hc
  have hpos := cfg.pos
  have hempty : ∀ q, q ∉ (Table.empty : Table (Key × Slice) Prod.fst) := fun q hq => List.not_mem_nil hq
  exact ⟨Int.le_of_lt hpos.1, rfl, Int.le_of_lt hpos.2.1, fun k a ha => absurd ha (hempty _),
    fun k hk => absurd hk (hempty _), fun t k ht => ⟨fun a => hempty _, fun he => absurd he herr⟩, h.lent, h.known,
    fun _ => herr, fun _ => ⟨herr, fun k a => hempty _⟩⟩

theorem StoreInv.give (h : StoreInv cfg tr s) (htr : Cleared tr' → Cleared tr) (data : Bytes) :
    StoreInv cfg tr' { s with mem := s.mem.give data } := by
  refine h.memory htr rfl (Nat.le_succ _) (fun a ha => ?_) (fun a ha => List.mem_cons_of_mem _ ha)
    (fun a ha hk => ?_) fun a ha => ?_
  · rcases List.mem_cons.mp ha with rfl | ha
    · exact Nat.lt_succ_self _
    · exact Nat.lt_succ_of_lt (h.known a ha)
  · rcases List.mem_cons.mp hk with rfl | hk
    · exact absurd ha (Nat.lt_irrefl _)
    · exact hk
  · have hsame : (s.mem.give data).read (some a) = s.mem.read (some a) := read_give data (by rintro _ ⟨⟩; exact ha)
    exact congrArg List.length hsame

theorem StoreInv.write (h : StoreInv cfg tr s) (htr : Cleared tr' → Cleared tr) {a : Nat} {data : Bytes}
    (hlen : data.length = (s.mem.bufs a).length) : StoreInv cfg tr' { s with mem := s.mem.write a data } :=
  h.memory htr rfl le_rfl h.known (fun _ hb => hb) (fun _ _ hb => hb) fun b _ => length_read_write hlen (some b)

variable [DecidableEq θ]

theorem StoreInv.goto (h : StoreInv cfg tr s) (htr : Cleared tr' → Cleared tr)
    (he : s'.entries = s.entries) (hb : s'.bytes = s.bytes) (hm : s'.mem = s.mem) (herr : s'.err = s.err)
    (hcl : s'.closing = s.closing) (hc : s'.calls = Function.update s.calls t y)
    (hrun : ∀ k, Running k y ↔ Running k (s.calls t)) (hlent : Lent cfg s.mem y) : StoreInv cfg tr' s' := by
  have hrun' : ∀ u k, Running k (s'.calls u) ↔ Running k (s.calls u) := by
    intro u k
    rw [hc, Function.update_apply]
    split
    · rename_i e; rw [e]; exact hrun k
    · exact Iff.rfl
  constructor
  · rw [he]; exact h.size
  · rw [hb, h.bytes, he, hm]
  · rw [hb]; exact h.cap
  · rw [he, hm]; exact h.owned
  · rw [he]
    intro k hk
    obtain ⟨u, hu⟩ := h.reserved k hk
    exact ⟨u, (hrun' u k).mpr hu⟩
  · rw [he, herr]
    exact fun u k hu => h.running u k ((hrun' u k).mp hu)
  · rw [hm, hc]
    intro u
    rw [Function.update_apply]
    split
    · exact hlent
    · exact h.lent u
  · rw [hm]; exact h.known
  · rw [hcl, herr]; exact h.closing
  · rw [he, herr]
    exact fun hc => h.cleared (htr hc)

theorem StoreInv.reserve (h : StoreInv cfg tr s) (hw : s.calls t = .reserve key)
    (ha : ∀ a, (key, some a) ∉ s.entries) (hlen : (s.entries.rows.length : Int) < cfg.maxEntries) :
    StoreInv cfg ((.reserve t, o) :: tr)
      ({ s with entries := s.entries.upsert (key, none) }.goto t (.loading key)) := by
  have hmem : ∀ k v, (k, v) ∈ s.entries.upsert (key, none) ↔ (k, v) = (key, none) ∨ (k, v) ∈ s.entries ∧ k ≠ key :=
    fun k v => Table.mem_upsert
  have hsome : ∀ k a, (k, some a) ∈ s.entries.upsert (key, none) → (k, some a) ∈ s.entries := by
    intro k a hk
    rcases (hmem k _).mp hk with e | ⟨hk, -⟩
    · cases e
    · exact hk
  have hold : ∀ u k, Running k (s.calls u) → Running k (Function.update s.calls t (.loading key) u) := by
    intro u k hu
    rw [Function.update_apply]
    split
    · rename_i e; rw [e, hw] at hu; exact absurd hu id
    · exact hu
  refine ⟨?_, ?_, h.cap, fun k a hk => h.owned k a (hsome k a hk), fun k hk => ?_, fun u k hu => ?_, fun u => ?_,
    h.known, h.closing, fun hc => ?_⟩
  · have := s.entries.length_upsert_le (key, none)
    show ((s.entries.upsert (key, none)).rows.length : Int) ≤ cfg.maxEntries
    omega
  · show s.bytes = retained s.mem (s.entries.upsert (key, none))
    rw [h.bytes, retained_upsert ha]
    exact (Int.zero_add _).symm
  · rcases (hmem k none).mp hk with e | ⟨hk, -⟩
    · cases e
      refine ⟨t, ?_⟩
      show Running key (Function.update s.calls t (.loading key) t)
      rw [Function.update_self]
      rfl
    · obtain ⟨u, hu⟩ := h.reserved k hk
      exact ⟨u, hold u k hu⟩
  · by_cases e : k = key
    · subst e
      exact ⟨fun a hk => ha a (hsome k a hk), fun _ => (hmem k none).mpr (.inl rfl)⟩
    · have hu' : Running k (s.calls u) := by
        change Running k (Function.update s.calls t (.loading key) u) at hu
        rw [Function.update_apply] at hu
        split at hu
        · exact absurd hu.symm e
        · exact hu
      obtain ⟨h₁, h₂⟩ := h.running u k hu'
      exact ⟨fun a hk => h₁ a (hsome k a hk), fun herr => (hmem k none).mpr (.inr ⟨h₂ herr, e⟩)⟩
  · show Lent cfg s.mem (Function.update s.calls t (.loading key) u)
    rw [Function.update_apply]
    split
    · trivial
    · exact h.lent u
  · obtain ⟨h₁, h₂⟩ := h.cleared (cleared_of_cons (by simp) hc)
    exact ⟨h₁, fun k a hk => h₂ k a (hsome k a hk)⟩

/-- What is in the way of `t`, and of no other, when it leaves its load of `key`. -/
theorem FlightInv.running_after (hf : FlightInv cfg tr s) (ht : Running key (s.calls t))
    (hy : ∀ k, ¬ Running k y) {u : θ} {k : Key} :
    Running k (Function.update s.calls t y u) ↔ Running k (s.calls u) ∧ k ≠ key := by
  rw [Function.update_apply]
  split
  · rename_i e
    subst e
    refine ⟨fun h => absurd h (hy k), fun h => absurd ?_ h.2⟩
    obtain ⟨c, i, hd⟩ := placed_of_running (hf.placed u) ht
    obtain ⟨c', i', hd'⟩ := placed_of_running (hf.placed u) h.1
    rw [hd] at hd'
    cases hd'
    rfl
  · rename_i hne
    refine ⟨fun h => ⟨h, ?_⟩, fun h => h.1⟩
    rintro rfl
    exact hne (hf.same_key h ht)

theorem StoreInv.commit (h : StoreInv cfg tr s) (hf : FlightInv cfg tr s) {data : Slice}
    (hw : s.calls t = .fits key data)
    (herr : s.err = none) (hlen : ((s.mem.read data).length : Int) ≤ cfg.maxBytes - s.bytes)
    (hy : ∀ k, ¬ Running k y) (hl : ∀ m, Lent cfg m y) :
    StoreInv cfg ((.commit t, o) :: tr) ({ s with
        flights := d
        mem := s.mem.make (s.mem.read data)
        entries := s.entries.upsert (key, some s.mem.next)
        bytes := s.bytes + (s.mem.read data).length }.goto t y) := by
  have hrun : Running key (s.calls t) := by rw [hw]; rfl
  obtain ⟨hnone, hres⟩ := h.running t key hrun
  have hres := hres herr
  obtain ⟨-, hfits⟩ : Lent cfg s.mem (.fits key data : ResolveState ε) := hw ▸ h.lent t
  have hmem : ∀ k v, (k, v) ∈ s.entries.upsert (key, some s.mem.next) ↔
      (k, v) = (key, some s.mem.next) ∨ (k, v) ∈ s.entries ∧ k ≠ key := fun k v => Table.mem_upsert
  have hself := read_make_self s.mem (s.mem.read data)
  -- the buffers that were there before are as they were
  have hm : StoreInv cfg tr { s with mem := s.mem.make (s.mem.read data) } := by
    refine h.memory id rfl (Nat.le_succ _) (fun a ha => Nat.lt_succ_of_lt (h.known a ha)) (fun _ ha => ha)
      (fun _ _ ha => ha) fun a ha => ?_
    exact congrArg List.length (read_make (v := some a) _ (by rintro _ ⟨⟩; exact ha))
  refine ⟨?_, ?_, ?_, fun k a hk => ?_, fun k hk => ?_, fun u k hu => ?_, fun u => ?_, hm.known, h.closing, fun hc => ?_⟩
  · have := Table.length_upsert_of_mem (r := (key, some s.mem.next)) hres rfl
    show ((s.entries.upsert (key, some s.mem.next)).rows.length : Int) ≤ cfg.maxEntries
    rw [this]
    exact h.size
  · show s.bytes + ((s.mem.read data).length : Int) =
      retained (s.mem.make (s.mem.read data)) (s.entries.upsert (key, some s.mem.next))
    rw [retained_upsert hnone, hself, Int.add_comm]
    exact congrArg _ hm.bytes
  · show s.bytes + ((s.mem.read data).length : Int) ≤ cfg.maxBytes
    omega
  · rcases (hmem k _).mp hk with e | ⟨hk, -⟩
    · cases e
      refine ⟨Nat.lt_succ_self _, fun hk => Nat.lt_irrefl _ (h.known _ hk), ?_⟩
      show (((s.mem.make (s.mem.read data)).read (some s.mem.next)).length : Int) ≤ _
      rw [hself]
      exact hfits
    · exact hm.owned k a hk
  · rcases (hmem k none).mp hk with e | ⟨hk, hne⟩
    · cases e
    · obtain ⟨u, hu⟩ := h.reserved k hk
      exact ⟨u, (hf.running_after hrun hy).mpr ⟨hu, hne⟩⟩
  · obtain ⟨hu, hne⟩ := (hf.running_after hrun hy).mp hu
    obtain ⟨h₁, h₂⟩ := h.running u k hu
    refine ⟨fun a hk => ?_, fun _ => (hmem k none).mpr (.inr ⟨h₂ herr, hne⟩)⟩
    rcases (hmem k _).mp hk with e | ⟨hk, -⟩
    · cases e; exact hne rfl
    · exact h₁ a hk
  · show Lent cfg (s.mem.make (s.mem.read data)) (Function.update s.calls t y u)
    rw [Function.update_apply]
    split
    · exact hl _
    · exact hm.lent u
  · exact absurd herr (h.cleared (cleared_of_cons (by simp) hc)).1

theorem StoreInv.rollback (h : StoreInv cfg tr s) (hf : FlightInv cfg tr s)
    {out : Option (Outcome Slice (ScopeErr ε))}
    (hw : s.calls t = .rollback key out) (hy : ∀ k, ¬ Running k y) (hl : ∀ m, Lent cfg m y) :
    StoreInv cfg ((.rollback t, o) :: tr) ({ s with
        flights := d
        entries := s.entries.deleteWhere fun q => q.1 == key }.goto t y) := by
  have hrun : Running key (s.calls t) := by rw [hw]; rfl
  obtain ⟨hnone, -⟩ := h.running t key hrun
  have hmem : ∀ k v, (k, v) ∈ (s.entries.deleteWhere fun q => q.1 == key) ↔ (k, v) ∈ s.entries ∧ k ≠ key := by
    intro k v
    rw [Table.mem_deleteWhere, beq_eq_false_iff_ne]
  refine ⟨?_, ?_, h.cap, fun k a hk => h.owned k a ((hmem k _).mp hk).1, fun k hk => ?_, fun u k hu => ?_,
    fun u => ?_, h.known, h.closing, fun hc => ?_⟩
  · have hle := s.entries.length_deleteWhere_le fun q => q.1 == key
    have := h.size
    show (((s.entries.deleteWhere fun q => q.1 == key).rows.length : Nat) : Int) ≤ cfg.maxEntries
    omega
  · rw [h.bytes]
    refine (retained_deleteWhere fun k a hk => ?_).symm
    exact beq_eq_false_iff_ne.mpr fun e => hnone a (e ▸ hk)
  · obtain ⟨hk, hne⟩ := (hmem k none).mp hk
    obtain ⟨u, hu⟩ := h.reserved k hk
    exact ⟨u, (hf.running_after hrun hy).mpr ⟨hu, hne⟩⟩
  · obtain ⟨hu, hne⟩ := (hf.running_after hrun hy).mp hu
    obtain ⟨h₁, h₂⟩ := h.running u k hu
    exact ⟨fun a hk => h₁ a ((hmem k _).mp hk).1, fun herr => (hmem k none).mpr ⟨h₂ herr, hne⟩⟩
  · show Lent cfg s.mem (Function.update s.calls t y u)
    rw [Function.update_apply]
    split
    · exact hl _
    · exact h.lent u
  · obtain ⟨h₁, h₂⟩ := h.cleared (cleared_of_cons (by simp) hc)
    exact ⟨h₁, fun k a hk => h₂ k a ((hmem k _).mp hk).1⟩

theorem storeInv_step (h : StoreInv cfg tr s) (hf : FlightInv cfg tr s) (hs : ScopeMoves cfg s act s' o) :
    StoreInv cfg ((act, o) :: tr) s' := by
  cases hs with
  | expire _ | close => exact h.ended (by simp) rfl
  | clear hc => exact h.clear hc
  | shut hw _ | enter hw _ =>
    exact h.goto (cleared_of_cons (by simp)) rfl rfl rfl rfl rfl rfl (by rw [hw]; exact fun _ => Iff.rfl) trivial
  | flight hin hs =>
    refine h.goto (cleared_of_cons hin.ne_clear) rfl rfl rfl rfl rfl rfl (fun k => ?_) (lent_afterDo _ _ _)
    exact ⟨fun hr => absurd hr (not_running_afterDo _ _ k), fun hr => absurd hr (hin.not_running k)⟩
  | goes hgo =>
    exact h.goto (cleared_of_cons hgo.ne_clear) rfl rfl rfl rfl rfl rfl hgo.running_iff (hgo.lent (h.lent _))
  | reserve hw ha hlen => exact h.reserve hw ha hlen
  | commit hw he hlen _ =>
    exact h.commit hf hw he hlen (not_running_afterDo _ _) fun m => lent_afterDo m _ _
  | rollback hw _ => exact h.rollback hf hw (not_running_afterDo _ _) fun m => lent_afterDo m _ _
  | clone hw =>
    exact (h.give id _).goto (cleared_of_cons (by simp)) rfl rfl rfl rfl rfl rfl
      (by rw [hw]; exact fun _ => Iff.rfl) trivial
  | give => exact h.give (cleared_of_cons (by simp)) _
  | write _ hlen => exact h.write (cleared_of_cons (by simp)) hlen
  | _ =>
    exact ⟨h.size, h.bytes, h.cap, h.owned, h.reserved, h.running, h.lent, h.known, h.closing,
      fun hc => h.cleared (cleared_of_cons (by simp) hc)⟩

end Store

/-! ## Every run -/

section Runs

variable [DecidableEq θ]

theorem flightInv_init : FlightInv cfg ([] : ScopeHistory θ ε) (scopeSystem cfg).init :=
  ⟨doInv_run .init, ⟨fun _ _ h => absurd h nofun, fun _ _ _ h => absurd h nofun⟩, fun _ => rfl⟩

theorem storeInv_init : StoreInv cfg ([] : ScopeHistory θ ε) (scopeSystem cfg).init := by
  have hpos := cfg.pos
  have hempty : ∀ q, q ∉ (Table.empty : Table (Key × Slice) Prod.fst) := fun q hq => List.not_mem_nil hq
  exact ⟨Int.le_of_lt hpos.1, rfl, Int.le_of_lt hpos.2.1, fun k a ha => absurd ha (hempty _),
    fun k hk => absurd hk (hempty _), fun t k ht => absurd ht id, fun _ => trivial,
    fun a ha => absurd ha List.not_mem_nil, fun hc => absurd hc (Nat.lt_irrefl 0), fun ⟨_, hc⟩ => absurd hc List.not_mem_nil⟩

theorem scope_inv (h : (scopeSystem cfg).Run tr s) : FlightInv cfg tr s ∧ StoreInv cfg tr s := by
  refine System.RunIf.inv (I := fun tr s => FlightInv cfg tr s ∧ StoreInv cfg tr s)
    ⟨flightInv_init, storeInv_init⟩ (fun hi _ hs => ?_) h
  have hm := moves_of_scopeStep hs
  exact ⟨flightInv_step hi.1 hm, storeInv_step hi.2 hi.1 hm⟩

/-- After every run the entries are within the limits of the scope, `bytes` counts what is stored, each
reservation is that of a load that runs, and nothing is stored once `Close` has returned. -/
theorem scope_storage (h : (scopeSystem cfg).Run tr s) :
    (s.entries.rows.length : Int) ≤ cfg.maxEntries ∧
    s.bytes = retained s.mem s.entries ∧ s.bytes ≤ cfg.maxBytes ∧
    (∀ key a, (key, some a) ∈ s.entries → ((s.mem.read (some a)).length : Int) ≤ cfg.maxValueBytes) ∧
    (∀ key, (key, none) ∈ s.entries → ∃ t, Running key (s.calls t)) ∧
    (Cleared tr → (∀ key a, (key, some a) ∉ s.entries) ∧ s.bytes = 0) := by
  obtain ⟨-, hi⟩ := scope_inv h
  refine ⟨hi.size, hi.bytes, hi.cap, fun key a ha => (hi.owned key a ha).2.2, hi.reserved, fun hc => ?_⟩
  have hnone := (hi.cleared hc).2
  refine ⟨hnone, ?_⟩
  rw [hi.bytes]
  exact retained_of_reserved hnone

end Runs

/-- A value is stored and another key reserved; the scope is closed, and the second load ends. -/
theorem scope_storage_late :
    let cfg : ScopeConfig := ⟨⟨⟨2, 1, 8⟩, 2, 4, 3, 1⟩, ⟨⟨2, 1, 8⟩, by decide⟩, rfl, by decide⟩
    ∃ (tr₀ tr : ScopeHistory Bool Empty) (s₀ s : Scope Bool Empty),
      (scopeSystem cfg).Run tr₀ s₀ ∧ s₀.entries.rows = [([98], none), ([97], some 1)] ∧
      s₀.bytes = 2 ∧ s₀.bytes ≤ cfg.maxBytes ∧ (∃ t, Running [98] (s₀.calls t)) ∧
      (scopeSystem cfg).Run tr s ∧ s.entries.rows = [] ∧ s.bytes = 0 := by
  intro cfg
  have h₀ := System.run_of_exec (scopeSystem cfg) [(.resolve true [97] : ScopeAct Bool Empty), .look true,
    .begin true, .reserve true, .give [7, 8], .load true (.ret (some 0) none), .check true, .commit true,
    .resolve false [98], .look false, .begin false, .reserve false] rfl
  have h := h₀.execFrom [.close, .clear, .load false (.ret (some 0) none), .check false, .commit false,
    .rollback false] (fun _ _ _ _ => trivial) rfl
  obtain ⟨-, -, hcap, -, hres, -⟩ := scope_storage h₀
  obtain ⟨-, -, -, -, -, hclear⟩ := scope_storage h
  exact ⟨_, _, _, _, h₀, rfl, rfl, hcap, hres _ (List.mem_cons_self), h, rfl,
    (hclear ⟨_, .tail _ (.tail _ (.tail _ (.tail _ (.head _))))⟩).2⟩

end Csar.Proof.ReadCache
