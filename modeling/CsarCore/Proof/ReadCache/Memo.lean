import CsarCore.Proof.ReadCache.Scope

/-!
# The scope: memoization

A buffer holds the value of a key (`Holds`) if nobody else has it and it is what was
stored, once. Every entry is such a buffer, and so is every value that a `Resolve` has or
can be told (`MemoInv`). So a value is stored at most once, no load begins while it is
there, and every call that succeeds returns it (`scope_memoization`).
-/

namespace Csar.Proof.ReadCache

open Impl.ReadCache Spec.ReadCache

variable {θ ε : Type} {cfg : ScopeConfig} {tr tr' : ScopeHistory θ ε} {key : Key} {act : ScopeAct θ ε} {o : ScopeObs θ ε}
  {m m' : Memory} {s s' : Scope θ ε} {t : θ} {a : FlightAct θ ε}

/-! ## Stored values in the history -/

theorem commits_cons_of_ne (h : ∀ bs, o.event ≠ some (.committed key bs)) :
    commits key ((act, o) :: tr) = commits key tr := by
  obtain ⟨x, _ | ev⟩ := o
  · rfl
  · cases ev with
    | committed k bs =>
      have hk : k ≠ key := fun e => h bs (by rw [e])
      exact if_neg hk
    | _ => rfl

theorem commits_cons_self {x : Option (FlightAct θ ε × FlightObs ε)} {bs : Bytes} :
    commits key ((act, ⟨x, some (.committed key bs)⟩) :: tr) = bs :: commits key tr :=
  if_pos rfl

theorem commits_cons_ne_nil {e : ScopeAct θ ε × ScopeObs θ ε} (h : commits key tr ≠ []) :
    commits key (e :: tr) ≠ [] := by
  obtain ⟨act, o⟩ := e
  by_cases hc : ∃ bs, o.event = some (.committed key bs)
  · obtain ⟨x, ev⟩ := o
    obtain ⟨bs, rfl⟩ := hc
    rw [commits_cons_self]
    exact List.cons_ne_nil _ _
  · rw [commits_cons_of_ne fun bs he => hc ⟨bs, he⟩]
    exact h

theorem commits_append_ne_nil {post pre : ScopeHistory θ ε} (h : commits key pre ≠ []) :
    commits key (post ++ pre) ≠ [] := by
  induction post with
  | nil => exact h
  | cons e post ih => exact commits_cons_ne_nil ih

/-! ## Values -/

/-- The buffer is the scope's own, with the value stored for the key. -/
structure Holds (tr : ScopeHistory θ ε) (m : Memory) (key : Key) (a : Nat) : Prop where
  made : a < m.next
  own : a ∉ m.known
  value : commits key tr = [m.bufs a]

/-- What a `Do` of the key returns, if not an error, is its value. -/
def Good (tr : ScopeHistory θ ε) (m : Memory) (key : Key) : Outcome Slice (ScopeErr ε) → Prop
  | (_, some _) => True
  | (v, none) => ∃ a, v = some a ∧ Holds tr m key a

/-- What a call has returned, will return, or will be told by its leader. -/
def Tells (tr : ScopeHistory θ ε) (m : Memory) (g : Group Slice (ScopeErr ε)) (key : Key) :
    FlightState ε → Prop
  | .waiting c _ => (key, c) ∈ g.calls ∨ ∃ out, (g.heap c).result = some out ∧ Good tr m key out
  | .loaded _ _ _ out => Good tr m key out
  | .deferred _ _ _ ret => ∀ out, ret.out = some out → Good tr m key out
  | .releasing _ ret => ∀ out, ret.out = some out → Good tr m key out
  | _ => True

/-- The same, wherever the call is. -/
def Bears (tr : ScopeHistory θ ε) (m : Memory) (g : Group Slice (ScopeErr ε)) (d : FlightState ε) :
    ResolveState ε → Prop
  | .inDo key => Tells tr m g key d
  | .rollback key out => ∀ x, out = some x → Good tr m key x
  | .returning key out => ∀ x, out = some x → Good tr m key x
  | _ => True

section Mono

variable {g g' : Group Slice (ScopeErr ε)} {out : Outcome Slice (ScopeErr ε)} {d : FlightState ε}

theorem Good.mono (hmono : ∀ k a, Holds tr m k a → Holds tr' m' k a)
    (h : Good tr m key out) : Good tr' m' key out := by
  obtain ⟨v, _ | e⟩ := out
  · obtain ⟨a, hv, ha⟩ := h
    exact ⟨a, hv, hmono key a ha⟩
  · trivial

variable {good : Key → Outcome Slice (ScopeErr ε) → Prop}

/-- Who follows a call is told what is good for its key, or can still be told. -/
structure Informs (good : Key → Outcome Slice (ScopeErr ε) → Prop) (g g' : Group Slice (ScopeErr ε)) : Prop where
  calls : ∀ k c, (k, c) ∈ g.calls → (k, c) ∈ g'.calls ∨ ∃ out, (g'.heap c).result = some out ∧ good k out
  results : ∀ c out, (g.heap c).result = some out → (g'.heap c).result = some out

theorem Informs.refl (g : Group Slice (ScopeErr ε)) : Informs good g g := ⟨fun _ _ h => .inl h, fun _ _ h => h⟩

theorem Informs.of_keeps (h : Keeps g g') : Informs good g g' :=
  ⟨fun k c hm => .inl (by rw [h.calls]; exact hm), fun c out hr => by rw [h.results]; exact hr⟩

theorem Tells.mono (hmono : ∀ k a, Holds tr m k a → Holds tr' m' k a) (hg : Informs (Good tr' m') g g')
    (h : Tells tr m g key d) : Tells tr' m' g' key d := by
  cases d with
  | waiting c i =>
    rcases h with hm | ⟨out, hr, hgood⟩
    · exact hg.calls key c hm
    · exact .inr ⟨out, hg.results c out hr, hgood.mono hmono⟩
  | loaded k c i out => exact Good.mono hmono h
  | deferred k c i ret | releasing i ret => exact fun out hr => (h out hr).mono hmono
  | _ => trivial

theorem Bears.mono (hmono : ∀ k a, Holds tr m k a → Holds tr' m' k a) (hg : Informs (Good tr' m') g g')
    {x : ResolveState ε} (h : Bears tr m g d x) : Bears tr' m' g' d x := by
  cases x with
  | inDo k => exact Tells.mono hmono hg h
  | rollback k out | returning k out => exact fun x hx => (h x hx).mono hmono
  | _ => trivial

theorem Informs.of_completes {lim : GroupLimits} {H : History Slice (ScopeErr ε)} (hi : Inv lim.toLimits H g)
    {c : Nat} (h : Completes g g' key c out) (hgood : good key out) : Informs good g g' := by
  constructor
  · intro k c' hm
    by_cases e : k = key
    · subst e
      have hc : (k, c') = (k, c) := Table.eq_of_key hm h.mem rfl
      cases hc
      exact .inr ⟨out, h.result, hgood⟩
    · exact .inl ((h.calls _).mpr ⟨hm, e⟩)
  · intro c' out' hr
    by_cases e : c' = c
    -- the call was not completed before
    · rw [e, hi.results, hi.pending _ (hi.mem_calls.mp h.mem)] at hr
      cases hr
    · rw [h.others c' e]
      exact hr

end Mono

/-! ## A step in `Do` -/

section Flight

variable {lim : GroupLimits} {d d' : Flights θ ε} {ret : Option (DoEnd Slice (ScopeErr ε))}
  {H : List (FlightAct θ ε × FlightObs ε)}

theorem Moves.informs {good : Key → Outcome Slice (ScopeErr ε) → Prop} (hm : Moves lim.toLimits d d' t a ret)
    (hd : DoInv lim H d) (hloaded : ∀ k c i out, d.callers t = .loaded k c i out → good k out)
    (habort : ∀ k c i, d.callers t = .deferred k c i (.panicked c) → good k (default, some .aborted)) :
    Informs good d.group d'.group := by
  cases hm with
  | lead _ _ hg => exact ⟨fun k c hc => .inl ((hg.calls _).mpr (.inr hc)), fun c out hr => by rw [hg.results]; exact hr⟩
  | finished hw _ hg => exact .of_completes hd.group hg (hloaded _ _ _ _ hw)
  | aborted hw _ hg => exact .of_completes hd.group hg (habort _ _ _ hw)
  | _ _ _ hg => exact .of_keeps hg

theorem Moves.bears (hm : Moves lim.toLimits d d' t a ret) (hd : DoInv lim H d)
    (hstart : ∀ k e, a = .start t k e → k = key) (hout : ∀ out, a = .load t (some out) → Good tr m key out)
    (h : Tells tr m d.group key (d.callers t)) :
    Bears tr m d'.group (d'.callers t) (afterDo key (d'.callers t) ret) := by
  cases hm with
  | cancelled _ _ _ | refused _ _ _ _ => rintro x ⟨⟩; trivial
  | follow _ hw' hg hc =>
    rw [hw', ← hstart _ _ rfl]
    refine .inl ?_
    rw [hg.calls]
    exact hc
  | lead _ hw' _ => rw [hw']; trivial
  | ended _ hw' _ => rw [hw']; rintro x ⟨⟩; trivial
  | joined hw hw' _ hr =>
    rw [hw] at h
    rw [hw']
    rintro x ⟨⟩
    rcases h with hc | ⟨out, hr', hgood⟩
    · rw [hd.group.results, hd.group.pending _ (hd.group.mem_calls.mp hc)] at hr
      cases hr
    · cases hr.symm.trans hr'
      exact hgood
  | loaded _ hw' _ => rw [hw']; exact hout _ rfl
  | panicked _ hw' _ | aborted _ hw' _ => rw [hw']; rintro x ⟨⟩
  | finished hw hw' _ =>
    rw [hw] at h
    rw [hw']
    rintro x ⟨⟩
    exact h
  | passed hw hw' _ => rw [hw] at h; rw [hw']; exact h
  | released hw _ _ => rw [hw] at h; exact h

end Flight

/-! ## The invariant -/

def brings? : ResolveState ε → Option (Key × Slice)
  | .loaded key data => some (key, data)
  | .fits key data => some (key, data)
  | _ => none

/-- What is stored is what the entries, and the calls, have of a key. -/
structure MemoInv (tr : ScopeHistory θ ε) (s : Scope θ ε) : Prop where
  kept : ∀ key, commits key tr ≠ [] → Cleared tr ∨ ∃ a, (key, some a) ∈ s.entries
  held : ∀ key a, (key, some a) ∈ s.entries → Holds tr s.mem key a
  bears : ∀ t, Bears tr s.mem s.flights.group (s.flights.callers t) (s.calls t)
  once : ∀ key, (commits key tr).length ≤ 1
  returned : ∀ key bs, (∃ e ∈ tr, e.2.event = some (.returned key (.ok bs))) → commits key tr = [bs]
  got : ∀ t key data, brings? (s.calls t) = some (key, data) → Got tr t key data (s.mem.read data)

section Steps

theorem MemoInv.first (h : MemoInv tr s) (hi : StoreInv cfg tr s) (hrun : Running key (s.calls t))
    (herr : s.err = none) : commits key tr = [] := by
  by_contra hne
  rcases h.kept key hne with hc | ⟨a, ha⟩
  · exact (hi.cleared hc).1 herr
  · exact (hi.running t key hrun).1 a ha

variable {data : Slice} {y : ResolveState ε} {event : Option (ScopeEvent ε)} {k : Key} {bs : Bytes}

theorem Holds.mono {a : Nat} (h : Holds tr m k a) (htr : commits k tr' = commits k tr)
    (hnext : m.next ≤ m'.next) (hown : a ∈ m'.known → a ∈ m.known) (hread : m'.bufs a = m.bufs a) :
    Holds tr' m' k a :=
  ⟨Nat.lt_of_lt_of_le h.made hnext, fun hk => h.own (hown hk), by rw [htr, hread]; exact h.value⟩

theorem Holds.same {a : Nat} (h : Holds tr m k a) (htr : commits k tr' = commits k tr) :
    Holds tr' m k a :=
  h.mono htr le_rfl id rfl

theorem Holds.give {a : Nat} (h : Holds tr m k a) (htr : commits k tr' = commits k tr)
    (data : Bytes) : Holds tr' (m.give data) k a := by
  refine h.mono htr (Nat.le_succ _) (fun hk => ?_) (read_give (v := some a) data (by rintro _ ⟨⟩; exact h.made))
  rcases List.mem_cons.mp hk with rfl | hk
  · exact absurd h.made (Nat.lt_irrefl _)
  · exact hk

theorem held_cons (hact : ∀ a new, act = .write a new → data ≠ some a) :
    held data bs ((act, o) :: tr) = held data bs tr := by
  cases act with
  | write a new => exact if_neg (hact a new rfl)
  | _ => rfl

theorem got_cons (h : Got tr t key data bs)
    (hact : ∀ a new, act = .write a new → data ≠ some a) : Got ((act, o) :: tr) t key data bs := by
  obtain ⟨mid, pre, bs₀, rfl, rfl⟩ := h
  exact ⟨(act, o) :: mid, pre, bs₀, rfl, (held_cons hact).symm⟩

theorem got_write {a : Nat} {new : Bytes} (h : Got tr t key (some a) bs) :
    Got ((.write a new, o) :: tr) t key (some a) new := by
  obtain ⟨mid, pre, bs₀, rfl, -⟩ := h
  exact ⟨(.write a new, o) :: mid, pre, bs₀, rfl, (if_pos rfl).symm⟩

theorem brings_afterDo (d : FlightState ε) (ret : Option (DoEnd Slice (ScopeErr ε))) :
    brings? (afterDo key d ret) = none := by
  unfold afterDo
  split
  · rfl
  · split <;> rfl

theorem StoreInv.brings (hi : StoreInv cfg tr s) (hb : brings? (s.calls t) = some (key, data)) (a : Nat)
    (ha : data = some a) : a < s.mem.next := by
  refine hi.known a ?_
  have hl := hi.lent t
  cases hx : s.calls t with
  | loaded k v => rw [hx] at hb hl; cases hb; exact hl a ha
  | fits k v => rw [hx] at hb hl; cases hb; exact hl.1 a ha
  | _ => rw [hx] at hb; cases hb

theorem Goes.no_commit (hgo : Goes cfg s t act y event)
    (k : Key) (bs : Bytes) : event ≠ some (.committed k bs) := by
  cases hgo <;> exact nofun

theorem Goes.no_value (hgo : Goes cfg s t act y event)
    (k : Key) (bs : Bytes) : event ≠ some (.returned k (.ok bs)) := by
  cases hgo <;> exact nofun

theorem Goes.bears {g : Group Slice (ScopeErr ε)} {d : FlightState ε}
    (hgo : Goes cfg s t act y event) : Bears tr m g d y := by
  cases hgo <;> first | trivial | (rintro x ⟨⟩ <;> trivial)

/-- Before a step of its `Do`, but the end of the function in it, what a call is told is what it has. -/
theorem InFlight.tells (h : MemoInv tr s) (hfl : FlightInv cfg tr s)
    (hin : InFlight cfg s t key act a) : Tells tr s.mem s.flights.group key (s.flights.callers t) := by
  have hb := h.bears t
  have hp := hfl.placed t
  cases hin with
  | look hw _ | begin hw => rw [hw] at hp; rw [hp]; trivial
  | hit hw _ | full hw _ _ => rw [hw] at hp; obtain ⟨c, i, hd⟩ := hp; rw [hd]; trivial
  | ended hw _ | wait hw | next hw => rw [hw] at hb; exact hb

theorem InFlight.not_write (hin : InFlight cfg s t key act a) (b : Nat) (new : Bytes) : act ≠ .write b new := by
  cases hin <;> exact nofun

theorem Goes.not_write (hgo : Goes cfg s t act y event) (b : Nat) (new : Bytes) : act ≠ .write b new := by
  cases hgo <;> exact nofun

variable [DecidableEq θ]

theorem commits_step (h : MemoInv tr s) (hi : StoreInv cfg tr s) (hs : ScopeMoves cfg s act s' o) (k : Key) :
    commits k ((act, o) :: tr) = commits k tr ∨
    commits k tr = [] ∧ ∃ a bs, commits k ((act, o) :: tr) = [bs] ∧ (k, some a) ∈ s'.entries := by
  cases hs with
  | @commit t key data d x hw he hlen hs =>
    by_cases e : k = key
    · subst e
      have hnil := h.first hi (by rw [hw]; rfl) he
      exact .inr ⟨hnil, _, _, by rw [commits_cons_self, hnil], Table.mem_upsert.mpr (.inl rfl)⟩
    · exact .inl (commits_cons_of_ne fun bs hb => by cases hb; exact e rfl)
  | goes hgo => exact .inl (commits_cons_of_ne (hgo.no_commit k))
  | _ => exact .inl (commits_cons_of_ne nofun)

theorem holds_step (h : MemoInv tr s) (hi : StoreInv cfg tr s) (hs : ScopeMoves cfg s act s' o) (k : Key) (a : Nat)
    (ha : Holds tr s.mem k a) : Holds ((act, o) :: tr) s'.mem k a := by
  have htr : commits k ((act, o) :: tr) = commits k tr := by
    rcases commits_step h hi hs k with e | ⟨e, -⟩
    · exact e
    · rw [ha.value] at e
      cases e
  cases hs with
  | commit _ _ _ _ =>
    exact ha.mono htr (Nat.le_succ _) id (read_make (v := some a) _ (by rintro _ ⟨⟩; exact ha.made))
  | clone _ | give => exact ha.give htr _
  | write hk _ =>
    refine ha.mono htr le_rfl id (read_write (v := some a) _ fun e => ha.own ?_)
    rw [Option.some.inj e]
    exact hk
  | _ => exact ha.same htr

theorem held_step (h : MemoInv tr s) (hi : StoreInv cfg tr s) (hs : ScopeMoves cfg s act s' o) (k : Key) (a : Nat)
    (ha : (k, some a) ∈ s'.entries) : Holds ((act, o) :: tr) s'.mem k a := by
  have hold : (k, some a) ∈ s.entries → Holds ((act, o) :: tr) s'.mem k a :=
    fun hm => holds_step h hi hs k a (h.held k a hm)
  cases hs with
  | clear _ => exact absurd ha List.not_mem_nil
  | reserve _ _ _ =>
    rcases Table.mem_upsert.mp ha with e | ⟨hm, -⟩
    · cases e
    · exact hold hm
  | commit hw he _ _ =>
    rcases Table.mem_upsert.mp ha with e | ⟨hm, -⟩
    · cases e
      have hnil := h.first hi (by rw [hw]; rfl) he
      refine ⟨Nat.lt_succ_self _, fun hk => Nat.lt_irrefl _ (hi.known _ hk), ?_⟩
      rw [commits_cons_self, hnil]
      exact congrArg (fun bs => [bs]) (read_make_self _ _).symm
    · exact hold hm
  | rollback _ _ => exact hold (Table.mem_deleteWhere.mp ha).1
  | _ => exact hold ha

theorem kept_step (hi : StoreInv cfg tr s) (hs : ScopeMoves cfg s act s' o) (k : Key) (a : Nat)
    (ha : (k, some a) ∈ s.entries) : Cleared ((act, o) :: tr) ∨ (k, some a) ∈ s'.entries := by
  cases hs with
  | clear _ => exact .inl ⟨_, List.mem_cons_self⟩
  | @reserve t key hw hn hlen => exact .inr (Table.mem_upsert.mpr (.inr ⟨ha, fun e : k = key => hn a (e ▸ ha)⟩))
  | @commit t key data d x hw _ _ _ =>
    have hn := (hi.running t key (by rw [hw]; rfl)).1
    exact .inr (Table.mem_upsert.mpr (.inr ⟨ha, fun e : k = key => hn a (e ▸ ha)⟩))
  | @rollback t key out d x hw _ =>
    have hn := (hi.running t key (by rw [hw]; rfl)).1
    exact .inr (Table.mem_deleteWhere.mpr ⟨ha, beq_eq_false_iff_ne.mpr fun e : k = key => hn a (e ▸ ha)⟩)
  | _ => exact .inr ha

theorem returned_step (h : MemoInv tr s) (hs : ScopeMoves cfg s act s' o)
    (ho : o.event = some (.returned key (.ok bs))) : commits key tr = [bs] := by
  cases hs with
  | @clone t k v hw =>
    cases ho
    have hb := h.bears t
    rw [hw] at hb
    obtain ⟨a, rfl, ha⟩ := hb _ rfl
    exact ha.value
  | goes hgo => exact absurd ho (hgo.no_value _ _)
  | _ => cases ho

/-! ### What calls have -/

theorem MemoInv.goto (h : MemoInv tr s) (hmono : ∀ k a, Holds tr s.mem k a → Holds tr' s'.mem k a)
    (hf : s'.flights = s.flights) (hc : s'.calls = Function.update s.calls t y)
    (hy : Bears tr s.mem s.flights.group (s.flights.callers t) y) (u : θ) :
    Bears tr' s'.mem s'.flights.group (s'.flights.callers u) (s'.calls u) := by
  refine Bears.mono hmono (hf ▸ Informs.refl s.flights.group) ?_
  rw [hf, hc, Function.update_apply]
  split
  · rename_i e; rw [e]; exact hy
  · exact h.bears u

theorem MemoInv.flight (h : MemoInv tr s) (hfl : FlightInv cfg tr s)
    (hmono : ∀ k a, Holds tr s.mem k a → Holds tr' s'.mem k a)
    {d : Flights θ ε} {x : FlightObs ε}
    (hs : doStep cfg.group s.flights a = some (d, x)) (ha : actor a = some t) (hf : s'.flights = d)
    (hc : s'.calls = Function.update s.calls t (afterDo key (d.callers t) x.ret))
    (hstart : ∀ k e, a = .start t k e → k = key) (hkey : ∀ k, doKey? (s.flights.callers t) = some k → k = key)
    (hout : ∀ out, a = .load t (some out) → Good tr' s'.mem key out)
    (htell : Tells tr s.mem s.flights.group key (s.flights.callers t)) (u : θ) :
    Bears tr' s'.mem s'.flights.group (s'.flights.callers u) (s'.calls u) := by
  have hm := moves_of_doStep hfl.leads hfl.runs ha hs
  have htell' : Tells tr' s'.mem s.flights.group key (s.flights.callers t) := htell.mono hmono (.refl _)
  rw [hf, hc, Function.update_apply]
  split
  · rename_i e; rw [e]; exact hm.bears hfl.runs hstart hout htell'
  · rename_i e
    rw [doStep_others ha hs e]
    refine (h.bears u).mono hmono (hm.informs hfl.runs (fun k c i out hw => ?_) fun _ _ _ _ => trivial)
    rw [hw] at hkey htell'
    exact hkey k rfl ▸ htell'

theorem bears_step (h : MemoInv tr s) (hfl : FlightInv cfg tr s) (hi : StoreInv cfg tr s)
    (hs : ScopeMoves cfg s act s' o) (u : θ) :
    Bears ((act, o) :: tr) s'.mem s'.flights.group (s'.flights.callers u) (s'.calls u) := by
  have hmono := holds_step h hi hs
  have hheld := held_step h hi hs
  cases hs with
  | shut _ _ | enter _ _ | reserve _ _ _ | clone _ => exact h.goto hmono rfl rfl trivial u
  | @flight act t key a d x hin hs =>
    refine h.flight hfl hmono hs hin.actor_eq rfl rfl hin.start_key
      (fun k hk => hin.resolve_key (doKey_eq_resolveKey (hfl.placed _) hk)) (fun out ha => ?_) (hin.tells h hfl) u
    cases hin <;> cases ha
    · rename_i hm; exact ⟨_, rfl, hheld _ _ hm⟩
    · trivial
  | goes hgo => exact h.goto hmono rfl rfl hgo.bears u
  | @commit t key data d x hw he hlen hs =>
    have hp := hfl.placed t
    rw [hw] at hp
    obtain ⟨c, i, hd⟩ := hp
    refine h.flight hfl hmono hs rfl rfl rfl (fun _ _ ha => by cases ha) (fun k hk => ?_) (fun out ha => ?_) ?_ u
    · rw [hd] at hk; exact (Option.some.inj hk).symm
    · cases ha
      exact ⟨_, rfl, hheld _ _ (Table.mem_upsert.mpr (.inl rfl))⟩
    · rw [hd]; trivial
  | @rollback t key out d x hw hs =>
    have hp := hfl.placed t
    have hb := h.bears t
    rw [hw] at hp hb
    obtain ⟨c, i, hd⟩ := hp
    refine h.flight hfl hmono hs rfl rfl rfl (fun _ _ ha => by cases ha) (fun k hk => ?_) (fun out ha => ?_) ?_ u
    · rw [hd] at hk; exact (Option.some.inj hk).symm
    · cases ha
      exact (hb out rfl).mono hmono
    · rw [hd]; trivial
  | _ => exact (h.bears u).mono hmono (.refl _)

/-! ### What loaders returned -/

theorem MemoInv.bring (h : MemoInv tr s) {u : θ} (hact : ∀ a new, act ≠ .write a new)
    (hread : ∀ u k v, brings? (s.calls u) = some (k, v) → m.read v = s.mem.read v)
    (hb : brings? (Function.update s.calls t y u) = some (key, data))
    (hy : brings? y = none ∨ brings? y = brings? (s.calls t)) : Got ((act, o) :: tr) u key data (m.read data) := by
  have hb' : brings? (s.calls u) = some (key, data) := by
    rw [Function.update_apply] at hb
    split at hb
    · rename_i e
      rcases hy with hy | hy
      · rw [hy] at hb; cases hb
      · rw [e, ← hy]; exact hb
    · exact hb
  rw [hread u key data hb']
  exact got_cons (h.got u key data hb') fun a new e => absurd e (hact a new)

theorem got_step (h : MemoInv tr s) (hi : StoreInv cfg tr s) (hs : ScopeMoves cfg s act s' o) (u : θ) (key : Key)
    (data : Slice) (hb : brings? (s'.calls u) = some (key, data)) :
    Got ((act, o) :: tr) u key data (s'.mem.read data) := by
  cases hs with
  | shut _ _ | enter _ _ | reserve _ _ _ => exact h.bring nofun (fun _ _ _ _ => rfl) hb (.inl rfl)
  | flight hin _ => exact h.bring hin.not_write (fun _ _ _ _ => rfl) hb (.inl (brings_afterDo _ _))
  | @goes act t y event hgo =>
    have hact := hgo.not_write
    cases hgo with
    | @load k v hw hk =>
      change brings? (Function.update s.calls t (.loaded k v) u) = _ at hb
      rw [Function.update_apply] at hb
      split at hb
      · rename_i e
        cases hb
        exact ⟨[], tr, s.mem.read data, by rw [e]; rfl, rfl⟩
      · exact got_cons (h.got u key data hb) nofun
    | fits hw _ => exact h.bring hact (fun _ _ _ _ => rfl) hb (.inr (by rw [hw]; rfl))
    | _ => exact h.bring hact (fun _ _ _ _ => rfl) hb (.inl rfl)
  | commit _ _ _ _ => exact h.bring nofun (fun u k v hv => read_make _ (hi.brings hv)) hb (.inl (brings_afterDo _ _))
  | rollback _ _ => exact h.bring nofun (fun _ _ _ _ => rfl) hb (.inl (brings_afterDo _ _))
  | clone _ => exact h.bring nofun (fun u k v hv => read_give _ (hi.brings hv)) hb (.inl rfl)
  | @give bs =>
    change Got _ u key data ((s.mem.give bs).read data)
    rw [read_give bs (hi.brings hb)]
    exact got_cons (h.got u key data hb) nofun
  | @write a new _ _ =>
    change Got _ u key data ((s.mem.write a new).read data)
    by_cases e : data = some a
    · subst e
      rw [show (s.mem.write a new).read (some a) = new from if_pos rfl]
      exact got_write (h.got u key (some a) hb)
    · rw [read_write new e]
      refine got_cons (h.got u key data hb) ?_
      rintro _ _ ⟨⟩
      exact e
  | _ => exact got_cons (h.got u key data hb) nofun

theorem memoInv_step (h : MemoInv tr s) (hfl : FlightInv cfg tr s) (hi : StoreInv cfg tr s)
    (hs : ScopeMoves cfg s act s' o) : MemoInv ((act, o) :: tr) s' := by
  have hcommits := commits_step h hi hs
  refine ⟨fun k hk => ?_, held_step h hi hs, bears_step h hfl hi hs, fun k => ?_, fun k bs hr => ?_, got_step h hi hs⟩
  · rcases hcommits k with e | ⟨-, a, bs, -, ha⟩
    · rw [e] at hk
      rcases h.kept k hk with ⟨x, hc⟩ | ⟨a, ha⟩
      · exact .inl ⟨x, List.mem_cons_of_mem _ hc⟩
      · rcases kept_step hi hs k a ha with hc | ha
        · exact .inl hc
        · exact .inr ⟨a, ha⟩
    · exact .inr ⟨a, ha⟩
  · rcases hcommits k with e | ⟨-, a, bs, e, -⟩
    · rw [e]; exact h.once k
    · rw [e]; exact le_rfl
  · have hold : commits k tr = [bs] := by
      obtain ⟨e, he, hr⟩ := hr
      rcases List.mem_cons.mp he with rfl | he
      · exact returned_step h hs hr
      · exact h.returned k bs ⟨e, he, hr⟩
    rcases hcommits k with e | ⟨e, -⟩
    · rw [e]; exact hold
    · rw [e] at hold; cases hold

end Steps

/-! ## Every run -/

section Runs

variable [DecidableEq θ]

theorem memo_inv (h : (scopeSystem cfg).Run tr s) : MemoInv tr s := by
  have hinit : MemoInv ([] : ScopeHistory θ ε) (scopeSystem cfg).init :=
    ⟨fun k hk => absurd rfl hk, fun k a ha => absurd ha List.not_mem_nil, fun _ => trivial, fun k => Nat.zero_le 1,
      fun k bs ⟨e, he, _⟩ => absurd he List.not_mem_nil, fun t k v hv => absurd hv nofun⟩
  refine (System.RunIf.inv (I := fun tr s => (FlightInv cfg tr s ∧ StoreInv cfg tr s) ∧ MemoInv tr s)
    ⟨scope_inv .init, hinit⟩ (fun hi _ hs => ?_) h).2
  have hm := moves_of_scopeStep hs
  exact ⟨⟨flightInv_step hi.1.1 hm, storeInv_step hi.1.2 hi.1.1 hm⟩, memoInv_step hi.2 hi.1.1 hi.1.2 hm⟩

theorem commit_moves {bs : Bytes}
    (hs : ScopeMoves cfg s act s' o) (ho : o.event = some (.committed key bs)) :
    ∃ t data, act = .commit t ∧ s.calls t = .fits key data ∧ s.err = none ∧ bs = s.mem.read data := by
  cases hs with
  | @commit t k data d x hw he _ _ => cases ho; exact ⟨t, data, rfl, hw, he, rfl⟩
  | goes hgo => exact absurd ho (hgo.no_commit _ _)
  | _ => cases ho

/-- As long as a value is stored, no load of its key begins. -/
theorem not_invoked_after {post pre : ScopeHistory θ ε} {e : ScopeAct θ ε × ScopeObs θ ε} {bs : Bytes}
    (h : (scopeSystem cfg).Run (post ++ e :: pre) s) (he : e.2.event = some (.committed key bs))
    (hclear : ∀ x ∈ post, x.1 ≠ .clear) {x : ScopeAct θ ε × ScopeObs θ ε} (hx : x ∈ post) :
    x.2.event ≠ some (.invoked key) := by
  intro hinv
  obtain ⟨p₁, p₂, rfl⟩ := List.append_of_mem hx
  have htr : p₁ ++ x :: p₂ ++ e :: pre = p₁ ++ x :: (p₂ ++ e :: pre) := by simp
  obtain ⟨s₀, s₁, h₀, -, hs⟩ := h.split htr
  obtain ⟨s₂, s₃, h₂, -, hs₂⟩ := h₀.split rfl
  obtain ⟨t, data, ht, -, herr, -⟩ := commit_moves (moves_of_scopeStep hs₂) he
  have hstored : commits key (p₂ ++ e :: pre) ≠ [] := by
    refine commits_append_ne_nil ?_
    obtain ⟨act, y, ev⟩ := e
    cases he
    rw [commits_cons_self]
    exact List.cons_ne_nil _ _
  -- nothing was cleared before the value was stored, and nothing is since
  have hnot : ¬ Cleared (p₂ ++ e :: pre) := by
    rintro ⟨y, hy⟩
    rcases List.mem_append.mp hy with hy | hy
    · exact hclear _ (List.mem_append_right _ (List.mem_cons_of_mem _ hy)) rfl
    rcases List.mem_cons.mp hy with rfl | hy
    · cases ht
    · exact ((scope_inv h₂).2.cleared ⟨y, hy⟩).1 herr
  rcases (memo_inv h₀).kept key hstored with hc | ⟨a, ha⟩
  · exact hnot hc
  · have hm := moves_of_scopeStep hs
    obtain ⟨act, y, ev⟩ := x
    cases hinv
    cases hm with
    | goes hgo => cases hgo
    | reserve _ hn _ => exact hn a ha

/-- The loads of a key do not overlap, at most one stores a value, no other begins as long as that is
there, and every call that succeeds returns that value: what the slice that the load returned held when
it was copied. -/
theorem scope_memoization (h : (scopeSystem cfg).Run tr s) :
    (∀ key t t', Running key (s.calls t) → Running key (s.calls t') → t = t') ∧
    (∀ key, (commits key tr).length ≤ 1) ∧
    (∀ key bs post e pre, tr = post ++ e :: pre → e.2.event = some (.committed key bs) →
      (∀ x ∈ post, x.1 ≠ .clear) → ∀ x ∈ post, x.2.event ≠ some (.invoked key)) ∧
    (∀ key bs, (∃ e ∈ tr, e.2.event = some (.returned key (.ok bs))) → commits key tr = [bs]) ∧
    (∀ key bs post e pre, tr = post ++ e :: pre → e.2.event = some (.committed key bs) →
      ∃ t data, e.1 = .commit t ∧ Got pre t key data bs) := by
  have hm := memo_inv h
  refine ⟨fun _ _ _ => (scope_inv h).1.same_key, hm.once, ?_, hm.returned, ?_⟩
  · intro key bs post e pre htr he hclear x hx
    subst htr
    exact not_invoked_after h he hclear hx
  · intro key bs post e pre htr he
    obtain ⟨s₀, s₁, h₀, -, hs⟩ := h.split htr
    obtain ⟨t, data, ht, hw, -, rfl⟩ := commit_moves (moves_of_scopeStep hs) he
    exact ⟨t, data, ht, (memo_inv h₀).got t key data (by rw [hw]; rfl)⟩

end Runs

/-- Two calls for a key, one of which follows the other's load; the loader writes to its buffer after the
value is stored, and the first caller to the one it was given; then a third call. -/
theorem scope_memoization_shared :
    let cfg : ScopeConfig := ⟨⟨⟨2, 1, 8⟩, 2, 4, 3, 1⟩, ⟨⟨2, 1, 8⟩, by decide⟩, rfl, by decide⟩
    ∃ (tr : ScopeHistory (Fin 3) Empty) (s : Scope (Fin 3) Empty), (scopeSystem cfg).Run tr s ∧
      (tr.filter fun e => e.2.event matches some (.invoked _)).length = 1 ∧
      (tr.filter fun e => e.2.event = some (.returned [97] (.ok [7, 8]))).length = 3 ∧
      commits [97] tr = [[7, 8]] := by
  intro cfg
  have hx : ((scopeSystem cfg).exec [(.resolve 0 [97] : ScopeAct (Fin 3) Empty), .resolve 1 [97],
      .look 0, .begin 0, .look 1, .begin 1, .reserve 0, .give [7, 8], .load 0 (.ret (some 0) none), .check 0,
      .commit 0, .write 0 [9, 9], .next 0, .next 0, .next 0, .ret 0, .write 2 [6, 6], .wait 1 false, .next 1, .ret 1,
      .resolve 2 [97], .look 2, .begin 2, .reserve 2, .next 2, .next 2, .next 2, .ret 2]).map (fun x =>
        ((x.1.filter fun e => e.2.event matches some (.invoked _)).length,
          (x.1.filter fun e => e.2.event = some (.returned [97] (.ok [7, 8]))).length)) = some (1, 3) := by
    decide +kernel
  obtain ⟨⟨tr, s⟩, he, hf⟩ := Option.map_eq_some_iff.mp hx
  obtain ⟨hone, hthree⟩ := Prod.mk.inj hf
  obtain ⟨e, hmem⟩ := List.exists_mem_of_length_pos (Nat.lt_of_lt_of_eq (Nat.succ_pos 2) hthree.symm)
  obtain ⟨hm, hr⟩ := List.mem_filter.mp hmem
  have h := System.run_of_exec _ _ he
  exact ⟨tr, s, h, hone, hthree, (scope_memoization h).2.2.2.1 _ _ ⟨e, hm, of_decide_eq_true hr⟩⟩

/-- A loader writes to the buffer that it has returned before the scope copies it. -/
theorem scope_memoization_rewritten :
    let cfg : ScopeConfig := ⟨⟨⟨2, 1, 8⟩, 2, 4, 3, 1⟩, ⟨⟨2, 1, 8⟩, by decide⟩, rfl, by decide⟩
    ∃ (tr : ScopeHistory (Fin 3) Empty) (s : Scope (Fin 3) Empty), (scopeSystem cfg).Run tr s ∧
      tr.filterMap (fun e => e.2.event) =
        [.returned [97] (.ok [9, 9]), .committed [97] [9, 9], .loaded [97] [7, 8], .invoked [97]] := by
  intro cfg
  have hx : ((scopeSystem cfg).exec [(.resolve 0 [97] : ScopeAct (Fin 3) Empty), .look 0, .begin 0, .reserve 0,
      .give [7, 8], .load 0 (.ret (some 0) none), .check 0, .write 0 [9, 9], .commit 0, .next 0, .next 0, .next 0,
      .ret 0]).map (fun x => x.1.filterMap fun e => e.2.event) =
        some [.returned [97] (.ok [9, 9]), .committed [97] [9, 9], .loaded [97] [7, 8], .invoked [97]] := by
    decide +kernel
  obtain ⟨⟨tr, s⟩, he, hf⟩ := Option.map_eq_some_iff.mp hx
  exact ⟨tr, s, System.run_of_exec _ _ he, hf⟩

end Csar.Proof.ReadCache
