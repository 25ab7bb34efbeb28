import CsarCore.Proof.ReadCache.Memo

/-!
# The scope: reads of a stored value

Once a value is stored for a key, who leads a call of the key gives that value
(`HitInv`). So a later `Resolve`, as long as no context has ended, is told the value or
is refused for want of capacity (`OnHit`), by its own steps and those of the leader that
it follows (`CanReturn`): `scope_hit`.
-/

namespace Csar.Proof.ReadCache

open Impl.ReadCache Spec.ReadCache

variable {θ ε : Type} {cfg : ScopeConfig} {tr : ScopeHistory θ ε} {s s' : Scope θ ε} {act : ScopeAct θ ε}
  {o : ScopeObs θ ε} {t u : θ} {key : Key} {lim : GroupLimits} {d d' : Flights θ ε} {a : FlightAct θ ε}
  {ret : Option (DoEnd Slice (ScopeErr ε))}

/-! ## Leaders -/

/-- Who leads a call will finish it with a value. -/
def Gives : FlightState ε → Prop
  | .loaded _ _ _ out => out.2 = none
  | .deferred _ _ _ _ => False
  | _ => True

/-- Every call has a leader. -/
theorem Moves.led (hm : Moves lim.toLimits d d' t a ret) (hothers : ∀ u ≠ t, d'.callers u = d.callers u)
    (h : ∀ x ∈ d.group.calls, ∃ u, lead? (d.callers u) = some x) :
    ∀ x ∈ d'.group.calls, ∃ u, lead? (d'.callers u) = some x := by
  -- the leader of a call that is there still leads it
  have hkeep : ∀ x ∈ d.group.calls, (lead? (d.callers t) = some x → lead? (d'.callers t) = some x) →
      ∃ u, lead? (d'.callers u) = some x := by
    intro x hx hself
    obtain ⟨u, hu⟩ := h x hx
    by_cases e : u = t
    · subst e; exact ⟨u, hself hu⟩
    · exact ⟨u, by rw [hothers u e]; exact hu⟩
  intro x hx
  cases hm with
  | lead hw hw' hg =>
    rcases (hg.calls x).mp hx with rfl | hx
    · exact ⟨t, by rw [hw']; rfl⟩
    · exact hkeep x hx (by rw [hw]; exact nofun)
  | finished hw hw' hg | aborted hw hw' hg =>
    obtain ⟨hx, hne⟩ := (hg.calls x).mp hx
    refine hkeep x hx fun hl => ?_
    rw [hw] at hl
    cases hl
    exact absurd rfl hne
  | loaded hw hw' hg
  | panicked hw hw' hg => exact hkeep x (hg.calls ▸ hx) (by rw [hw, hw']; exact id)
  | _ hw _ hg => exact hkeep x (hg.calls ▸ hx) (by rw [hw]; exact nofun)

theorem Moves.gives (hm : Moves lim.toLimits d d' t a ret) {x : Key × Nat} (hx : lead? (d'.callers t) = some x)
    (hload : ∀ out, a = .load t out → ∃ v, out = some (v, none)) : Gives (d'.callers t) := by
  cases hm with
  | lead _ hw' _ => rw [hw']; trivial
  | loaded _ hw' _ =>
    obtain ⟨v, hv⟩ := hload _ rfl
    rw [hw', Option.some.inj hv]
    rfl
  | panicked _ _ _ =>
    obtain ⟨v, hv⟩ := hload _ rfl
    cases hv
  | _ _ hw' _ => rw [hw'] at hx; cases hx

theorem Moves.lead_of_load {out : Option (Outcome Slice (ScopeErr ε))}
    (hm : Moves lim.toLimits d d' t (.load t out) ret) (hw : ∃ c i, d.callers t = .loading key c i) :
    ∃ c i, d.callers t = .loading key c i ∧ lead? (d'.callers t) = some (key, c) := by
  obtain ⟨c, i, hw⟩ := hw
  refine ⟨c, i, hw, ?_⟩
  cases hm with
  | loaded hw₁ hw' _ | panicked hw₁ hw' _ => cases hw.symm.trans hw₁; rw [hw']; rfl

/-- Keys with an entry can be looked up, and the leader of a call of a key with a stored value gives one. -/
structure HitInv (cfg : ScopeConfig) (s : Scope θ ε) : Prop where
  keys : ∀ key a, (key, some a) ∈ s.entries → ¬ cfg.group.badKey key
  led : ∀ x ∈ s.flights.group.calls, ∃ u, lead? (s.flights.callers u) = some x
  gives : ∀ u key c a, (key, some a) ∈ s.entries → lead? (s.flights.callers u) = some (key, c) →
    Gives (s.flights.callers u)

section Invariant

theorem HitInv.same (h : HitInv cfg s) (hf : s'.flights = s.flights)
    (he : ∀ k a, (k, some a) ∈ s'.entries → (k, some a) ∈ s.entries) : HitInv cfg s' := by
  refine ⟨fun k a ha => h.keys k a (he k a ha), ?_, ?_⟩ <;> rw [hf]
  · exact h.led
  · exact fun u k c a ha => h.gives u k c a (he k a ha)

variable [DecidableEq θ]

theorem HitInv.flight (h : HitInv cfg s) (hfl : FlightInv cfg tr s) (hfl' : FlightInv cfg ((act, o) :: tr) s')
    {x : FlightObs ε}
    (hs : doStep cfg.group s.flights a = some (s'.flights, x)) (ha : actor a = some t)
    (he : ∀ k a, (k, some a) ∈ s'.entries → (k, some a) ∈ s.entries ∨
      ∃ c i, s.flights.callers t = .loading k c i ∧ lead? (s'.flights.callers t) = some (k, c))
    (hload : ∀ k c b, lead? (s'.flights.callers t) = some (k, c) → (k, some b) ∈ s'.entries →
      ∀ out, a = .load t out → ∃ v, out = some (v, none)) : HitInv cfg s' := by
  have hm := moves_of_doStep hfl.leads hfl.runs ha hs
  refine ⟨fun k b hb => ?_, hm.led (fun u hu => doStep_others ha hs hu) h.led, fun u k c b hb hl => ?_⟩
  · rcases he k b hb with hb | ⟨c, i, hw, -⟩
    · exact h.keys k b hb
    · have hc := hfl.leads.current t (k, c) (by rw [hw]; rfl)
      exact hfl.runs.group.keys _ (hfl.runs.group.mem_calls.mp hc)
  · by_cases e : u = t
    · subst e
      exact hm.gives hl (hload k c b hl hb)
    · rcases he k b hb with hb | ⟨c', i, -, hl'⟩
      · rw [doStep_others ha hs e] at hl ⊢
        exact h.gives u k c b hb hl
      · exact absurd (hfl'.leads.same_key hl hl') e

theorem hitInv_step (h : HitInv cfg s) (hfl : FlightInv cfg tr s) (hs : ScopeMoves cfg s act s' o) :
    HitInv cfg s' := by
  have hfl' := flightInv_step hfl hs
  cases hs with
  | clear _ => exact h.same rfl fun k a ha => absurd ha List.not_mem_nil
  | reserve _ _ _ =>
    refine h.same rfl fun k a ha => ?_
    rcases Table.mem_upsert.mp ha with e | ⟨hm, -⟩
    · cases e
    · exact hm
  | @flight act t key a d x hin hs =>
    have hm := moves_of_doStep hfl.leads hfl.runs hin.actor_eq hs
    refine h.flight hfl hfl' hs hin.actor_eq (fun k a ha => .inl ha) fun k c b hl hb out ha => ?_
    cases hin with
    | hit _ _ => cases ha; exact ⟨_, rfl⟩
    | full hw hn _ =>
      -- the key that is led has no value
      obtain ⟨c', i, -, hl'⟩ := hm.lead_of_load (hw ▸ hfl.placed t)
      cases hl.symm.trans hl'
      exact absurd hb (hn b)
    | _ => cases ha
  | @commit t key data d x hw _ _ hs =>
    obtain ⟨c', i, hd, hl'⟩ := (moves_of_doStep hfl.leads hfl.runs rfl hs).lead_of_load (hw ▸ hfl.placed t)
    refine h.flight hfl hfl' hs rfl (fun k a ha => ?_) fun k c b _ _ out ha => ?_
    · rcases Table.mem_upsert.mp ha with e | ⟨hk, -⟩
      · cases e; exact .inr ⟨c', i, hd, hl'⟩
      · exact .inl hk
    · cases ha; exact ⟨_, rfl⟩
  | @rollback t key out d x hw hs =>
    obtain ⟨c', i, hd, hl'⟩ := (moves_of_doStep hfl.leads hfl.runs rfl hs).lead_of_load (hw ▸ hfl.placed t)
    refine h.flight hfl hfl' hs rfl (fun k a ha => .inl (Table.mem_deleteWhere.mp ha).1) fun k c b hl hb _ _ => ?_
    -- the entry of the key that is led is deleted
    have hne : k ≠ key := beq_eq_false_iff_ne.mp (Table.mem_deleteWhere.mp hb).2
    cases hl.symm.trans hl'
    exact absurd rfl hne
  | _ => exact h.same rfl fun k a ha => ha

theorem hit_inv (h : (scopeSystem cfg).Run tr s) : HitInv cfg s := by
  refine (System.RunIf.inv (I := fun tr s => (FlightInv cfg tr s ∧ StoreInv cfg tr s) ∧ HitInv cfg s)
    ⟨scope_inv .init, fun k a ha => absurd ha List.not_mem_nil, fun x hx => absurd hx List.not_mem_nil,
      fun u k c a ha => absurd ha List.not_mem_nil⟩ (fun hi _ hs => ?_) h).2
  have hm := moves_of_scopeStep hs
  exact ⟨⟨flightInv_step hi.1.1 hm, storeInv_step hi.1.2 hi.1.1 hm⟩, hitInv_step hi.2 hi.1.1 hm⟩

end Invariant

/-! ## A call for a stored value -/

/-- The `Do` of a call returns a value, or is told one by its leader. -/
def Yields (g : Group Slice (ScopeErr ε)) (key : Key) : FlightState ε → Prop
  | .waiting c _ => (key, c) ∈ g.calls ∨ ∃ v, (g.heap c).result = some (v, none)
  | .loaded _ _ _ out => out.2 = none
  | .deferred _ _ _ ret => ∃ v, ret.out = some (v, none)
  | .releasing _ ret => ∃ v, ret.out = some (v, none)
  | _ => False

/-- A call for a stored value has or gets the value, unless it is refused. -/
def Placing (g : Group Slice (ScopeErr ε)) (d : FlightState ε) (key : Key) (refused returned : Prop) :
    ResolveState ε → Prop
  | .entered k => k = key
  | .looked k => k = key
  | .reserve k => k = key
  | .inDo k => k = key ∧ Yields g key d
  | .returning k out => k = key ∧ ((∃ v, out = some (v, none)) ∨ (∃ v, out = some (v, some .capacity)) ∧ refused)
  | .returned => returned
  | _ => False

/-- What a call for a stored value has come to, `post` since it was made. -/
structure OnHit (cfg : ScopeConfig) (base : ScopeHistory θ ε) (t : θ) (key : Key) (post : ScopeHistory θ ε)
    (s : Scope θ ε) : Prop where
  live : s.derived t = none
  place : Placing s.flights.group (s.flights.callers t) key (Refused cfg.group.toLimits base t key post)
    (∃ e ∈ post, e.1 = .ret t) (s.calls t)
  returned : ∀ e ∈ post, e.1 = .ret t → ∃ bs, Answer cfg.group.toLimits base t key bs post e.2

section OnHit

variable {base post : ScopeHistory θ ε}

variable {lim : Limits}

theorem refused_cons (e : ScopeAct θ ε × ScopeObs θ ε) (h : Refused lim base t key post) :
    Refused lim base t key (e :: post) := by
  obtain ⟨p₁, x, p₂, rfl, hl⟩ := h
  exact ⟨e :: p₁, x, p₂, rfl, hl⟩

theorem answer_cons (e : ScopeAct θ ε × ScopeObs θ ε) {bs : Bytes}
    (h : Answer lim base t key bs post o) : Answer lim base t key bs (e :: post) o :=
  h.imp_right fun hr => ⟨hr.1, refused_cons e hr.2⟩

variable {g : Group Slice (ScopeErr ε)} {q : Prop} {x : FlightObs ε}

theorem Placing.mono {g' : Group Slice (ScopeErr ε)} {d : FlightState ε} {x : ResolveState ε}
    {p p' q' : Prop} (hp : p → p') (hq : q → q') (hg : Yields g key d → Yields g' key d)
    (h : Placing g d key p q x) : Placing g' d key p' q' x := by
  cases x with
  | inDo k => exact ⟨h.1, hg h.2⟩
  | returning k out => exact ⟨h.1, h.2.imp_right fun hr => ⟨hr.1, hp hr.2⟩⟩
  | returned => exact hq h
  | _ => exact h

theorem atLimit_of_refuses {H : History Slice (ScopeErr ε)}
    (hi : Inv lim H g) (h : Refuses lim g key .capacity) : AtLimit lim key H := by
  cases h with
  | @followers c hm hf => exact .inl ⟨c, hi.mem_calls.mp hm, by rw [← hi.followers]; exact hf⟩
  | keys hn hk => exact .inr ⟨fun c hc => hn _ (hi.mem_calls.mpr hc) rfl, by rw [← hi.calls]; exact hk⟩

section Do

variable {lim : GroupLimits} {H : List (FlightAct θ ε × FlightObs ε)} {x : FlightState ε}

theorem Moves.yields (hm : Moves lim.toLimits d d' u a ret) (hd : DoInv lim H d)
    (hgive : ∀ c, lead? (d.callers u) = some (key, c) → Gives (d.callers u))
    (h : Yields d.group key x) : Yields d'.group key x := by
  have hinf : Informs (fun k out => k = key → out.2 = none) d.group d'.group := by
    refine hm.informs hd ?_ ?_
    · rintro k c i out hw rfl
      rw [hw] at hgive
      exact hgive c rfl
    · rintro k c i hw rfl
      rw [hw] at hgive
      exact absurd (hgive c rfl) id
  cases x with
  | waiting c i =>
    rcases h with hc | ⟨v, hr⟩
    · rcases hinf.calls key c hc with hc | ⟨⟨v, err⟩, hr, hout⟩
      · exact .inl hc
      · cases (hout rfl : err = none)
        exact .inr ⟨v, hr⟩
    · exact .inr ⟨v, hinf.results c _ hr⟩
  | _ => exact h

theorem Moves.placing (hm : Moves lim.toLimits d d' t a ret) (hd : DoInv lim H d) {p : Prop}
    (hact : (∃ v, a = .load t (some (v, none))) ∨ a = .wait t none ∨ a = .next t)
    (h : (∃ k c i, d.callers t = .loading k c i) ∨ Yields d.group key (d.callers t)) :
    Placing d'.group (d'.callers t) key p q (afterDo key (d'.callers t) ret) := by
  -- out of the function that was passed the call yields a value
  have hyields : ∀ {x}, d.callers t = x → (∀ k c i, x ≠ .loading k c i) → Yields d.group key x := by
    rintro _ rfl hx
    exact h.resolve_left fun ⟨k, c, i, hd⟩ => hx k c i hd
  cases hm with
  | joined hw hw' hg hr =>
    rw [hw']
    refine ⟨rfl, ?_⟩
    rcases hyields hw nofun with hc | ⟨v, hr'⟩
    · rw [hd.group.results, hd.group.pending _ (hd.group.mem_calls.mp hc)] at hr
      cases hr
    · cases hr.symm.trans hr'
      exact ⟨v, rfl⟩
  | loaded hw hw' _ =>
    rw [hw']
    refine ⟨rfl, ?_⟩
    rcases hact with ⟨v, hv⟩ | hv | hv <;> cases hv
    rfl
  | @finished k c i out hw hw' _ =>
    rw [hw']
    exact ⟨rfl, out.1, congrArg some (Prod.ext rfl (hyields hw nofun))⟩
  | aborted hw hw' _ =>
    obtain ⟨v, hv⟩ := hyields hw nofun
    cases hv
  | passed hw hw' _ =>
    rw [hw']
    exact ⟨rfl, hyields hw nofun⟩
  | released hw hw' _ => exact ⟨rfl, .inl (hyields hw nofun)⟩
  | _ => rcases hact with ⟨v, hv⟩ | hv | hv <;> cases hv

end Do

theorem InFlight.ne_ret (hin : InFlight cfg s u key act a) : act ≠ .ret t := by
  cases hin <;> exact nofun

theorem Goes.ne_ret {y : ResolveState ε} {event : Option (ScopeEvent ε)} (hgo : Goes cfg s u act y event)
    (hne : u ≠ t) : act ≠ .ret t := by
  cases hgo <;> intro e <;> cases e <;> exact hne rfl

theorem OnHit.other (h : OnHit cfg base t key post s) (hact : act ≠ .ret t) (hc : s'.calls t = s.calls t)
    (hd : s'.flights.callers t = s.flights.callers t) (hder : s'.derived t = s.derived t)
    (hy : Yields s.flights.group key (s.flights.callers t) → Yields s'.flights.group key (s.flights.callers t)) :
    OnHit cfg base t key ((act, o) :: post) s' := by
  refine ⟨by rw [hder]; exact h.live, ?_, fun e he hr => ?_⟩
  · rw [hc, hd]
    exact h.place.mono (refused_cons _) (fun ⟨e, he, hr⟩ => ⟨e, List.mem_cons_of_mem _ he, hr⟩) hy
  · rcases List.mem_cons.mp he with rfl | he
    · exact absurd hr hact
    · obtain ⟨bs, ha⟩ := h.returned e he hr
      exact ⟨bs, answer_cons _ ha⟩

theorem OnHit.moved (h : OnHit cfg base t key post s) (hder : s'.derived t = s.derived t) {y : ResolveState ε}
    (hcall : s'.calls t = y) (hplace : Placing s'.flights.group (s'.flights.callers t) key
      (Refused cfg.group.toLimits base t key ((act, o) :: post)) (act = .ret t) y)
    (hret : act = .ret t → ∃ bs, Answer cfg.group.toLimits base t key bs post o) :
    OnHit cfg base t key ((act, o) :: post) s' := by
  subst hcall
  refine ⟨by rw [hder]; exact h.live, hplace.mono id (fun hr => ⟨_, List.mem_cons_self, hr⟩) id, fun e he hr => ?_⟩
  rcases List.mem_cons.mp he with rfl | he
  · obtain ⟨bs, ha⟩ := hret hr
    exact ⟨bs, answer_cons _ ha⟩
  · obtain ⟨bs, ha⟩ := h.returned e he hr
    exact ⟨bs, answer_cons _ ha⟩

variable [DecidableEq θ]

theorem stored_of_open (h : (scopeSystem cfg).Run tr s) (herr : s.err = none) (hc : commits key tr ≠ []) :
    ∃ a, (key, some a) ∈ s.entries := by
  rcases (memo_inv h).kept key hc with hcl | ha
  · exact absurd herr ((scope_inv h).2.cleared hcl).1
  · exact ha

theorem err_of_step (hs : ScopeMoves cfg s act s' o) (h : s'.err = none) : s.err = none := by
  cases hs with
  | expire _ => cases h
  | close => cases h
  | _ => exact h

theorem ctx_of_step (hs : ScopeMoves cfg s act s' o) (h : s'.ctx t = none) : s.ctx t = none := by
  cases hs with
  | @cancel u e =>
    change Function.update s.ctx u (some e) t = none at h
    rw [Function.update_apply] at h
    split at h
    · cases h
    · exact h
  | _ => exact h

theorem placing_begin (hfl : FlightInv cfg (post ++ base) s) (hbad : ¬ cfg.group.badKey key)
    (hs : doStep cfg.group s.flights (.start t key none) = some (d, x)) :
    Placing d.group (d.callers t) key (Refused cfg.group.toLimits base t key ((.begin t, o) :: post)) q
      (afterDo key (d.callers t) x.ret) := by
  have hm := moves_of_doStep hfl.leads hfl.runs rfl hs
  generalize x.ret = ret at hm ⊢
  cases hm with
  | refused _ _ _ hr =>
    refine ⟨rfl, .inr ?_⟩
    cases hr with
    | key hb => exact absurd hb hbad
    | followers hm hf => exact ⟨⟨_, rfl⟩, [], _, post, rfl, atLimit_of_refuses hfl.runs.group (.followers hm hf)⟩
    | keys hn hk => exact ⟨⟨_, rfl⟩, [], _, post, rfl, atLimit_of_refuses hfl.runs.group (.keys hn hk)⟩
  | follow _ hw' hg hm =>
    rw [hw']
    refine ⟨rfl, .inl ?_⟩
    rw [hg.calls]
    exact hm
  | lead _ hw' _ => rw [hw']; exact rfl

theorem OnHit.flight (h : OnHit cfg base t key post s) (hfl : FlightInv cfg (post ++ base) s)
    (hbad : ¬ cfg.group.badKey key) (hin : ∃ a, (key, some a) ∈ s.entries) {k : Key}
    (hf : InFlight cfg s t k act a) (hs : doStep cfg.group s.flights a = some (d, x)) :
    Placing d.group (d.callers t) key (Refused cfg.group.toLimits base t key ((act, o) :: post)) q
      (afterDo k (d.callers t) x.ret) := by
  have hp := h.place
  have hlive := h.live
  cases hf with
  | look hw he | ended hw he => rw [hlive] at he; cases he
  | begin hw =>
    rw [hw] at hp
    cases hp
    exact placing_begin hfl hbad hs
  | hit hw ha =>
    rw [hw] at hp
    cases hp
    have hload : Placed (s.flights.callers t) (.reserve key : ResolveState ε) := hw ▸ hfl.placed t
    exact (moves_of_doStep hfl.leads hfl.runs rfl hs).placing hfl.runs (.inl ⟨_, rfl⟩) (.inl ⟨key, hload⟩)
  | full hw hn _ =>
    rw [hw] at hp
    cases hp
    obtain ⟨b, hb⟩ := hin
    exact absurd hb (hn b)
  | wait hw =>
    rw [hw] at hp
    obtain ⟨rfl, hy⟩ := hp
    exact (moves_of_doStep hfl.leads hfl.runs rfl hs).placing hfl.runs (.inr (.inl rfl)) (.inr hy)
  | next hw =>
    rw [hw] at hp
    obtain ⟨rfl, hy⟩ := hp
    exact (moves_of_doStep hfl.leads hfl.runs rfl hs).placing hfl.runs (.inr (.inr rfl)) (.inr hy)

theorem onHit_step (h : OnHit cfg base t key post s) (hrun : (scopeSystem cfg).Run (post ++ base) s)
    (hc : commits key (post ++ base) ≠ []) (hs : ScopeMoves cfg s act s' o) (herr : s'.err = none)
    (hctx : s'.ctx t = none) : OnHit cfg base t key ((act, o) :: post) s' := by
  have herr := err_of_step hs herr
  have hctx := ctx_of_step hs hctx
  have hfl := (scope_inv hrun).1
  have hstored := stored_of_open hrun herr hc
  obtain ⟨b, hb⟩ := hstored
  have hhit := hit_inv hrun
  have hp := h.place
  -- what is the call's own in the place of another
  have hcalls : ∀ {u : θ} {y : ResolveState ε}, u ≠ t → Function.update s.calls u y t = s.calls t :=
    fun hne => Function.update_of_ne hne.symm _ _
  have hself : ∀ {y : ResolveState ε}, Function.update s.calls t y t = y := Function.update_self _ _ _
  have hdo : ∀ {u : θ} {a : FlightAct θ ε} {d : Flights θ ε}
      {x : FlightObs ε}, u ≠ t → actor a = some u → doStep cfg.group s.flights a = some (d, x) →
      d.callers t = s.flights.callers t ∧
        (Yields s.flights.group key (s.flights.callers t) → Yields d.group key (s.flights.callers t)) :=
    fun hne ha hs => ⟨doStep_others ha hs hne.symm, fun hy =>
      (moves_of_doStep hfl.leads hfl.runs ha hs).yields hfl.runs (fun c hl => hhit.gives _ key c b hb hl) hy⟩
  cases hs with
  | @propagate u f e he =>
    have hne : u ≠ t := by
      intro e
      subst e
      exact he.elim (fun hx => hx herr) fun hx => hx hctx
    exact h.other nofun rfl rfl (Function.update_of_ne hne.symm _ _) id
  | @shut u k e hw _ =>
    by_cases e : u = t
    · subst e; rw [hw] at hp; exact absurd hp id
    · exact h.other nofun (hcalls e) rfl rfl id
  | @enter u k hw _ =>
    by_cases e : u = t
    · subst e; rw [hw] at hp; exact absurd hp id
    · exact h.other nofun (hcalls e) rfl (Function.update_of_ne (Ne.symm e) _ _) id
  | @flight act u k a d x hin hs =>
    by_cases e : u = t
    · subst e
      refine h.moved rfl hself ?_ fun e => absurd e hin.ne_ret
      exact h.flight hfl (hhit.keys key b hb) ⟨b, hb⟩ hin hs
    · obtain ⟨hd, hy⟩ := hdo e hin.actor_eq hs
      exact h.other hin.ne_ret (hcalls e) hd rfl hy
  | @goes act u y event hgo =>
    by_cases e : u = t
    · subst e
      cases hgo with
      | look hw _ =>
        rw [hw] at hp
        exact h.moved rfl hself hp nofun
      | panicked hw =>
        rw [hw] at hp
        rcases hp.2 with ⟨v, hv⟩ | ⟨⟨v, hv⟩, -⟩ <;> cases hv
      | failed hw =>
        rw [hw] at hp
        obtain ⟨rfl, ⟨v, hv⟩ | ⟨⟨v, hv⟩, hr⟩⟩ := hp <;> cases hv
        exact h.moved rfl hself rfl fun _ => ⟨[], .inr ⟨rfl, hr⟩⟩
      | _ hw => rw [hw] at hp; exact absurd hp id
    · exact h.other (hgo.ne_ret e) (hcalls e) rfl rfl id
  | @reserve u k hw hn _ =>
    by_cases e : u = t
    · subst e
      rw [hw] at hp
      cases hp
      exact absurd hb (hn b)
    · exact h.other nofun (hcalls e) rfl rfl id
  | @commit u k data d x hw _ _ hs | @rollback u k out d x hw hs =>
    by_cases e : u = t
    · subst e; rw [hw] at hp; exact absurd hp id
    · obtain ⟨hd, hy⟩ := hdo e rfl hs
      exact h.other nofun (hcalls e) hd rfl hy
  | @clone u k v hw =>
    by_cases e : u = t
    · subst e
      rw [hw] at hp
      obtain ⟨rfl, -⟩ := hp
      exact h.moved rfl hself rfl fun _ => ⟨_, .inl rfl⟩
    · exact h.other (fun ha => e (ScopeAct.ret.inj ha)) (hcalls e) rfl rfl id
  | _ => exact h.other nofun rfl rfl rfl id

end OnHit

/-! ## Its way to the end -/

section Progress

variable [DecidableEq θ]

/-- `t` returns by its own steps and those of `u`, without a loader. -/
def CanReturn (cfg : ScopeConfig) (tr : ScopeHistory θ ε) (s : Scope θ ε) (t u : θ) : Prop :=
  ∃ as tr' s', (∀ a ∈ as, Serves t u a) ∧ (scopeSystem cfg).execFrom tr s as = some (tr', s') ∧
    s'.calls t = .returned ∧ s'.err = s.err ∧ s'.ctx = s.ctx

theorem contexts_of_serves (hs : ScopeMoves cfg s act s' o) (ha : Serves t u act) :
    s'.err = s.err ∧ s'.ctx = s.ctx := by
  cases hs with
  | expire _ | close | cancel => exact absurd ha id
  | _ => exact ⟨rfl, rfl⟩

theorem CanReturn.step (hs : (scopeSystem cfg).step s act = some (s', o)) (ha : Serves t u act)
    (h : CanReturn cfg ((act, o) :: tr) s' t u) : CanReturn cfg tr s t u := by
  obtain ⟨as, tr', s₁, has, hex, hret, herr, hctx⟩ := h
  obtain ⟨herr', hctx'⟩ := contexts_of_serves (moves_of_scopeStep hs) ha
  refine ⟨act :: as, tr', s₁, fun a hm => ?_, ?_, hret, herr.trans herr', hctx.trans hctx'⟩
  · rcases List.mem_cons.mp hm with rfl | hm
    · exact ha
    · exact has a hm
  · rw [System.execFrom, hs]
    exact hex

/-- A step of the call `t` in its `Do` that can be made. -/
structure Advances (cfg : ScopeConfig) (s : Scope θ ε) (t : θ) (key : Key) (act : ScopeAct θ ε)
    (a : FlightAct θ ε) (s' : Scope θ ε) (o : ScopeObs θ ε) (ret : Option (DoEnd Slice (ScopeErr ε))) :
    Prop where
  step : (scopeSystem cfg).step s act = some (s', o)
  moves : Moves cfg.group.toLimits s.flights s'.flights t a ret
  others : ∀ u ≠ t, s'.flights.callers u = s.flights.callers u ∧ s'.calls u = s.calls u
  self : s'.calls t = afterDo key (s'.flights.callers t) ret
  err : s'.err = s.err

theorem advances_of_flight (hfl : FlightInv cfg tr s) (ha : actor a = some t)
    (hstep : scopeStep cfg s act = s.flight cfg t key a none)
    (hs : ∃ d x, doStep cfg.group s.flights a = some (d, x)) : ∃ s' o ret, Advances cfg s t key act a s' o ret := by
  obtain ⟨d, x, hs⟩ := hs
  refine ⟨{ s with flights := d }.goto t (afterDo key (d.callers t) x.ret), ⟨some (a, x), none⟩, x.ret, ?_,
    moves_of_doStep hfl.leads hfl.runs ha hs, fun u hu => ⟨doStep_others ha hs hu, Function.update_of_ne hu _ _⟩,
    Function.update_self _ _ _, rfl⟩
  show scopeStep cfg s act = _
  rw [hstep, Scope.flight, hs]
  rfl

theorem advances_next (hfl : FlightInv cfg tr s) (hw : s.calls t = .inDo key)
    (hd : ∀ c i, s.flights.callers t ≠ .waiting c i) :
    ∃ s' o ret, Advances cfg s t key (.next t) (.next t) s' o ret := by
  refine advances_of_flight hfl rfl (by simp only [scopeStep, hw]) ?_
  have hj := hfl.runs.callers t
  have hp : Placed (s.flights.callers t) (.inDo key : ResolveState ε) := hw ▸ hfl.placed t
  rcases hp with ⟨c, i, hd'⟩ | ⟨c, i, out, hd'⟩ | ⟨c, i, ret, hd'⟩ | ⟨i, ret, hd'⟩
  · exact absurd hd' (hd c i)
  · simp only [doStep, hd', DoSystemState.call, step, Option.map_some]
    exact ⟨_, _, rfl⟩
  · simp only [doStep, hd', DoSystemState.call, step, Option.map_some]
    exact ⟨_, _, rfl⟩
  · rw [hd'] at hj
    simp only [doStep, hd', DoSystemState.call, step, if_pos hj.1, Option.map_some]
    exact ⟨_, _, rfl⟩

variable {c i : Nat} {out : Outcome Slice (ScopeErr ε)}

theorem advances_wait (hfl : FlightInv cfg tr s) (hw : s.calls t = .inDo key)
    (hd : s.flights.callers t = .waiting c i) (hr : (s.flights.group.heap c).result = some out) :
    ∃ s' o ret, Advances cfg s t key (.wait t false) (.wait t none) s' o ret := by
  refine advances_of_flight hfl rfl (by simp only [scopeStep, hw]) ?_
  simp only [doStep, hd, DoSystemState.call, step, Call.wait, hr, Option.map_some]
  exact ⟨_, _, rfl⟩

theorem advances_begin (hfl : FlightInv cfg tr s) (hw : s.calls t = .looked key) :
    ∃ s' o ret, Advances cfg s t key (.begin t) (.start t key none) s' o ret := by
  have hd : Placed (s.flights.callers t) (.looked key : ResolveState ε) := hw ▸ hfl.placed t
  refine advances_of_flight hfl rfl (by simp only [scopeStep, hw]) ?_
  simp only [doStep, show s.flights.callers t = .idle from hd, DoSystemState.call, step, Option.map_some]
  exact ⟨_, _, rfl⟩

variable {b : Nat} {ret : DoEnd Slice (ScopeErr ε)}

theorem advances_reserve (hfl : FlightInv cfg tr s) (hw : s.calls t = .reserve key)
    (hb : (key, some b) ∈ s.entries) :
    ∃ s' o ret, Advances cfg s t key (.reserve t) (.load t (some (some b, none))) s' o ret := by
  have hf : s.entries.find? key = some (key, some b) := Table.find?_eq_some.mpr ⟨hb, rfl⟩
  have hp : Placed (s.flights.callers t) (.reserve key : ResolveState ε) := hw ▸ hfl.placed t
  obtain ⟨c, i, hd⟩ := hp
  refine advances_of_flight hfl rfl (by simp only [scopeStep, hw, Scope.reserve, hf]) ?_
  simp only [doStep, hd]
  exact ⟨_, _, rfl⟩

theorem canReturn_returning {out : Option (Outcome Slice (ScopeErr ε))} (hw : s.calls t = .returning key out) (u : θ) :
    CanReturn cfg tr s t u := by
  have hs : (scopeSystem cfg).step s (.ret t) = some (s.ret t key out) := by
    show scopeStep cfg s (.ret t) = _
    simp only [scopeStep, hw]
  refine CanReturn.step hs rfl ⟨[], _, _, fun a ha => absurd ha List.not_mem_nil, rfl, ?_, rfl, rfl⟩
  rcases out with _ | ⟨v, _ | e⟩ <;> exact Function.update_self _ _ _

theorem canReturn_releasing (h : (scopeSystem cfg).Run tr s) (hw : s.calls t = .inDo key)
    (hd : s.flights.callers t = .releasing i ret) (u : θ) : CanReturn cfg tr s t u := by
  obtain ⟨s₁, o₁, r, h₁⟩ := advances_next (scope_inv h).1 hw (by rw [hd]; exact nofun)
  refine CanReturn.step h₁.step (.inl rfl) ?_
  have hself := h₁.self
  cases h₁.moves with
  | released _ _ _ => exact canReturn_returning hself u
  | _ hw₁ => cases hd.symm.trans hw₁

theorem canReturn_deferred (h : (scopeSystem cfg).Run tr s) (hw : s.calls t = .inDo key) {k : Key}
    (hd : s.flights.callers t = .deferred k c i ret) (u : θ) : CanReturn cfg tr s t u := by
  obtain ⟨s₁, o₁, r, h₁⟩ := advances_next (scope_inv h).1 hw (by rw [hd]; exact nofun)
  refine CanReturn.step h₁.step (.inl rfl) ?_
  have hself := h₁.self
  cases h₁.moves with
  | aborted _ hw' _
  | passed _ hw' _ => rw [hw'] at hself; exact canReturn_releasing (h.step h₁.step) hself hw' u
  | _ hw₁ => cases hd.symm.trans hw₁

theorem canReturn_loaded (h : (scopeSystem cfg).Run tr s) (hw : s.calls t = .inDo key) {k : Key}
    (hd : s.flights.callers t = .loaded k c i out) (u : θ) : CanReturn cfg tr s t u := by
  obtain ⟨s₁, o₁, r, h₁⟩ := advances_next (scope_inv h).1 hw (by rw [hd]; exact nofun)
  refine CanReturn.step h₁.step (.inl rfl) ?_
  have hself := h₁.self
  cases h₁.moves with
  | finished _ hw' _ => rw [hw'] at hself; exact canReturn_deferred (h.step h₁.step) hself hw' u
  | _ hw₁ => cases hd.symm.trans hw₁

theorem canReturn_reserve (h : (scopeSystem cfg).Run tr s) (hw : s.calls t = .reserve key)
    (hb : (key, some b) ∈ s.entries) (u : θ) : CanReturn cfg tr s t u := by
  obtain ⟨s₁, o₁, r, h₁⟩ := advances_reserve (scope_inv h).1 hw hb
  refine CanReturn.step h₁.step (.inl rfl) ?_
  have hself := h₁.self
  cases h₁.moves with
  | loaded _ hw' _ => rw [hw'] at hself; exact canReturn_loaded (h.step h₁.step) hself hw' u

theorem canReturn_joined (h : (scopeSystem cfg).Run tr s) (hw : s.calls t = .inDo key)
    (hd : s.flights.callers t = .waiting c i)
    (hr : (s.flights.group.heap c).result = some out) (u : θ) : CanReturn cfg tr s t u := by
  obtain ⟨s₁, o₁, r, h₁⟩ := advances_wait (scope_inv h).1 hw hd hr
  refine CanReturn.step h₁.step ⟨rfl, rfl⟩ ?_
  have hself := h₁.self
  cases h₁.moves with
  | joined _ hw' _ _ => rw [hw'] at hself; exact canReturn_releasing (h.step h₁.step) hself hw' u

/-- The leader of a call of a stored value will look for it, or has it. -/
theorem leader_place (h : (scopeSystem cfg).Run tr s) (hb : (key, some b) ∈ s.entries)
    (hl : lead? (s.flights.callers u) = some (key, c)) :
    s.calls u = .reserve key ∨ s.calls u = .inDo key ∧ ∃ i out, s.flights.callers u = .loaded key c i out := by
  obtain ⟨hfl, hi⟩ := scope_inv h
  have hrun : ¬ Running key (s.calls u) := fun hr => (hi.running u key hr).1 b hb
  have hgive := (hit_inv h).gives u key c b hb hl
  have hp := hfl.placed u
  cases hd : s.flights.callers u with
  | loading k c' i =>
    rw [hd] at hl hp
    cases hl
    cases hx : s.calls u with
    | reserve k => rw [hx] at hp; obtain ⟨_, _, e⟩ := hp; cases e; exact .inl rfl
    | inDo k => rw [hx] at hp; rcases hp with ⟨_, _, e⟩ | ⟨_, _, _, e⟩ | ⟨_, _, _, e⟩ | ⟨_, _, e⟩ <;> cases e
    | loading k | loaded k v | fits k v
    | rollback k v => rw [hx] at hp hrun; obtain ⟨_, _, e⟩ := hp; cases e; exact absurd rfl hrun
    | _ => rw [hx] at hp; cases hp
  | loaded k c' i out =>
    rw [hd] at hl hp
    cases hl
    have hk := doKey_eq_resolveKey hp rfl
    cases hx : s.calls u with
    | inDo k => rw [hx] at hk; cases hk; exact .inr ⟨rfl, i, out, rfl⟩
    | reserve k | loading k | loaded k v | fits k v
    | rollback k v => rw [hx] at hp; obtain ⟨_, _, e⟩ := hp; cases e
    | _ => rw [hx] at hp; cases hp
  | deferred k c' i ret => rw [hd] at hgive; exact absurd hgive id
  | _ => rw [hd] at hl; cases hl

theorem canReturn_finish (h : (scopeSystem cfg).Run tr s) (hw : s.calls t = .inDo key)
    (hd : s.flights.callers t = .waiting c i) (hu : s.calls u = .inDo key)
    (hl : ∃ i out, s.flights.callers u = .loaded key c i out) : CanReturn cfg tr s t u := by
  obtain ⟨j, out, hl⟩ := hl
  have hne : t ≠ u := by
    intro e
    rw [e, hl] at hd
    cases hd
  obtain ⟨s₁, o₁, r, h₁⟩ := advances_next (scope_inv h).1 hu (by rw [hl]; exact nofun)
  refine CanReturn.step h₁.step (.inr rfl) ?_
  obtain ⟨hd₁, hw₁⟩ := h₁.others t hne
  rw [hd] at hd₁
  rw [hw] at hw₁
  cases h₁.moves with
  | finished hw' _ hg =>
    cases hl.symm.trans hw'
    exact canReturn_joined (h.step h₁.step) hw₁ hd₁ hg.result u
  | _ hw' => cases hl.symm.trans hw'

theorem canReturn_waiting (h : (scopeSystem cfg).Run tr s) (hw : s.calls t = .inDo key)
    (hd : s.flights.callers t = .waiting c i) (hb : (key, some b) ∈ s.entries)
    (hm : (key, c) ∈ s.flights.group.calls) : ∃ u, CanReturn cfg tr s t u := by
  obtain ⟨u, hl⟩ := (hit_inv h).led _ hm
  have hne : t ≠ u := by
    intro e
    rw [← e, hd] at hl
    cases hl
  refine ⟨u, ?_⟩
  rcases leader_place h hb hl with hu | ⟨hu, hl⟩
  · have hfl := (scope_inv h).1
    obtain ⟨s₁, o₁, r, h₁⟩ := advances_reserve hfl hu hb
    refine CanReturn.step h₁.step (.inr rfl) ?_
    obtain ⟨hd₁, hw₁⟩ := h₁.others t hne
    rw [hd] at hd₁
    rw [hw] at hw₁
    have hself := h₁.self
    cases h₁.moves with
    | loaded hw' hw'' _ =>
      rw [hw'] at hl
      cases hl
      rw [hw''] at hself
      exact canReturn_finish (h.step h₁.step) hw₁ hd₁ hself ⟨_, _, hw''⟩
  · exact canReturn_finish h hw hd hu hl

theorem canReturn_looked (h : (scopeSystem cfg).Run tr s) (hw : s.calls t = .looked key) (herr : s.err = none)
    (hc : commits key tr ≠ []) : ∃ u, CanReturn cfg tr s t u := by
  obtain ⟨s₁, o₁, r, h₁⟩ := advances_begin (scope_inv h).1 hw
  have hrun := h.step h₁.step
  obtain ⟨b, hb⟩ : ∃ b, (key, some b) ∈ s₁.entries := by
    refine stored_of_open hrun (h₁.err.trans herr) ?_
    exact commits_cons_ne_nil hc
  have hself := h₁.self
  suffices hu : ∃ u, CanReturn cfg ((.begin t, o₁) :: tr) s₁ t u by
    obtain ⟨u, hu⟩ := hu
    exact ⟨u, CanReturn.step h₁.step rfl hu⟩
  cases h₁.moves with
  | refused _ hw' _ _ => exact ⟨t, canReturn_returning hself t⟩
  | follow _ hw' hg hm =>
    rw [hw'] at hself
    exact canReturn_waiting hrun hself hw' hb (hg.calls ▸ hm)
  | lead _ hw' _ =>
    rw [hw'] at hself
    exact ⟨t, canReturn_reserve hrun hself hb t⟩

/-- A call for a stored value can still return. -/
theorem canReturn_of_onHit {base post : ScopeHistory θ ε} (h : (scopeSystem cfg).Run (post ++ base) s)
    (hx : OnHit cfg base t key post s) (herr : s.err = none) (hc : commits key (post ++ base) ≠ []) :
    ∃ u, CanReturn cfg (post ++ base) s t u := by
  obtain ⟨b, hb⟩ := stored_of_open h herr hc
  have hp := hx.place
  cases hw : s.calls t with
  | entered k =>
    rw [hw] at hp
    cases hp
    have hs : (scopeSystem cfg).step s (.look t) = some (s.goto t (.looked key), ⟨none, none⟩) := by
      show scopeStep cfg s (.look t) = _
      simp only [scopeStep, hw, hx.live]
    obtain ⟨u, hu⟩ := canReturn_looked (h.step hs) (Function.update_self _ _ _) herr
      (commits_cons_ne_nil hc)
    exact ⟨u, CanReturn.step hs rfl hu⟩
  | looked k =>
    rw [hw] at hp
    cases hp
    exact canReturn_looked h hw herr hc
  | reserve k =>
    rw [hw] at hp
    cases hp
    exact ⟨t, canReturn_reserve h hw hb t⟩
  | inDo k =>
    rw [hw] at hp
    obtain ⟨rfl, hy⟩ := hp
    cases hd : s.flights.callers t with
    | waiting c i =>
      rw [hd] at hy
      rcases hy with hm | ⟨v, hr⟩
      · exact canReturn_waiting h hw hd hb hm
      · exact ⟨t, canReturn_joined h hw hd hr t⟩
    | loaded k' c i out => exact ⟨t, canReturn_loaded h hw hd t⟩
    | deferred k' c i ret => exact ⟨t, canReturn_deferred h hw hd t⟩
    | releasing i ret => exact ⟨t, canReturn_releasing h hw hd t⟩
    | _ => rw [hd] at hy; exact absurd hy id
  | returning k out => exact ⟨t, canReturn_returning hw t⟩
  | returned => exact ⟨t, [], _, _, fun a ha => absurd ha List.not_mem_nil, rfl, hw, rfl, rfl⟩
  | _ => rw [hw] at hp; exact absurd hp id

end Progress

/-! ## Every run -/

section Runs

variable [DecidableEq θ] {pre post : ScopeHistory θ ε} {bs : Bytes}

/-- A call for a stored value, as long as neither context has ended. -/
theorem onHit_run (h : (scopeSystem cfg).Run (post ++ (.resolve t key, o) :: pre) s) (hc : commits key pre ≠ [])
    (herr : s.err = none) (hctx : s.ctx t = none) : OnHit cfg ((.resolve t key, o) :: pre) t key post s := by
  obtain ⟨s₀, s₁, h₀, -, hs⟩ := h.split rfl
  have h₁ := h₀.step trivial hs
  refine h₁.after (I := fun post s => s.err = none → s.ctx t = none →
    OnHit cfg ((.resolve t key, o) :: pre) t key post s) ?_ ?_ h herr hctx
  · intro herr hctx
    have hm : ScopeMoves cfg s₀ (.resolve t key) s₁ o := moves_of_scopeStep hs
    cases hm with
    | shut _ he =>
      have herr : s₀.err = none := herr
      rw [he] at herr
      cases herr
    | enter _ _ =>
      refine ⟨(Function.update_self _ _ _).trans hctx, ?_, fun e he => absurd he List.not_mem_nil⟩
      show Placing _ _ _ _ _ (Function.update s₀.calls t _ t)
      rw [Function.update_self]
      exact rfl
    | goes hgo => cases hgo
    | flight hin _ => cases hin
  · intro post s act s' o hrun ih hs herr hctx
    have hm := moves_of_scopeStep hs
    exact onHit_step (ih (err_of_step hm herr) (ctx_of_step hm hctx)) hrun
      (commits_append_ne_nil (commits_cons_ne_nil hc)) hm herr hctx

theorem answer_of_onHit (h : (scopeSystem cfg).Run (post ++ (.resolve t key, o) :: pre) s)
    (hc : commits key (post ++ (.resolve t key, o) :: pre) = [bs])
    (hx : OnHit cfg ((.resolve t key, o) :: pre) t key post s) {e : ScopeAct θ ε × ScopeObs θ ε} (he : e ∈ post)
    (hr : e.1 = .ret t) : Answer cfg.group.toLimits ((.resolve t key, o) :: pre) t key bs post e.2 := by
  obtain ⟨bs', hok | hno⟩ := hx.returned e he hr
  · have hbs := (memo_inv h).returned key bs' ⟨e, List.mem_append_left _ he, hok⟩
    rw [hc] at hbs
    cases hbs
    exact .inl hok
  · exact .inr hno

/-- A `Resolve` for a key for which one has succeeded, as long as neither its own context nor the scope's
has ended, returns those bytes, or `Begin` refused it at a limit of the group; by its own steps and those
of the call that it follows. -/
theorem scope_hit (h : (scopeSystem cfg).Run (post ++ (.resolve t key, o) :: pre) s)
    (hok : ∃ e ∈ pre, e.2.event = some (.returned key (.ok bs))) (herr : s.err = none) (hctx : s.ctx t = none) :
    (∀ e ∈ post, e.1 = .ret t → Answer cfg.group.toLimits ((.resolve t key, o) :: pre) t key bs post e.2) ∧
    ∃ u as post' s', (∀ a ∈ as, Serves t u a) ∧
      (scopeSystem cfg).execFrom (post ++ (.resolve t key, o) :: pre) s as =
        some (post' ++ (.resolve t key, o) :: pre, s') ∧
      ∃ e ∈ post', e.1 = .ret t ∧ Answer cfg.group.toLimits ((.resolve t key, o) :: pre) t key bs post' e.2 := by
  have hcommits : ∀ {post s}, (scopeSystem cfg).Run (post ++ (.resolve t key, o) :: pre) s →
      commits key (post ++ (.resolve t key, o) :: pre) = [bs] := by
    intro post s h
    obtain ⟨e, he, hr⟩ := hok
    exact (memo_inv h).returned key bs ⟨e, List.mem_append_right _ (List.mem_cons_of_mem _ he), hr⟩
  have hc : commits key pre ≠ [] := by
    obtain ⟨s₀, s₁, h₀, -, -⟩ := h.split rfl
    rw [(memo_inv h₀).returned key bs hok]
    exact List.cons_ne_nil _ _
  have hx := onHit_run h hc herr hctx
  refine ⟨fun e he hr => answer_of_onHit h (hcommits h) hx he hr, ?_⟩
  obtain ⟨u, as, tr', s', has, hex, hret, herr', hctx'⟩ :=
    canReturn_of_onHit h hx herr (commits_append_ne_nil (commits_cons_ne_nil hc))
  obtain ⟨new, rfl⟩ := System.execFrom_append hex
  have hrun := h.execFrom as (fun _ _ _ _ => trivial) hex
  rw [← List.append_assoc] at hrun hex
  have hx' := onHit_run hrun hc (herr'.trans herr) (by rw [hctx']; exact hctx)
  obtain ⟨e, he, hr⟩ : ∃ e ∈ new ++ post, e.1 = .ret t := by
    have hp := hx'.place
    rw [hret] at hp
    exact hp
  exact ⟨u, as, new ++ post, s', has, hex, e, he, hr, answer_of_onHit hrun (hcommits hrun) hx' he hr⟩

end Runs

theorem scope_hit_second :
    let cfg : ScopeConfig := ⟨⟨⟨1, 1, 8⟩, 2, 4, 3, 1⟩, ⟨⟨1, 1, 8⟩, by decide⟩, rfl, by decide⟩
    ∃ (o : ScopeObs Bool Empty) (pre : ScopeHistory Bool Empty) (s : Scope Bool Empty),
      (scopeSystem cfg).Run ((.resolve false [97], o) :: pre) s ∧
      ∃ u as post' s', (∀ a ∈ as, Serves false u a) ∧
        (scopeSystem cfg).execFrom ((.resolve false [97], o) :: pre) s as =
          some (post' ++ (.resolve false [97], o) :: pre, s') ∧
        ∃ e ∈ post', e.1 = .ret false ∧
          Answer cfg.group.toLimits ((.resolve false [97], o) :: pre) false [97] [120] post' e.2 := by
  intro cfg
  have h := System.run_of_exec (scopeSystem cfg) [(.give [120] : ScopeAct Bool Empty), .resolve true [97], .look true,
    .begin true, .reserve true, .load true (.ret (some 0) none), .check true, .commit true, .next true, .next true,
    .next true, .ret true, .resolve false [97]] rfl
  have hhit := scope_hit (show (scopeSystem cfg).Run ([] ++ _ :: _) _ from h) ⟨_, List.mem_cons_self, rfl⟩ rfl rfl
  exact ⟨_, _, _, h, hhit.2⟩

/-- A key with a stored value is refused while another key is loaded; and `Close` overtakes a call made
before it. -/
theorem scope_hit_refused :
    let cfg : ScopeConfig := ⟨⟨⟨1, 1, 8⟩, 2, 4, 3, 1⟩, ⟨⟨1, 1, 8⟩, by decide⟩, rfl, by decide⟩
    (∃ (post : ScopeHistory (Fin 3) Empty) (o : ScopeObs (Fin 3) Empty) (pre : ScopeHistory (Fin 3) Empty)
      (s : Scope (Fin 3) Empty), (scopeSystem cfg).Run (post ++ (.resolve 2 [97], o) :: pre) s ∧
      (∃ e ∈ pre, e.2.event = some (.returned [97] (.ok [120]))) ∧ s.err = none ∧ s.ctx 2 = none ∧
      ∃ e ∈ post, e.1 = .ret 2 ∧ e.2.event = some (.returned [97] (.error .capacity))) ∧
    ∃ (post : ScopeHistory (Fin 3) Empty) (o : ScopeObs (Fin 3) Empty) (pre : ScopeHistory (Fin 3) Empty)
      (s : Scope (Fin 3) Empty), (scopeSystem cfg).Run (post ++ (.resolve 2 [97], o) :: pre) s ∧
      (∃ e ∈ pre, e.2.event = some (.returned [97] (.ok [120]))) ∧ (∀ e ∈ pre, ¬ e.1 matches .close) ∧ s.ctx 2 = none ∧
      ∃ e ∈ post, e.1 = .ret 2 ∧ e.2.event = some (.returned [97] (.error (.other .canceled))) := by
  intro cfg
  have h := System.run_of_exec (scopeSystem cfg) [(.give [120] : ScopeAct (Fin 3) Empty), .resolve 0 [97], .look 0,
    .begin 0, .reserve 0, .load 0 (.ret (some 0) none), .check 0, .commit 0, .next 0, .next 0, .next 0, .ret 0] rfl
  have h₁ := h.execFrom [.resolve 1 [98], .look 1, .begin 1, .resolve 2 [97], .look 2, .begin 2, .ret 2]
    (fun _ _ _ _ => trivial) rfl
  have h₂ := h.execFrom [.resolve 2 [97], .close, .propagate 2 true, .look 2, .ret 2] (fun _ _ _ _ => trivial) rfl
  constructor
  · exact ⟨[_, _, _], _, _, _, h₁, ⟨_, .tail _ (.tail _ (.tail _ (.head _))), rfl⟩, rfl, rfl, _, List.mem_cons_self, rfl, rfl⟩
  · exact ⟨[_, _, _, _], _, _, _, h₂, ⟨_, .head _, rfl⟩, by simp, rfl, _, List.mem_cons_self, rfl, rfl⟩

end Csar.Proof.ReadCache
