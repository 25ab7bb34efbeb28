import CsarCore.Impl.TokenMint.Minter
import CsarCore.Proof.TokenMint.Profile

/-!
# The minter: its steps, and what holds of flights and cells

One inversion lemma for each step (`step_mint`, `step_clock`, …), and what holds in
every run (`Base`): flights run for their key under the profile of their call, with
clock values that are not in the future, and each cell belongs to one key.
-/

namespace Csar.Proof.TokenMint

open Impl.TokenMint

/-! ## The steps -/

section Steps

variable {env : Env} {m m' : Minter} {o : Obs} {key : String}

@[simp] theorem goto_clock (m : Minter) (f : Flight) (pc : Pc) : (m.goto key f pc).clock = m.clock := rfl
@[simp] theorem goto_cells (m : Minter) (f : Flight) (pc : Pc) : (m.goto key f pc).cells = m.cells := rfl
@[simp] theorem goto_state (m : Minter) (f : Flight) (pc : Pc) : (m.goto key f pc).state = m.state := rfl

theorem goto_flights (m : Minter) (f : Flight) (pc : Pc) (k : String) :
    (m.goto key f pc).flights k = if k = key then some { f with pc := pc } else m.flights k := by
  simp only [Minter.goto, Function.update_apply]

theorem goto_some {m : Minter} {f g : Flight} {pc : Pc} {k : String} (h : (m.goto key f pc).flights k = some g) :
    (k = key ∧ g = { f with pc := pc }) ∨ (k ≠ key ∧ m.flights k = some g) := by
  rw [goto_flights] at h
  split at h
  · exact .inl ⟨‹_›, (Option.some.inj h).symm⟩
  · exact .inr ⟨‹_›, h⟩

@[simp] theorem goto_self (m : Minter) (f : Flight) (pc : Pc) :
    (m.goto key f pc).flights key = some { f with pc := pc } :=
  Function.update_self _ _ _

theorem step_tick {d : Nat} (h : step env m (.tick d) = some (m', o)) :
    m' = { m with clock := m.clock + d } ∧ o = .none := by
  simp only [step, Option.some.injEq, Prod.mk.injEq] at h
  exact ⟨h.1.symm, h.2.symm⟩

theorem step_mint {c : MintCall} (h : step env m (.mint c) = some (m', o)) :
    (m' = m ∧ o = .unknownProfile c.profileName) ∨
    ∃ p f, env.cfg.profile c.profileName = some p ∧ o = .none ∧
      m' = { m with flights := Function.update m.flights (env.key c) (some f) } ∧
      ((m.flights (env.key c) = none ∧ f = ⟨c, p, [c], .start⟩) ∨
        ∃ f₀, m.flights (env.key c) = some f₀ ∧ f = { f₀ with callers := c :: f₀.callers }) := by
  simp only [step, Minter.mint, Option.some.injEq] at h
  rcases hp : env.cfg.profile c.profileName with _ | p <;> rw [hp] at h <;> cases h
  · exact .inl ⟨rfl, rfl⟩
  · refine .inr ⟨p, _, rfl, rfl, rfl, ?_⟩
    rcases hf : m.flights (env.key c) with _ | f₀
    · exact .inl ⟨rfl, rfl⟩
    · exact .inr ⟨f₀, rfl, rfl⟩

theorem step_clock (h : step env m (.clock key) = some (m', o)) :
    ∃ f, m.flights key = some f ∧ f.pc = .start ∧ m' = m.goto key f (.sampled m.clock) ∧ o = .none := by
  simp only [step] at h
  rcases hf : m.flights key with _ | f <;> rw [hf] at h
  · cases h
  · rcases hpc : f.pc with _ | _ | _ | _ | _ | _ <;> simp only [hpc] at h <;> cases h
    exact ⟨f, rfl, hpc, rfl, rfl⟩

theorem step_lookup (h : step env m (.lookup key) = some (m', o)) :
    ∃ f now, m.flights key = some f ∧ f.pc = .sampled now ∧ o = .none ∧
      m' = (m.stateFor key f.call.profileName).1.goto key f
        (.found now (m.stateFor key f.call.profileName).2) := by
  simp only [step] at h
  rcases hf : m.flights key with _ | f <;> rw [hf] at h
  · cases h
  · rcases hpc : f.pc with _ | _ | _ | _ | _ | _ <;> simp only [hpc] at h <;> cases h
    exact ⟨f, _, rfl, hpc, rfl, rfl⟩

theorem step_gate (h : step env m (.gate key) = some (m', o)) :
    ∃ f now st, m.flights key = some f ∧ f.pc = .found now st ∧ o = .none ∧
      m' = m.goto key f (f.afterGate (m.cells st) now st) := by
  simp only [step] at h
  rcases hf : m.flights key with _ | f <;> rw [hf] at h
  · cases h
  · rcases hpc : f.pc with _ | _ | _ | _ | _ | _ <;> simp only [hpc] at h <;> cases h
    exact ⟨f, _, _, rfl, hpc, rfl, rfl⟩

theorem step_limit {allow : Bool} (h : step env m (.limit key allow) = some (m', o)) :
    ∃ f now st cached, m.flights key = some f ∧ f.pc = .passed now st cached ∧
      ((allow = true ∧ m' = m.goto key f (.granting now st cached) ∧
          o = .started ⟨key, f.call, f.profile, now⟩ m.clock) ∨
        (allow = false ∧ o = .none ∧ m' = m.goto key f (.returning now cached
          (fallbackOr cached now (.rateLimited f.call.profileName f.profile.maxMintsPerMinute))))) := by
  simp only [step] at h
  rcases hf : m.flights key with _ | f <;> rw [hf] at h
  · cases h
  · rcases hpc : f.pc with _ | _ | _ | ⟨now, st, cached⟩ | _ | _ <;> simp only [hpc] at h <;> try cases h
    refine ⟨f, now, st, cached, rfl, hpc, ?_⟩
    cases allow <;> cases h
    · exact .inr ⟨rfl, rfl, rfl⟩
    · exact .inl ⟨rfl, rfl, rfl⟩

theorem step_answer {up : Upstream} {draw : Nat} (h : step env m (.answer key up draw) = some (m', o)) :
    ∃ f now st cached resp, m.flights key = some f ∧ f.pc = .granting now st cached ∧
      resp = doGrant env.lib env.cfg.toConfig f.profile f.call.clientID f.call.clientSecret up ∧
      o = .answered ⟨key, f.call, f.profile, now⟩ resp (f.afterGrant (m.cells st) now cached resp draw).1 ∧
      m' = { m with
          cells := Function.update m.cells st (f.afterGrant (m.cells st) now cached resp draw).1 }.goto key f
        (.returning now cached (f.afterGrant (m.cells st) now cached resp draw).2) := by
  simp only [step] at h
  rcases hf : m.flights key with _ | f <;> rw [hf] at h
  · cases h
  · rcases hpc : f.pc with _ | _ | _ | _ | _ | _ <;> simp only [hpc] at h <;> cases h
    exact ⟨f, _, _, _, _, rfl, hpc, rfl, rfl, rfl⟩

theorem step_finish (h : step env m (.finish key) = some (m', o)) :
    ∃ f now cached out, m.flights key = some f ∧ f.pc = .returning now cached out ∧
      m' = { m with flights := Function.update m.flights key none } ∧
      o = .returned f.callers now cached out := by
  simp only [step] at h
  rcases hf : m.flights key with _ | f <;> rw [hf] at h
  · cases h
  · rcases hpc : f.pc with _ | _ | _ | _ | _ | _ <;> simp only [hpc] at h <;> cases h
    exact ⟨f, _, _, _, rfl, hpc, rfl, rfl⟩

theorem step_sweepClock (h : step env m .sweepClock = some (m', o)) :
    m' = { m with sweeps := m.clock :: m.sweeps } ∧ o = .none := by
  simp only [step, Option.some.injEq, Prod.mk.injEq] at h
  exact ⟨h.1.symm, h.2.symm⟩

variable {now : Int}

theorem step_sweep (h : step env m (.sweep now) = some (m', o)) :
    now ∈ m.sweeps ∧ (∃ keys, o = .swept keys) ∧ m' = { m with
      sweeps := m.sweeps.erase now
      state := m.state.deleteWhere fun e => (m.cells e.2).dropped env.cfg.toConfig now } := by
  simp only [step] at h
  split at h <;> [skip; cases h]
  rename_i hn
  cases h
  exact ⟨hn, ⟨_, rfl⟩, rfl⟩

/-- A grant is started by a flight past the gate, and the calls of a flight return at its end. -/
theorem step_obs {a : Act} (h : step env m a = some (m', o)) : match o with
    | .started g clock => a = .limit g.key true ∧ clock = m.clock ∧ ∃ f st c, m.flights g.key = some f ∧
        f.pc = .passed g.now st c ∧ g.call = f.call ∧ g.profile = f.profile
    | .returned callers now cached out => ∃ key f, m.flights key = some f ∧ f.pc = .returning now cached out ∧
        f.callers = callers
    | _ => True := by
  cases a with
  | tick d => obtain ⟨-, rfl⟩ := step_tick h; trivial
  | mint c => obtain ⟨-, rfl⟩ | ⟨p, f, -, rfl, -⟩ := step_mint h <;> trivial
  | clock key => obtain ⟨f, -, -, -, rfl⟩ := step_clock h; trivial
  | lookup key => obtain ⟨f, now, -, -, rfl, -⟩ := step_lookup h; trivial
  | gate key => obtain ⟨f, now, st, -, -, rfl, -⟩ := step_gate h; trivial
  | limit key allow =>
    obtain ⟨f, now, st, c, hf, hpc, ⟨rfl, -, rfl⟩ | ⟨-, rfl, -⟩⟩ := step_limit h
    · exact ⟨rfl, rfl, f, st, c, hf, hpc, rfl, rfl⟩
    · trivial
  | answer key up draw => obtain ⟨f, now, st, c, resp, -, -, -, rfl, -⟩ := step_answer h; trivial
  | finish key =>
    obtain ⟨f, now, c, out, hf, hpc, -, rfl⟩ := step_finish h
    exact ⟨key, f, hf, hpc, rfl⟩
  | sweepClock => obtain ⟨-, rfl⟩ := step_sweepClock h; trivial
  | sweep now => obtain ⟨-, ⟨keys, rfl⟩, -⟩ := step_sweep h; trivial

theorem stateFor_cases (m : Minter) (key : String) (name : Bytes) :
    (∃ st, (key, st) ∈ m.state ∧ m.stateFor key name = (m, st)) ∨
    ∃ h : ∀ q ∈ m.state.rows, q.1 ≠ key, m.stateFor key name =
      ({ m with
        state := m.state.insert (key, m.next) h
        cells := Function.update m.cells m.next (.new name)
        next := m.next + 1 }, m.next) := by
  unfold Minter.stateFor
  split
  · rename_i k st hf
    obtain ⟨hm, rfl⟩ := Table.find?_eq_some.mp hf
    exact .inl ⟨st, hm, rfl⟩
  · rename_i hf
    exact .inr ⟨Table.find?_eq_none.mp hf, rfl⟩

theorem gate_fresh {st : MintState} {p : Profile} {r : Result} (h : st.gate p now = .fresh r) :
    st.result = some r ∧ r.fresh now = true := by
  unfold MintState.gate at h
  split at h
  · rename_i r' hr'
    cases h
    exact Option.filter_eq_some_iff.mp hr'
  · split at h
    · cases h
    · split at h <;> cases h

theorem fallbackOr_eq_ok {c : Option Result} {e : MintErr} {r : Result} :
    fallbackOr c now e = .ok r ↔ c = some r ∧ r.usable now = true := by
  have hf : (c.filter fun r => r.usable now) = some r ↔ c = some r ∧ r.usable now = true :=
    Option.filter_eq_some_iff
  unfold fallbackOr
  rw [← hf]
  split <;> simp [*]

theorem afterGate_now (f : Flight) (st : MintState) (now : Int) (addr : Nat) :
    (f.afterGate st now addr).now? = some now := by
  unfold Flight.afterGate
  split <;> rfl

theorem afterGate_held {f : Flight} {st : MintState} {addr x : Nat}
    (h : (f.afterGate st now addr).held? = some x) : x = addr := by
  unfold Flight.afterGate at h
  split at h <;> cases h
  rfl

@[simp] theorem afterGrant_profileName (f : Flight) (st : MintState) (now : Int) (cached : Option Result)
    (resp : Except GrantErr GrantResponse) (draw : Nat) :
    (f.afterGrant st now cached resp draw).1.profileName = st.profileName := by
  cases resp <;> rfl

end Steps

/-! ## Flights and cells -/

/-- What holds in every run. `own` is the key that each cell was made for. -/
structure Base (env : Env) (own : Nat → String) (m : Minter) : Prop where
  clock : env.start ≤ m.clock
  entries : ∀ e ∈ m.state, e.2 < m.next ∧ own e.2 = e.1
  flights : ∀ key f, m.flights key = some f →
    env.key f.call = key ∧ env.cfg.profile f.call.profileName = some f.profile
  now : ∀ key f now, m.flights key = some f → f.pc.now? = some now → env.start ≤ now ∧ now ≤ m.clock
  held : ∀ key f st, m.flights key = some f → f.pc.held? = some st → st < m.next ∧ own st = key
  configured : ∀ st < m.next, ∃ p, env.cfg.profile (m.cells st).profileName = some p
  sweeps : ∀ t ∈ m.sweeps, env.start ≤ t

variable {env : Env} {own : Nat → String} {m m' : Minter}

variable {key : String} {f : Flight}

variable {k : String} {st : Nat} {o : Obs}

theorem Base.entry_of_held (h : Base env own m)
    (hf : m.flights key = some f) (hst : f.pc.held? = some st) (hm : (k, st) ∈ m.state) : k = key :=
  (h.entries _ hm).2.symm.trans (h.held key f st hf hst).2

theorem Base.update_of_entry (h : Base env own m) {x : Nat} (s : MintState)
    (hf : m.flights key = some f) (hst : f.pc.held? = some st) (hm : (k, x) ∈ m.state) (hne : k ≠ key) :
    Function.update m.cells st s x = m.cells x := by
  refine Function.update_of_ne ?_ s m.cells
  rintro rfl
  exact hne (h.entry_of_held hf hst hm)

theorem Base.held_unique (h : Base env own m) {g : Flight}
    (hf : m.flights key = some f) (hst : f.pc.held? = some st) (hg : m.flights k = some g)
    (hgt : g.pc.held? = some st) : k = key :=
  (h.held k g st hg hgt).2.symm.trans (h.held key f st hf hst).2

theorem Base.goto (h : Base env own m) {pc : Pc}
    (hf : m.flights key = some f) (hn : ∀ now, pc.now? = some now → env.start ≤ now ∧ now ≤ m.clock)
    (hh : ∀ st, pc.held? = some st → st < m.next ∧ own st = key) : Base env own (m.goto key f pc) where
  clock := h.clock
  entries := h.entries
  configured := h.configured
  sweeps := h.sweeps
  flights k g hg := by
    rcases goto_some hg with ⟨rfl, rfl⟩ | ⟨-, hg⟩
    · exact h.flights _ f hf
    · exact h.flights k g hg
  now k g now hg hnow := by
    rcases goto_some hg with ⟨rfl, rfl⟩ | ⟨-, hg⟩
    · exact hn now hnow
    · exact h.now k g now hg hnow
  held k g st hg hst := by
    rcases goto_some hg with ⟨rfl, rfl⟩ | ⟨-, hg⟩
    · exact hh st hst
    · exact h.held k g st hg hst

theorem base_mint (h : Base env own m) {c : MintCall}
    (hs : step env m (.mint c) = some (m', o)) : Base env own m' := by
  rcases step_mint hs with ⟨rfl, -⟩ | ⟨p, f, hp, -, rfl, hf⟩
  · exact h
  · -- the flight is new, or differs in its callers only
    have hcall : env.key f.call = env.key c ∧ env.cfg.profile f.call.profileName = some f.profile := by
      rcases hf with ⟨-, rfl⟩ | ⟨f₀, hf₀, rfl⟩
      · exact ⟨rfl, hp⟩
      · exact h.flights _ f₀ hf₀
    have hpc : f.pc = .start ∨ ∃ f₀, m.flights (env.key c) = some f₀ ∧ f.pc = f₀.pc := by
      rcases hf with ⟨-, rfl⟩ | ⟨f₀, hf₀, rfl⟩
      · exact .inl rfl
      · exact .inr ⟨f₀, hf₀, rfl⟩
    refine ⟨h.clock, h.entries, fun k g hg => ?_, fun k g now hg hnow => ?_, fun k g st hg hst => ?_,
      h.configured, h.sweeps⟩ <;> simp only [Function.update_apply] at hg <;> split at hg
    · rename_i hk; cases hg; rw [hk]; exact hcall
    · exact h.flights k g hg
    · cases hg
      rcases hpc with hpc | ⟨f₀, hf₀, hpc⟩ <;> rw [hpc] at hnow
      · cases hnow
      · exact h.now _ f₀ now hf₀ hnow
    · exact h.now k g now hg hnow
    · rename_i hk
      cases hg
      rcases hpc with hpc | ⟨f₀, hf₀, hpc⟩ <;> rw [hpc] at hst
      · cases hst
      · rw [hk]; exact h.held _ f₀ st hf₀ hst
    · exact h.held k g st hg hst

theorem base_lookup (h : Base env own m) {now : Int} (hf : m.flights key = some f) (hpc : f.pc = .sampled now) :
    ∃ own', Base env own' ((m.stateFor key f.call.profileName).1.goto key f
      (.found now (m.stateFor key f.call.profileName).2)) := by
  have hnow := h.now key f now hf (by rw [hpc]; rfl)
  rcases stateFor_cases m key f.call.profileName with ⟨st, hm, e⟩ | ⟨hn, e⟩ <;> rw [e]
  · refine ⟨own, h.goto hf (by rintro _ ⟨⟩; exact hnow) ?_⟩
    rintro _ ⟨⟩
    exact h.entries _ hm
  · have hlt : ∀ {st}, st < m.next → Function.update own m.next key st = own st := fun hst =>
      Function.update_of_ne (by omega) _ _
    have hb : Base env (Function.update own m.next key) { m with
        state := m.state.insert (key, m.next) hn
        cells := Function.update m.cells m.next (.new f.call.profileName)
        next := m.next + 1 } := by
      refine ⟨h.clock, fun e he => ?_, h.flights, h.now, fun k g st hg hst => ?_, fun st hst => ?_, h.sweeps⟩
      · rcases (Table.mem_insert hn).mp he with rfl | he
        · exact ⟨Nat.lt_succ_self _, Function.update_self _ _ _⟩
        · have := h.entries e he
          exact ⟨Nat.lt_succ_of_lt this.1, (hlt this.1).trans this.2⟩
      · have := h.held k g st hg hst
        exact ⟨Nat.lt_succ_of_lt this.1, (hlt this.1).trans this.2⟩
      · simp only [Function.update_apply]
        split
        · exact ⟨f.profile, (h.flights key f hf).2⟩
        · exact h.configured st (by simp only at hst; omega)
    refine ⟨_, hb.goto hf (by rintro _ ⟨⟩; exact hnow) ?_⟩
    rintro _ ⟨⟩
    exact ⟨Nat.lt_succ_self _, Function.update_self _ _ _⟩

theorem base_step {a : Act} (h : Base env own m) (hs : step env m a = some (m', o)) :
    ∃ own', Base env own' m' := by
  cases a with
  | tick d =>
    obtain ⟨rfl, -⟩ := step_tick hs
    refine ⟨own, ⟨?_, h.entries, h.flights, fun k f now hf hn => ?_, h.held, h.configured, h.sweeps⟩⟩
    · have := h.clock
      simp only
      omega
    · have := h.now k f now hf hn
      simp only
      omega
  | mint c => exact ⟨own, base_mint h hs⟩
  | clock key =>
    obtain ⟨f, hf, -, rfl, -⟩ := step_clock hs
    refine ⟨own, h.goto hf ?_ (by rintro _ ⟨⟩)⟩
    rintro _ ⟨⟩
    exact ⟨h.clock, le_rfl⟩
  | lookup key =>
    obtain ⟨f, now, hf, hpc, -, rfl⟩ := step_lookup hs
    exact base_lookup h hf hpc
  | gate key =>
    obtain ⟨f, now, st, hf, hpc, -, rfl⟩ := step_gate hs
    refine ⟨own, h.goto hf (fun n hn => ?_) fun x hx => ?_⟩
    · rw [afterGate_now] at hn
      cases hn
      exact h.now key f now hf (by rw [hpc]; rfl)
    · rw [afterGate_held hx]
      exact h.held key f st hf (by rw [hpc]; rfl)
  | limit key allow =>
    obtain ⟨f, now, st, cached, hf, hpc, ⟨-, rfl, -⟩ | ⟨-, -, rfl⟩⟩ := step_limit hs
    · refine ⟨own, h.goto hf ?_ ?_⟩ <;> rintro _ ⟨⟩
      · exact h.now key f now hf (by rw [hpc]; rfl)
      · exact h.held key f st hf (by rw [hpc]; rfl)
    · refine ⟨own, h.goto hf ?_ (by rintro _ ⟨⟩)⟩
      rintro _ ⟨⟩
      exact h.now key f now hf (by rw [hpc]; rfl)
  | answer key up draw =>
    obtain ⟨f, now, st, cached, resp, hf, hpc, -, -, rfl⟩ := step_answer hs
    have hb : Base env own { m with
        cells := Function.update m.cells st (f.afterGrant (m.cells st) now cached resp draw).1 } := by
      refine ⟨h.clock, h.entries, h.flights, h.now, h.held, fun x hx => ?_, h.sweeps⟩
      simp only [Function.update_apply]
      split
      · rename_i hxs; rw [afterGrant_profileName, ← hxs]; exact h.configured x hx
      · exact h.configured x hx
    refine ⟨own, hb.goto hf ?_ (by rintro _ ⟨⟩)⟩
    rintro _ ⟨⟩
    exact h.now key f now hf (by rw [hpc]; rfl)
  | finish key =>
    obtain ⟨f, now, cached, out, hf, -, rfl, -⟩ := step_finish hs
    refine ⟨own, ⟨h.clock, h.entries, fun k g hg => ?_, fun k g n hg hn => ?_, fun k g st hg hst => ?_,
      h.configured, h.sweeps⟩⟩ <;> simp only [Function.update_apply] at hg <;> split at hg <;> try cases hg
    · exact h.flights k g hg
    · exact h.now k g n hg hn
    · exact h.held k g st hg hst
  | sweepClock =>
    obtain ⟨rfl, -⟩ := step_sweepClock hs
    refine ⟨own, ⟨h.clock, h.entries, h.flights, h.now, h.held, h.configured, fun t ht => ?_⟩⟩
    rcases List.mem_cons.mp ht with rfl | ht
    · exact h.clock
    · exact h.sweeps t ht
  | sweep now =>
    obtain ⟨-, -, rfl⟩ := step_sweep hs
    refine ⟨own, ⟨h.clock, fun e he => h.entries e (Table.mem_deleteWhere.mp he).1, h.flights, h.now,
      h.held, h.configured, fun t ht => h.sweeps t (List.mem_of_mem_erase ht)⟩⟩

theorem base_run {C : List (Act × Obs) → Minter → Act → Prop} {tr : List (Act × Obs)}
    (h : (system env).RunIf C tr m) : ∃ own, Base env own m := by
  refine System.RunIf.inv (I := fun _ m => ∃ own, Base env own m) ⟨fun _ => "", ?_⟩ ?_ h
  · refine ⟨le_rfl, ?_, ?_, ?_, ?_, ?_, ?_⟩
    · intro e he; exact absurd he (Table.not_mem_empty e)
    · rintro key f ⟨⟩
    · rintro key f now ⟨⟩
    · rintro key f st ⟨⟩
    · intro st hst; exact absurd hst (Nat.not_lt_zero st)
    · rintro t ⟨⟩
  · rintro tr s a s' o ⟨own, hb⟩ - hs
    exact base_step hb hs

/-! ## A flight's own steps, and the others' -/

def sampleEnv : Env := ⟨sampleLib, sampleConfig [[112]] (by decide) (by decide) (by decide), 1, by decide⟩

def sampleCall : MintCall := ⟨[112], [7], [1]⟩

def sampleKey : String := sampleEnv.key sampleCall

def sampleGrant (now : Int) : Grant := ⟨sampleKey, sampleCall, sampleProfile.withDefaults, now⟩

/-- `Mint`, up to the start of its grant. -/
def startGrant : List Act :=
  [.mint sampleCall, .clock sampleKey, .lookup sampleKey, .gate sampleKey, .limit sampleKey true]

def failGrant : List Act := [.answer sampleKey (.noResponse "timeout") 0, .finish sampleKey]

def answerGrant (body : Bytes) : List Act :=
  [.answer sampleKey (.reply ⟨200, "", body⟩) 0, .finish sampleKey]

def sampleRun (as : List Act) : List (Act × Obs) × Minter :=
  ((system sampleEnv).exec as).getD ([], (system sampleEnv).init)

end Csar.Proof.TokenMint
