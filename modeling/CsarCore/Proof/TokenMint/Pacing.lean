import CsarCore.Proof.TokenMint.Minter
import CsarCore.Spec.TokenMint

/-!
# The minter: pacing

The gate compares a clock value with `lastMintAt` and `nextAttemptAt` of a cell. The
invariant (`Paced`): the clock value of every earlier grant and failure of a key is in
the cell that the map has for it, or far enough in the past. Only `Sweep` can break it,
so `mint_pacing` is about runs in which `Sweep` is patient.
-/

namespace Csar.Proof.TokenMint

open Impl.TokenMint Spec.TokenMint

variable {env : Env} {own : Nat → String} {m m' : Minter} {tr : History} {o : Obs} {key : String} {f : Flight}

/-! ## Horizons -/

variable {now : Int} {c : Option Result} {st : MintState}

theorem horizon_of_now (hf : m.flights key = some f) (hn : f.pc.now? = some now) : horizon m key = now := by
  simp [horizon, hf, hn]

theorem horizon_goto {pc : Pc} (hn : pc.now? = some now) (k : String) :
    horizon (m.goto key f pc) k = if k = key then now else horizon m k := by
  simp only [horizon, goto_flights, goto_clock]
  split
  · simp [hn]
  · rfl

theorem horizon_goto_same (pc : Pc) (hf : m.flights key = some f) (hn : f.pc.now? = some now)
    (hn' : pc.now? = some now) (k : String) : horizon (m.goto key f pc) k = horizon m k := by
  rw [horizon_goto hn']
  split
  · rename_i hk; rw [hk, horizon_of_now hf hn]
  · rfl

theorem Base.start_le_horizon (h : Base env own m) (key : String) : env.start ≤ horizon m key := by
  unfold horizon
  rcases hf : m.flights key with _ | f
  · exact h.clock
  · rcases hn : f.pc.now? with _ | now
    · simpa [hn] using h.clock
    · simpa [hn] using (h.now key f now hf hn).1

/-! ## The invariant -/

/-- A grant at `now` is not too early for one to come: it is in a cell, or under way, or `interval` ago
at the horizon. -/
def Elapsed (m : Minter) (key : String) (now interval : Int) : Prop :=
  (∃ st, (key, st) ∈ m.state ∧ now ≤ (m.cells st).lastMintAt) ∨
  (∃ f st c, m.flights key = some f ∧ f.pc = .granting now st c) ∨
  now + interval ≤ horizon m key

theorem Elapsed.goto {k : String} {n interval : Int} (h : Elapsed m k n interval) (pc : Pc)
    (hf : m.flights key = some f) (hn : f.pc.now? = some now) (hpc : ∀ n st c, f.pc ≠ .granting n st c)
    (hn' : pc.now? = some now) : Elapsed (m.goto key f pc) k n interval := by
  rcases h with h | ⟨g, st, c, hg, hgpc⟩ | h
  · exact .inl h
  · have hne : k ≠ key := by
      rintro rfl
      cases hf.symm.trans hg
      exact hpc n st c hgpc
    exact .inr (.inl ⟨g, st, c, by rw [goto_flights, if_neg hne]; exact hg, hgpc⟩)
  · exact .inr (.inr (by rw [horizon_goto_same pc hf hn hn']; exact h))

theorem Elapsed.answer {k : String} {n interval : Int} {st : Nat} {s : MintState}
    (h : Elapsed m k n interval) (hb : Base env own m) (pc : Pc) (hf : m.flights key = some f)
    (hpc : f.pc = .granting now st c) (hm : (key, st) ∈ m.state) (hlast : (m.cells st).lastMintAt ≤ now)
    (hs : s.lastMintAt = now) (hn' : pc.now? = some now) :
    Elapsed ({ m with cells := Function.update m.cells st s }.goto key f pc) k n interval := by
  have hn : f.pc.now? = some now := by rw [hpc]; rfl
  have hself : (Function.update m.cells st s st).lastMintAt = now := by rw [Function.update_self, hs]
  rcases h with ⟨x, hx, hle⟩ | ⟨g, x, c', hg, hgpc⟩ | h
  · by_cases e : k = key
    · subst e
      obtain rfl : x = st := congrArg Prod.snd (Table.eq_of_key hx hm rfl)
      exact .inl ⟨x, hm, (hle.trans hlast).trans hself.ge⟩
    · refine .inl ⟨x, hx, ?_⟩
      simp only [goto_cells]
      rw [hb.update_of_entry s hf (by rw [hpc]; rfl) hx e]
      exact hle
  · by_cases e : k = key
    · subst e
      cases hf.symm.trans hg
      cases hpc.symm.trans hgpc
      exact .inl ⟨st, hm, hself.ge⟩
    · exact .inr (.inl ⟨g, x, c', by rw [goto_flights, if_neg e]; exact hg, hgpc⟩)
  · refine .inr (.inr (h.trans (horizon_goto_same _ ?_ hn hn' k).ge))
    exact hf

/-- Every grant and every failure so far is accounted for. -/
structure Paced (env : Env) (tr : History) (m : Minter) : Prop where
  last : ∀ key st, (key, st) ∈ m.state → (m.cells st).lastMintAt ≤ horizon m key
  held : ∀ key f st, m.flights key = some f → f.pc.held? = some st → (key, st) ∈ m.state
  granted : ∀ g ∈ grants tr, env.key g.call = g.key ∧ env.cfg.profile g.call.profileName = some g.profile ∧
    env.start ≤ g.now ∧ Elapsed m g.key g.now g.profile.minRefreshInterval
  failed : ∀ x ∈ failures tr,
    (∃ st, (x.1, st) ∈ m.state ∧ x.2 ≤ (m.cells st).nextAttemptAt) ∨ x.2 ≤ horizon m x.1
  passed : ∀ key f now st c, m.flights key = some f → f.pc = .passed now st c →
    ∀ g ∈ grants tr, g.key = key → g.profile = f.profile →
      g.now + g.profile.minRefreshInterval ≤ now
  waited : ∀ key f now st c, m.flights key = some f → f.pc = .passed now st c ∨ f.pc = .granting now st c →
    ∀ x ∈ failures tr, x.1 = key → x.2 ≤ now

/-- A step that leaves the map and the cells alone, starts and fails no grant, and lets no flight pass
the gate. -/
theorem Paced.quiet (h : Paced env tr m) {tr' : History} (hst : m'.state = m.state)
    (hcells : m'.cells = m.cells) (hg : grants tr' = grants tr) (hf : failures tr' = failures tr)
    (hor : ∀ key, horizon m key ≤ horizon m' key)
    (held : ∀ key f st, m'.flights key = some f → f.pc.held? = some st → (key, st) ∈ m.state)
    (old : ∀ key f now st c, m'.flights key = some f → f.pc = .passed now st c ∨ f.pc = .granting now st c →
      ∃ f₀, m.flights key = some f₀ ∧ f₀.pc = f.pc ∧ f₀.profile = f.profile)
    (keep : ∀ key f now st c, m.flights key = some f → f.pc = .granting now st c →
      ∃ f', m'.flights key = some f' ∧ f'.pc = f.pc) : Paced env tr' m' where
  last k st hm := by
    rw [hcells]
    exact (h.last k st (hst ▸ hm)).trans (hor k)
  held k f st hfl hh := hst ▸ held k f st hfl hh
  granted g hgm := by
    obtain ⟨h₁, h₂, h₃, he⟩ := h.granted g (hg ▸ hgm)
    refine ⟨h₁, h₂, h₃, ?_⟩
    rcases he with ⟨st, hm, hl⟩ | ⟨f, st, c, hfl, hpc⟩ | he
    · exact .inl ⟨st, hst ▸ hm, hcells ▸ hl⟩
    · obtain ⟨f', hf', hpc'⟩ := keep _ f _ st c hfl hpc
      exact .inr (.inl ⟨f', st, c, hf', hpc'.trans hpc⟩)
    · exact .inr (.inr (he.trans (hor _)))
  failed x hx := by
    rcases h.failed x (hf ▸ hx) with ⟨st, hm, hl⟩ | he
    · exact .inl ⟨st, hst ▸ hm, hcells ▸ hl⟩
    · exact .inr (he.trans (hor _))
  passed k f now st c hfl hpc g hgm hk hp := by
    obtain ⟨f₀, hf₀, hpc₀, hp₀⟩ := old k f now st c hfl (.inl hpc)
    exact h.passed k f₀ now st c hf₀ (hpc₀.trans hpc) g (hg ▸ hgm) hk (hp.trans hp₀.symm)
  waited k f now st c hfl hpc x hx := by
    obtain ⟨f₀, hf₀, hpc₀, -⟩ := old k f now st c hfl hpc
    exact h.waited k f₀ now st c hf₀ (hpc₀ ▸ hpc) x (hf ▸ hx)

/-- A flight goes on with the clock value that it has read; it may start a grant. -/
theorem Paced.goto (h : Paced env tr m) {e : Act × Obs} {pc : Pc} (hf : m.flights key = some f)
    (hn : f.pc.now? = some now) (hpc : ∀ n st c, f.pc ≠ .granting n st c) (hn' : pc.now? = some now)
    (held : ∀ st, pc.held? = some st → (key, st) ∈ m.state)
    (hgrants : ∀ g ∈ grants (e :: tr), g ∈ grants tr ∨ g.key = key ∧
      env.key g.call = g.key ∧ env.cfg.profile g.call.profileName = some g.profile ∧ env.start ≤ g.now ∧
      ∃ st c, pc = .granting g.now st c)
    (hfail : failures (e :: tr) = failures tr)
    (hpassed : ∀ n st c, pc = .passed n st c → ∀ g ∈ grants tr, g.key = key →
      g.profile = f.profile → g.now + g.profile.minRefreshInterval ≤ n)
    (hwaited : ∀ n st c, pc = .passed n st c ∨ pc = .granting n st c →
      ∀ x ∈ failures tr, x.1 = key → x.2 ≤ n) : Paced env (e :: tr) (m.goto key f pc) := by
  have hor := horizon_goto_same pc hf hn hn'
  refine ⟨fun k x hk => ?_, fun k g x hk hx => ?_, fun g hg => ?_, fun x hx => ?_,
    fun k g n x c hk hpcg g' hg' hkey => ?_, fun k g n x c hk hpcg => ?_⟩
  · rw [hor]; exact h.last k x hk
  · rcases goto_some hk with ⟨rfl, rfl⟩ | ⟨-, hk⟩
    · exact held x hx
    · exact h.held k g x hk hx
  · rcases hgrants g hg with hg | ⟨rfl, h₁, h₂, h₃, st, c, hgo⟩
    · obtain ⟨h₁, h₂, h₃, he⟩ := h.granted g hg
      exact ⟨h₁, h₂, h₃, he.goto _ hf hn hpc hn'⟩
    · exact ⟨h₁, h₂, h₃, .inr (.inl ⟨_, st, c, goto_self _ _ _, hgo⟩)⟩
  · rw [hor]; exact h.failed x (hfail ▸ hx)
  · rcases goto_some hk with ⟨rfl, rfl⟩ | ⟨hne, hk⟩
    · rcases hgrants g' hg' with hg' | ⟨-, -, -, -, st, c', hgo⟩
      · exact hpassed n x c hpcg g' hg' hkey
      · cases hgo.symm.trans hpcg
    · rcases hgrants g' hg' with hg' | ⟨hkey', -⟩
      · exact h.passed k g n x c hk hpcg g' hg' hkey
      · exact absurd (hkey.symm.trans hkey') hne
  · rw [hfail]
    rcases goto_some hk with ⟨rfl, rfl⟩ | ⟨-, hk⟩
    · exact hwaited n x c hpcg
    · exact h.waited k g n x c hk hpcg

/-! ## The steps of a flight -/

theorem gate_pass {p : Profile} (h : st.gate p now = .pass) (hle : st.lastMintAt ≤ now) :
    st.nextAttemptAt ≤ now ∧ (st.lastMintAt ≠ 0 → st.lastMintAt + p.minRefreshInterval ≤ now) := by
  simp only [MintState.gate] at h
  split at h <;> [cases h; skip]
  split at h <;> [cases h; skip]
  rename_i hnext
  split at h <;> [cases h; skip]
  rename_i hmin
  refine ⟨by omega, fun hl => ?_⟩
  have hsub : ¬ timeSub now st.lastMintAt < p.minRefreshInterval := fun hlt => hmin ⟨hl, hlt⟩
  unfold timeSub minInt64 maxInt64 at hsub
  omega

theorem afterGate_pass {n : Int} {addr x : Nat}
    (h : f.afterGate st now addr = .passed n x c) : st.gate f.profile now = .pass ∧ n = now ∧ x = addr := by
  unfold Flight.afterGate at h
  split at h <;> cases h
  exact ⟨‹_›, rfl, rfl⟩

theorem afterGate_ne_granting (f : Flight) (st : MintState) (now n : Int) (addr x : Nat) (c : Option Result) :
    f.afterGate st now addr ≠ .granting n x c := by
  unfold Flight.afterGate
  split <;> simp

/-- At the gate every grant of the profile is `MinRefreshInterval` ago, and every backoff is over. -/
theorem Paced.at_gate (h : Paced env tr m) {st : Nat} (hf : m.flights key = some f)
    (hpc : f.pc = .found now st) (hpass : (m.cells st).gate f.profile now = .pass) :
    (∀ g ∈ grants tr, g.key = key → g.profile = f.profile →
      g.now + g.profile.minRefreshInterval ≤ now) ∧
    ∀ x ∈ failures tr, x.1 = key → x.2 ≤ now := by
  have hor : horizon m key = now := horizon_of_now hf (by rw [hpc]; rfl)
  have hm : (key, st) ∈ m.state := h.held key f st hf (by rw [hpc]; rfl)
  have hst : ∀ {x}, (key, x) ∈ m.state → x = st := fun hx => congrArg Prod.snd (Table.eq_of_key hx hm rfl)
  obtain ⟨hnext, hlast⟩ := gate_pass hpass (hor ▸ h.last key st hm)
  constructor
  · rintro g hg rfl hp
    obtain ⟨-, -, hstart, ⟨x, hx, hle⟩ | ⟨f', x, c, hf', hpc'⟩ | he⟩ := h.granted g hg
    · rw [hst hx] at hle
      have := env.start_pos
      have := hlast (by omega)
      rw [hp]
      omega
    · cases hf.symm.trans hf'
      rw [hpc] at hpc'
      cases hpc'
    · rwa [hor] at he
  · rintro x hx rfl
    rcases h.failed x hx with ⟨y, hy, hle⟩ | he
    · rw [hst hy] at hle
      omega
    · rwa [hor] at he

theorem paced_gate (h : Paced env tr m) (hs : step env m (.gate key) = some (m', o)) :
    Paced env ((.gate key, o) :: tr) m' := by
  obtain ⟨f, now, st, hf, hpc, rfl, rfl⟩ := step_gate hs
  have hn : f.pc.now? = some now := by rw [hpc]; rfl
  refine h.goto hf hn (by simp [hpc]) (afterGate_now _ _ _ _) (fun x hx => ?_) (fun _ hg => .inl hg) rfl
    (fun n x c hpcg => ?_) fun n x c hpcg => ?_
  · rw [afterGate_held hx]
    exact h.held key f st hf (by rw [hpc]; rfl)
  · obtain ⟨hpass, rfl, -⟩ := afterGate_pass hpcg
    exact (h.at_gate hf hpc hpass).1
  · obtain ⟨hpass, rfl, -⟩ := afterGate_pass (hpcg.resolve_right (afterGate_ne_granting _ _ _ _ _ _ _))
    exact (h.at_gate hf hpc hpass).2

theorem paced_limit (h : Paced env tr m) (hb : Base env own m) {allow : Bool}
    (hs : step env m (.limit key allow) = some (m', o)) : Paced env ((.limit key allow, o) :: tr) m' := by
  obtain ⟨f, now, st, cached, hf, hpc, hgo⟩ := step_limit hs
  have hn : f.pc.now? = some now := by rw [hpc]; rfl
  rcases hgo with ⟨-, rfl, rfl⟩ | ⟨-, rfl, rfl⟩
  · refine h.goto hf hn (by simp [hpc]) rfl ?_ (fun g hg => ?_) rfl (by simp) ?_
    · rintro _ ⟨⟩
      exact h.held key f st hf (by rw [hpc]; rfl)
    · rcases List.mem_cons.mp hg with rfl | hg
      · obtain ⟨hkey, hprofile⟩ := hb.flights key f hf
        exact .inr ⟨rfl, hkey, hprofile, (hb.now key f now hf hn).1, st, cached, rfl⟩
      · exact .inl hg
    · rintro n x c (hpcg | hpcg) <;> cases hpcg
      exact h.waited key f now st cached hf (.inl hpc)
  · exact h.goto hf hn (by simp [hpc]) rfl (by rintro _ ⟨⟩) (fun _ hg => .inl hg) rfl (by simp) (by simp)

theorem afterGrant_lastMintAt (f : Flight) (st : MintState) (now : Int) (cached : Option Result)
    (resp : Except GrantErr GrantResponse) (draw : Nat) :
    (f.afterGrant st now cached resp draw).1.lastMintAt = now := by
  cases resp <;> rfl

theorem mem_failures_answered {a : Act} {g : Grant} {resp : Except GrantErr GrantResponse}
    {x : String × Int} (h : x ∈ failures ((a, .answered g resp st) :: tr)) :
    x = (g.key, st.nextAttemptAt) ∨ x ∈ failures tr := by
  cases resp with
  | error e => exact List.mem_cons.mp h
  | ok r => exact .inr h

theorem paced_answer (h : Paced env tr m) (hb : Base env own m) {up : Upstream} {draw : Nat}
    (hs : step env m (.answer key up draw) = some (m', o)) :
    Paced env ((.answer key up draw, o) :: tr) m' := by
  obtain ⟨f, now, st, cached, resp, hf, hpc, -, rfl, rfl⟩ := step_answer hs
  have hn : f.pc.now? = some now := by rw [hpc]; rfl
  have hheld : f.pc.held? = some st := by rw [hpc]; rfl
  have hm : (key, st) ∈ m.state := h.held key f st hf hheld
  have hor : ∀ k, horizon ({ m with
      cells := Function.update m.cells st (f.afterGrant (m.cells st) now cached resp draw).1 }.goto key f
        (.returning now cached (f.afterGrant (m.cells st) now cached resp draw).2)) k = horizon m k :=
    horizon_goto_same _ hf hn rfl
  have hnow : horizon m key = now := horizon_of_now hf hn
  refine ⟨fun k x hk => ?_, fun k g x hk hx' => ?_, fun g hgm => ?_, fun x hxm => ?_,
    fun k g n x c hk hpcg => ?_, fun k g n x c hk hpcg y hy hyk => ?_⟩
  · rw [hor]
    simp only [goto_cells]
    by_cases e : k = key
    · subst e
      obtain rfl : x = st := congrArg Prod.snd (Table.eq_of_key hk hm rfl)
      rw [Function.update_self, afterGrant_lastMintAt, hnow]
    · rw [hb.update_of_entry _ hf hheld hk e]; exact h.last k x hk
  · rcases goto_some hk with ⟨rfl, rfl⟩ | ⟨-, hk⟩
    · cases hx'
    · exact h.held k g x hk hx'
  · obtain ⟨h₁, h₂, h₃, he⟩ := h.granted g hgm
    exact ⟨h₁, h₂, h₃, he.answer hb _ hf hpc hm (hnow ▸ h.last key st hm) (afterGrant_lastMintAt ..) rfl⟩
  · rw [hor]
    simp only [goto_cells, goto_state]
    rcases mem_failures_answered hxm with rfl | hxm
    · exact .inl ⟨st, hm, by rw [Function.update_self]⟩
    · by_cases e : x.1 = key
      · right
        rw [e, hnow]
        exact h.waited key f now st cached hf (.inr hpc) x hxm e
      · rcases h.failed x hxm with ⟨y, hy, hle⟩ | he
        · exact .inl ⟨y, hy, by rw [hb.update_of_entry _ hf hheld hy e]; exact hle⟩
        · exact .inr he
  · rcases goto_some hk with ⟨rfl, rfl⟩ | ⟨-, hk⟩
    · cases hpcg
    · exact h.passed k g n x c hk hpcg
  · rcases goto_some hk with ⟨rfl, rfl⟩ | ⟨hne, hk⟩
    · rcases hpcg with hpcg | hpcg <;> cases hpcg
    · rcases mem_failures_answered hy with rfl | hy
      · exact absurd hyk.symm hne
      · exact h.waited k g n x c hk hpcg y hy hyk

theorem Paced.alloc (h : Paced env tr m) (hb : Base env own m) {name : Bytes}
    (hn : ∀ q ∈ m.state.rows, q.1 ≠ key) : Paced env tr { m with
      state := m.state.insert (key, m.next) hn
      cells := Function.update m.cells m.next (.new name)
      next := m.next + 1 } := by
  have hcell : ∀ {k x}, (k, x) ∈ m.state →
      Function.update m.cells m.next (.new name) x = m.cells x := by
    intro k x hk
    have : x < m.next := (hb.entries _ hk).1
    exact Function.update_of_ne (by omega) _ _
  have hold : ∀ {e}, e ∈ m.state → e ∈ m.state.insert (key, m.next) hn := fun he =>
    (Table.mem_insert hn).mpr (.inr he)
  refine ⟨fun k x hk => ?_, fun k g x hk hx => hold (h.held k g x hk hx), fun g hgm => ?_, fun x hxm => ?_,
    h.passed, h.waited⟩
  · rcases (Table.mem_insert hn).mp hk with e | hk
    · cases e
      simp only [Function.update_self]
      exact env.start_pos.le.trans (hb.start_le_horizon key)
    · simp only [hcell hk]
      exact h.last k x hk
  · obtain ⟨h₁, h₂, h₃, he⟩ := h.granted g hgm
    refine ⟨h₁, h₂, h₃, ?_⟩
    rcases he with ⟨x, hx, hle⟩ | he
    · exact .inl ⟨x, hold hx, by simp only [hcell hx]; exact hle⟩
    · exact .inr he
  · rcases h.failed x hxm with ⟨y, hy, hle⟩ | he
    · exact .inl ⟨y, hold hy, by simp only [hcell hy]; exact hle⟩
    · exact .inr he

theorem paced_lookup (h : Paced env tr m) (hb : Base env own m)
    (hs : step env m (.lookup key) = some (m', o)) : Paced env ((.lookup key, o) :: tr) m' := by
  obtain ⟨f, now, hf, hpc, rfl, rfl⟩ := step_lookup hs
  have hn : f.pc.now? = some now := by rw [hpc]; rfl
  rcases stateFor_cases m key f.call.profileName with ⟨st, hm, e⟩ | ⟨hnew, e⟩ <;> rw [e]
  · refine h.goto hf hn (by simp [hpc]) rfl ?_ (fun _ hg => .inl hg) rfl (by simp) (by simp)
    rintro _ ⟨⟩
    exact hm
  · refine (h.alloc hb hnew).goto hf hn (by simp [hpc]) rfl ?_ (fun _ hg => .inl hg) rfl (by simp) (by simp)
    rintro _ ⟨⟩
    exact (Table.mem_insert hnew).mpr (.inl rfl)

/-! ## The steps around it -/

theorem paced_mint (h : Paced env tr m) {c : MintCall} (hs : step env m (.mint c) = some (m', o)) :
    Paced env ((.mint c, o) :: tr) m' := by
  rcases step_mint hs with ⟨rfl, rfl⟩ | ⟨p, f, -, rfl, rfl, hf⟩
  · exact h.quiet rfl rfl rfl rfl (fun _ => le_rfl) h.held (fun k f _ _ _ hf _ => ⟨f, hf, rfl, rfl⟩)
      fun k f _ _ _ hf _ => ⟨f, hf, rfl⟩
  · refine h.quiet rfl rfl rfl rfl (fun k => le_of_eq ?_) (fun k g st hg hst => ?_)
      (fun k g n st c hg hpc => ?_) fun k g n st c hg hpc => ?_
    · simp only [horizon, Function.update_apply]
      split
      · rename_i e
        rcases hf with ⟨hf, rfl⟩ | ⟨f₀, hf, rfl⟩ <;> rw [e, hf] <;> rfl
      · rfl
    · simp only [Function.update_apply] at hg
      split at hg
      · rename_i e
        cases hg
        rcases hf with ⟨-, rfl⟩ | ⟨f₀, hf, rfl⟩
        · cases hst
        · rw [e]; exact h.held _ f₀ st hf hst
      · exact h.held k g st hg hst
    · simp only [Function.update_apply] at hg
      split at hg
      · rename_i e
        cases hg
        rcases hf with ⟨-, rfl⟩ | ⟨f₀, hf, rfl⟩
        · rcases hpc with hpc | hpc <;> cases hpc
        · exact ⟨f₀, e ▸ hf, rfl, rfl⟩
      · exact ⟨g, hg, rfl, rfl⟩
    · simp only [Function.update_apply]
      split
      · rename_i e
        rcases hf with ⟨hf, -⟩ | ⟨f₀, hf, rfl⟩ <;> rw [e, hf] at hg <;> cases hg
        exact ⟨_, rfl, rfl⟩
      · exact ⟨g, hg, rfl⟩

theorem paced_clock (h : Paced env tr m) (hs : step env m (.clock key) = some (m', o)) :
    Paced env ((.clock key, o) :: tr) m' := by
  obtain ⟨f, hf, hpc, rfl, rfl⟩ := step_clock hs
  refine h.quiet rfl rfl rfl rfl (fun k => le_of_eq ?_) (fun k g st hg hst => ?_)
    (fun k g n st c hg hpcg => ?_) fun k g n st c hg hpcg => ?_
  · rw [horizon_goto rfl]
    split
    · rename_i e; simp [horizon, e, hf, hpc, Pc.now?]
    · rfl
  · rcases goto_some hg with ⟨rfl, rfl⟩ | ⟨-, hg⟩
    · cases hst
    · exact h.held k g st hg hst
  · rcases goto_some hg with ⟨rfl, rfl⟩ | ⟨-, hg⟩
    · rcases hpcg with hpcg | hpcg <;> cases hpcg
    · exact ⟨g, hg, rfl, rfl⟩
  · have hne : k ≠ key := by
      rintro rfl
      cases hf.symm.trans hg
      cases hpc.symm.trans hpcg
    exact ⟨g, by rw [goto_flights, if_neg hne]; exact hg, rfl⟩

theorem paced_finish (h : Paced env tr m) (hb : Base env own m) (hs : step env m (.finish key) = some (m', o)) :
    Paced env ((.finish key, o) :: tr) m' := by
  obtain ⟨f, now, cached, out, hf, hpc, rfl, rfl⟩ := step_finish hs
  refine h.quiet rfl rfl rfl rfl (fun k => ?_) (fun k g st hg hst => ?_)
    (fun k g n st c hg hpcg => ?_) fun k g n st c hg hpcg => ?_
  · by_cases e : k = key
    · -- the flight's clock value is not in the future
      have hn : f.pc.now? = some now := by rw [hpc]; rfl
      rw [e, horizon_of_now hf hn]
      simpa [horizon] using (hb.now key f now hf hn).2
    · simp [horizon, e]
  · simp only [Function.update_apply] at hg
    split at hg <;> [cases hg; exact h.held k g st hg hst]
  · simp only [Function.update_apply] at hg
    split at hg <;> [cases hg; exact ⟨g, hg, rfl, rfl⟩]
  · have hne : k ≠ key := by
      rintro rfl
      cases hf.symm.trans hg
      cases hpc.symm.trans hpcg
    exact ⟨g, by simp only [Function.update_of_ne hne]; exact hg, rfl⟩

theorem paced_sweep (h : Paced env tr m) (hp : Patient env tr m (.sweep now))
    (hs : step env m (.sweep now) = some (m', o)) : Paced env ((.sweep now, o) :: tr) m' := by
  obtain ⟨-, ⟨keys, rfl⟩, rfl⟩ := step_sweep hs
  have hold : ∀ {k x}, (k, x) ∈ m.state → (m.cells x).dropped env.cfg.toConfig now = false →
      (k, x) ∈ m.state.deleteWhere fun e => (m.cells e.2).dropped env.cfg.toConfig now := fun hk hd =>
    Table.mem_deleteWhere.mpr ⟨hk, hd⟩
  refine ⟨fun k x hk => h.last k x (Table.mem_deleteWhere.mp hk).1, fun k f x hf hx => ?_, fun g hgm => ?_,
    fun x hxm => ?_, h.passed, h.waited⟩
  · have hk := h.held k f x hf hx
    refine hold hk (Bool.eq_false_iff.mpr fun hd => ?_)
    have := (hp now rfl k x hk hd).1 f hf
    rw [hx] at this
    cases this
  · obtain ⟨h₁, h₂, h₃, he⟩ := h.granted g hgm
    refine ⟨h₁, h₂, h₃, ?_⟩
    rcases he with ⟨x, hx, hle⟩ | he
    · rcases hd : (m.cells x).dropped env.cfg.toConfig now with _ | _
      · exact .inl ⟨x, hold hx hd, hle⟩
      · have := (hp now rfl g.key x hx hd).2.2 g.call g.profile h₁ h₂
        exact .inr (.inr (le_trans (by omega) this))
    · exact .inr he
  · rcases h.failed x hxm with ⟨y, hy, hle⟩ | he
    · rcases hd : (m.cells y).dropped env.cfg.toConfig now with _ | _
      · exact .inl ⟨y, hold hy hd, hle⟩
      · exact .inr (hle.trans (hp now rfl x.1 y hy hd).2.1)
    · exact .inr he

/-! ## Runs -/

theorem paced_step {a : Act} (h : Paced env tr m) (hb : Base env own m) (hp : Patient env tr m a)
    (hs : step env m a = some (m', o)) : Paced env ((a, o) :: tr) m' := by
  cases a with
  | tick d =>
    obtain ⟨rfl, rfl⟩ := step_tick hs
    refine h.quiet rfl rfl rfl rfl (fun k => ?_) h.held (fun k f _ _ _ hf _ => ⟨f, hf, rfl, rfl⟩)
      fun k f _ _ _ hf _ => ⟨f, hf, rfl⟩
    simp only [horizon]
    rcases (m.flights k).bind fun f => f.pc.now? with _ | now <;> simp
  | mint c => exact paced_mint h hs
  | clock key => exact paced_clock h hs
  | lookup key => exact paced_lookup h hb hs
  | gate key => exact paced_gate h hs
  | limit key allow => exact paced_limit h hb hs
  | answer key up draw => exact paced_answer h hb hs
  | finish key => exact paced_finish h hb hs
  | sweepClock =>
    obtain ⟨rfl, rfl⟩ := step_sweepClock hs
    exact h.quiet rfl rfl rfl rfl (fun _ => le_rfl) h.held (fun k f _ _ _ hf _ => ⟨f, hf, rfl, rfl⟩)
      fun k f _ _ _ hf _ => ⟨f, hf, rfl⟩
  | sweep now => exact paced_sweep h hp hs

theorem paced_init : Paced env [] (system env).init := by
  refine ⟨?_, ?_, ?_, ?_, ?_, ?_⟩
  · intro k st hk; exact absurd hk (Table.not_mem_empty _)
  · rintro k f st ⟨⟩
  · rintro g ⟨⟩
  · rintro x ⟨⟩
  · rintro k f now st c ⟨⟩
  · rintro k f now st c ⟨⟩

theorem paced_run (h : (system env).RunIf (Patient env) tr m) : Paced env tr m := by
  refine (System.RunIf.inv (I := fun tr m => (∃ own, Base env own m) ∧ Paced env tr m)
    ⟨base_run (C := Patient env) .init, paced_init⟩ ?_ h).2
  rintro tr m a m' o ⟨⟨own, hb⟩, hp⟩ hc hs
  exact ⟨base_step hb hs, paced_step hp hb hc hs⟩

theorem mem_grants_cons (e : Act × Obs) {g : Grant} (h : g ∈ grants tr) : g ∈ grants (e :: tr) := by
  unfold grants
  split
  · rename_i heq
    cases heq
  · rename_i heq
    cases heq
    exact List.mem_cons_of_mem _ h
  · rename_i heq
    cases heq
    exact h

theorem mem_grants {a : Act} {g : Grant} {clock : Int} (h : (a, Obs.started g clock) ∈ tr) : g ∈ grants tr := by
  induction tr with
  | nil => cases h
  | cons e tr ih =>
    rcases List.mem_cons.mp h with rfl | h
    · exact List.mem_cons_self
    · exact mem_grants_cons e (ih h)

section Grants

variable {post pre : History} {a a₁ : Act} {g g₁ : Grant} {clock clock₁ : Int} {p : Profile}

/-- If `Sweep` is patient, the clock values that two grants' `mintOne`s have read are apart. -/
theorem read_paced (h : (system env).RunIf (Patient env) tr m)
    (htr : tr = post ++ (a, .started g clock) :: pre) (hg₁ : (a₁, .started g₁ clock₁) ∈ pre)
    (hname : g₁.call.profileName = g.call.profileName) (hid : g₁.call.clientID = g.call.clientID)
    (hprofile : env.cfg.profile g.call.profileName = some p) :
    g₁.now + p.minRefreshInterval ≤ g.now := by
  obtain ⟨s₀, s₁, hpre, -, hs⟩ := h.split htr
  obtain ⟨own, hb⟩ := base_run hpre
  have hpaced := paced_run hpre
  obtain ⟨-, -, f, st, c, hf, hpc, hcall, -⟩ := step_obs hs
  obtain ⟨hkey, hp⟩ := hb.flights _ f hf
  rw [← hcall] at hkey hp
  obtain ⟨hkey₁, hp₁, -⟩ := hpaced.granted g₁ (mem_grants hg₁)
  have hsame : g₁.key = g.key := by
    rw [← hkey₁, ← hkey, Env.key, Env.key, hname, hid]
  rw [hname, hp] at hp₁
  have hpf : g₁.profile = f.profile := (Option.some.inj hp₁).symm
  rw [hp] at hprofile
  cases hprofile
  exact hpf ▸ hpaced.passed _ f g.now st c hf hpc g₁ (mem_grants hg₁) hsame hpf

/-- If `Sweep` is patient, a grant's `mintOne` has not read the clock before the end of a backoff. -/
theorem read_after_backoff (h : (system env).RunIf (Patient env) tr m)
    (htr : tr = post ++ (a, .started g clock) :: pre) {x : String × Int} (hx : x ∈ failures pre)
    (hkey : x.1 = env.key g.call) : x.2 ≤ g.now := by
  obtain ⟨s₀, s₁, hpre, -, hs⟩ := h.split htr
  obtain ⟨own, hb⟩ := base_run hpre
  obtain ⟨-, -, f, st, c, hf, hpc, hcall, -⟩ := step_obs hs
  have hown := (hb.flights _ f hf).1
  rw [← hcall] at hown
  exact (paced_run hpre).waited _ f g.now st c hf (.inl hpc) x hx (hkey.trans hown)

/-- Where the clock does not move in between, a grant is started at the value that was read. -/
theorem started_at_read (h : (system env).RunIf (KeepsPace env) tr m)
    (htr : tr = post ++ (a, .started g clock) :: pre) : clock = g.now := by
  obtain ⟨s₀, s₁, -, hc, hs⟩ := h.split htr
  obtain ⟨rfl, rfl, f, st, c, hf, hpc, -⟩ := step_obs hs
  exact hc.2 g.key f g.now st c rfl hf hpc

end Grants

/-- If `Sweep` is patient and no grant is delayed, the clock values at which two grants for a profile
and client id are started are `MinRefreshInterval` apart, and no grant of a key is started before the
`nextAttemptAt` of any failed one. -/
theorem mint_pacing (env : Env) (tr : History) (m : Minter) (h : (system env).RunIf (KeepsPace env) tr m)
    (post pre : History) (a : Act) (g : Grant) (clock : Int)
    (htr : tr = post ++ (a, .started g clock) :: pre) :
    (∀ a₁ g₁ clock₁ p, (a₁, Obs.started g₁ clock₁) ∈ pre →
      g₁.call.profileName = g.call.profileName → g₁.call.clientID = g.call.clientID →
      env.cfg.profile g.call.profileName = some p → clock₁ + p.minRefreshInterval ≤ clock) ∧
    ∀ x ∈ failures pre, x.1 = env.key g.call → x.2 ≤ clock := by
  have hpatient := h.mono (D := Patient env) And.left
  rw [started_at_read h htr]
  refine ⟨fun a₁ g₁ clock₁ p hg₁ hname hid hprofile => ?_, fun x hx hkey => ?_⟩
  · obtain ⟨mid, old, rfl⟩ := List.append_of_mem hg₁
    have hearlier : tr = (post ++ (a, .started g clock) :: mid) ++ (a₁, .started g₁ clock₁) :: old := by
      rw [htr, List.append_assoc, List.cons_append]
    rw [started_at_read h hearlier]
    exact read_paced hpatient htr hg₁ hname hid hprofile
  · exact read_after_backoff hpatient htr hx hkey

/-! ## A run that keeps the pace, and two that do not -/

/-- `Mint`, up to where its grant is let through. -/
def passGate : List Act := [.mint sampleCall, .clock sampleKey, .lookup sampleKey, .gate sampleKey]

/-- A grant fails, and `IdleTTL` later a `Sweep` reads the clock. -/
def idleRun : List Act :=
  passGate ++ .limit sampleKey true :: failGrant ++ [.tick 5400000000000, .sweepClock]

def refreshRun : List Act := idleRun ++ [.sweep 5400000000001] ++ passGate

theorem idleRun_patient :
    Patient sampleEnv (sampleRun idleRun).1 (sampleRun idleRun).2 (.sweep 5400000000001) := by
  intro now _ key st hm _
  have hrow : (key, st) ∈ [(sampleKey, 0)] := hm
  obtain ⟨rfl, rfl⟩ := Prod.mk.inj (List.mem_singleton.mp hrow)
  refine ⟨by rintro f ⟨⟩, by decide, fun c p _ hp => ?_⟩
  obtain ⟨r, hr, rfl⟩ := Option.map_eq_some_iff.mp hp
  have hr' : r ∈ [([112], sampleProfile.withDefaults)] := (Table.find?_eq_some.mp hr).1
  rw [List.mem_singleton.mp hr']
  decide

theorem passGate_undelayed {m : Minter} {f : Flight} {st cached}
    (hf : m.flights sampleKey = some f) (hpc : f.pc = .passed m.clock st cached) :
    Undelayed m (.limit sampleKey true) := by
  rintro key f' now st' cached' ⟨⟩ hf' hpc'
  obtain rfl := Option.some.inj (hf.symm.trans hf')
  rw [hpc] at hpc'
  cases hpc'
  rfl

theorem keepsPace_of_mem {a : Act}
    (ha : a ∈ passGate ++ failGrant ++ [.tick 5400000000000, .sweepClock]) (tr : History) (m : Minter) :
    KeepsPace sampleEnv tr m a := by
  revert a
  simp [passGate, failGrant, KeepsPace, Patient, Undelayed]

theorem patient_limit (tr : History) (m : Minter) : Patient sampleEnv tr m (.limit sampleKey true) := by
  simp [Patient]

theorem sweep_undelayed (m : Minter) (now : Int) : Undelayed m (.sweep now) := by
  simp [Undelayed]

/-- The run of `as` keeps the pace. -/
def Paces (as : List Act) : Prop :=
  (system sampleEnv).RunIf (KeepsPace sampleEnv) (sampleRun as).1 (sampleRun as).2

theorem gated_paces : Paces (passGate ++ [.limit sampleKey true]) := by
  have h : Paces passGate :=
    System.RunIf.init.execFrom passGate (fun a ha => keepsPace_of_mem (by simp [ha])) rfl
  exact h.step ⟨patient_limit _ _, passGate_undelayed rfl rfl⟩ rfl

theorem idleRun_paces : Paces idleRun :=
  gated_paces.execFrom (failGrant ++ [.tick 5400000000000, .sweepClock])
    (fun a ha => keepsPace_of_mem (by simp_all)) rfl

theorem refreshRun_paces : Paces refreshRun := by
  have h : Paces (idleRun ++ [.sweep 5400000000001]) := idleRun_paces.step ⟨idleRun_patient, sweep_undelayed _ _⟩ rfl
  exact h.execFrom passGate (fun a ha => keepsPace_of_mem (by simp [ha])) rfl

theorem refreshRun_runIf :
    (system sampleEnv).RunIf (KeepsPace sampleEnv)
      ((.limit sampleKey true, .started (sampleGrant 5400000000001) 5400000000001) ::
        (sampleRun refreshRun).1) (sampleRun (refreshRun ++ [.limit sampleKey true])).2 :=
  refreshRun_paces.step ⟨patient_limit _ _, passGate_undelayed rfl rfl⟩ rfl

theorem mint_pacing_idle :
    ∃ (pre : History) (m : Minter), (system sampleEnv).RunIf (KeepsPace sampleEnv)
        ((.limit sampleKey true, .started (sampleGrant 5400000000001) 5400000000001) :: pre) m ∧
      (.limit sampleKey true, .started (sampleGrant 1) 1) ∈ pre ∧ (1 : Int) + minute ≤ 5400000000001 := by
  have hmem : (Act.limit sampleKey true, Obs.started (sampleGrant 1) 1) ∈ (sampleRun refreshRun).1 :=
    List.mem_of_getElem? (i := 9) rfl
  refine ⟨(sampleRun refreshRun).1, _, refreshRun_runIf, hmem, ?_⟩
  have h := mint_pacing sampleEnv _ _ refreshRun_runIf [] (sampleRun refreshRun).1 (.limit sampleKey true)
    (sampleGrant 5400000000001) 5400000000001 rfl
  exact h.1 _ _ _ sampleProfile.withDefaults hmem rfl rfl rfl

def sweptRun : List Act :=
  startGrant ++ failGrant ++ [.tick 5400000000000] ++ startGrant ++ [.sweepClock, .sweep 5400000000001] ++
    failGrant ++ startGrant

/-- A grant is started 59 seconds after it was let through. -/
def stalledRun : List Act :=
  passGate ++ [.tick 59000000000, .limit sampleKey true] ++ failGrant ++ [.tick 1000000000] ++ startGrant

/-- A grant that outlives its entry does not count: its failure is recorded in a state that the map has
no longer, and the next `Mint` starts a grant at once. And a grant that is started late is followed too
soon, though nothing was swept: `MinRefreshInterval` counts from the clock value that was read. -/
theorem mint_pacing_swept :
    (∃ (pre : History) (m : Minter), (system sampleEnv).Run
        ((.limit sampleKey true, .started (sampleGrant 5400000000001) 5400000000001) :: pre) m ∧
      (.limit sampleKey true, .started (sampleGrant 5400000000001) 5400000000001) ∈ pre ∧
      sampleEnv.cfg.profile sampleCall.profileName = some sampleProfile.withDefaults ∧
      sampleProfile.withDefaults.minRefreshInterval = 60 * second ∧
      (sampleEnv.key sampleCall, 5400000000001 + 30 * second) ∈ failures pre) ∧
    ∃ (pre : History) (m : Minter), (system sampleEnv).Run
        ((.limit sampleKey true, .started (sampleGrant 60000000001) 60000000001) :: pre) m ∧
      (.limit sampleKey true, .started (sampleGrant 1) 59000000001) ∈ pre := by
  have h : (system sampleEnv).Run (sampleRun sweptRun).1 (sampleRun sweptRun).2 :=
    System.run_of_exec (system sampleEnv) sweptRun rfl
  have h' : (system sampleEnv).Run (sampleRun stalledRun).1 (sampleRun stalledRun).2 :=
    System.run_of_exec (system sampleEnv) stalledRun rfl
  refine ⟨⟨(sampleRun sweptRun).1.tail, _, h, ?_, rfl, rfl, ?_⟩, (sampleRun stalledRun).1.tail, _, h', ?_⟩
  · exact List.mem_of_getElem? (i := 8) rfl
  · exact List.mem_of_getElem? (i := 0) rfl
  · exact List.mem_of_getElem? (i := 7) rfl

end Csar.Proof.TokenMint
