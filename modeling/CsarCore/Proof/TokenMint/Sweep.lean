import CsarCore.Proof.TokenMint.Pacing
import Mathlib.Data.List.Perm.Subperm

/-!
# What `Sweep` reclaims

An entry has the clock value of a grant of its key as its `lastMintAt`, or none and no
token (`Accounted`). `Sweep` keeps those without one, so it reclaims what is idle
exactly if none of them is (`sweep_reclaims_iff`).
-/

namespace Csar.Proof.TokenMint

open Impl.TokenMint Spec.TokenMint

variable {env : Env} {own : Nat → String} {m m' : Minter} {tr : History} {o : Obs} {key : String} {f : Flight}

theorem started_cons (e : Act × Obs) {t : Int} (h : Started tr key t) : Started (e :: tr) key t := by
  obtain ⟨g, hg, hkey, hnow⟩ := h
  exact ⟨g, mem_grants_cons e hg, hkey, hnow⟩

/-- What the cells say about the grants of a history. -/
structure Accounted (env : Env) (tr : History) (m : Minter) : Prop where
  granted : ∀ k st, (k, st) ∈ m.state → (m.cells st).lastMintAt ≠ 0 → Started tr k (m.cells st).lastMintAt
  granting : ∀ k f now st c, m.flights k = some f → f.pc = .granting now st c → Started tr k now
  empty : ∀ st, (m.cells st).lastMintAt = 0 → (m.cells st).result = none
  named : ∀ k st, (k, st) ∈ m.state → ∃ c, env.key c = k ∧ c.profileName = (m.cells st).profileName

theorem Accounted.quiet (h : Accounted env tr m) (e : Act × Obs) (hcells : m'.cells = m.cells)
    (hstate : ∀ x, x ∈ m'.state → x ∈ m.state)
    (hflights : ∀ k f now st c, m'.flights k = some f → f.pc = .granting now st c →
      ∃ f₀, m.flights k = some f₀ ∧ f₀.pc = .granting now st c) : Accounted env (e :: tr) m' := by
  refine ⟨fun k st hst hlast => ?_, fun k f now st c hf hpc => ?_, fun st hlast => ?_, fun k st hst => ?_⟩
  · rw [hcells] at hlast ⊢
    exact started_cons e (h.granted k st (hstate _ hst) hlast)
  · obtain ⟨f₀, hf₀, hpc₀⟩ := hflights k f now st c hf hpc
    exact started_cons e (h.granting k f₀ now st c hf₀ hpc₀)
  · rw [hcells] at hlast ⊢
    exact h.empty st hlast
  · rw [hcells]
    exact h.named k st (hstate _ hst)

theorem Accounted.goto (h : Accounted env tr m) (e : Act × Obs) {pc : Pc} (hpc : ∀ now st c, pc ≠ .granting now st c) :
    Accounted env (e :: tr) (m.goto key f pc) := by
  refine h.quiet e rfl (fun _ hx => hx) fun k g now st c hg hgpc => ?_
  rcases goto_some hg with ⟨rfl, rfl⟩ | ⟨-, hg⟩
  · exact absurd hgpc (hpc now st c)
  · exact ⟨g, hg, hgpc⟩

theorem accounted_mint (h : Accounted env tr m) {c : MintCall} (hs : step env m (.mint c) = some (m', o)) :
    Accounted env ((.mint c, o) :: tr) m' := by
  rcases step_mint hs with ⟨rfl, -⟩ | ⟨p, f, -, -, rfl, hf⟩
  · exact h.quiet _ rfl (fun _ hx => hx) fun k f _ _ _ hf hpc => ⟨f, hf, hpc⟩
  · refine h.quiet _ rfl (fun _ hx => hx) fun k g now st cached hg hpc => ?_
    simp only [Function.update_apply] at hg
    split at hg
    · rename_i hk
      cases hg
      rcases hf with ⟨-, rfl⟩ | ⟨f₀, hf₀, rfl⟩
      · cases hpc
      · exact ⟨f₀, hk ▸ hf₀, hpc⟩
    · exact ⟨g, hg, hpc⟩

theorem accounted_lookup (h : Accounted env tr m) (hb : Base env own m) (hs : step env m (.lookup key) = some (m', o)) :
    Accounted env ((.lookup key, o) :: tr) m' := by
  obtain ⟨f, now, hf, hpc, -, rfl⟩ := step_lookup hs
  rcases stateFor_cases m key f.call.profileName with ⟨st, hm, e⟩ | ⟨hn, e⟩
  · rw [e]
    exact h.goto _ (by simp)
  · rw [e]
    have hnew : Accounted env tr { m with
        state := m.state.insert (key, m.next) hn
        cells := Function.update m.cells m.next (.new f.call.profileName)
        next := m.next + 1 } := by
      have hold : ∀ {x}, x ∈ m.state →
          Function.update m.cells m.next (.new f.call.profileName) x.2 = m.cells x.2 := fun hx =>
        Function.update_of_ne (Nat.ne_of_lt (hb.entries _ hx).1) _ _
      refine ⟨fun k st hst hlast => ?_, h.granting, fun st hlast => ?_, fun k st hst => ?_⟩
      · rcases (Table.mem_insert hn).mp hst with heq | hst
        · cases heq
          simp only [Function.update_self] at hlast
          exact absurd rfl hlast
        · simp only [hold hst] at hlast ⊢
          exact h.granted k st hst hlast
      · simp only [Function.update_apply] at hlast ⊢
        by_cases hnext : st = m.next
        · rw [if_pos hnext]
          rfl
        · rw [if_neg hnext] at hlast ⊢
          exact h.empty st hlast
      · rcases (Table.mem_insert hn).mp hst with heq | hst
        · cases heq
          simp only [Function.update_self]
          exact ⟨f.call, (hb.flights key f hf).1, rfl⟩
        · simp only [hold hst]
          exact h.named k st hst
    exact hnew.goto _ (by simp)

theorem accounted_limit (h : Accounted env tr m) {allow : Bool} (hs : step env m (.limit key allow) = some (m', o)) :
    Accounted env ((.limit key allow, o) :: tr) m' := by
  obtain ⟨f, now, st, cached, hf, hpc, ⟨-, rfl, rfl⟩ | ⟨-, rfl, rfl⟩⟩ := step_limit hs
  · refine ⟨fun k st hst hlast => started_cons _ (h.granted k st hst hlast), fun k g n x c hg hgpc => ?_, h.empty, h.named⟩
    rcases goto_some hg with ⟨rfl, rfl⟩ | ⟨-, hg⟩
    · cases hgpc
      exact ⟨_, List.mem_cons_self, rfl, rfl⟩
    · exact started_cons _ (h.granting k g n x c hg hgpc)
  · exact h.goto _ (by simp)

theorem accounted_answer (h : Accounted env tr m) (hb : Base env own m) {up : Upstream} {draw : Nat}
    (hs : step env m (.answer key up draw) = some (m', o)) : Accounted env ((.answer key up draw, o) :: tr) m' := by
  obtain ⟨f, now, st, cached, resp, hf, hpc, -, -, rfl⟩ := step_answer hs
  have hstarted : Started tr key now := h.granting key f now st cached hf hpc
  have hheld : f.pc.held? = some st := by rw [hpc]; rfl
  have hpos : now ≠ 0 := by
    have hstart := (hb.now key f now hf (by rw [hpc]; rfl)).1
    have hzero := env.start_pos
    omega
  have hlast := afterGrant_lastMintAt f (m.cells st) now cached resp draw
  have hcells : Accounted env tr { m with
      cells := Function.update m.cells st (f.afterGrant (m.cells st) now cached resp draw).1 } := by
    refine ⟨fun k x hx hne => ?_, h.granting, fun x hx => ?_, fun k x hx => ?_⟩
    · by_cases hxs : x = st
      · subst hxs
        simp only [Function.update_self, hlast]
        exact hb.entry_of_held hf hheld hx ▸ hstarted
      · simp only [Function.update_of_ne hxs] at hne ⊢
        exact h.granted k x hx hne
    · by_cases hxs : x = st
      · subst hxs
        simp only [Function.update_self, hlast] at hx
        exact absurd hx hpos
      · simp only [Function.update_of_ne hxs] at hx ⊢
        exact h.empty x hx
    · by_cases hxs : x = st
      · subst hxs
        simp only [Function.update_self, afterGrant_profileName]
        exact h.named k x hx
      · simp only [Function.update_of_ne hxs]
        exact h.named k x hx
  exact hcells.goto _ (by simp)

theorem accounted_step {a : Act} (h : Accounted env tr m) (hb : Base env own m) (hs : step env m a = some (m', o)) :
    Accounted env ((a, o) :: tr) m' := by
  cases a with
  | tick d =>
    obtain ⟨rfl, -⟩ := step_tick hs
    exact h.quiet _ rfl (fun _ hx => hx) fun k f _ _ _ hf hpc => ⟨f, hf, hpc⟩
  | mint c => exact accounted_mint h hs
  | clock key =>
    obtain ⟨f, -, -, rfl, -⟩ := step_clock hs
    exact h.goto _ (by simp)
  | lookup key => exact accounted_lookup h hb hs
  | gate key =>
    obtain ⟨f, now, st, -, -, -, rfl⟩ := step_gate hs
    exact h.goto _ fun n x c => afterGate_ne_granting f _ now n st x c
  | limit key allow => exact accounted_limit h hs
  | answer key up draw => exact accounted_answer h hb hs
  | finish key =>
    obtain ⟨f, now, c, out, -, -, rfl, -⟩ := step_finish hs
    refine h.quiet _ rfl (fun _ hx => hx) fun k g n x c hg hpc => ?_
    simp only [Function.update_apply] at hg
    split at hg
    · cases hg
    · exact ⟨g, hg, hpc⟩
  | sweepClock =>
    obtain ⟨rfl, -⟩ := step_sweepClock hs
    exact h.quiet _ rfl (fun _ hx => hx) fun k f _ _ _ hf hpc => ⟨f, hf, hpc⟩
  | sweep now =>
    obtain ⟨-, -, rfl⟩ := step_sweep hs
    exact h.quiet _ rfl (fun _ hx => (Table.mem_deleteWhere.mp hx).1) fun k f _ _ _ hf hpc => ⟨f, hf, hpc⟩

theorem accounted_run (h : (system env).Run tr m) : Accounted env tr m := by
  refine (System.RunIf.inv (I := fun tr m => (∃ own, Base env own m) ∧ Accounted env tr m)
    ⟨base_run (C := fun _ _ _ => True) .init, ?_⟩ ?_ h).2
  · refine ⟨?_, ?_, fun _ _ => rfl, ?_⟩
    · intro k st hk
      exact absurd hk (Table.not_mem_empty _)
    · rintro k f now st c ⟨⟩
    · intro k st hk
      exact absurd hk (Table.not_mem_empty _)
  · rintro tr m a m' o ⟨⟨own, hb⟩, ha⟩ - hs
    exact ⟨base_step hb hs, accounted_step ha hb hs⟩

/-! ## Sweeps -/

theorem not_dropped_iff {st : MintState} {cfg : Config} {p : Profile} (hp : cfg.profile st.profileName = some p)
    (hpos : 0 < p.idleTTL) (hmax : p.idleTTL ≤ maxInt64) {now : Int} :
    st.dropped cfg now = false ↔ st.lastMintAt = 0 ∨ now - st.lastMintAt < p.idleTTL ∨
      ∃ r, st.result = some r ∧ r.usable now = true := by
  have hsub : timeSub now st.lastMintAt < p.idleTTL ↔ now - st.lastMintAt < p.idleTTL := by
    rw [timeSub, minInt64]
    omega
  have hany : st.result.any (fun r => r.usable now) = true ↔ ∃ r, st.result = some r ∧ r.usable now = true := by
    rw [Option.any_eq_true]
  unfold MintState.dropped
  rw [hp]
  simp only [Bool.and_eq_false_iff, Bool.not_eq_false', decide_eq_true_eq, hsub, hany, or_assoc]

theorem reclaimed_entries (hb : Base env own m) (ha : Accounted env tr m)
    (hrange : ∀ name p, env.cfg.profile name = some p → p.idleTTL ≤ maxInt64) {now : Int}
    (hnew : NewOnesActive env tr now m) {st : Nat} (hst : (key, st) ∈ m.state)
    (hkept : (m.cells st).dropped env.cfg.toConfig now = false) :
    ∃ p, env.cfg.profile (m.cells st).profileName = some p ∧
      (ActiveWithin env tr key now p.idleTTL ∨ ∃ r, (m.cells st).result = some r ∧ r.usable now = true) := by
  obtain ⟨p, hp⟩ := hb.configured st (hb.entries _ hst).1
  refine ⟨p, hp, ?_⟩
  have hpos := (settled_of_valid env.cfg hp).idleTTL
  rcases (not_dropped_iff hp hpos (hrange _ p hp)).mp hkept with hzero | hrecent | hlive
  · exact .inl (hnew key st p hst hzero hp)
  · by_cases hzero : (m.cells st).lastMintAt = 0
    · exact .inl (hnew key st p hst hzero hp)
    · exact .inl ⟨_, .inr (ha.granted key st hst hzero), hrecent⟩
  · exact .inr hlive

/-- A `Sweep` leaves only entries of active credentials and of usable tokens exactly if every entry
without an answered grant is of an active credential. -/
theorem sweep_reclaims_iff (env : Env) (hrange : ∀ name p, env.cfg.profile name = some p → p.idleTTL ≤ maxInt64)
    (tr : History) (m m' : Minter) (h : (system env).Run tr m) (now : Int) (o : Obs)
    (hs : step env m (.sweep now) = some (m', o)) : Reclaimed env tr now m' ↔ NewOnesActive env tr now m := by
  obtain ⟨own, hb⟩ := base_run h
  have ha := accounted_run h
  obtain ⟨-, -, rfl⟩ := step_sweep hs
  constructor
  · intro hreclaimed key st p hst hzero hp
    have hpos := (settled_of_valid env.cfg hp).idleTTL
    have hkept : (m.cells st).dropped env.cfg.toConfig now = false :=
      (not_dropped_iff hp hpos (hrange _ p hp)).mpr (.inl hzero)
    obtain ⟨p', hp', hactive | ⟨r, hr, -⟩⟩ := hreclaimed.entries key st (Table.mem_deleteWhere.mpr ⟨hst, hkept⟩)
    · cases hp.symm.trans hp'
      exact hactive
    · cases (ha.empty st hzero).symm.trans hr
  · intro hnew
    have hentries : ∀ key st, (key, st) ∈ m.state.deleteWhere (fun e => (m.cells e.2).dropped env.cfg.toConfig now) →
        ∃ p, env.cfg.profile (m.cells st).profileName = some p ∧
          (ActiveWithin env tr key now p.idleTTL ∨ ∃ r, (m.cells st).result = some r ∧ r.usable now = true) := by
      intro key st hst
      obtain ⟨hst, hkept⟩ := Table.mem_deleteWhere.mp hst
      exact reclaimed_entries hb ha hrange hnew hst hkept
    refine ⟨hentries, fun keys hkeys => ?_⟩
    -- the keys of the table are different, and each of them is in the list
    generalize htable : m.state.deleteWhere (fun e => (m.cells e.2).dropped env.cfg.toConfig now) = t at hentries hkeys ⊢
    have hsub : t.rows.map Prod.fst ⊆ keys := by
      intro key hkey
      obtain ⟨⟨k, st⟩, hrow, rfl⟩ := List.mem_map.mp hkey
      obtain ⟨p, hp, hactive | ⟨r, hr, husable⟩⟩ := hentries k st hrow
      · obtain ⟨c, hc, hname⟩ := ha.named k st (Table.mem_deleteWhere.mp (htable ▸ hrow)).1
        exact hkeys k (.inl ⟨c, p, hc, hname ▸ hp, hactive⟩)
      · exact hkeys k (.inr ⟨r, ⟨st, hrow, hr⟩, husable⟩)
    have hlen := (List.subperm_of_subset t.pk hsub).length_le
    rwa [List.length_map] at hlen

/-! ## A credential that was idle, and one that the rate limiter refused -/

theorem sampleEnv_range (name : Bytes) (p : Profile) (h : sampleEnv.cfg.profile name = some p) : p.idleTTL ≤ maxInt64 := by
  obtain ⟨r, hr, rfl⟩ := Option.map_eq_some_iff.mp h
  have hrow : r ∈ [([112], sampleProfile.withDefaults)] := (Table.find?_eq_some.mp hr).1
  rw [List.mem_singleton.mp hrow]
  decide

theorem sweep_reclaims_idle :
    ∃ m', step sampleEnv (sampleRun idleRun).2 (.sweep 5400000000001) = some (m', .swept [sampleKey]) ∧
      Reclaimed sampleEnv (sampleRun idleRun).1 5400000000001 m' := by
  refine ⟨_, rfl, ?_⟩
  have hrun : (system sampleEnv).Run (sampleRun idleRun).1 (sampleRun idleRun).2 :=
    System.run_of_exec (system sampleEnv) idleRun rfl
  refine (sweep_reclaims_iff sampleEnv sampleEnv_range _ _ _ hrun 5400000000001 _ rfl).mpr ?_
  intro key st p hst hzero
  have hrow : (key, st) ∈ [(sampleKey, 0)] := hst
  obtain ⟨rfl, rfl⟩ := Prod.mk.inj (List.mem_singleton.mp hrow)
  exact absurd hzero (by decide)

def mintTimes (env : Env) : History → List Int
  | [] => []
  | (.mint _, _) :: tr => (env.start + ticks tr) :: mintTimes env tr
  | _ :: tr => mintTimes env tr

theorem mem_mintTimes {t : Int} (h : Presented env tr key t) : t ∈ mintTimes env tr := by
  obtain ⟨post, c, o, pre, rfl, -, rfl⟩ := h
  induction post with
  | nil => exact List.mem_cons_self
  | cons e post ih =>
    obtain ⟨a, o'⟩ := e
    cases a with
    | mint c' => exact List.mem_cons_of_mem _ ih
    | _ => exact ih

/-- The rate limiter refuses a `Mint`, and `IdleTTL` later a `Sweep` reads the clock. -/
def refusedRun : List Act :=
  [.mint sampleCall, .clock sampleKey, .lookup sampleKey, .gate sampleKey, .limit sampleKey false, .finish sampleKey,
    .tick 5400000000000, .sweepClock]

/-- The entry of a refused `Mint` is not reclaimed, however long ago that was. -/
theorem refused_not_reclaimed :
    ∃ m', (system sampleEnv).Run (sampleRun refusedRun).1 (sampleRun refusedRun).2 ∧
      step sampleEnv (sampleRun refusedRun).2 (.sweep 5400000000001) = some (m', .swept []) ∧
      (sampleKey, 0) ∈ m'.state ∧ ¬ Reclaimed sampleEnv (sampleRun refusedRun).1 5400000000001 m' := by
  have hrun : (system sampleEnv).Run (sampleRun refusedRun).1 (sampleRun refusedRun).2 :=
    System.run_of_exec (system sampleEnv) refusedRun rfl
  have hrow : (sampleKey, 0) ∈ (sampleRun (refusedRun ++ [.sweep 5400000000001])).2.state := List.mem_cons_self
  refine ⟨(sampleRun (refusedRun ++ [.sweep 5400000000001])).2, hrun, rfl, hrow, fun hreclaimed => ?_⟩
  obtain ⟨p, hp, ⟨t, hpresented | ⟨g, hg, -⟩, hlt⟩ | ⟨r, hr, -⟩⟩ := hreclaimed.entries sampleKey 0 hrow
  · have hmem : t ∈ [(1 : Int)] := mem_mintTimes hpresented
    have hprofile : some sampleProfile.withDefaults = some p := hp
    cases hprofile
    rw [List.mem_singleton.mp hmem] at hlt
    exact absurd hlt (by decide)
  · cases hg
  · cases hr

end Csar.Proof.TokenMint
