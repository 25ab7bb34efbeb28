import CsarCore.Proof.TokenMint.Outage
import Mathlib.Data.Rat.Floor

/-!
# The minter: lifetimes

The advertised lifetime becomes whole seconds in 64-bit nanoseconds
(`secondsToDuration`), less the haircut (`lifetimeOf_pos`, `lifetimeOf_le`) and the
margin (`marginOf_bounds`). So a result is alive when it is minted iff the lifetime
lasts (`alive_iff`); if it always does, so is every returned token (`mint_live`).
-/

namespace Csar.Proof.TokenMint

open Impl.TokenMint Spec.TokenMint

/-! ## Arithmetic -/

variable {q : ℚ} {d : Int} {lib : Lib} {body : Bytes} {resp : GrantResponse}

theorem trunc_of_nonneg (h : 0 ≤ q) : trunc q = ⌊q⌋ := by
  rw [trunc, Int.tdiv_eq_ediv_of_nonneg (Rat.num_nonneg.mpr h), Rat.floor_def']

theorem trunc_le_of_nonneg (h : 0 ≤ q) : (trunc q : ℚ) ≤ q := by
  rw [trunc_of_nonneg h]
  exact Int.floor_le q

theorem trunc_nonneg (h : 0 ≤ q) : 0 ≤ trunc q := by
  rw [trunc_of_nonneg h]
  exact Int.floor_nonneg.mpr h

theorem trunc_nonpos (h : q ≤ 0) : trunc q ≤ 0 := by
  have hneg : trunc q = - trunc (-q) := by
    simp only [trunc, Rat.neg_num, Rat.neg_den, Int.neg_tdiv, neg_neg]
  have := trunc_nonneg (neg_nonneg.mpr h)
  omega

/-! ## From the advertised lifetime to the boundaries -/

variable {p : Profile}

theorem lifetimeOf_le (hp : Settled p) (hd : 0 < d) : lifetimeOf p d ≤ d := by
  simp only [lifetimeOf]
  split
  · exact le_rfl
  · have hq : (0 : ℚ) < d := by exact_mod_cast hd
    have h₁ : (trunc (d * p.expiresInHaircut) : ℚ) ≤ d * p.expiresInHaircut :=
      trunc_le_of_nonneg (mul_nonneg hq.le hp.haircut_pos.le)
    have h₂ : (d : ℚ) * p.expiresInHaircut ≤ d := mul_le_of_le_one_right hq.le hp.haircut_le
    exact_mod_cast h₁.trans h₂

theorem lifetimeOf_pos (hd : 0 < d) : 0 < lifetimeOf p d := by
  simp only [lifetimeOf]
  split <;> omega

theorem lifetimeOf_of_nonpos (hp : Settled p) (hd : d ≤ 0) : lifetimeOf p d = d := by
  have hq : (d : ℚ) ≤ 0 := by exact_mod_cast hd
  have : trunc (d * p.expiresInHaircut) ≤ 0 :=
    trunc_nonpos (mul_nonpos_of_nonpos_of_nonneg hq hp.haircut_pos.le)
  simp only [lifetimeOf]
  exact if_pos this

theorem marginOf_bounds (hp : Settled p) (hd : 0 < d) : 0 ≤ marginOf p d ∧ marginOf p d ≤ d := by
  have := hp.refreshMargin
  simp only [marginOf]
  split
  · rw [Int.tdiv_eq_ediv_of_nonneg hd.le]
    omega
  · omega

theorem parse_expiresIn (h : parseGrantResponse lib p body = .ok resp) :
    (advertised lib p body = none ∧ resp.expiresIn = p.defaultExpiresIn) ∨
    ∃ secs, advertised lib p body = some secs ∧ secs.nonPositive = false ∧
      resp.expiresIn = secondsToDuration lib secs := by
  unfold parseGrantResponse at h
  unfold advertised
  rcases hdoc : lib.unmarshal body with _ | doc <;> rw [hdoc] at h
  · cases h
  · simp only [ite_error_eq_ok] at h
    obtain ⟨-, -, h⟩ := h
    simp only [Option.bind_some]
    rcases hnum : lookupNumber lib doc p.expiresInPath with _ | secs <;> simp only [hnum] at h
    · cases h
      exact .inl ⟨rfl, rfl⟩
    · obtain ⟨hpos, h⟩ := ite_error_eq_ok.mp h
      cases h
      exact .inr ⟨secs, rfl, by simpa using hpos, rfl⟩

theorem secondsToDuration_within {secs : F64} (hpos : secs.nonPositive = false)
    (hd : d ≤ secondsToDuration lib secs) : Within p d (some secs) := by
  cases secs with
  | inf neg => trivial
  | nan => trivial
  | fin q =>
    have hq : 0 < q := by simpa [F64.nonPositive] using hpos
    have hd' : (d : ℚ) ≤ secondsToDuration lib (.fin q) := by exact_mod_cast hd
    refine hd'.trans ?_
    have h0 := trunc_nonneg hq.le
    have hle := trunc_le_of_nonneg hq.le
    simp only [secondsToDuration, toInt64]
    split
    · have hw : wrap64 (trunc q * second) ≤ trunc q * second := wrap64_le (by unfold second; omega)
      calc (wrap64 (trunc q * second) : ℚ) ≤ (trunc q * second : Int) := by exact_mod_cast hw
        _ = trunc q * 1000000000 := by simp [second]
        _ ≤ q * 1000000000 := by gcongr
    · -- the conversion is out of range, but then the seconds are more than any duration
      rename_i hout
      have hbig : maxInt64 ≤ trunc q := by unfold minInt64 maxInt64 at *; omega
      have hw := wrap64_le_max (lib.float64ToInt64 (.fin q) * second)
      calc (wrap64 (lib.float64ToInt64 (.fin q) * second) : ℚ) ≤ maxInt64 := by exact_mod_cast hw
        _ ≤ trunc q := by exact_mod_cast hbig
        _ ≤ q := hle
        _ ≤ q * 1000000000 := by linarith

theorem lasts_iff (hp : Settled p) (h : parseGrantResponse lib p body = .ok resp) :
    Lasts lib (advertised lib p body) ↔ 0 < resp.expiresIn := by
  rcases parse_expiresIn h with ⟨hnone, hd⟩ | ⟨secs, hsome, -, hd⟩
  · rw [hnone, hd]
    exact iff_of_true trivial (hp.refreshMargin.trans hp.margin_lt)
  · rw [hsome, hd]
    rfl

theorem alive_iff (hp : Settled p) (now : Int) (h : parseGrantResponse lib p body = .ok resp) :
    Alive lib p body now (resultFrom now p resp) ↔ Lasts lib (advertised lib p body) := by
  rw [lasts_iff hp h]
  constructor
  · intro ha
    have hlive : now < now + lifetimeOf p resp.expiresIn := ha.live
    by_contra hd
    have := lifetimeOf_of_nonpos hp (not_lt.mp hd)
    omega
  · intro hd
    have hpos : 0 < lifetimeOf p resp.expiresIn := lifetimeOf_pos hd
    have hle := lifetimeOf_le hp hd
    have hm := marginOf_bounds hp hpos
    refine ⟨?_, ?_, ?_, ?_⟩
    · simp only [resultFrom]; omega
    · simp only [resultFrom]; omega
    · simp only [resultFrom]; omega
    · have hlen : (resultFrom now p resp).hardExpiry - now ≤ resp.expiresIn := by
        simp only [resultFrom]; omega
      rcases parse_expiresIn h with ⟨hnone, hdef⟩ | ⟨secs, hsome, hsecs, hdur⟩
      · rw [hnone]
        exact hlen.trans hdef.le
      · rw [hsome]
        exact secondsToDuration_within hsecs (hdur ▸ hlen)

theorem lasts_of_range (lib : Lib) (h1 : 1 ≤ q) (h2 : q < 9223372037) : Lasts lib (some (.fin q)) := by
  have h0 : (0 : ℚ) ≤ q := by linarith
  have hlo : 1 ≤ trunc q := by rw [trunc_of_nonneg h0]; exact Int.le_floor.mpr (by exact_mod_cast h1)
  have hhi : trunc q < 9223372037 := by rw [trunc_of_nonneg h0]; exact Int.floor_lt.mpr (by exact_mod_cast h2)
  have hto : toInt64 lib (.fin q) = trunc q :=
    if_pos ⟨by unfold minInt64; omega, by unfold maxInt64; omega⟩
  show 0 < wrap64 (toInt64 lib (.fin q) * 1000000000)
  rw [hto, wrap64_of_le (by omega) (by unfold maxInt64; omega)]
  omega

/-! ## Runs -/

variable {env : Env} {own : Nat → String} {m m' : Minter} {tr : History} {o : Obs}

/-- Stored results have their boundaries in order; what is returned or minted is alive. -/
structure Live (env : Env) (tr : History) (m : Minter) : Prop where
  stored : ∀ st r, (m.cells st).result = some r → r.refreshAfter ≤ r.hardExpiry
  returning : ∀ key f now c r, m.flights key = some f → f.pc = .returning now c (.ok r) → now < r.hardExpiry
  returned : ∀ a callers now c r, (a, Obs.returned callers now c (.ok r)) ∈ tr → now < r.hardExpiry
  minted : ∀ a g resp st, (a, Obs.answered g (.ok resp) st) ∈ tr → ∃ key reply draw,
    a = .answer key (.reply reply) draw ∧ st.result = some (resultFrom g.now g.profile resp) ∧
      Alive env.lib g.profile (g.profile.readBody reply) g.now (resultFrom g.now g.profile resp)

theorem fallbackOr_live {c : Option Result} {now : Int} {e : MintErr} {r : Result}
    (h : fallbackOr c now e = .ok r) : now < r.hardExpiry := by
  have := (fallbackOr_eq_ok.mp h).2
  simp only [Result.usable, decide_eq_true_eq] at this
  exact this.2

theorem afterGate_live {f : Flight} {st : MintState} {now n : Int} {addr : Nat} {c : Option Result} {r : Result}
    (hst : ∀ r, st.result = some r → r.refreshAfter ≤ r.hardExpiry)
    (h : f.afterGate st now addr = .returning n c (.ok r)) : n < r.hardExpiry := by
  unfold Flight.afterGate at h
  rcases hg : st.gate f.profile now with r' | e | _ <;> rw [hg] at h <;> simp only [Pc.returning.injEq] at h
  · obtain ⟨rfl, -, he⟩ := h
    cases he
    obtain ⟨hr, hfresh⟩ := gate_fresh hg
    simp only [Result.fresh, decide_eq_true_eq] at hfresh
    have := hst _ hr
    omega
  · obtain ⟨rfl, -, he⟩ := h
    exact fallbackOr_live he
  · cases h

theorem Live.quiet (h : Live env tr m) {a : Act} (hr : ∀ callers now c r, o ≠ .returned callers now c (.ok r))
    (ha : ∀ g resp st, o ≠ .answered g (.ok resp) st)
    (stored : ∀ st r, (m'.cells st).result = some r → r.refreshAfter ≤ r.hardExpiry)
    (returning : ∀ key f now c r, m'.flights key = some f → f.pc = .returning now c (.ok r) →
      now < r.hardExpiry) : Live env ((a, o) :: tr) m' where
  stored := stored
  returning := returning
  returned a' callers now c r hmem := by
    rcases List.mem_cons.mp hmem with e | hmem
    · cases e; exact absurd rfl (hr callers now c r)
    · exact h.returned a' callers now c r hmem
  minted a' g resp st hmem := by
    rcases List.mem_cons.mp hmem with e | hmem
    · cases e; exact absurd rfl (ha g resp st)
    · exact h.minted a' g resp st hmem

theorem Live.returning_goto (h : Live env tr m) {key : String} {f : Flight} {pc : Pc}
    (hpc : ∀ now c r, pc = .returning now c (.ok r) → now < r.hardExpiry) :
    ∀ k g now c r, (m.goto key f pc).flights k = some g → g.pc = .returning now c (.ok r) →
      now < r.hardExpiry := by
  intro k g now c r hg hgpc
  rcases goto_some hg with ⟨rfl, rfl⟩ | ⟨-, hg⟩
  · exact hpc now c r hgpc
  · exact h.returning k g now c r hg hgpc

theorem doGrant_ok {cfg : Config} {p : Profile} {id secret : Bytes} {up : Upstream}
    (h : doGrant lib cfg p id secret up = .ok resp) :
    ∃ reply, up = .reply reply ∧ parseGrantResponse lib p (p.readBody reply) = .ok resp := by
  unfold doGrant at h
  split at h <;> [cases h; skip]
  obtain ⟨-, h⟩ := ite_error_eq_ok.mp h
  split at h <;> [cases h; skip]
  split at h
  · cases h
  · cases h
  · cases h
  · simp only [ite_error_eq_ok] at h
    exact ⟨_, rfl, h.2.2⟩

theorem live_answer (h : Live env tr m) (hb : Base env own m) {key : String} {up : Upstream} {draw : Nat}
    (hl : Lasting env tr m (.answer key up draw)) (hs : step env m (.answer key up draw) = some (m', o)) :
    Live env ((.answer key up draw, o) :: tr) m' := by
  obtain ⟨f, now, st, cached, resp, hf, hpc, hresp, rfl, rfl⟩ := step_answer hs
  have hcells : (∀ r, (f.afterGrant (m.cells st) now cached resp draw).1.result = some r →
      r.refreshAfter ≤ r.hardExpiry) → ∀ x r,
      (Function.update m.cells st (f.afterGrant (m.cells st) now cached resp draw).1 x).result = some r →
      r.refreshAfter ≤ r.hardExpiry := by
    intro hnew x r hx
    rw [Function.update_apply] at hx
    split at hx
    · exact hnew r hx
    · exact h.stored x r hx
  cases resp with
  | error e =>
    refine h.quiet (by simp) (by simp) (hcells fun r hr => h.stored st r hr) (h.returning_goto ?_)
    rintro n c r hret
    obtain ⟨rfl, -, he⟩ := Pc.returning.inj hret
    exact fallbackOr_live he
  | ok resp =>
    obtain ⟨reply, rfl, hparse⟩ := doGrant_ok hresp.symm
    have halive : Alive env.lib f.profile (f.profile.readBody reply) now (resultFrom now f.profile resp) :=
      (alive_iff (settled_of_valid env.cfg (hb.flights key f hf).2) now hparse).mpr
        (hl key reply draw f resp rfl hf hparse)
    refine ⟨hcells ?_, h.returning_goto ?_, fun a callers n c r hmem => ?_, fun a g resp' x hmem => ?_⟩
    · rintro r ⟨⟩; exact halive.refresh_le
    · rintro n c r ⟨⟩; exact halive.live
    · rcases List.mem_cons.mp hmem with e | hmem
      · cases e
      · exact h.returned a callers n c r hmem
    · rcases List.mem_cons.mp hmem with e | hmem
      · cases e
        exact ⟨key, reply, draw, rfl, rfl, halive⟩
      · exact h.minted a g resp' x hmem

theorem live_step (h : Live env tr m) (hb : Base env own m) {a : Act} (hl : Lasting env tr m a)
    (hs : step env m a = some (m', o)) : Live env ((a, o) :: tr) m' := by
  cases a with
  | tick d =>
    obtain ⟨rfl, rfl⟩ := step_tick hs
    exact h.quiet (by simp) (by simp) h.stored h.returning
  | mint c =>
    rcases step_mint hs with ⟨rfl, rfl⟩ | ⟨p, f, -, rfl, rfl, hf⟩
    · exact h.quiet (by simp) (by simp) h.stored h.returning
    · refine h.quiet (by simp) (by simp) h.stored fun k g now c' r hg hpc => ?_
      simp only [Function.update_apply] at hg
      split at hg
      · cases hg
        rcases hf with ⟨-, rfl⟩ | ⟨f₀, hf₀, rfl⟩
        · cases hpc
        · exact h.returning _ f₀ now c' r hf₀ hpc
      · exact h.returning k g now c' r hg hpc
  | clock key =>
    obtain ⟨f, -, -, rfl, rfl⟩ := step_clock hs
    exact h.quiet (by simp) (by simp) h.stored (h.returning_goto (by rintro _ _ _ ⟨⟩))
  | lookup key =>
    obtain ⟨f, now, -, -, rfl, rfl⟩ := step_lookup hs
    rcases stateFor_cases m key f.call.profileName with ⟨st, -, e⟩ | ⟨hnew, e⟩ <;> rw [e]
    · exact h.quiet (by simp) (by simp) h.stored (h.returning_goto (by rintro _ _ _ ⟨⟩))
    · refine h.quiet (by simp) (by simp) (fun x r hx => ?_) (h.returning_goto (by rintro _ _ _ ⟨⟩))
      simp only [goto_cells, Function.update_apply] at hx
      split at hx
      · cases hx
      · exact h.stored x r hx
  | gate key =>
    obtain ⟨f, now, st, -, -, rfl, rfl⟩ := step_gate hs
    exact h.quiet (by simp) (by simp) h.stored (h.returning_goto fun n c r => afterGate_live (h.stored st))
  | limit key allow =>
    obtain ⟨f, now, st, c, -, -, ⟨-, rfl, rfl⟩ | ⟨-, rfl, rfl⟩⟩ := step_limit hs
    · exact h.quiet (by simp) (by simp) h.stored (h.returning_goto (by rintro _ _ _ ⟨⟩))
    · refine h.quiet (by simp) (by simp) h.stored (h.returning_goto fun n c r hret => ?_)
      obtain ⟨rfl, -, he⟩ := Pc.returning.inj hret
      exact fallbackOr_live he
  | answer key up draw => exact live_answer h hb hl hs
  | finish key =>
    obtain ⟨f, now, c, out, hf, hpc, rfl, rfl⟩ := step_finish hs
    refine ⟨h.stored, fun k g n c' r hg => ?_, fun a callers n c' r hmem => ?_, fun a g resp x hmem => ?_⟩
    · simp only [Function.update_apply] at hg
      split at hg <;> [cases hg; exact h.returning k g n c' r hg]
    · rcases List.mem_cons.mp hmem with e | hmem
      · cases e; exact h.returning key f now c r hf hpc
      · exact h.returned a callers n c' r hmem
    · rcases List.mem_cons.mp hmem with e | hmem
      · cases e
      · exact h.minted a g resp x hmem
  | sweepClock =>
    obtain ⟨rfl, rfl⟩ := step_sweepClock hs
    exact h.quiet (by simp) (by simp) h.stored h.returning
  | sweep t =>
    obtain ⟨-, ⟨keys, rfl⟩, rfl⟩ := step_sweep hs
    exact h.quiet (by simp) (by simp) h.stored h.returning

theorem live_init : Live env [] (system env).init := by
  refine ⟨?_, ?_, ?_, ?_⟩
  · rintro st r ⟨⟩
  · rintro key f now c r ⟨⟩
  · rintro a callers now c r ⟨⟩
  · rintro a g resp st ⟨⟩

theorem live_run (h : (system env).RunIf (Lasting env) tr m) : Live env tr m := by
  refine (System.RunIf.inv (I := fun tr m => (∃ own, Base env own m) ∧ Live env tr m)
    ⟨base_run (C := Lasting env) .init, live_init⟩ ?_ h).2
  rintro tr m a m' o ⟨⟨own, hb⟩, hlive⟩ hc hs
  exact ⟨base_step hb hs, live_step hlive hb hc hs⟩

/-- A result minted from an accepted answer is alive, with its boundaries in order, iff the advertised
lifetime lasts; if all of a run do, every token that `Mint` returns is alive. One second to 292 years
last. -/
theorem mint_live (env : Env) :
    (∀ name p body resp now, env.cfg.profile name = some p →
      parseGrantResponse env.lib p body = .ok resp →
      (Alive env.lib p body now (resultFrom now p resp) ↔ Lasts env.lib (advertised env.lib p body))) ∧
    (∀ tr m, (system env).RunIf (Lasting env) tr m →
      (∀ a callers now c r, (a, Obs.returned callers now c (.ok r)) ∈ tr → now < r.hardExpiry) ∧
      ∀ a g resp st, (a, Obs.answered g (.ok resp) st) ∈ tr → ∃ key reply draw,
        a = .answer key (.reply reply) draw ∧ st.result = some (resultFrom g.now g.profile resp) ∧
        Alive env.lib g.profile (g.profile.readBody reply) g.now (resultFrom g.now g.profile resp)) ∧
    ∀ q : ℚ, 1 ≤ q → q < 9223372037 → Lasts env.lib (some (.fin q)) := by
  refine ⟨fun name p body resp now hp hparse => alive_iff (settled_of_valid env.cfg hp) now hparse,
    fun tr m h => ?_, fun q h1 h2 => lasts_of_range env.lib h1 h2⟩
  have hlive := live_run h
  exact ⟨hlive.returned, hlive.minted⟩

theorem startGrant_lasting :
    Lasting sampleEnv (sampleRun startGrant).1 (sampleRun startGrant).2
      (.answer sampleKey (.reply ⟨200, "", [100]⟩) 0) := by
  rintro key reply draw f resp ha hf -
  cases ha
  cases hf
  exact lasts_of_range (q := 100) sampleLib (by norm_num) (by norm_num)

theorem mint_live_minted :
    (Lasts sampleLib (advertised sampleLib sampleProfile.withDefaults [100]) ∧
      Alive sampleLib sampleProfile.withDefaults [100] 1 servedResult) ∧
    ∃ (pre : History) (m : Minter) (callers : List MintCall) (cached : Option Result) (r : Result),
      (system sampleEnv).RunIf (Lasting sampleEnv)
        ((.finish sampleKey, .returned callers 1 cached (.ok r)) :: pre) m ∧ 1 < r.hardExpiry := by
  obtain ⟨hiff, hrun, hrange⟩ := mint_live sampleEnv
  have hlasts : Lasts sampleLib (advertised sampleLib sampleProfile.withDefaults [100]) :=
    hrange 100 (by norm_num) (by norm_num)
  refine ⟨⟨hlasts, (hiff [112] _ [100] ⟨"t", "", 100 * second⟩ 1 rfl rfl).mpr hlasts⟩, ?_⟩
  have h₁ : (system sampleEnv).RunIf (Lasting sampleEnv) (sampleRun startGrant).1 (sampleRun startGrant).2 :=
    System.RunIf.init.execFrom startGrant (by simp [startGrant, Lasting]) rfl
  have h₂ : (system sampleEnv).RunIf (Lasting sampleEnv) (sampleRun (startGrant ++ answerGrant [100])).1
      (sampleRun (startGrant ++ answerGrant [100])).2 :=
    (h₁.step startGrant_lasting rfl).execFrom [.finish sampleKey] (by simp [Lasting]) rfl
  refine ⟨(sampleRun (startGrant ++ answerGrant [100])).1.tail, _, [sampleCall], none, servedResult, h₂, ?_⟩
  exact (hrun _ _ h₂).1 _ _ _ _ _ List.mem_cons_self

/-- A lifetime of half a second becomes 0: `Mint` returns a dead token. One of 292 years becomes negative. -/
theorem mint_dead_token :
    (∃ (pre : History) (m : Minter) (callers : List MintCall) (cached : Option Result) (r : Result),
      (system sampleEnv).Run ((.finish sampleKey, .returned callers 1 cached (.ok r)) :: pre) m ∧
      r.hardExpiry = 1) ∧
    (resultFrom 1 sampleProfile.withDefaults ⟨"t", "", secondsToDuration sampleLib (.fin 9223372037)⟩).hardExpiry
      < 1 := by
  refine ⟨?_, by decide +kernel⟩
  have h : (system sampleEnv).Run (sampleRun (startGrant ++ answerGrant [0])).1
      (sampleRun (startGrant ++ answerGrant [0])).2 :=
    System.run_of_exec (system sampleEnv) (startGrant ++ answerGrant [0]) rfl
  refine ⟨(sampleRun (startGrant ++ answerGrant [0])).1.tail, _, [sampleCall], none,
    resultFrom 1 sampleProfile.withDefaults ⟨"t", "", 0⟩, h, ?_⟩
  decide +kernel

end Csar.Proof.TokenMint
