import CsarCore.Proof.TokenMint.Lifetime
import Mathlib.Data.Set.Function

/-!
# The minter: where tokens come from

Every result was produced by a grant of its key (`Sourced`). Keys are hashes of the
profile's name and the client id, so a token comes from a grant for those of the call
(`mint_isolation`), but not always with its secret, and a zero byte in a name can make
two pairs one key (`mint_secret_shared`).
-/

namespace Csar.Proof.TokenMint

open Impl.TokenMint Spec.TokenMint

variable {env : Env} {own : Nat → String} {m m' : Minter} {tr : History} {o : Obs} {key : String} {f : Flight}
  {r : Result}

/-! ## Histories -/

variable {c : MintCall}

theorem called_cons (e : Act × Obs) (h : Called tr c) : Called (e :: tr) c :=
  h.imp fun _ hm => List.mem_cons_of_mem e hm

theorem produced_cons {g : Grant} (e : Act × Obs) (h : Produced env tr g r) : Produced env (e :: tr) g r := by
  obtain ⟨hc, hp, up, draw, resp, st, hm, hr⟩ := h
  exact ⟨called_cons e hc, hp, up, draw, resp, st, List.mem_cons_of_mem e hm, hr⟩

def Source (env : Env) (tr : History) (key : String) (r : Result) : Prop :=
  ∃ g, g.key = key ∧ env.key g.call = key ∧ Produced env tr g r

theorem source_cons (e : Act × Obs) (h : Source env tr key r) : Source env (e :: tr) key r :=
  h.imp fun _ hg => ⟨hg.1, hg.2.1, produced_cons e hg.2.2⟩

/-! ## The invariant -/

def Carries (pc : Pc) (r : Result) : Prop :=
  match pc with
  | .passed _ _ c => c = some r
  | .granting _ _ c => c = some r
  | .returning _ _ out => out = .ok r
  | _ => False

/-- Every result has its source, and every call that waits has been made. -/
structure Sourced (env : Env) (tr : History) (m : Minter) : Prop where
  entries : ∀ key st r, (key, st) ∈ m.state → (m.cells st).result = some r → Source env tr key r
  held : ∀ key f st r, m.flights key = some f → f.pc.held? = some st → (m.cells st).result = some r →
    Source env tr key r
  carried : ∀ key f r, m.flights key = some f → Carries f.pc r → Source env tr key r
  calls : ∀ key f, m.flights key = some f →
    Called tr f.call ∧ ∀ c ∈ f.callers, Called tr c ∧ env.key c = key

theorem Sourced.quiet (h : Sourced env tr m) (e : Act × Obs) (hst : m'.state = m.state)
    (hcells : m'.cells = m.cells)
    (held : ∀ key f st r, m'.flights key = some f → f.pc.held? = some st → (m.cells st).result = some r →
      Source env tr key r)
    (carried : ∀ key f r, m'.flights key = some f → Carries f.pc r → Source env tr key r)
    (calls : ∀ key f, m'.flights key = some f →
      Called (e :: tr) f.call ∧ ∀ c ∈ f.callers, Called (e :: tr) c ∧ env.key c = key) :
    Sourced env (e :: tr) m' where
  entries k st r hm hr := source_cons e (h.entries k st r (hst ▸ hm) (hcells ▸ hr))
  held k f st r hf hst' hr := source_cons e (held k f st r hf hst' (hcells ▸ hr))
  carried k f r hf hc := source_cons e (carried k f r hf hc)
  calls := calls

theorem Sourced.calls_cons (h : Sourced env tr m) (e : Act × Obs) (hf : m.flights key = some f) :
    Called (e :: tr) f.call ∧ ∀ c ∈ f.callers, Called (e :: tr) c ∧ env.key c = key := by
  obtain ⟨hcall, hcallers⟩ := h.calls key f hf
  exact ⟨called_cons e hcall, fun c hc => (hcallers c hc).imp_left (called_cons e)⟩

theorem Sourced.goto (h : Sourced env tr m) (e : Act × Obs) {pc : Pc} (hf : m.flights key = some f)
    (held : ∀ st r, pc.held? = some st → (m.cells st).result = some r → Source env tr key r)
    (carried : ∀ r, Carries pc r → Source env tr key r) : Sourced env (e :: tr) (m.goto key f pc) := by
  refine h.quiet e rfl rfl (fun k g st r hg hst hr => ?_) (fun k g r hg hc => ?_) fun k g hg => ?_ <;>
    rcases goto_some hg with ⟨rfl, rfl⟩ | ⟨-, hg⟩
  · exact held st r hst hr
  · exact h.held k g st r hg hst hr
  · exact carried r hc
  · exact h.carried k g r hg hc
  · have := h.calls_cons e hf
    exact this
  · exact h.calls_cons e hg

/-! ## The steps -/

theorem afterGate_carries {st : MintState} {now : Int} {addr : Nat} (h : Carries (f.afterGate st now addr) r) :
    st.result = some r := by
  unfold Flight.afterGate at h
  rcases hg : st.gate f.profile now with r' | e | _ <;> simp only [hg, Carries] at h
  · cases h
    exact (gate_fresh hg).1
  · exact (fallbackOr_eq_ok.mp h).1
  · exact h

theorem sourced_mint (h : Sourced env tr m) (hs : step env m (.mint c) = some (m', o)) :
    Sourced env ((.mint c, o) :: tr) m' := by
  have hc : Called ((.mint c, o) :: tr) c := ⟨o, List.mem_cons_self⟩
  rcases step_mint hs with ⟨rfl, rfl⟩ | ⟨p, f, -, rfl, rfl, hf⟩
  · exact h.quiet _ rfl rfl h.held h.carried fun k f hf => h.calls_cons _ hf
  · refine h.quiet _ rfl rfl (fun k g st r hg hst hr => ?_) (fun k g r hg hcar => ?_) (fun k g hg => ?_) <;>
      simp only [Function.update_apply] at hg <;> split at hg
    · rename_i hk
      cases hg
      rcases hf with ⟨-, rfl⟩ | ⟨f₀, hf₀, rfl⟩
      · cases hst
      · rw [hk]; exact h.held _ f₀ st r hf₀ hst hr
    · exact h.held k g st r hg hst hr
    · rename_i hk
      cases hg
      rcases hf with ⟨-, rfl⟩ | ⟨f₀, hf₀, rfl⟩
      · exact absurd hcar id
      · rw [hk]; exact h.carried _ f₀ r hf₀ hcar
    · exact h.carried k g r hg hcar
    · rename_i hk
      cases hg
      rw [hk]
      rcases hf with ⟨-, rfl⟩ | ⟨f₀, hf₀, rfl⟩
      · exact ⟨hc, fun c' hc' => by cases List.mem_singleton.mp hc'; exact ⟨hc, rfl⟩⟩
      · obtain ⟨hcall, hcallers⟩ := h.calls_cons (.mint c, .none) hf₀
        refine ⟨hcall, fun c' hc' => ?_⟩
        rcases List.mem_cons.mp hc' with rfl | hc'
        · exact ⟨hc, rfl⟩
        · exact hcallers c' hc'
    · exact h.calls_cons _ hg

theorem Sourced.alloc (h : Sourced env tr m) (name : Bytes) (hn : ∀ q ∈ m.state.rows, q.1 ≠ key) : Sourced env tr { m with
      state := m.state.insert (key, m.next) hn
      cells := Function.update m.cells m.next (.new name)
      next := m.next + 1 } := by
  have hcell : ∀ {x r}, (Function.update m.cells m.next (.new name) x).result = some r →
      (m.cells x).result = some r := by
    intro x r hx
    rw [Function.update_apply] at hx
    split at hx <;> [cases hx; exact hx]
  refine ⟨fun k x r hk hr => ?_, fun k g x r hg hx hr => h.held k g x r hg hx (hcell hr), h.carried, h.calls⟩
  rcases (Table.mem_insert hn).mp hk with e | hk
  · cases e
    simp only [Function.update_self] at hr
    cases hr
  · exact h.entries k x r hk (hcell hr)

theorem sourced_lookup (h : Sourced env tr m) (hs : step env m (.lookup key) = some (m', o)) :
    Sourced env ((.lookup key, o) :: tr) m' := by
  obtain ⟨f, now, hf, -, rfl, rfl⟩ := step_lookup hs
  rcases stateFor_cases m key f.call.profileName with ⟨st, hm, e⟩ | ⟨hnew, e⟩ <;> rw [e]
  · refine h.goto _ hf ?_ (fun r hc => absurd hc id)
    rintro _ r ⟨⟩ hr
    exact h.entries key st r hm hr
  · have ha := h.alloc f.call.profileName hnew
    refine ha.goto _ hf ?_ (fun r hc => absurd hc id)
    rintro _ r ⟨⟩ hr
    exact ha.entries key m.next r ((Table.mem_insert hnew).mpr (.inl rfl)) hr

theorem sourced_answer (h : Sourced env tr m) (hb : Base env own m) {up : Upstream} {draw : Nat}
    (hs : step env m (.answer key up draw) = some (m', o)) :
    Sourced env ((.answer key up draw, o) :: tr) m' := by
  obtain ⟨f, now, st, cached, resp, hf, hpc, hresp, rfl, rfl⟩ := step_answer hs
  have hheld : f.pc.held? = some st := by rw [hpc]; rfl
  -- the state of the key after the answer has a source
  have hnew : ∀ r, (f.afterGrant (m.cells st) now cached resp draw).1.result = some r →
      Source env ((.answer key up draw, .answered ⟨key, f.call, f.profile, now⟩ resp
        (f.afterGrant (m.cells st) now cached resp draw).1) :: tr) key r := by
    intro r hr
    cases resp with
    | error e => exact source_cons _ (h.held key f st r hf hheld hr)
    | ok resp =>
      cases hr
      exact ⟨⟨key, f.call, f.profile, now⟩, rfl, (hb.flights key f hf).1, called_cons _ (h.calls key f hf).1,
        (hb.flights key f hf).2, up, draw, resp, _, List.mem_cons_self, rfl, hresp.symm⟩
  refine ⟨fun k x r hk hr => ?_, fun k g x r hg hx hr => ?_, fun k g r hg hc => ?_, fun k g hg => ?_⟩
  · simp only [goto_cells, Function.update_apply] at hr
    split at hr
    · rename_i hxs
      subst hxs
      rw [hb.entry_of_held hf hheld hk]
      exact hnew r hr
    · exact source_cons _ (h.entries k x r hk hr)
  · rcases goto_some hg with ⟨-, rfl⟩ | ⟨-, hg⟩ <;> [cases hx; skip]
    simp only [goto_cells, Function.update_apply] at hr
    split at hr
    · rename_i hxs
      subst hxs
      rw [hb.held_unique hf hheld hg hx]
      exact hnew r hr
    · exact source_cons _ (h.held k g x r hg hx hr)
  · rcases goto_some hg with ⟨rfl, rfl⟩ | ⟨-, hg⟩
    · cases resp with
      | error e => exact source_cons _ (h.carried _ f r hf (by rw [hpc]; exact (fallbackOr_eq_ok.mp hc).1))
      | ok resp => cases hc; exact hnew _ rfl
    · exact source_cons _ (h.carried k g r hg hc)
  · rcases goto_some hg with ⟨rfl, rfl⟩ | ⟨-, hg⟩
    · have := h.calls_cons (.answer k up draw, .answered ⟨k, f.call, f.profile, now⟩ resp
        (f.afterGrant (m.cells st) now cached resp draw).1) hf
      exact this
    · exact h.calls_cons _ hg

theorem sourced_step (h : Sourced env tr m) (hb : Base env own m) {a : Act}
    (hs : step env m a = some (m', o)) : Sourced env ((a, o) :: tr) m' := by
  cases a with
  | tick d =>
    obtain ⟨rfl, rfl⟩ := step_tick hs
    exact h.quiet _ rfl rfl h.held h.carried fun k f hf => h.calls_cons _ hf
  | mint c => exact sourced_mint h hs
  | clock key =>
    obtain ⟨f, hf, -, rfl, rfl⟩ := step_clock hs
    exact h.goto _ hf (by rintro _ _ ⟨⟩) fun r hc => absurd hc id
  | lookup key => exact sourced_lookup h hs
  | gate key =>
    obtain ⟨f, now, st, hf, hpc, rfl, rfl⟩ := step_gate hs
    have hsrc : ∀ r, (m.cells st).result = some r → Source env tr key r := fun r hr =>
      h.held key f st r hf (by rw [hpc]; rfl) hr
    exact h.goto _ hf (fun x r hx hr => hsrc r (afterGate_held hx ▸ hr)) fun r hc => hsrc r (afterGate_carries hc)
  | limit key allow =>
    obtain ⟨f, now, st, c, hf, hpc, ⟨-, rfl, rfl⟩ | ⟨-, rfl, rfl⟩⟩ := step_limit hs
    · refine h.goto _ hf ?_ fun r hc => h.carried key f r hf (by rw [hpc]; exact hc)
      rintro _ r ⟨⟩ hr
      exact h.held key f st r hf (by rw [hpc]; rfl) hr
    · exact h.goto _ hf (by rintro _ _ ⟨⟩) fun r hc =>
        h.carried key f r hf (by rw [hpc]; exact (fallbackOr_eq_ok.mp hc).1)
  | answer key up draw => exact sourced_answer h hb hs
  | finish key =>
    obtain ⟨f, now, c, out, -, -, rfl, rfl⟩ := step_finish hs
    refine h.quiet _ rfl rfl (fun k g st r hg => ?_) (fun k g r hg => ?_) (fun k g hg => ?_) <;>
      simp only [Function.update_apply] at hg <;> split at hg <;> try cases hg
    · exact h.held k g st r hg
    · exact h.carried k g r hg
    · exact h.calls_cons _ hg
  | sweepClock =>
    obtain ⟨rfl, rfl⟩ := step_sweepClock hs
    exact h.quiet _ rfl rfl h.held h.carried fun k f hf => h.calls_cons _ hf
  | sweep t =>
    obtain ⟨-, ⟨keys, rfl⟩, rfl⟩ := step_sweep hs
    exact ⟨fun k st r hm hr => source_cons _ (h.entries k st r (Table.mem_deleteWhere.mp hm).1 hr),
      fun k f st r hf hst hr => source_cons _ (h.held k f st r hf hst hr),
      fun k f r hf hc => source_cons _ (h.carried k f r hf hc), fun k f hf => h.calls_cons _ hf⟩

theorem sourced_run {C : History → Minter → Act → Prop} (h : (system env).RunIf C tr m) : Sourced env tr m := by
  refine (System.RunIf.inv (I := fun tr m => (∃ own, Base env own m) ∧ Sourced env tr m)
    ⟨base_run (C := C) .init, ?_⟩ ?_ h).2
  · refine ⟨?_, ?_, ?_, ?_⟩
    · rintro key st r - ⟨⟩
    · rintro key f st r ⟨⟩
    · rintro key f r ⟨⟩
    · rintro key f ⟨⟩
  · rintro tr m a m' o ⟨⟨own, hb⟩, hi⟩ - hs
    exact ⟨base_step hb hs, sourced_step hi hb hs⟩

/-! ## Keys -/

theorem sum256_of_key {c' : MintCall} (h : env.key c = env.key c') :
    env.lib.sum256 (keyText c) = env.lib.sum256 (keyText c') :=
  Vector.toList_inj.mp (hexEncode_injective h)

theorem append_zero_inj {xs ys us vs : Bytes} (hx : 0 ∉ xs) (hy : 0 ∉ ys) (h : xs ++ 0 :: us = ys ++ 0 :: vs) :
    xs = ys ∧ us = vs := by
  have hcut : Strings.cut (xs ++ 0 :: us) 0 = some (xs, us) := Strings.cut_append hx
  rw [h, Strings.cut_append hy] at hcut
  cases hcut
  exact ⟨rfl, rfl⟩

/-! ## Runs -/

/-- A token that a call of `Mint` gets comes from a grant with the client id and the secret of a call
with the same key text; that is, for the same profile and client id, if the names of the profiles have no
zero byte. SHA-256 is assumed injective on the texts of the run's calls. -/
theorem mint_isolation (env : Env) (tr : History) (m : Minter) (h : (system env).Run tr m)
    (hinj : Set.InjOn env.lib.sum256 {text | ∃ c, Called tr c ∧ keyText c = text})
    (post pre : History) (a : Act) (callers : List MintCall) (now : Int) (cached : Option Result) (r : Result)
    (htr : tr = post ++ (a, .returned callers now cached (.ok r)) :: pre) (c : MintCall) (hc : c ∈ callers) :
    Called pre c ∧ ∃ g, Produced env pre g r ∧ keyText g.call = keyText c ∧
      (0 ∉ g.call.profileName → 0 ∉ c.profileName →
        g.call.profileName = c.profileName ∧ g.call.clientID = c.clientID) := by
  obtain ⟨m₀, m₁, hpre, -, hs⟩ := h.split htr
  have hsrc := sourced_run hpre
  obtain ⟨key, f, hf, hpc, rfl⟩ := step_obs hs
  obtain ⟨hcalled, hkey⟩ := (hsrc.calls key f hf).2 c hc
  obtain ⟨g, -, hgkey, hg⟩ := hsrc.carried key f r hf (by rw [hpc]; rfl)
  have hsub : ∀ c', Called pre c' → Called tr c' := by
    rintro c' ⟨o, ho⟩
    exact ⟨o, htr ▸ List.mem_append_right _ (List.mem_cons_of_mem _ ho)⟩
  have htext : keyText g.call = keyText c :=
    hinj ⟨g.call, hsub _ hg.1, rfl⟩ ⟨c, hsub _ hcalled, rfl⟩ (sum256_of_key (hgkey.trans hkey.symm))
  exact ⟨hcalled, g, hg, htext, fun hg0 hc0 => append_zero_inj hg0 hc0 htext⟩

/-! ## A call with another secret -/

/-- A call for the client id of `sampleCall` with another secret. -/
def otherCall : MintCall := { sampleCall with clientSecret := [2] }

/-- A token is minted for `sampleCall`; then `otherCall` is at the gate. -/
def sharedRun : List Act :=
  startGrant ++ answerGrant [100] ++ [.mint otherCall, .clock sampleKey, .lookup sampleKey]

def sharedHistory : History := (.gate sampleKey, .none) :: (sampleRun sharedRun).1

theorem afterGate_of_fresh {st : MintState} {now : Int} {addr : Nat} (hst : st.result = some r)
    (hr : r.fresh now = true) : f.afterGate st now addr = .returning now (some r) (.ok r) := by
  simp [Flight.afterGate, MintState.gate, hst, hr, Option.filter]

theorem sharedRun_returned : ∃ m, (system sampleEnv).Run
    ((.finish sampleKey, .returned [otherCall] 1 (some servedResult) (.ok servedResult)) :: sharedHistory) m := by
  let f : Flight := ⟨otherCall, sampleProfile.withDefaults, [otherCall], .found 1 0⟩
  have h₁ : (system sampleEnv).Run (sampleRun sharedRun).1 (sampleRun sharedRun).2 :=
    System.run_of_exec (system sampleEnv) sharedRun rfl
  have hgate : f.afterGate ((sampleRun sharedRun).2.cells 0) 1 0 =
      .returning 1 (some servedResult) (.ok servedResult) :=
    afterGate_of_fresh rfl (by decide +kernel)
  have h₂ : (system sampleEnv).Run sharedHistory ((sampleRun sharedRun).2.goto sampleKey f
      (.returning 1 (some servedResult) (.ok servedResult))) := by
    rw [← hgate]
    exact h₁.step rfl
  exact ⟨_, h₂.step rfl⟩

theorem sharedRun_keyText (h : Called
    ((.finish sampleKey, .returned [otherCall] 1 (some servedResult) (.ok servedResult)) :: sharedHistory) c) :
    keyText c = [112, 0, 7] := by
  obtain ⟨o, ho⟩ := h
  have hacts : Act.mint c ∈ (sharedRun ++ [Act.gate sampleKey, Act.finish sampleKey]).reverse :=
    List.mem_map_of_mem (f := Prod.fst) ho
  simp only [sharedRun, startGrant, answerGrant, List.cons_append, List.nil_append, List.reverse_cons,
    List.reverse_nil, List.mem_cons, reduceCtorEq, Act.mint.injEq, List.not_mem_nil, or_false, false_or] at hacts
  rcases hacts with rfl | rfl <;> rfl

theorem mint_isolation_shared :
    ∃ (pre : History) (m : Minter), (system sampleEnv).Run
        ((.finish sampleKey, .returned [otherCall] 1 (some servedResult) (.ok servedResult)) :: pre) m ∧
      ∃ g, Produced sampleEnv pre g servedResult ∧ keyText g.call = keyText otherCall := by
  obtain ⟨m, h⟩ := sharedRun_returned
  refine ⟨sharedHistory, m, h, ?_⟩
  obtain ⟨-, g, hg, htext, -⟩ := mint_isolation sampleEnv _ m h
    (by rintro _ ⟨c, hc, rfl⟩ _ ⟨c', hc', rfl⟩ -; rw [sharedRun_keyText hc, sharedRun_keyText hc'])
    [] sharedHistory _ _ _ _ _ rfl otherCall List.mem_cons_self
  exact ⟨g, hg, htext⟩

/-- A second profile, whose name has a zero byte. -/
def zeroEnv : Env :=
  ⟨sampleLib, sampleConfig [[112], [112, 0, 7]] (by decide) (by decide) (by decide), 1, Int.one_pos⟩

def plainCall : MintCall := ⟨[112], [7, 0, 9], [1]⟩

def zeroCall : MintCall := ⟨[112, 0, 7], [9], [1]⟩

/-- `zeroCall` joins the flight of `plainCall`. -/
def zeroRun : List Act :=
  let key := zeroEnv.key plainCall
  [.mint plainCall, .mint zeroCall, .clock key, .lookup key, .gate key, .limit key true,
    .answer key (.reply ⟨200, "", [100]⟩) 0, .finish key]

/-- The only grant was made with the secret of `sampleCall`, but a call with another secret gets its
token; and where a profile's name has a zero byte, so does a call for another profile and client id. -/
theorem mint_secret_shared :
    (∃ (pre : History) (m : Minter), (system sampleEnv).Run
        ((.finish sampleKey, .returned [otherCall] 1 (some servedResult) (.ok servedResult)) :: pre) m ∧
      grants pre = [sampleGrant 1] ∧ (sampleGrant 1).call = sampleCall ∧
      otherCall.profileName = sampleCall.profileName ∧ otherCall.clientID = sampleCall.clientID ∧
      otherCall.clientSecret ≠ sampleCall.clientSecret) ∧
    ∃ (pre : History) (m : Minter), (system zeroEnv).Run ((.finish (zeroEnv.key plainCall),
        .returned [zeroCall, plainCall] 1 none (.ok servedResult)) :: pre) m ∧
      (grants pre).map Grant.call = [plainCall] ∧ zeroCall.profileName ≠ plainCall.profileName := by
  constructor
  · obtain ⟨m, h⟩ := sharedRun_returned
    exact ⟨sharedHistory, m, h, rfl, rfl, rfl, rfl, by decide⟩
  · have h := System.run_of_exec (system zeroEnv) zeroRun rfl
    exact ⟨_, _, h, rfl, by decide⟩

end Csar.Proof.TokenMint
