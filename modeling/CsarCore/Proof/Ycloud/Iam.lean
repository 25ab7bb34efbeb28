import CsarCore.Spec.Ycloud.Iam

/-!
# When tokens are live

No check lets a token through that expires within half a minute, but what an exchange
brings is stored and returned as it is. If no call joins a flight that is too late, the
tokens are live exactly if every answer is good: `tokens_live_iff`.
-/

namespace Csar.Proof.Ycloud

open Impl.Ycloud Spec.Ycloud

variable {mode : AuthMode} {r r' : Resolver} {o : Obs} {t : Int}

/-! ## The invariant -/

/-- Calls began before now, and what a flight will return is live for those that wait. -/
structure Inv (r : Resolver) : Prop where
  calls : ∀ id c, r.calls id = some c → c.begun ≤ r.now
  callers : ∀ f, r.flight = some f → ∀ begun ∈ f.callers, begun ≤ r.now
  outcome : ∀ f, r.flight = some f → ∀ token expiry, f.pc.outcome? = some (token, expiry) →
    token ≠ [] ∧ ∀ begun ∈ f.callers, begun < expiry

theorem Inv.later (h : Inv r) (ht : r.now ≤ t) : Inv { r with now := t } where
  calls id c hc := Int.le_trans (h.calls id c hc) ht
  callers f hf begun hb := Int.le_trans (h.callers f hf begun hb) ht
  outcome := h.outcome

theorem Inv.update (h : Inv r) (id : Nat) {x : Option Call} (hx : ∀ c, x = some c → c.begun ≤ r.now) :
    Inv { r with calls := Function.update r.calls id x } where
  calls id' c hc := by
    dsimp only at hc
    rw [Function.update_apply] at hc
    split at hc
    · exact hx c hc
    · exact h.calls id' c hc
  callers := h.callers
  outcome := h.outcome

theorem Inv.leave (h : Inv r) (id : Nat) : Inv (r.leave id) := h.update id fun _ hc => by cases hc

variable {c : Call} {token : Bytes} {expiry : Int} {f : Flight} {id : Nat}

theorem Inv.goto (h : Inv r) (id : Nat) (hc : c.begun ≤ r.now) (pc : Pc) : Inv (r.goto id c pc) :=
  h.update id fun _ hc' => Option.some.inj hc' ▸ hc

theorem Inv.flight (h : Inv r) (hcallers : ∀ begun ∈ f.callers, begun ≤ r.now)
    (houtcome : ∀ token expiry, f.pc.outcome? = some (token, expiry) →
      token ≠ [] ∧ ∀ begun ∈ f.callers, begun < expiry) :
    Inv { r with flight := some f } where
  calls := h.calls
  callers f' hf' := by
    cases hf'
    exact hcallers
  outcome f' hf' := by
    cases hf'
    exact houtcome

theorem fresh_iff {now : Int} :
    fresh token expiry now ↔ token ≠ [] ∧ now + 30 * Impl.TokenMint.second < expiry := by
  rw [fresh, decide_eq_true_iff]

theorem live_of_fresh {now begun : Int} (h : fresh token expiry now) (hb : begun ≤ now) :
    token ≠ [] ∧ begun < expiry := by
  obtain ⟨htoken, hexpiry⟩ := fresh_iff.mp h
  rw [Impl.TokenMint.second] at hexpiry
  exact ⟨htoken, by omega⟩

/-! ## Steps -/

theorem inv_check (h : Inv r) (m : RefreshMode) (hc : c.begun ≤ r.now) (token : Bytes)
    (expiry : Int) :
    Inv (r.check (.refreshing m) id c token expiry).1 ∧ Live (r.check (.refreshing m) id c token expiry).2 := by
  rw [Resolver.check]
  split
  · rename_i hfresh
    exact ⟨h.leave id, live_of_fresh hfresh hc⟩
  · exact ⟨h.goto id hc _, trivial⟩

theorem inv_recheck (h : Inv r) (hc : c.begun ≤ r.now) :
    Inv (r.recheck id c).1 ∧ Live (r.recheck id c).2 := by
  rw [Resolver.recheck]
  split
  · rename_i hfresh
    exact ⟨h.leave id, live_of_fresh hfresh hc⟩
  · exact ⟨h.goto id hc _, trivial⟩

theorem inv_join (h : Inv r) (hc : c.begun ≤ r.now)
    (hprompt : ∀ expiry, (r.join id c).2 = .joined (some expiry) → r.now < expiry) :
    Inv (r.join id c).1 ∧ Live (r.join id c).2 := by
  rw [Resolver.join] at hprompt ⊢
  split
  · refine ⟨(h.leave id).flight ?_ (fun _ _ hout => by cases hout), trivial⟩
    exact List.forall_mem_cons.mpr ⟨hc, fun b hb => absurd hb List.not_mem_nil⟩
  · rename_i f hf
    rw [hf] at hprompt
    refine ⟨(h.leave id).flight (List.forall_mem_cons.mpr ⟨hc, h.callers f hf⟩) fun token expiry hout => ?_, trivial⟩
    obtain ⟨htoken, hlive⟩ := h.outcome f hf token expiry hout
    have hnow : r.now < expiry := by
      refine hprompt expiry ?_
      dsimp only at hout ⊢
      rw [hout]
      rfl
    exact ⟨htoken, List.forall_mem_cons.mpr ⟨Int.lt_of_le_of_lt hc hnow, hlive⟩⟩

theorem inv_lead (h : Inv r) (hf : r.flight = some f) : Inv (r.lead f) := by
  rw [Resolver.lead]
  split
  · rename_i hfresh
    refine h.flight (h.callers f hf) fun token expiry hout => ?_
    cases hout
    exact ⟨(fresh_iff.mp hfresh).1, fun begun hb => (live_of_fresh hfresh (h.callers f hf begun hb)).2⟩
  · exact h.flight (h.callers f hf) fun _ _ hout => by cases hout

theorem inv_answer (h : Inv r) (hf : r.flight = some f) {up : Upstream}
    (hgood : ∀ token expiry, mode.refresh r.now up = .ok (token, expiry) → token ≠ [] ∧ r.now < expiry) :
    Inv (r.answer mode f up) := by
  rw [Resolver.answer]
  split
  · exact h.flight (h.callers f hf) fun _ _ hout => by cases hout
  · rename_i token expiry hrefresh
    obtain ⟨htoken, hnow⟩ := hgood token expiry hrefresh
    refine h.flight (h.callers f hf) fun token' expiry' hout => ?_
    cases hout
    exact ⟨htoken, fun begun hb => Int.lt_of_le_of_lt (h.callers f hf begun hb) hnow⟩

theorem inv_store (h : Inv r) {callers : List Int} (hf : r.flight = some ⟨callers, .answered token expiry⟩) :
    Inv (r.store ⟨callers, .answered token expiry⟩ token expiry) := by
  have hfly : Inv (r.fly ⟨callers, .answered token expiry⟩ (.done (.ok (token, expiry)))) := by
    refine h.flight (h.callers ⟨callers, .answered token expiry⟩ hf) fun token' expiry' hout => ?_
    cases hout
    exact h.outcome _ hf token expiry rfl
  exact ⟨hfly.calls, hfly.callers, hfly.outcome⟩

theorem inv_finish (h : Inv r) {callers : List Int} {out : Except RefreshError (Bytes × Int)}
    (hf : r.flight = some ⟨callers, .done out⟩) : Inv { r with flight := none } ∧ Live (.finished callers out) := by
  refine ⟨⟨h.calls, nofun, nofun⟩, ?_⟩
  rcases out with err | ⟨token, expiry⟩
  · trivial
  · exact h.outcome _ hf token expiry rfl

/-- An operation keeps the invariant, and what it returns is live. -/
theorem inv_op (m : RefreshMode) (h : Inv r) {x : Op} {out : Resolver × Obs}
    (hgood : ∀ up, x = .answer up → ∀ token expiry, (AuthMode.refreshing m).refresh r.now up = .ok (token, expiry) →
      token ≠ [] ∧ r.now < expiry)
    (hprompt : ∀ expiry, out.2 = .joined (some expiry) → r.now < expiry)
    (hop : r.op (.refreshing m) x = some out) : Inv out.1 ∧ Live out.2 := by
  -- an operation is done where its call or the flight is at the point for it
  cases x <;> simp only [Resolver.op] at hop <;> split at hop <;> cases hop <;> rename_i hpc
  · exact ⟨h.update _ fun c hc => Option.some.inj hc ▸ Int.le_refl _, trivial⟩
  · exact inv_check h m (h.calls _ _ hpc) _ _
  · exact inv_recheck h (h.calls _ _ hpc)
  · exact inv_join h (h.calls _ _ hpc) hprompt
  · exact ⟨inv_lead h hpc, trivial⟩
  · exact ⟨inv_answer h hpc (hgood _ rfl), trivial⟩
  · exact ⟨inv_store h hpc, trivial⟩
  · exact inv_finish h hpc

/-! ## Answers -/

theorem exchange_good {texts : Texts} {read : Bytes → Except Json.StructError (Bytes × Int)} {reply : Reply}
    {P : Bytes → Int → Prop} :
    (∀ token expiry, exchange texts read reply = .ok (token, expiry) → P token expiry) ↔
      ∀ body, reply = .answered 200 body → ∀ token expiry, read body = .ok (token, expiry) → P token expiry := by
  constructor
  · rintro h body rfl token expiry hread
    exact h token expiry (by simp [exchange, hread])
  · intro h token expiry hexchange
    cases reply with
    | answered status body =>
      by_cases hstatus : status = 200
      · subst hstatus
        refine h body rfl token expiry ?_
        simp only [exchange, ne_eq, not_true_eq_false, if_false] at hexchange
        split at hexchange <;> cases hexchange
        assumption
      · rw [exchange, if_pos hstatus] at hexchange
        cases hexchange
    | _ => cases hexchange

/-- What is read from a decoded body is good if the decoded body is. -/
theorem map_good {ρ ε : Type} {x : Except ε ρ} {f : ρ → Bytes × Int} {P : Bytes → Int → Prop} :
    (∀ token expiry, x.map f = .ok (token, expiry) → P token expiry) ↔ ∀ r, x = .ok r → P (f r).1 (f r).2 := by
  constructor
  · rintro h r rfl
    exact h _ _ rfl
  · intro h token expiry hmap
    cases x with
    | error err => cases hmap
    | ok r =>
      have hf : f r = (token, expiry) := by injection hmap
      have hr := h r rfl
      rwa [hf] at hr

theorem wrap64_pos_iff {n : Int} : 0 < wrap64 n ↔ ∃ k : Int, k * 2 ^ 64 < n ∧ n < k * 2 ^ 64 + 2 ^ 63 := by
  rw [wrap64, Int.bmod_def]
  constructor
  · intro h
    exact ⟨(n + 2 ^ 63) / 2 ^ 64, by omega, by omega⟩
  · rintro ⟨k, hlow, hhigh⟩
    omega

theorem lasts_iff {seconds : Int} : Lasts seconds ↔ 0 < wrap64 (seconds * Impl.TokenMint.second) := by
  rw [wrap64_pos_iff, Lasts, Impl.TokenMint.second]
  constructor
  · rintro (⟨hpos, hmax⟩ | ⟨k, -, hlow, hhigh⟩)
    · exact ⟨0, by omega, by omega⟩
    · exact ⟨k, by omega, by omega⟩
  · rintro ⟨k, hlow, hhigh⟩
    by_cases hk : k = 0
    · subst hk
      exact .inl ⟨by omega, by omega⟩
    · exact .inr ⟨k, hk, by omega, by omega⟩

theorem readIamToken_good {body : Bytes} :
    (∀ token expiry, readIamToken t body = .ok (token, expiry) → token ≠ [] ∧ t < expiry) ↔ GoodIamToken t body := by
  rw [readIamToken, map_good (P := fun token expiry => token ≠ [] ∧ t < expiry), GoodIamToken]
  refine forall_congr' fun r => imp_congr_right fun _ => and_congr_right fun _ => ?_
  dsimp only
  split
  · rename_i hzero
    have hlater : t < t + 11 * 3600 * Impl.TokenMint.second := by rw [Impl.TokenMint.second]; omega
    exact ⟨fun _ => .inl hzero, fun _ => hlater⟩
  · rename_i hzero
    exact ⟨.inr, fun h => h.resolve_left hzero⟩

theorem readMetadataToken_good {body : Bytes} :
    (∀ token expiry, readMetadataToken t body = .ok (token, expiry) → token ≠ [] ∧ t < expiry) ↔
      GoodMetadataToken body := by
  rw [readMetadataToken, map_good (P := fun token expiry => token ≠ [] ∧ t < expiry), GoodMetadataToken]
  refine forall_congr' fun r => imp_congr_right fun _ => and_congr_right fun _ => ?_
  rw [lasts_iff]
  exact lt_add_iff_pos_right t

theorem refresh_good {m : RefreshMode} {up : Upstream} :
    (∀ token expiry, (AuthMode.refreshing m).refresh t up = .ok (token, expiry) → token ≠ [] ∧ t < expiry) ↔
      GoodAnswer m t up := by
  have hP := fun texts read => @exchange_good texts read up.reply fun token expiry => token ≠ [] ∧ t < expiry
  cases m with
  | oauthToken => exact (hP _ _).trans (forall₂_congr fun body _ => readIamToken_good)
  | metadata => exact (hP _ _).trans (forall₂_congr fun body _ => readMetadataToken_good)
  | serviceAccount =>
    simp only [AuthMode.refresh, exchangeSAToken, GoodAnswer]
    rcases up.signErr with _ | err
    · simp only [forall_const]
      exact (hP _ _).trans (forall₂_congr fun body _ => readIamToken_good)
    · simp

/-! ## Runs -/

section Runs

variable {m : RefreshMode} {start : Int} {A : Int → Upstream → Prop} {tr : History}

variable {token : Bytes} {up : Upstream} {expiry : Int}

theorem inv_init : Inv (system mode [] start).init := ⟨nofun, nofun, nofun⟩

theorem live_run (hA : ∀ t up, A t up → GoodAnswer m t up)
    (h : (system (.refreshing m) [] start).RunIf (fun _ _ a => AnswersIn A a) tr r) (hprompt : Prompt tr) :
    ReturnsLive tr := by
  refine (h.inv (I := fun tr r => Prompt tr → Inv r ∧ ReturnsLive tr) (fun _ => ⟨inv_init, nofun⟩) ?_ hprompt).2
  intro tr r a r' o ih hanswer hstep hprompt
  obtain ⟨hnow, hbefore⟩ := List.forall_mem_cons.mp hprompt
  obtain ⟨hinv, hlive⟩ := ih hbefore
  obtain ⟨hclock, hop⟩ := (Option.ite_none_left_eq_some ..).mp hstep
  have hnext := inv_op m (hinv.later (Int.not_lt.mp hclock))
    (fun up hup => refresh_good.mpr (hA a.now up (hanswer up hup))) hnow hop
  exact ⟨hnext.1, List.forall_mem_cons.mpr ⟨hnext.2, hlive⟩⟩

def firstCall (t : Int) (up : Upstream) : List Act :=
  [⟨t, .begin 0⟩, ⟨t, .check 0⟩, ⟨t, .recheck 0⟩, ⟨t, .join 0⟩, ⟨t, .lead⟩, ⟨t, .answer up⟩, ⟨t, .store⟩, ⟨t, .finish⟩]

def firstCallHistory (t : Int) (up : Upstream) (token : Bytes) (expiry : Int) : History :=
  [(⟨t, .finish⟩, .finished [t] (.ok (token, expiry))), (⟨t, .store⟩, .none), (⟨t, .answer up⟩, .none),
    (⟨t, .lead⟩, .none), (⟨t, .join 0⟩, .joined none), (⟨t, .recheck 0⟩, .none), (⟨t, .check 0⟩, .none),
    (⟨t, .begin 0⟩, .none)]

theorem exec_firstCall {t : Int} (h : (AuthMode.refreshing m).refresh t up = .ok (token, expiry)) :
    ∃ r, (system (.refreshing m) [] t).exec (firstCall t up) = some (firstCallHistory t up token expiry, r) := by
  simp [System.exec, System.execFrom, system, firstCall, firstCallHistory, Resolver.step, Resolver.op, Resolver.check,
    Resolver.recheck, Resolver.join, Resolver.lead, Resolver.answer, Resolver.store, Resolver.goto, Resolver.leave,
    Resolver.fly, fresh, h]

theorem prompt_firstCall (t : Int) (up : Upstream) (token : Bytes) (expiry : Int) :
    Prompt (firstCallHistory t up token expiry) := by
  simp [Prompt, firstCallHistory]

/-- Whatever answers there may be, and however calls interleave that join in time: all tokens that are
handed out live, exactly if every answer is good. -/
theorem tokens_live_iff (m : RefreshMode) (A : Int → Upstream → Prop) :
    (∀ start tr r, (system (.refreshing m) [] start).RunIf (fun _ _ a => AnswersIn A a) tr r → Prompt tr →
      ReturnsLive tr) ↔
    ∀ t up, A t up → GoodAnswer m t up := by
  constructor
  · intro h t up hA
    rw [← refresh_good]
    intro token expiry hrefresh
    obtain ⟨r, hexec⟩ := exec_firstCall hrefresh
    have hanswers : ∀ a ∈ firstCall t up, AnswersIn A a := by
      simp [firstCall, AnswersIn, hA]
    have hrun := System.RunIf.init.execFrom (firstCall t up) (fun a ha _ _ => hanswers a ha) hexec
    have hlive := h t _ r hrun (prompt_firstCall t up token expiry) _ List.mem_cons_self
    exact ⟨hlive.1, hlive.2 t List.mem_cons_self⟩
  · intro hA start tr r hrun hprompt
    exact live_run hA hrun hprompt

def emptyObject : Upstream := ⟨none, .answered 200 (utf8 "\x7b\x7d")⟩

/-- The expiry of an answer at 0 without any. -/
def noExpiry : RefreshMode → Int
  | .metadata => 0
  | _ => 11 * 3600 * Impl.TokenMint.second

/-- A call at 0 that gets an answer without members returns a dead token. -/
def ReturnsEmpty (m : RefreshMode) : Prop :=
  ∃ r, (system (.refreshing m) [] 0).Run (firstCallHistory 0 emptyObject [] (noExpiry m)) r ∧
    Prompt (firstCallHistory 0 emptyObject [] (noExpiry m)) ∧
    ¬ ReturnsLive (firstCallHistory 0 emptyObject [] (noExpiry m))

theorem returnsEmpty (m : RefreshMode) : ReturnsEmpty m := by
  have hrefresh : (AuthMode.refreshing m).refresh 0 emptyObject = .ok ([], noExpiry m) := by
    cases m <;> decide +kernel
  obtain ⟨r, hexec⟩ := exec_firstCall hrefresh
  refine ⟨r, System.run_of_exec _ _ hexec, prompt_firstCall 0 emptyObject [] (noExpiry m), fun h => ?_⟩
  exact (h _ List.mem_cons_self).1 rfl

/-- In each mode, an answer without members is a token that is empty. -/
theorem empty_token_returned :
    ReturnsEmpty .oauthToken ∧ ReturnsEmpty .metadata ∧ ReturnsEmpty .serviceAccount :=
  ⟨returnsEmpty .oauthToken, returnsEmpty .metadata, returnsEmpty .serviceAccount⟩

end Runs

end Csar.Proof.Ycloud
