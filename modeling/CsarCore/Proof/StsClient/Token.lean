import CsarCore.Framework.Except
import CsarCore.Spec.StsClient

/-!
# A token is not kept longer than it lives

`cache_live_iff`: the cache is right in all runs exactly if no exchange brings a
lifetime of no seconds or less that wraps around to a positive duration.
-/

namespace Csar.Proof.StsClient

open Impl.StsClient Impl.TokenMint Spec.StsClient

/-! ## The window -/

theorem refreshWindow_pos_iff {e : Int} : 0 < refreshWindowForExpiresIn e ↔ 0 < wrap64 (e * second) := by
  -- the computed duration is a multiple of 512, so half of a positive one is positive
  have hmul : wrap64 (e * second) % 512 = 0 := by
    rw [wrap64, Int.bmod_def, second]
    omega
  have hbuffer : 0 < tokenRefreshBuffer := by decide
  rw [refreshWindowForExpiresIn]
  split <;> [omega; skip]
  split <;> [skip; omega]
  rw [Int.tdiv_eq_ediv_of_nonneg (by omega)]
  omega

theorem refreshWindow_le {e : Int} (h : 0 < e) : refreshWindowForExpiresIn e ≤ e * second := by
  have hnonneg : 0 ≤ e * second := Int.mul_nonneg (by omega) (by decide)
  have hwrap := wrap64_le hnonneg
  have hbuffer : 0 < tokenRefreshBuffer := by decide
  rw [refreshWindowForExpiresIn]
  split <;> [omega; skip]
  split <;> [skip; omega]
  rw [Int.tdiv_eq_ediv_of_nonneg (by omega)]
  omega

/-! ## Calls -/

variable {ts ts' : TokenSource} {c : Call} {o : Returned}

theorem call_cases (h : ts.call c = some (ts', o)) :
    (ts.now ≤ c.start ∧ ts.token ≠ [] ∧ c.start < ts.expiry ∧ ts' = { ts with now := c.start } ∧ o = .cached ts.token) ∨
    (ts.now ≤ c.stop ∧ ts' = { ts with now := c.stop } ∧ ∃ err, o = .failed err) ∨
    ∃ resp, c.exchange.result = .ok resp ∧ o = .exchanged resp ∧
      ts' = ⟨resp.accessToken, c.stop + refreshWindowForExpiresIn resp.expiresIn, c.stop⟩ := by
  rw [TokenSource.call] at h
  split at h <;> [cases h; skip]
  split at h
  · rename_i hlive
    cases h
    exact .inl ⟨by omega, hlive.1, hlive.2, rfl, rfl⟩
  · split at h <;> [cases h; skip]
    split at h
    · cases h
      exact .inr (.inl ⟨by omega, rfl, _, rfl⟩)
    · rename_i resp hresp
      cases h
      exact .inr (.inr ⟨resp, hresp, rfl, rfl⟩)

/-- What is kept was received from one of the exchanges `X`; its window ends at `expiry`. -/
def Kept (X : Exchange → Prop) (tr : History) (ts : TokenSource) : Prop :=
  ts.token ≠ [] → ∃ c resp, (c, .exchanged resp) ∈ tr ∧ X c.exchange ∧ c.exchange.result = .ok resp ∧
    resp.accessToken = ts.token ∧ c.stop ≤ ts.now ∧ ts.expiry = c.stop + refreshWindowForExpiresIn resp.expiresIn

variable {X : Exchange → Prop} {tr : History} {start : Int} {resp : TokenResponse}

theorem Kept.later (h : Kept X tr ts) {t : Int} (ht : ts.now ≤ t)
    (event : Call × Returned) : Kept X (event :: tr) { ts with now := t } := by
  intro hne
  obtain ⟨c, resp, hmem, hX, hresp, htoken, hnow, hexpiry⟩ := h hne
  exact ⟨c, resp, List.mem_cons_of_mem event hmem, hX, hresp, htoken, Int.le_trans hnow ht, hexpiry⟩

theorem kept_run (h : (tokenSystem start).RunIf (fun _ _ c => X c.exchange) tr ts) : Kept X tr ts := by
  refine h.inv (I := Kept X) (fun hne => absurd rfl hne) fun {tr ts c ts' o} hkept hX hstep => ?_
  obtain ⟨hstart, -, -, rfl, -⟩ | ⟨hstop, rfl, -⟩ | ⟨resp, hresp, rfl, rfl⟩ := call_cases hstep
  · exact hkept.later hstart _
  · exact hkept.later hstop _
  · intro _
    exact ⟨c, resp, List.mem_cons_self, hX, hresp, rfl, Int.le_refl _, rfl⟩

theorem cached_window {post pre : History}
    (h : (tokenSystem start).RunIf (fun _ _ c => X c.exchange) tr ts) {c : Call} {token : Bytes}
    (hcached : tr = post ++ (c, .cached token) :: pre) :
    ∃ x resp, (x, .exchanged resp) ∈ pre ∧ X x.exchange ∧ x.exchange.result = .ok resp ∧ resp.accessToken = token ∧
      x.stop ≤ c.start ∧ c.start < x.stop + refreshWindowForExpiresIn resp.expiresIn := by
  obtain ⟨ts₀, ts₁, hrun, -, hstep⟩ := h.split hcached
  obtain ⟨hstart, hne, hlive, -, htoken⟩ | ⟨-, -, err, herr⟩ | ⟨resp, -, hresp, -⟩ := call_cases hstep
  · cases htoken
    obtain ⟨x, resp, hmem, hX, hresp, htok, hnow, hexpiry⟩ := kept_run hrun hne
    exact ⟨x, resp, hmem, hX, hresp, htok, Int.le_trans hnow hstart, hexpiry ▸ hlive⟩
  · cases herr
  · cases hresp

/-! ## The cache -/

theorem result_token {x : Exchange} (h : x.result = .ok resp) : resp.accessToken ≠ [] := by
  cases x with
  | answered status body =>
    obtain ⟨-, h⟩ := ite_error_eq_ok.mp h
    split at h <;> [cases h; skip]
    obtain ⟨hne, h⟩ := ite_error_eq_ok.mp h
    cases h
    exact hne
  | _ => cases h

theorem exchanged_then_cached {t : Int} {x : Exchange} (hX : X x)
    (hresp : x.result = .ok resp) (hstart : start ≤ t) (ht : t < start + refreshWindowForExpiresIn resp.expiresIn) :
    ∃ ts, (tokenSystem start).RunIf (fun _ _ c => X c.exchange)
      [(⟨t, x, t⟩, .cached resp.accessToken), (⟨start, x, start⟩, .exchanged resp)] ts := by
  have hfirst : (tokenSystem start).step (tokenSystem start).init ⟨start, x, start⟩ =
      some (⟨resp.accessToken, start + refreshWindowForExpiresIn resp.expiresIn, start⟩, .exchanged resp) := by
    simp [tokenSystem, TokenSource.call, hresp]
  have hsecond : (tokenSystem start).step ⟨resp.accessToken, start + refreshWindowForExpiresIn resp.expiresIn, start⟩
      ⟨t, x, t⟩ =
      some (⟨resp.accessToken, start + refreshWindowForExpiresIn resp.expiresIn, t⟩, .cached resp.accessToken) := by
    simp [tokenSystem, TokenSource.call, result_token hresp, ht, Int.not_lt.mpr hstart]
  exact ⟨_, (System.RunIf.init.step hX hfirst).step hX hsecond⟩

theorem received_singleton {c : Call} {token : Bytes} {r e : Int}
    (h : Received [(c, .exchanged resp)] token r e) : e = resp.expiresIn := by
  obtain ⟨c', resp', hmem, -, -, rfl⟩ := h
  obtain ⟨-, hsame⟩ := Prod.mk.inj (List.mem_singleton.mp hmem)
  cases hsame
  rfl

theorem cache_live_iff (start : Int) (X : Exchange → Prop) :
    (∀ tr ts, (tokenSystem start).RunIf (fun _ _ c => X c.exchange) tr ts → CacheLive tr) ↔
      ∀ x resp, X x → x.result = .ok resp → 0 < wrap64 (resp.expiresIn * second) → 0 < resp.expiresIn := by
  constructor
  · intro h x resp hX hresp hwrap
    have hwindow := refreshWindow_pos_iff.mpr hwrap
    obtain ⟨ts, hrun⟩ := exchanged_then_cached hX hresp (Int.le_refl start) (by omega)
    obtain ⟨r, e, hreceived, hpos, -⟩ := h _ ts hrun [] _ _ _ rfl
    exact received_singleton hreceived ▸ hpos
  · intro h tr ts hrun post pre c token hcached
    obtain ⟨x, resp, hmem, hX, hresp, htoken, hstop, hwindow⟩ := cached_window hrun hcached
    have hpos : 0 < resp.expiresIn := h x.exchange resp hX hresp (refreshWindow_pos_iff.mp (by omega))
    have hle := refreshWindow_le hpos
    exact ⟨x.stop, resp.expiresIn, ⟨x, resp, hmem, htoken, rfl, rfl⟩, hpos, by omega⟩

/-- The STS answers with a lifetime of minus 292 years. -/
def longExpired : Exchange :=
  .answered 200 (utf8 "\x7b\"access_token\":\"t\",\"expires_in\":-9223372037\x7d")

def longExpiredResponse : TokenResponse where
  accessToken := utf8 "t"
  expiresIn := -9223372037

def year : Int := 365 * 86400 * second

/-- A token that has expired when it comes is returned a year later. -/
theorem expired_cached :
    ∃ ts, (tokenSystem 0).Run [(⟨year, longExpired, year⟩, .cached (utf8 "t")),
        (⟨0, longExpired, 0⟩, .exchanged longExpiredResponse)] ts ∧
      ¬ CacheLive [(⟨year, longExpired, year⟩, .cached (utf8 "t")),
        (⟨0, longExpired, 0⟩, .exchanged longExpiredResponse)] := by
  have hresp : longExpired.result = .ok longExpiredResponse := by decide +kernel
  have hwindow : year < 0 + refreshWindowForExpiresIn longExpiredResponse.expiresIn := by decide +kernel
  obtain ⟨ts, hrun⟩ := exchanged_then_cached (X := fun _ => True) trivial hresp (by decide) hwindow
  refine ⟨ts, hrun, fun h => ?_⟩
  obtain ⟨r, e, hreceived, hpos, -⟩ := h [] _ _ _ rfl
  rw [received_singleton hreceived] at hpos
  exact absurd hpos (by decide)

end Csar.Proof.StsClient
