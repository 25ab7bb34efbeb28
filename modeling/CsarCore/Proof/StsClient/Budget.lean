import CsarCore.Framework.TokenBucket
import CsarCore.Impl.StsClient.Retry

/-!
# The retry budget is a token bucket

`take` is the operation of a token bucket with room for 20 and a period of a second
(`retryBucket`), so the bounds of the bucket hold of it: `budget_bounds`.
-/

namespace Csar.Proof.StsClient

open Impl.StsClient Impl.TokenMint TokenBucket

variable {b : RetryBudget} {now : Int}

/-- Nothing before a second has passed, and then at most the whole seconds. -/
theorem refill_cases (b : RetryBudget) (now : Int) :
    (now - b.last < second ∧ b.refill now = b) ∨
    ∃ k, 1 ≤ k ∧ k ≤ (now - b.last) / second ∧ b.refill now = ⟨min routerRetryBudgetCap (b.tokens + k), now⟩ := by
  have hsub : timeSub now b.last ≥ second ↔ now - b.last ≥ second := by
    rw [timeSub, minInt64, maxInt64, second]
    omega
  rw [RetryBudget.refill, routerRetryRefill]
  split
  · rename_i hlong
    refine .inr ⟨_, ?_, ?_, rfl⟩ <;> rw [Int.tdiv_eq_ediv_of_nonneg (Int.le_trans (by decide) hlong)]
    · rw [second] at hlong ⊢
      omega
    · refine Int.ediv_le_ediv (by decide) ?_
      rw [timeSub, minInt64, maxInt64]
      have hpos := hsub.mp hlong
      rw [second] at hpos
      omega
  · rename_i hshort
    exact .inl ⟨Int.not_le.mp fun h => hshort (hsub.mpr h), rfl⟩

theorem take_tokens (b : RetryBudget) (now : Int) :
    ((b.take now).1.toNat + (b.take now).2.tokens : Int) = (b.refill now).tokens ∧
      (b.take now).2.last = (b.refill now).last ∧ (0 ≤ (b.refill now).tokens → 0 ≤ (b.take now).2.tokens) := by
  rw [RetryBudget.take]
  split
  · exact ⟨by simp, rfl, id⟩
  · rename_i hpos
    refine ⟨?_, rfl, fun _ => ?_⟩ <;> dsimp only [Bool.toNat_true] <;> omega

def retryBucket : TokenBucket RetryBudget where
  cap := routerRetryBudgetCap
  period := routerRetryRefill
  tokens := (·.tokens)
  last := (·.last)
  take := RetryBudget.take
  period_pos := by decide
  take_nonneg := by
    intro b hb now
    refine (take_tokens b now).2.2 ?_
    obtain ⟨-, h⟩ | ⟨k, hk, -, h⟩ := refill_cases b now
    · rw [h]
      exact hb
    · rw [h, routerRetryBudgetCap]
      dsimp only
      omega
  take_le_cap := by
    intro b hb now
    rw [(take_tokens b now).1]
    obtain ⟨-, h⟩ | ⟨k, -, -, h⟩ := refill_cases b now
    · rw [h]
      exact hb
    · rw [h]
      exact Int.min_le_left ..
  take_cases := by
    intro b now _
    obtain ⟨htokens, hlast, -⟩ := take_tokens b now
    obtain ⟨hshort, h⟩ | ⟨k, -, hk, h⟩ := refill_cases b now
    · rw [h] at htokens hlast
      exact .inl ⟨hshort, hlast, htokens⟩
    · rw [h] at htokens hlast
      refine .inr ⟨hlast, htokens.trans_le ?_⟩
      exact Int.le_trans (Int.min_le_right ..) (Int.add_le_add_left hk _)

theorem valid_newBudget (c : Int) : retryBucket.Valid (newBudget c) :=
  ⟨show 0 ≤ routerRetryBudgetCap by decide, Int.le_refl _⟩

theorem budget_bounds (c : Int) (times : List Int) (horder : (c :: times).Pairwise (· ≤ ·)) :
    (∀ pre, pre <+: times → 0 ≤ (after RetryBudget.take (newBudget c) pre).tokens ∧
      (after RetryBudget.take (newBudget c) pre).tokens ≤ 20) ∧
    (∀ t, c ≤ t → (count (fun now => now ≤ t) (grants RetryBudget.take (newBudget c) times) : Int) ≤
      20 + (t - c) / second) ∧
    ∀ a w, 0 ≤ w → (count (fun now => a ≤ now ∧ now ≤ a + w) (grants RetryBudget.take (newBudget c) times) : Int) ≤
      21 + w / second := by
  refine ⟨fun pre _ => ?_, fun t ht => ?_, fun a w hw => ?_⟩
  · have hvalid := valid_after (valid_newBudget c) pre
    exact ⟨hvalid.nonneg, hvalid.le_cap⟩
  · exact count_until_le (valid_newBudget c) horder ht
  · exact count_window_le (valid_newBudget c) horder a hw

/-- In a window of a second, 22 takes at most. -/
theorem budget_bounds_second :
    (count (fun now => 500000000 ≤ now ∧ now ≤ 500000000 + second)
      (grants RetryBudget.take (newBudget 0) [0, 500000000, 500000000, 1500000000]) : Int) ≤ 22 :=
  (budget_bounds 0 [0, 500000000, 500000000, 1500000000] (by decide)).2.2 500000000 second (by decide)

end Csar.Proof.StsClient
