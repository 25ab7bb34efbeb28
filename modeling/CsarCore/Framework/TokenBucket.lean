import Mathlib.Data.List.Basic
import Mathlib.Tactic.Common

/-!
# Token buckets

A bucket holds a number of tokens, and each call takes one if there is one. Some calls
first put tokens in: at most one for each whole period since the last time that was
done, and no more than there is room for.

For calls at times that do not decrease, what is granted up to a time is bounded by the
tokens and the periods until then (`count_until_le`), and what is granted in a window by
the room, the periods in the window and one more (`count_window_le`).
-/

namespace Csar

variable {σ : Type}

/-- Room for `cap` tokens. -/
structure TokenBucket (σ : Type) where
  cap : Int
  period : Int
  tokens : σ → Int
  last : σ → Int
  take : σ → Int → Bool × σ
  period_pos : 0 < period
  take_nonneg {b : σ} : 0 ≤ tokens b → ∀ now, 0 ≤ tokens (take b now).2
  take_le_cap {b : σ} : tokens b ≤ cap → ∀ now, (take b now).1.toNat + tokens (take b now).2 ≤ cap
  /-- Less than a period has passed and nothing is put in, or the whole periods are made up for. -/
  take_cases {b : σ} {now : Int} : last b ≤ now →
    (now - last b < period ∧ last (take b now).2 = last b ∧
      (take b now).1.toNat + tokens (take b now).2 = tokens b) ∨
    (last (take b now).2 = now ∧
      (take b now).1.toNat + tokens (take b now).2 ≤ tokens b + (now - last b) / period)

namespace TokenBucket

/-- The calls at `times`, and whether they are granted. -/
def grants (take : σ → Int → Bool × σ) : σ → List Int → List (Int × Bool)
  | _, [] => []
  | b, now :: times => (now, (take b now).1) :: grants take (take b now).2 times

/-- The bucket after the calls at `times`. -/
def after (take : σ → Int → Bool × σ) (b : σ) (times : List Int) : σ := times.foldl (fun b now => (take b now).2) b

/-- How many calls at times with `p` are granted. -/
def count (p : Int → Bool) : List (Int × Bool) → Nat
  | [] => 0
  | (now, granted) :: log => (p now && granted).toNat + count p log

theorem count_eq_zero {p : Int → Bool} {log : List (Int × Bool)} (h : ∀ g ∈ log, p g.1 = false) : count p log = 0 := by
  induction log with
  | nil => rfl
  | cons g log ih =>
    obtain ⟨hg, hlog⟩ := List.forall_mem_cons.mp h
    rw [count, hg, ih hlog]
    rfl

theorem count_congr {p q : Int → Bool} {log : List (Int × Bool)} (h : ∀ g ∈ log, p g.1 = q g.1) :
    count p log = count q log := by
  induction log with
  | nil => rfl
  | cons g log ih =>
    obtain ⟨hg, hlog⟩ := List.forall_mem_cons.mp h
    rw [count, count, hg, ih hlog]

theorem mem_grants {take : σ → Int → Bool × σ} {times : List Int} {b : σ} {g : Int × Bool}
    (h : g ∈ grants take b times) : g.1 ∈ times := by
  induction times generalizing b with
  | nil => cases h
  | cons now times ih =>
    rcases List.mem_cons.mp h with rfl | h
    · exact List.mem_cons_self
    · exact List.mem_cons_of_mem now (ih h)

theorem count_until_eq_zero {take : σ → Int → Bool × σ} {b : σ} {times : List Int} {t : Int}
    (h : ∀ now ∈ times, t < now) : count (fun now => now ≤ t) (grants take b times) = 0 :=
  count_eq_zero fun g hg => decide_eq_false (Int.not_le.mpr (h g.1 (mem_grants hg)))

theorem ediv_add_ediv_le {p : Int} (hp : 0 < p) (m n : Int) : m / p + n / p ≤ (m + n) / p := by
  rw [Int.le_ediv_iff_mul_le hp, Int.add_mul]
  exact Int.add_le_add (Int.ediv_mul_le m (Int.ne_of_gt hp)) (Int.ediv_mul_le n (Int.ne_of_gt hp))

variable (B : TokenBucket σ)

structure Valid (b : σ) : Prop where
  nonneg : 0 ≤ B.tokens b
  le_cap : B.tokens b ≤ B.cap

variable {B} {b : σ} {times : List Int} {now : Int}

theorem Valid.take (h : B.Valid b) (now : Int) : B.Valid (B.take b now).2 := by
  have hcap := B.take_le_cap h.le_cap now
  exact ⟨B.take_nonneg h.nonneg now, by omega⟩

theorem valid_after (h : B.Valid b) (times : List Int) : B.Valid (after B.take b times) := by
  induction times generalizing b with
  | nil => exact h
  | cons now times ih => exact ih (h.take now)

theorem last_take_le (h : B.last b ≤ now) : B.last (B.take b now).2 ≤ now := by
  obtain ⟨-, hlast, -⟩ | ⟨hlast, -⟩ := B.take_cases h
  · rw [hlast]
    exact h
  · exact Int.le_of_eq hlast

theorem ordered_tail (h : (B.last b :: now :: times).Pairwise (· ≤ ·)) :
    B.last b ≤ now ∧ (∀ t ∈ times, now ≤ t) ∧ (B.last (B.take b now).2 :: times).Pairwise (· ≤ ·) := by
  obtain ⟨hlast, hrest⟩ := List.pairwise_cons.mp h
  obtain ⟨hnow, htimes⟩ := List.pairwise_cons.mp hrest
  have hle := hlast now List.mem_cons_self
  refine ⟨hle, hnow, List.pairwise_cons.mpr ⟨fun t ht => ?_, htimes⟩⟩
  exact Int.le_trans (last_take_le hle) (hnow t ht)

/-- The tokens and the whole periods until `t` pay for a call and for what is left after it. -/
theorem take_potential (h : B.last b ≤ now) (t : Int) :
    (B.take b now).1.toNat + B.tokens (B.take b now).2 + (t - B.last (B.take b now).2) / B.period ≤
      B.tokens b + (t - B.last b) / B.period := by
  obtain ⟨-, hlast, htokens⟩ | ⟨hlast, htokens⟩ := B.take_cases h
  · exact Int.le_of_eq (by rw [hlast, htokens])
  · rw [hlast]
    have hsplit := ediv_add_ediv_le B.period_pos (now - B.last b) (t - now)
    rw [show now - B.last b + (t - now) = t - B.last b by omega] at hsplit
    omega

theorem count_until_le (hb : B.Valid b) (horder : (B.last b :: times).Pairwise (· ≤ ·)) {t : Int} (ht : B.last b ≤ t) :
    (count (fun now => now ≤ t) (grants B.take b times) : Int) ≤ B.tokens b + (t - B.last b) / B.period := by
  have hperiods : 0 ≤ (t - B.last b) / B.period := Int.ediv_nonneg (by omega) (Int.le_of_lt B.period_pos)
  induction times generalizing b with
  | nil =>
    have hnonneg := hb.nonneg
    rw [grants, count]
    omega
  | cons now times ih =>
    obtain ⟨hlast, hnow, hrest⟩ := ordered_tail horder
    by_cases hle : now ≤ t
    · have hlast' : B.last (B.take b now).2 ≤ t := Int.le_trans (last_take_le hlast) hle
      have hcount := ih (hb.take now) hrest hlast'
        (Int.ediv_nonneg (by omega) (Int.le_of_lt B.period_pos))
      have hpotential := take_potential hlast t
      rw [grants, count, decide_eq_true hle, Bool.true_and]
      push_cast
      omega
    · have hlater : ∀ t' ∈ now :: times, t < t' :=
        List.forall_mem_cons.mpr ⟨by omega, fun t' ht' => Int.lt_of_lt_of_le (by omega) (hnow t' ht')⟩
      have hnonneg := hb.nonneg
      rw [count_until_eq_zero hlater]
      omega

/-- Up to `a + w`, a first call at or after `a`: at most `cap`, one for each whole period, and one more
for what had passed of a period before `a`. -/
theorem count_until_window_le (hb : B.Valid b) (horder : (B.last b :: now :: times).Pairwise (· ≤ ·))
    {a w : Int} (ha : a ≤ now) (hw : now ≤ a + w) :
    (count (fun now => now ≤ a + w) (grants B.take b (now :: times)) : Int) ≤ B.cap + 1 + w / B.period := by
  have hperiod := B.period_pos
  obtain ⟨hlast, -, hrest⟩ := ordered_tail horder
  obtain ⟨hearly, -, -⟩ | ⟨hrefill, -⟩ := B.take_cases hlast
  · have hcount := count_until_le hb horder (Int.le_trans hlast hw)
    have hperiods : (a + w - B.last b) / B.period ≤ (w + 1 * B.period) / B.period :=
      Int.ediv_le_ediv hperiod (by omega)
    rw [Int.add_mul_ediv_right _ _ (Int.ne_of_gt hperiod)] at hperiods
    have hcap := hb.le_cap
    omega
  · have hcount := count_until_le (hb.take now) hrest (Int.le_trans (Int.le_of_eq hrefill) hw)
    rw [hrefill] at hcount
    have hperiods : (a + w - now) / B.period ≤ w / B.period := Int.ediv_le_ediv hperiod (by omega)
    have hcap := B.take_le_cap hb.le_cap now
    rw [grants, count, decide_eq_true hw, Bool.true_and]
    push_cast
    omega

theorem count_window_le (hb : B.Valid b) (horder : (B.last b :: times).Pairwise (· ≤ ·)) (a : Int) {w : Int}
    (hw : 0 ≤ w) :
    (count (fun now => a ≤ now ∧ now ≤ a + w) (grants B.take b times) : Int) ≤ B.cap + 1 + w / B.period := by
  have hperiod := B.period_pos
  have hperiods : 0 ≤ w / B.period := Int.ediv_nonneg hw (Int.le_of_lt hperiod)
  have hcap : 0 ≤ B.cap := Int.le_trans hb.nonneg hb.le_cap
  induction times generalizing b with
  | nil =>
    rw [grants, count]
    omega
  | cons now times ih =>
    obtain ⟨hlast, hnow, hrest⟩ := ordered_tail horder
    by_cases hbefore : now < a
    · -- a call before the window is not counted
      have hout : (decide (a ≤ now ∧ now ≤ a + w)) = false := decide_eq_false fun h => by omega
      rw [grants, count, hout, Bool.false_and]
      have hcount := ih (hb.take now) hrest
      rw [Bool.toNat_false, Nat.zero_add]
      exact hcount
    · have hfrom : ∀ t ∈ now :: times, a ≤ t :=
        List.forall_mem_cons.mpr ⟨by omega, fun t ht => Int.le_trans (by omega) (hnow t ht)⟩
      have hwindow : count (fun now => a ≤ now ∧ now ≤ a + w) (grants B.take b (now :: times)) =
          count (fun now => now ≤ a + w) (grants B.take b (now :: times)) :=
        count_congr fun g hg => by simp [hfrom g.1 (mem_grants hg)]
      rw [hwindow]
      by_cases hle : now ≤ a + w
      · exact count_until_window_le hb horder (by omega) hle
      · have hlater : ∀ t ∈ now :: times, a + w < t :=
          List.forall_mem_cons.mpr ⟨by omega, fun t ht => Int.lt_of_lt_of_le (by omega) (hnow t ht)⟩
        rw [count_until_eq_zero hlater]
        omega

end TokenBucket

end Csar
