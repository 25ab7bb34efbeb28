import Mathlib.Data.List.Basic

/-!
# Lists that come in pages

A pager has a page for every token, and some pages name the token of a next one.
`Leads` are the pages from a token on and where the last of them leads; `Pages` are all
of them, where they end. `collect` is the loop that goes from page to page, gathers
something for every item and may fail.
-/

namespace Csar

structure Pager (τ π : Type) where
  page : τ → π
  next : π → Option τ

namespace Pager

variable {τ π ι α ε : Type} {P : Pager τ π} {t : τ} {ps : List π} {o : Option τ}

/-- The pages from `t` on, and where the last one leads. -/
inductive Leads (P : Pager τ π) : τ → List π → Option τ → Prop
  | here (t : τ) : Leads P t [P.page t] (P.next (P.page t))
  | on {t t' : τ} {ps : List π} {o : Option τ} (h : P.next (P.page t) = some t') (hps : Leads P t' ps o) :
    Leads P t (P.page t :: ps) o

abbrev Pages (P : Pager τ π) (t : τ) (ps : List π) : Prop := P.Leads t ps none

theorem Leads.length_pos (h : P.Leads t ps o) : 0 < ps.length := by
  cases h <;> exact Nat.succ_pos _

/-- Fetches every item, and adds what comes to `acc`. -/
def gather (fetch : ι → Except ε α) : List ι → List α → Except ε (List α)
  | [], acc => .ok acc
  | x :: xs, acc =>
    match fetch x with
    | .error e => .error e
    | .ok a => gather fetch xs (acc ++ [a])

/-- Goes through at most `n` pages; `none`: there are more. -/
def collect (P : Pager τ π) (items : π → List ι) (fetch : ι → Except ε α) :
    Nat → τ → List α → Option (Except ε (List α))
  | 0, _, _ => none
  | n + 1, t, acc =>
    match gather fetch (items (P.page t)) acc with
    | .error e => some (.error e)
    | .ok acc =>
      match P.next (P.page t) with
      | none => some (.ok acc)
      | some t' => collect P items fetch n t' acc

variable {items : π → List ι} {fetch : ι → Except ε α} {acc acc' : List α} {r : Except ε (List α)} {m n : Nat}
  {xs ys : List ι}

theorem gather_append :
    gather fetch (xs ++ ys) acc =
      match gather fetch xs acc with
      | .error e => .error e
      | .ok acc => gather fetch ys acc := by
  induction xs generalizing acc with
  | nil => rfl
  | cons x xs ih =>
    rw [List.cons_append, gather, gather]
    cases fetch x with
    | error e => rfl
    | ok a => exact ih

theorem gather_ok_iff :
    gather fetch xs acc = .ok acc' ↔ ∃ es, acc' = acc ++ es ∧ List.Forall₂ (fun x e => fetch x = .ok e) xs es := by
  induction xs generalizing acc with
  | nil =>
    rw [gather]
    constructor
    · intro h
      exact ⟨[], by rw [List.append_nil]; exact (Except.ok.inj h).symm, .nil⟩
    · rintro ⟨es, rfl, hes⟩
      cases hes
      rw [List.append_nil]
  | cons x xs ih =>
    rw [gather]
    constructor
    · intro h
      split at h
      · cases h
      · rename_i a ha
        obtain ⟨es, rfl, hes⟩ := ih.mp h
        exact ⟨a :: es, List.append_assoc .., .cons ha hes⟩
    · rintro ⟨es, rfl, hes⟩
      cases hes with
      | @cons _ a _ es ha hes =>
        rw [ha]
        exact ih.mpr ⟨es, by rw [List.append_assoc]; rfl, hes⟩

theorem gather_error_iff : (∃ e, gather fetch xs acc = .error e) ↔ ∃ x ∈ xs, ∃ e, fetch x = .error e := by
  induction xs generalizing acc with
  | nil =>
    refine ⟨fun ⟨e, he⟩ => ?_, fun ⟨x, hx, _⟩ => absurd hx List.not_mem_nil⟩
    cases he
  | cons x xs ih =>
    rw [gather]
    cases hx : fetch x with
    | error e => exact ⟨fun _ => ⟨x, List.mem_cons_self, e, hx⟩, fun _ => ⟨e, rfl⟩⟩
    | ok a =>
      refine ih.trans ⟨fun ⟨y, hy, he⟩ => ⟨y, List.mem_cons_of_mem x hy, he⟩, fun ⟨y, hy, e, he⟩ => ?_⟩
      rcases List.mem_cons.mp hy with rfl | hy
      · rw [hx] at he
        cases he
      · exact ⟨y, hy, e, he⟩

theorem collect_length (h : P.Leads t ps o) :
    P.collect items fetch (ps.length + n) t acc = match gather fetch (ps.flatMap items) acc with
      | .error e => some (.error e)
      | .ok acc' => o.elim (some (.ok acc')) fun t' => P.collect items fetch n t' acc' := by
  induction h generalizing acc with
  | here t =>
    rw [List.flatMap_singleton, List.length_singleton, Nat.add_comm, collect]
    cases gather fetch (items (P.page t)) acc with
    | error e => rfl
    | ok acc' => cases P.next (P.page t) <;> rfl
  | @on t t' ps o hn hps ih =>
    rw [List.flatMap_cons, gather_append, List.length_cons, Nat.add_right_comm, collect, hn]
    cases gather fetch (items (P.page t)) acc with
    | error e => rfl
    | ok acc' => exact ih

theorem collect_error (h : P.Leads t ps o) {e : ε} (hg : gather fetch (ps.flatMap items) acc = .error e) :
    P.collect items fetch (ps.length + n) t acc = some (.error e) := by
  rw [collect_length h, hg]

theorem collect_leads (h : P.Leads t ps o) (hg : gather fetch (ps.flatMap items) acc = .ok acc') :
    P.collect items fetch (ps.length + n) t acc =
      o.elim (some (.ok acc')) fun t' => P.collect items fetch n t' acc' := by
  rw [collect_length h, hg]

theorem collect_mono (h : P.collect items fetch n t acc = some r) (hnm : n ≤ m) :
    P.collect items fetch m t acc = some r := by
  induction n generalizing t acc m with
  | zero => cases h
  | succ n ih =>
    obtain ⟨m, rfl⟩ : ∃ k, m = k + 1 := ⟨m - 1, by omega⟩
    rw [collect] at h ⊢
    split at h
    · exact h
    · split at h
      · exact h
      · exact ih h (by omega)

theorem collect_unique {r' : Except ε (List α)} (h : P.collect items fetch n t acc = some r)
    (h' : P.collect items fetch m t acc = some r') : r = r' := by
  have hn := collect_mono h (Nat.le_max_left n m)
  have hm := collect_mono h' (Nat.le_max_right n m)
  exact Option.some.inj (hn.symm.trans hm)

theorem collect_ok (h : P.collect items fetch n t acc = some (.ok acc')) :
    ∃ ps, P.Pages t ps ∧ gather fetch (ps.flatMap items) acc = .ok acc' := by
  induction n generalizing t acc with
  | zero => cases h
  | succ n ih =>
    rw [collect] at h
    split at h
    · cases h
    · rename_i acc₁ hg
      split at h
      · rename_i hnext
        cases h
        have hpage : P.Pages t [P.page t] := by
          rw [Pages, ← hnext]
          exact .here t
        exact ⟨[P.page t], hpage, by rw [List.flatMap_singleton]; exact hg⟩
      · rename_i t' hnext
        obtain ⟨ps, hps, hg'⟩ := ih h
        refine ⟨P.page t :: ps, .on hnext hps, ?_⟩
        rw [List.flatMap_cons, gather_append, hg]
        exact hg'

/-- Where pages lead back to the first of them, the loop has no end. -/
theorem collect_cycle (h : P.Leads t ps (some t)) (hf : ∀ x ∈ ps.flatMap items, ∃ a, fetch x = .ok a) :
    P.collect items fetch n t acc = none := by
  have hgo : ∀ k acc, P.collect items fetch (k * ps.length) t acc = none := by
    intro k
    induction k with
    | zero =>
      intro acc
      rw [Nat.zero_mul]
      rfl
    | succ k ih =>
      intro acc
      rw [Nat.succ_mul, Nat.add_comm]
      cases hg : gather fetch (ps.flatMap items) acc with
      | ok acc' => exact (collect_leads h hg).trans (ih acc')
      | error e =>
        obtain ⟨x, hx, e, he⟩ := gather_error_iff.mp ⟨e, hg⟩
        obtain ⟨a, ha⟩ := hf x hx
        rw [he] at ha
        cases ha
  cases hc : P.collect items fetch n t acc with
  | none => rfl
  | some r =>
    have hle : n ≤ n * ps.length := Nat.le_mul_of_pos_right n h.length_pos
    have hmore := collect_mono hc hle
    rw [hgo n acc] at hmore
    cases hmore

end Pager

end Csar
