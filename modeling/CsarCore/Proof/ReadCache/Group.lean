import CsarCore.Spec.ReadCache

/-!
# The in-flight registry: admission

`begin_cases` is what `Begin` can do. The invariant (`Inv`) ties the map, the follower
counts, the results and the release functions to the history, and every operation keeps
it (`inv_step`). `group_admission` is what it says of every run.
-/

namespace Csar.Proof.ReadCache

open Impl.ReadCache Spec.ReadCache

variable {τ ε : Type}

/-! ## The operations -/

/-- What `Begin` can do: refuse, admit a follower or admit a leader. -/
theorem begin_cases (lim : Limits) (g : Group τ ε) (key : Key) :
    (lim.badKey key ∧ g.begin lim key = (g, .refused .key)) ∨
    (¬ lim.badKey key ∧ g.begin lim key = (g, .refused .capacity) ∧
      ((∃ c, (key, c) ∈ g.calls ∧ lim.maxFollowers ≤ (g.heap c).followers) ∨
        (∀ q ∈ g.calls, q.1 ≠ key) ∧ lim.maxKeys ≤ g.calls.rows.length)) ∨
    (¬ lim.badKey key ∧ ∃ c, (key, c) ∈ g.calls ∧ (g.heap c).followers < lim.maxFollowers ∧
      g.begin lim key = (g.follow c, .follower c g.nextRelease)) ∨
    (¬ lim.badKey key ∧ ∃ h : ∀ q ∈ g.calls, q.1 ≠ key, (g.calls.rows.length : Int) < lim.maxKeys ∧
      g.begin lim key = (g.lead key h, .leader g.next g.nextRelease)) := by
  unfold Group.begin
  by_cases hk : lim.badKey key
  · exact .inl ⟨hk, if_pos hk⟩
  · rw [if_neg hk]
    right
    split
    · rename_i k c hf
      obtain ⟨hm, rfl⟩ := Table.find?_eq_some.mp hf
      split
      · rename_i hc; exact .inl ⟨hk, rfl, .inl ⟨c, hm, hc⟩⟩
      · rename_i hc; exact .inr (.inl ⟨hk, c, hm, by omega, rfl⟩)
    · rename_i hf
      have hn := Table.find?_eq_none.mp hf
      split
      · rename_i hc; exact .inl ⟨hk, rfl, .inr ⟨hn, hc⟩⟩
      · rename_i hc; exact .inr (.inr ⟨hk, hn, by omega, rfl⟩)

theorem release_cases (g : Group τ ε) (i : Nat) :
    (g.release i = g ∧ ∀ c, g.releases i ≠ .follower c false) ∨
    ∃ c, g.releases i = .follower c false ∧
      g.release i = { g with
        heap := Function.update g.heap c { g.heap c with followers := (g.heap c).followers - 1 }
        releases := Function.update g.releases i (.follower c true) } := by
  unfold Group.release
  split
  · rename_i c hr; exact .inr ⟨c, hr, rfl⟩
  · rename_i hr; exact .inl ⟨rfl, hr⟩

theorem finish_cases (g : Group τ ε) (key : Key) (call : Option Nat) (out : Outcome τ ε) :
    (g.finish key call out = (g, false) ∧ ∀ c, call = some c → (key, c) ∉ g.calls) ∨
    ∃ c, call = some c ∧ (key, c) ∈ g.calls ∧ g.finish key call out = ({ g with
        calls := g.calls.deleteWhere fun q => q.1 == key
        heap := Function.update g.heap c { g.heap c with result := some out } }, true) := by
  unfold Group.finish
  rcases call with _ | c
  · exact .inl ⟨rfl, by simp⟩
  · dsimp only
    split
    · rename_i hf
      refine .inl ⟨rfl, fun c' hc hm => hf ?_⟩
      cases hc
      exact Table.find?_eq_some.mpr ⟨hm, rfl⟩
    · rename_i hf
      exact .inr ⟨c, rfl, (Table.find?_eq_some.mp (not_not.mp hf)).1, rfl⟩

/-! ## The invariant -/

/-- The map holds the unfinished calls, each with a ticket of its own; results and follower counts are as
the history says, within the limits; a follower is attached until its release runs. -/
structure Inv (lim : Limits) (tr : History τ ε) (g : Group τ ε) : Prop where
  calls : g.calls.rows = unfinished tr
  keys : ∀ x ∈ unfinished tr, ¬ lim.badKey x.1
  issued : ∀ x ∈ unfinished tr, x.2 < g.next
  tickets : ∀ x ∈ unfinished tr, ∀ y ∈ unfinished tr, x.2 = y.2 → x = y
  results : ∀ c, (g.heap c).result = (completions c tr).head?
  once : ∀ c, (completions c tr).length ≤ 1
  pending : ∀ x ∈ unfinished tr, completions x.2 tr = []
  done : ∀ c < g.next, (∃ key, (key, c) ∈ unfinished tr) ∨ completions c tr ≠ []
  followers : ∀ c, (g.heap c).followers = (attached c tr).length
  bound : ∀ c, ((attached c tr).length : Int) ≤ lim.maxFollowers
  size : ((unfinished tr).length : Int) ≤ lim.maxKeys
  release : ∀ c i, i ∈ attached c tr ↔ i < g.nextRelease ∧ g.releases i = .follower c false
  nodup : ∀ c, (attached c tr).Nodup
  fresh : ∀ c, g.next ≤ c → completions c tr = [] ∧ attached c tr = []

variable {lim : Limits} {tr : History τ ε} {g : Group τ ε} {key : Key}

theorem Inv.mem_calls (h : Inv lim tr g) {x : Key × Nat} : x ∈ g.calls ↔ x ∈ unfinished tr := by
  rw [Table.mem_def, h.calls]

theorem Inv.same (h : Inv lim tr g) {e : Op τ ε × Res τ ε} (hu : unfinished (e :: tr) = unfinished tr)
    (ha : ∀ c, attached c (e :: tr) = attached c tr)
    (hc : ∀ c, completions c (e :: tr) = completions c tr) : Inv lim (e :: tr) g := by
  constructor <;> simp only [hu, ha, hc]
  exacts [h.calls, h.keys, h.issued, h.tickets, h.results, h.once, h.pending, h.done, h.followers, h.bound,
    h.size, h.release, h.nodup, h.fresh]

theorem inv_follow (h : Inv lim tr g) {c : Nat} (hm : (key, c) ∈ g.calls)
    (hf : (g.heap c).followers < lim.maxFollowers) :
    Inv lim ((.begin key, .follower c g.nextRelease) :: tr) (g.follow c) where
  calls := h.calls
  keys := h.keys
  issued := h.issued
  tickets := h.tickets
  results d := by
    rw [show completions d ((.begin key, .follower c g.nextRelease) :: tr) = completions d tr from rfl,
      ← h.results d]
    simp only [Group.follow, Function.update_apply]
    split <;> simp [*]
  once := h.once
  pending := h.pending
  done := h.done
  followers d := by
    simp only [Group.follow, attached, Function.update_apply, eq_comm (a := c)]
    split
    · subst d; simp [h.followers c]
    · exact h.followers d
  bound d := by
    have hc := h.followers c
    simp only [attached]
    split
    · subst d; simp only [List.length_cons]; omega
    · exact h.bound d
  size := h.size
  release d i := by
    simp only [attached, Group.follow, Function.update_apply]
    have hi := h.release d i
    by_cases e : i = g.nextRelease
    · subst e
      have : g.nextRelease ∉ attached d tr := fun hm => by have := (hi.mp hm).1; omega
      split <;> simp_all
    · rw [if_neg e]
      have : i < g.nextRelease + 1 ↔ i < g.nextRelease := by omega
      split <;> simp [e, hi, this]
  nodup d := by
    simp only [attached]
    split
    · refine List.nodup_cons.mpr ⟨fun hm => ?_, h.nodup d⟩
      have := ((h.release d _).mp hm).1
      omega
    · exact h.nodup d
  fresh d hd := by
    have hlt : c < g.next := h.issued _ (h.mem_calls.mp hm)
    have hd : g.next ≤ d := hd
    rw [show completions d ((.begin key, .follower c g.nextRelease) :: tr) = completions d tr from rfl]
    simp only [attached, if_neg (show c ≠ d by omega)]
    exact h.fresh d hd

theorem inv_lead (h : Inv lim tr g) (hb : ¬ lim.badKey key) (hn : ∀ q ∈ g.calls, q.1 ≠ key)
    (hs : (g.calls.rows.length : Int) < lim.maxKeys) :
    Inv lim ((.begin key, .leader g.next g.nextRelease) :: tr) (g.lead key hn) where
  calls := by simp [Group.lead, Table.insert, unfinished, h.calls]
  keys x hx := by
    simp only [unfinished, List.mem_cons] at hx
    rcases hx with rfl | hx
    · exact hb
    · exact h.keys x hx
  issued x hx := by
    simp only [unfinished, List.mem_cons] at hx
    simp only [Group.lead]
    rcases hx with rfl | hx
    · simp
    · have := h.issued x hx; omega
  tickets x hx y hy e := by
    simp only [unfinished, List.mem_cons] at hx hy
    rcases hx with rfl | hx <;> rcases hy with rfl | hy
    · rfl
    · have := h.issued y hy; simp only at e; omega
    · have := h.issued x hx; simp only at e; omega
    · exact h.tickets x hx y hy e
  results d := by
    rw [show completions d ((.begin key, .leader g.next g.nextRelease) :: tr) = completions d tr from rfl]
    simp only [Group.lead, Function.update_apply]
    split
    · subst d; simp [(h.fresh _ le_rfl).1]
    · exact h.results d
  once := h.once
  pending x hx := by
    simp only [unfinished, List.mem_cons] at hx
    rcases hx with rfl | hx
    · exact (h.fresh _ le_rfl).1
    · exact h.pending x hx
  done d hd := by
    simp only [Group.lead] at hd
    simp only [unfinished, List.mem_cons]
    rcases Nat.lt_succ_iff_lt_or_eq.mp hd with hd | rfl
    · rcases h.done d hd with ⟨k, hk⟩ | hk
      · exact .inl ⟨k, .inr hk⟩
      · exact .inr hk
    · exact .inl ⟨key, .inl rfl⟩
  followers d := by
    rw [show attached d ((.begin key, .leader g.next g.nextRelease) :: tr) = attached d tr from rfl]
    simp only [Group.lead, Function.update_apply]
    split
    · subst d; simp [(h.fresh _ le_rfl).2]
    · exact h.followers d
  bound := h.bound
  size := by
    simp only [unfinished, List.length_cons, ← h.calls]
    omega
  release d i := by
    rw [show attached d ((.begin key, .leader g.next g.nextRelease) :: tr) = attached d tr from rfl,
      h.release d i]
    simp only [Group.lead, Function.update_apply]
    by_cases e : i = g.nextRelease
    · subst e; simp
    · rw [if_neg e]; exact and_congr_left fun _ => by omega
  nodup := h.nodup
  fresh d hd := by
    simp only [Group.lead] at hd
    exact h.fresh d (by omega)

theorem inv_begin (h : Inv lim tr g) (key : Key) :
    Inv lim ((.begin key, (g.begin lim key).2) :: tr) (g.begin lim key).1 := by
  rcases begin_cases lim g key with ⟨-, e⟩ | ⟨-, e, -⟩ | ⟨-, c, hm, hf, e⟩ | ⟨hb, hn, hs, e⟩ <;> rw [e]
  · exact h.same rfl (fun _ => rfl) fun _ => rfl
  · exact h.same rfl (fun _ => rfl) fun _ => rfl
  · exact inv_follow h hm hf
  · exact inv_lead h hb hn hs

theorem inv_release (h : Inv lim tr g) {i : Nat} (hi : i < g.nextRelease) :
    Inv lim ((.release i, .released) :: tr) (g.release i) := by
  rcases release_cases g i with ⟨e, hr⟩ | ⟨c, hr, e⟩ <;> rw [e]
  · refine h.same rfl (fun c => ?_) fun _ => rfl
    refine List.filter_eq_self.mpr fun j hj => ?_
    have : j ≠ i := fun e => hr c (e ▸ ((h.release c j).mp hj).2)
    simpa using this
  · have hother : ∀ d, d ≠ c → attached d ((.release i, .released) :: tr) = attached d tr := by
      intro d hd
      refine List.filter_eq_self.mpr fun j hj => ?_
      have : j ≠ i := by
        rintro rfl
        have := ((h.release d j).mp hj).2
        rw [hr] at this
        cases this
        exact hd rfl
      simpa using this
    have hlen : (attached c ((.release i, .released) :: tr)).length + 1 = (attached c tr).length := by
      have hm : i ∈ attached c tr := (h.release c i).mpr ⟨hi, hr⟩
      simp only [attached]
      rw [← (h.nodup c).erase_eq_filter, List.length_erase_of_mem hm]
      have := List.length_pos_of_mem hm
      omega
    exact {
      calls := h.calls
      keys := h.keys
      issued := h.issued
      tickets := h.tickets
      results := fun d => by
        rw [show completions d ((.release i, .released) :: tr) = completions d tr from rfl, ← h.results d]
        simp only [Function.update_apply]
        split <;> simp [*]
      once := h.once
      pending := h.pending
      done := h.done
      followers := fun d => by
        simp only [Function.update_apply]
        have hc := h.followers c
        split
        · subst d; simp only; omega
        · rename_i hd; rw [hother d hd]; exact h.followers d
      bound := fun d => by
        have := h.bound d
        by_cases hd : d = c
        · subst hd; omega
        · rw [hother d hd]; exact this
      size := h.size
      release := fun d j => by
        simp only [attached, List.mem_filter, h.release d j, bne_iff_ne, Function.update_apply]
        by_cases e : j = i
        · subst e; simp
        · simp [e]
      nodup := fun d => (h.nodup d).filter _
      fresh := fun d hd => by
        have := h.fresh d hd
        exact ⟨this.1, by simp [attached, this.2]⟩ }

theorem inv_accepted (h : Inv lim tr g) {c : Nat} {out : Outcome τ ε} (hm : (key, c) ∈ g.calls) :
    Inv lim ((.finish key (some c) out, .finished true) :: tr) { g with
      calls := g.calls.deleteWhere fun q => q.1 == key
      heap := Function.update g.heap c { g.heap c with result := some out } } where
  calls := by
    simp only [Table.deleteWhere, unfinished, ← h.calls]
    refine List.filter_congr fun q hq => ?_
    by_cases e : q.1 = key
    · have : q = (key, c) := Table.eq_of_key hq hm e
      simp [this]
    · have : q.2 ≠ c := by
        intro e'
        have := h.tickets q (h.mem_calls.mp hq) _ (h.mem_calls.mp hm) e'
        exact e (by rw [this])
      simp [bne, beq_false_of_ne e, beq_false_of_ne this]
  keys x hx := h.keys x (List.mem_of_mem_filter hx)
  issued x hx := h.issued x (List.mem_of_mem_filter hx)
  tickets x hx y hy := h.tickets x (List.mem_of_mem_filter hx) y (List.mem_of_mem_filter hy)
  results d := by
    simp only [completions, Function.update_apply, eq_comm (a := c)]
    split
    · rfl
    · exact h.results d
  once d := by
    simp only [completions]
    split
    · subst d; simp [h.pending _ (h.mem_calls.mp hm)]
    · exact h.once d
  pending x hx := by
    simp only [unfinished, List.mem_filter, bne_iff_ne] at hx
    simp only [completions, if_neg (Ne.symm hx.2)]
    exact h.pending x hx.1
  done d hd := by
    by_cases e : d = c
    · exact .inr (by simp [completions, e])
    · simp only [completions, unfinished, if_neg (Ne.symm e), List.mem_filter, bne_iff_ne]
      rcases h.done d hd with ⟨k, hk⟩ | hk
      · exact .inl ⟨k, hk, e⟩
      · exact .inr hk
  followers d := by
    rw [show attached d ((.finish key (some c) out, .finished true) :: tr) = attached d tr from rfl,
      ← h.followers d]
    simp only [Function.update_apply]
    split <;> simp [*]
  bound := h.bound
  size := by
    have : (unfinished ((.finish key (some c) out, .finished true) :: tr)).length ≤
      (unfinished tr).length := List.length_filter_le _ _
    have := h.size
    omega
  release := h.release
  nodup := h.nodup
  fresh d hd := by
    have hlt : c < g.next := h.issued _ (h.mem_calls.mp hm)
    have hd : g.next ≤ d := hd
    rw [show attached d ((.finish key (some c) out, .finished true) :: tr) = attached d tr from rfl]
    simp only [completions, if_neg (show c ≠ d by omega)]
    exact h.fresh d hd

theorem inv_finish (h : Inv lim tr g) (key : Key) (call : Option Nat) (out : Outcome τ ε) :
    Inv lim ((.finish key call out, .finished (g.finish key call out).2) :: tr)
      (g.finish key call out).1 := by
  rcases finish_cases g key call out with ⟨e, -⟩ | ⟨c, rfl, hm, e⟩ <;> rw [e]
  · refine h.same ?_ (fun _ => rfl) fun _ => ?_ <;> cases call <;> rfl
  · exact inv_accepted h hm

section Runs

variable {lim : GroupLimits} {tr : History τ ε} {g g' : Group τ ε}

theorem inv_init : Inv lim.toLimits [] (Group.init : Group τ ε) := by
  have := lim.pos
  constructor <;> simp [Group.init, Table.empty, unfinished, attached, completions] <;> omega

/-- The answer of `Begin`, from the history alone. -/
theorem Inv.begin_answer (h : Inv lim.toLimits tr g) (key : Key) :
    ((g.begin lim.toLimits key).2 = .refused .key ↔ lim.badKey key) ∧
    ((g.begin lim.toLimits key).2 = .refused .capacity ↔ ¬ lim.badKey key ∧
      ((∃ c, (key, c) ∈ unfinished tr ∧ (attached c tr).length = lim.maxFollowers) ∨
        (∀ c, (key, c) ∉ unfinished tr) ∧ (unfinished tr).length = lim.maxKeys)) ∧
    ((∀ e, (g.begin lim.toLimits key).2 ≠ .refused e) →
      ((∃ c i, (g.begin lim.toLimits key).2 = .leader c i) ↔ ∀ c, (key, c) ∉ unfinished tr)) := by
  have hnone : (∀ q ∈ g.calls, q.1 ≠ key) ↔ ∀ c, (key, c) ∉ unfinished tr := by
    refine ⟨fun hn c hm => hn _ (h.mem_calls.mpr hm) rfl, fun hn q hq e => hn q.2 ?_⟩
    rw [← e]
    exact h.mem_calls.mp hq
  have hkey : ∀ {c d}, (key, c) ∈ unfinished tr → (key, d) ∈ unfinished tr → c = d := fun hc hd =>
    congrArg Prod.snd (Table.eq_of_key (h.mem_calls.mpr hc) (h.mem_calls.mpr hd) rfl)
  have hsize := h.size
  rcases begin_cases lim.toLimits g key with
    ⟨hb, e⟩ | ⟨hb, e, hcap⟩ | ⟨hb, c, hm, hf, e⟩ | ⟨hb, hn, hs, e⟩ <;> rw [e]
  · simp [hb]
  · refine ⟨by simp [hb], ⟨fun _ => ⟨hb, ?_⟩, fun _ => rfl⟩, fun hr => absurd rfl (hr .capacity)⟩
    rcases hcap with ⟨c, hm, hc⟩ | ⟨hn, hk⟩
    · have := h.bound c
      rw [h.followers c] at hc
      exact .inl ⟨c, h.mem_calls.mp hm, by omega⟩
    · rw [h.calls] at hk
      exact .inr ⟨hnone.mp hn, by omega⟩
  · have hm := h.mem_calls.mp hm
    rw [h.followers c] at hf
    refine ⟨by simp [hb], ?_, fun _ => ?_⟩
    · simp only [reduceCtorEq, false_iff, not_and_or, not_or]
      refine .inr ⟨?_, .inl fun hn => hn c hm⟩
      rintro ⟨d, hd, hlen⟩
      rw [hkey hd hm] at hlen
      omega
    · simp only [reduceCtorEq, exists_false, false_iff]
      exact fun hn => hn c hm
  · have hn := hnone.mp hn
    rw [h.calls] at hs
    refine ⟨by simp [hb], ?_, fun _ => ?_⟩
    · simp only [reduceCtorEq, false_iff, not_and_or, not_or]
      exact .inr ⟨fun ⟨c, hc, _⟩ => hn c hc, .inr (by omega)⟩
    · exact ⟨fun _ => hn, fun _ => ⟨_, _, rfl⟩⟩

variable [Inhabited τ]

theorem step_cases {o : Op τ ε} {r : Res τ ε} (h : step lim g o = some (g', r)) :
    (∃ key, o = .begin key ∧ g.begin lim.toLimits key = (g', r)) ∨
    (∃ i < g.nextRelease, o = .release i ∧ g' = g.release i ∧ r = .released) ∨
    (∃ key call out, o = .finish key call out ∧ g' = (g.finish key call out).1 ∧
      r = .finished (g.finish key call out).2) ∨
    ∃ c ended out, o = .wait c ended ∧ g' = g ∧ (g.heap c).wait ended = some out ∧ r = .waited out := by
  cases o with
  | begin key =>
    simp only [step, Option.some.injEq] at h
    exact .inl ⟨key, rfl, h⟩
  | release i =>
    simp only [step] at h
    split at h <;> [skip; cases h]
    rename_i hi
    simp only [Option.some.injEq, Prod.mk.injEq] at h
    exact .inr (.inl ⟨i, hi, rfl, h.1.symm, h.2.symm⟩)
  | finish key call out =>
    simp only [step, Option.some.injEq, Prod.mk.injEq] at h
    exact .inr (.inr (.inl ⟨key, call, out, rfl, h.1.symm, h.2.symm⟩))
  | wait c ended =>
    simp only [step, Option.map_eq_some_iff, Prod.mk.injEq] at h
    obtain ⟨out, ho, rfl, rfl⟩ := h
    exact .inr (.inr (.inr ⟨c, ended, out, rfl, rfl, ho, rfl⟩))

theorem inv_step {o : Op τ ε} {r : Res τ ε} (h : Inv lim.toLimits tr g)
    (hs : step lim g o = some (g', r)) : Inv lim.toLimits ((o, r) :: tr) g' := by
  rcases step_cases hs with ⟨key, rfl, e⟩ | ⟨i, hi, rfl, rfl, rfl⟩ | ⟨key, call, out, rfl, rfl, rfl⟩ |
    ⟨c, ended, out, rfl, rfl, -, rfl⟩
  · have := inv_begin h key
    rwa [e] at this
  · exact inv_release h hi
  · exact inv_finish h key call out
  · exact h.same rfl (fun _ => rfl) fun _ => rfl

theorem inv_run (h : (system lim).Run tr g) : Inv lim.toLimits tr g :=
  System.RunIf.inv inv_init (fun h _ hs => inv_step h hs) h

/-! ## Admission -/

/-- After every run each key has at most one unfinished call, there are at most `MaxKeys` of them, and
the follower count of a call is the number of its followers whose release has not run, at most
`MaxFollowers`. A `Begin` is refused exactly for a bad key or at one of the two limits; otherwise it
answers "leader" exactly if the key has no unfinished call. -/
theorem group_admission (lim : GroupLimits) (tr : History τ ε) (g : Group τ ε)
    (h : (system lim).Run tr g) :
    g.calls.rows = unfinished tr ∧
    (∀ key c d, (key, c) ∈ unfinished tr → (key, d) ∈ unfinished tr → c = d) ∧
    ((unfinished tr).length : Int) ≤ lim.maxKeys ∧
    (∀ c, (g.heap c).followers = (attached c tr).length ∧ 0 ≤ (g.heap c).followers ∧
      (g.heap c).followers ≤ lim.maxFollowers) ∧
    ∀ key g' r, step lim g (.begin key) = some (g', r) →
      (r = .refused .key ↔ lim.badKey key) ∧
      (r = .refused .capacity ↔ ¬ lim.badKey key ∧
        ((∃ c, (key, c) ∈ unfinished tr ∧ (attached c tr).length = lim.maxFollowers) ∨
          (∀ c, (key, c) ∉ unfinished tr) ∧ (unfinished tr).length = lim.maxKeys)) ∧
      ((∀ e, r ≠ .refused e) → ((∃ c i, r = .leader c i) ↔ ∀ c, (key, c) ∉ unfinished tr)) := by
  have hi := inv_run h
  refine ⟨hi.calls, fun key c d hc hd => ?_, hi.size, fun c => ?_, fun key g' r hs => ?_⟩
  · exact congrArg Prod.snd (Table.eq_of_key (hi.mem_calls.mpr hc) (hi.mem_calls.mpr hd) rfl)
  · have := hi.followers c
    have := hi.bound c
    exact ⟨hi.followers c, by omega, by omega⟩
  · simp only [step, Option.some.injEq] at hs
    have := hi.begin_answer key
    rwa [hs] at this

theorem group_admission_follower :
    let lim : GroupLimits := ⟨⟨1, 1, 8⟩, by decide⟩
    ∃ (tr : History Nat Empty) (g : Group Nat Empty), (system lim).Run tr g ∧
      unfinished tr = [([97], 0)] ∧ (attached 0 tr).length = 1 ∧
      (g.heap 0).followers = (attached 0 tr).length := by
  intro lim
  have h := System.run_of_exec (system lim) [(.begin [97] : Op Nat Empty), .begin [97]] rfl
  exact ⟨_, _, h, rfl, rfl, ((group_admission lim _ _ h).2.2.2.1 0).1⟩

/-- A `Begin` for a key without an unfinished call may be refused. -/
theorem group_begin_refused :
    let lim : GroupLimits := ⟨⟨1, 1, 8⟩, by decide⟩
    ∃ (tr : History Nat Empty) (g g' : Group Nat Empty), (system lim).Run tr g ∧
      (∀ c, ([98], c) ∉ unfinished tr) ∧
      step lim g (.begin [98]) = some (g', .refused .capacity) := by
  intro lim
  have h := System.run_of_exec (system lim) [(.begin [97] : Op Nat Empty)] rfl
  exact ⟨_, _, _, h, by simp [unfinished], rfl⟩

end Runs

end Csar.Proof.ReadCache
