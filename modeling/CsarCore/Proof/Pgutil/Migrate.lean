import CsarCore.Spec.Pgutil.Migrate
import Mathlib.Data.List.Nodup

/-!
# Migrations applied once and in order

`RequestMoves` is what a process can do in a step (`moved_of_request`). A process at
some migration has seen all before it committed (`Behind`), so the next to be committed
is the first that is not (`commit_next`): the primary key rules out the others.
-/

namespace Csar.Proof.Pgutil

open Impl.Pgutil Spec.Pgutil

variable {κ : Type} [DecidableEq κ] {ms : List Migration} {db db' : DB} {p p' : RunPoint} {r : Request}
  {o : MigrateEvent} {s : Migrations κ} {tr : MigrateHistory κ}

/-! ## Steps -/

/-- The migrations that a process has not gone past. -/
def remaining : RunPoint → Option (List Migration)
  | .loop rest => some rest
  | .absent m rest => some (m :: rest)
  | .begun m rest => some (m :: rest)
  | .upped m rest => some (m :: rest)
  | .inserted m rest => some (m :: rest)
  | .committed _ rest => some rest
  | _ => none

def Over : RunPoint → Prop
  | .finished _ => True
  | .crashed => True
  | _ => False

inductive RequestMoves (ms : List Migration) (db : DB) : RunPoint → DB → RunPoint → MigrateEvent → Prop
  | create : RequestMoves ms db .start { db with table := some db.recorded } (.loop ms) .went
  | skip {m : Migration} {rest : List Migration} (hm : m.name ∈ db.recorded) :
    RequestMoves ms db (.loop (m :: rest)) db (.loop rest) .went
  | on {p p' : RunPoint} (hp : ¬ Over p) (hp' : ¬ Over p') (hrest : remaining p' = remaining p) :
    RequestMoves ms db p db p' .went
  | commit {m : Migration} {rest : List Migration} {names : List String} (ht : db.table = some names)
      (hm : m.name ∉ names) :
    RequestMoves ms db (.inserted m rest) ⟨some (names ++ [m.name]), db.effects ++ [m]⟩ (.committed m rest) (.committed m)
  | ended {p p' : RunPoint} {o : MigrateEvent} (hp : ¬ Over p) (hp' : Over p') (ho : ∀ m, o ≠ .committed m) :
    RequestMoves ms db p db p' o

def Moved (ms : List Migration) (db : DB) (p : RunPoint) (db' : DB) (p' : RunPoint) (o : MigrateEvent) : Prop :=
  RequestMoves ms db p db' p' o ∧ (Fails o → db' = db ∧ Over p')

theorem moved_failing {message : String} (hp : ¬ Over p) (h : request.failing db message = some (db', p', o)) :
    Moved ms db p db' p' o := by
  cases h
  exact ⟨.ended hp trivial nofun, fun _ => ⟨rfl, trivial⟩⟩

theorem moved_crash (hp : ¬ Over p) (h : some (db, RunPoint.crashed, MigrateEvent.crashed) = some (db', p', o)) :
    Moved ms db p db' p' o := by
  cases h
  exact ⟨.ended hp trivial nofun, fun _ => ⟨rfl, trivial⟩⟩

theorem moved_on {q : RunPoint} (h : some (db, q, MigrateEvent.went) = some (db', p', o)) (hp : ¬ Over p)
    (hq : ¬ Over q) (hrest : remaining q = remaining p) : Moved ms db p db' p' o := by
  cases h
  exact ⟨.on hp hq hrest, nofun⟩

variable {m : Migration} {rest : List Migration}

theorem moved_check (h : request ms db (.loop (m :: rest)) (.check none) = some (db', p', o)) :
    Moved ms db (.loop (m :: rest)) db' p' o := by
  simp only [request] at h
  split at h
  · cases h
  · rename_i names ht
    split at h <;> cases h
    · exact ⟨.skip (by rwa [DB.recorded, ht]), nofun⟩
    · exact ⟨.on id id rfl, nofun⟩

theorem moved_commit (h : request ms db (.inserted m rest) (.commit none) = some (db', p', o)) :
    Moved ms db (.inserted m rest) db' p' o := by
  simp only [request] at h
  split at h
  · cases h
  · rename_i names ht
    split at h <;> cases h
    exact ⟨.commit ht ‹_›, nofun⟩

theorem moved_of_request (h : request ms db p r = some (db', p', o)) : Moved ms db p db' p' o := by
  cases p with
  | start =>
    cases r with
    | create err =>
      rcases err with _ | err
      · cases h
        exact ⟨.create, nofun⟩
      · exact moved_failing id h
    | crash => exact moved_crash id h
    | _ => cases h
  | loop rest =>
    rcases rest with _ | ⟨m, rest⟩
    · cases r with
      | leave =>
        cases h
        exact ⟨.ended id trivial nofun, nofun⟩
      | crash => exact moved_crash id h
      | _ => cases h
    · cases r with
      | check err =>
        rcases err with _ | err
        · exact moved_check h
        · exact moved_failing id h
      | crash => exact moved_crash id h
      | _ => cases h
  | absent m rest =>
    cases r with
    | begin err =>
      rcases err with _ | err
      · exact moved_on h id id rfl
      · exact moved_failing id h
    | crash => exact moved_crash id h
    | _ => cases h
  | begun m rest =>
    cases r with
    | up err =>
      rcases err with _ | err
      · exact moved_on h id id rfl
      · exact moved_failing id h
    | crash => exact moved_crash id h
    | _ => cases h
  | upped m rest =>
    cases r with
    | insert err =>
      rcases err with _ | err
      · exact moved_on h id id rfl
      · exact moved_failing id h
    | crash => exact moved_crash id h
    | _ => cases h
  | inserted m rest =>
    cases r with
    | commit err =>
      rcases err with _ | err
      · exact moved_commit h
      · exact moved_failing id h
    | crash => exact moved_crash id h
    | _ => cases h
  | committed m rest =>
    cases r with
    | answer err =>
      rcases err with _ | err
      · exact moved_on h id id rfl
      · exact moved_failing id h
    | crash => exact moved_crash id h
    | _ => cases h
  | finished result | crashed => cases r <;> cases h

theorem moved_of_step {s' : Migrations κ} {k : κ} (h : migrateStep ms s (k, r) = some (s', o)) :
    ∃ p', s'.procs = Function.update s.procs k p' ∧ Moved ms s.db (s.procs k) s'.db p' o := by
  unfold migrateStep at h
  split at h <;> cases h
  exact ⟨_, rfl, moved_of_request ‹_›⟩

/-! ## The prefix -/

/-- All migrations that a process is past are committed. -/
def Behind (ms effects : List Migration) (p : RunPoint) : Prop :=
  ∀ rest, remaining p = some rest → ∃ done, ms = done ++ rest ∧ done <+: effects

structure Committed (ms : List Migration) (db : DB) : Prop where
  inOrder : db.effects <+: ms
  named : db.recorded = db.effects.map Migration.name

theorem Behind.mono {effects effects' : List Migration} (h : Behind ms effects p) (he : effects <+: effects') :
    Behind ms effects' p := by
  intro rest hrest
  obtain ⟨done, hms, hdone⟩ := h rest hrest
  exact ⟨done, hms, hdone.trans he⟩

theorem prefix_snoc {α : Type} {done l rest : List α} {x : α} (hd : done <+: l) (hl : l <+: done ++ x :: rest)
    (hne : l ≠ done) : done ++ [x] <+: l := by
  obtain ⟨t, rfl⟩ := hd
  rcases t with _ | ⟨y, t⟩
  · exact absurd (List.append_nil done) hne
  · rw [List.prefix_append_right_inj, List.cons_prefix_cons] at hl
    rw [List.prefix_append_right_inj, hl.1]
    exact List.prefix_append [x] t

theorem commit_next (hc : Committed ms db)
    (hb : Behind ms db.effects (.inserted m rest)) (hm : m.name ∉ db.recorded) :
    ms = db.effects ++ m :: rest := by
  obtain ⟨done, hms, hdone⟩ := hb _ rfl
  have heq : db.effects = done := by
    by_contra hne
    have hsnoc := prefix_snoc hdone (hms ▸ hc.inOrder) hne
    refine hm ?_
    rw [hc.named]
    exact List.mem_map_of_mem (hsnoc.subset (List.mem_append_right done List.mem_cons_self))
  rw [heq]
  exact hms

theorem skip_committed (hd : (ms.map Migration.name).Nodup) (hc : Committed ms db)
    (hb : Behind ms db.effects (.loop (m :: rest))) (hm : m.name ∈ db.recorded) : Behind ms db.effects (.loop rest) := by
  rintro _ ⟨⟩
  obtain ⟨done, hms, hdone⟩ := hb _ rfl
  refine ⟨done ++ [m], by rw [hms, List.append_assoc]; rfl, prefix_snoc hdone (hms ▸ hc.inOrder) ?_⟩
  intro heq
  rw [hc.named, heq] at hm
  rw [hms, List.map_append, List.nodup_append] at hd
  exact hd.2.2 m.name hm m.name (List.mem_map_of_mem List.mem_cons_self) rfl

theorem moved_committed (hd : (ms.map Migration.name).Nodup) (hc : Committed ms db) (hb : Behind ms db.effects p)
    (hm : Moved ms db p db' p' o) : Committed ms db' ∧ db.effects <+: db'.effects ∧ Behind ms db'.effects p' := by
  cases hm.1 with
  | create =>
    refine ⟨⟨hc.inOrder, hc.named⟩, List.prefix_rfl, ?_⟩
    rintro _ ⟨⟩
    exact ⟨[], rfl, List.nil_prefix⟩
  | skip hname => exact ⟨hc, List.prefix_rfl, skip_committed hd hc hb hname⟩
  | on hp hp' hrest =>
    refine ⟨hc, List.prefix_rfl, fun rest hr => hb rest ?_⟩
    rw [← hrest]
    exact hr
  | @commit m rest names ht hname =>
    have hrec : db.recorded = names := by rw [DB.recorded, ht]; rfl
    have hms := commit_next hc hb (hrec ▸ hname)
    have hms' : ms = (db.effects ++ [m]) ++ rest := by rw [List.append_assoc]; exact hms
    refine ⟨⟨?_, ?_⟩, List.prefix_append _ _, ?_⟩
    · exact ⟨rest, hms'.symm⟩
    · show names ++ [m.name] = (db.effects ++ [m]).map Migration.name
      rw [List.map_append, ← hc.named, hrec]
      rfl
    · rintro _ ⟨⟩
      exact ⟨db.effects ++ [m], hms', List.prefix_rfl⟩
  | ended hp hp' =>
    refine ⟨hc, List.prefix_rfl, fun rest hr => ?_⟩
    cases p' with
    | finished result => cases hr
    | crashed => cases hr
    | _ => exact absurd hp' id

/-! ## Whole runs -/

theorem committed_run (hd : (ms.map Migration.name).Nodup) (h : (migrateSystem κ ms).Run tr s) :
    Committed ms s.db ∧ ∀ k, Behind ms s.db.effects (s.procs k) := by
  refine System.RunIf.inv (I := fun _ s => Committed ms s.db ∧ ∀ k, Behind ms s.db.effects (s.procs k)) ?_ ?_ h
  · exact ⟨⟨List.nil_prefix, rfl⟩, fun k => nofun⟩
  · intro tr s ⟨k, r⟩ s' o ⟨hc, hb⟩ _ hs
    obtain ⟨p', hprocs, hm⟩ := moved_of_step hs
    obtain ⟨hc', hgrow, hb'⟩ := moved_committed hd hc (hb k) hm
    refine ⟨hc', fun j => ?_⟩
    rw [hprocs]
    by_cases hjk : j = k
    · rw [hjk, Function.update_self]
      exact hb'
    · rw [Function.update_of_ne hjk]
      exact (hb j).mono hgrow

theorem appliedOnce (hd : (ms.map Migration.name).Nodup) (hc : Committed ms db) : AppliedOnce ms db := by
  have hnames : db.recorded <+: ms.map Migration.name := by
    rw [hc.named]
    exact hc.inOrder.map _
  refine ⟨hc.inOrder, hnames, fun name hname => ?_, fun m hm => ?_⟩
  · have hnodup : db.recorded.Nodup := hd.sublist hnames.sublist
    rw [hc.named] at hname hnodup
    have hcount : (db.effects.map Migration.name).count name = 1 := List.count_eq_one_of_mem hnodup hname
    rw [List.count, List.countP_map] at hcount
    rw [← hcount]
    refine List.countP_congr fun m _ => ?_
    simp
  · rw [hc.named]
    exact List.mem_map_of_mem hm

theorem not_over_of_moves (hm : RequestMoves ms db p db' p' o) : ¬ Over p := by
  cases hm with
  | ended hp hp' => exact hp
  | on hp hp' hrest => exact hp
  | _ => exact id

theorem over_stays {pre post : MigrateHistory κ} {s₀ : Migrations κ} {k : κ} (h₀ : (migrateSystem κ ms).Run pre s₀)
    (hover : Over (s₀.procs k)) (h : (migrateSystem κ ms).Run (post ++ pre) s) : ∀ e ∈ post, e.1.1 ≠ k := by
  have hstays : Over (s.procs k) ∧ ∀ e ∈ post, e.1.1 ≠ k := by
    refine System.RunIf.after (I := fun post s => Over (s.procs k) ∧ ∀ e ∈ post, e.1.1 ≠ k) h₀
      ⟨hover, fun _ he => absurd he List.not_mem_nil⟩ ?_ h
    intro post s ⟨j, r⟩ s' o _ ⟨hk, hpost⟩ hs
    obtain ⟨p', hprocs, hm⟩ := moved_of_step hs
    have hjk : j ≠ k := by
      rintro rfl
      exact not_over_of_moves hm.1 hk
    refine ⟨?_, fun e he => ?_⟩
    · rw [hprocs, Function.update_of_ne hjk.symm]
      exact hk
    · rcases List.mem_cons.mp he with rfl | he
      · exact hjk
      · exact hpost e he
  exact hstays.2

omit [DecidableEq κ] in
theorem commits_cons (k : κ) (r : Request) (o : MigrateEvent) (tr : MigrateHistory κ) :
    commits (((k, r), o) :: tr) = commits tr ++ (match o with | .committed m => [(k, m)] | _ => []) := by
  unfold commits
  rw [List.reverse_cons, List.filterMap_append]
  cases o <;> rfl

theorem effects_moves (hm : RequestMoves ms db p db' p' o) :
    db'.effects = db.effects ++ (match o with | .committed m => [m] | _ => []) := by
  cases hm with
  | commit ht hm => rfl
  | ended hp hp' ho =>
    cases o with
    | committed m => exact absurd rfl (ho m)
    | _ => exact (List.append_nil _).symm
  | _ => exact (List.append_nil _).symm

theorem effects_run (h : (migrateSystem κ ms).Run tr s) : s.db.effects = (commits tr).map Prod.snd := by
  refine System.RunIf.inv (I := fun tr s => s.db.effects = (commits tr).map Prod.snd) rfl ?_ h
  intro tr s ⟨k, r⟩ s' o he _ hs
  obtain ⟨p', -, hm⟩ := moved_of_step hs
  rw [effects_moves hm.1, he, commits_cons, List.map_append]
  cases o <;> rfl

/-- The steps of other processes are not its commits. -/
theorem commits_others {k : κ} {post pre : MigrateHistory κ} (hpost : ∀ e ∈ post, e.1.1 ≠ k) :
    (commits (post ++ pre)).filter (·.1 = k) = (commits pre).filter (·.1 = k) := by
  induction post with
  | nil => rfl
  | cons e post ih =>
    obtain ⟨⟨j, r⟩, o⟩ := e
    have hjk : j ≠ k := hpost _ List.mem_cons_self
    rw [List.cons_append, commits_cons, List.filter_append, ih fun e he => hpost e (List.mem_cons_of_mem _ he)]
    cases o <;> simp [hjk]

theorem accounted_run (h : (migrateSystem κ ms).Run tr s) : Accounted tr s.db := by
  refine ⟨effects_run h, ?_⟩
  rintro post pre k r o rfl hf
  obtain ⟨s₀, s₁, h₀, -, hs⟩ := h.split rfl
  obtain ⟨p', hprocs, hm⟩ := moved_of_step hs
  have hover : Over (s₁.procs k) := by
    rw [hprocs, Function.update_self]
    exact (hm.2 hf).2
  have hothers := over_stays (System.Run.step h₀ hs) hover h
  refine ⟨?_, hothers⟩
  rw [commits_others hothers, commits_cons]
  cases o with
  | committed m => exact absurd hf id
  | _ => rw [List.append_nil]

/-- However many processes run the migrations at once, and wherever they fail: what is committed is the
beginning of the list, each recorded name with the effect of its `Up` once and no effect without its
name; and a run that fails has committed what it had before it failed, no less and no more. -/
theorem migrations_once (hd : (ms.map Migration.name).Nodup) (h : (migrateSystem κ ms).Run tr s) :
    AppliedOnce ms s.db ∧ Accounted tr s.db :=
  ⟨appliedOnce hd (committed_run hd h).1, accounted_run h⟩

/-- The requests of a process up to the insert of a name. -/
def applyRequests {κ : Type} (k : κ) : List (κ × Request) :=
  [(k, .check none), (k, .begin none), (k, .up none), (k, .insert none)]

/-- Two processes find the first migration not applied; one commits it, the other fails at the primary key. -/
theorem migrations_once_race :
    ∃ tr s, (migrateSystem Bool [⟨"001", "a"⟩, ⟨"002", "b"⟩]).Run tr s ∧ s.db.effects = [⟨"001", "a"⟩, ⟨"002", "b"⟩] ∧
      AppliedOnce [⟨"001", "a"⟩, ⟨"002", "b"⟩] s.db ∧ Accounted tr s.db := by
  obtain ⟨tr, s, h, he⟩ : ∃ tr s, (migrateSystem Bool [⟨"001", "a"⟩, ⟨"002", "b"⟩]).Run tr s ∧
      s.db.effects = [⟨"001", "a"⟩, ⟨"002", "b"⟩] :=
    ⟨_, _, System.run_of_exec _ ((true, .create none) :: (false, .create none) :: applyRequests true ++
      applyRequests false ++ [(false, .commit none), (true, .commit (some "duplicate key")), (false, .answer none)] ++
      applyRequests false ++ [(false, .commit none), (false, .crash)]) rfl, rfl⟩
  exact ⟨tr, s, h, he, migrations_once (by decide) h⟩

/-- A run commits the first migration and fails in the second; another does not get the answer to its
commit. Both return an error, and the first migration is in the database. -/
theorem migrations_failed_committed :
    (∃ tr s, (migrateSystem Unit [⟨"001", "a"⟩, ⟨"002", "b"⟩]).Run tr s ∧ s.db.effects = [⟨"001", "a"⟩] ∧
      s.procs () = .finished (.error "applying migration 002: no")) ∧
    ∃ tr s, (migrateSystem Unit [⟨"001", "a"⟩, ⟨"002", "b"⟩]).Run tr s ∧ s.db.effects = [⟨"001", "a"⟩] ∧
      s.procs () = .finished (.error "committing migration 001: reset") :=
  ⟨⟨_, _, System.run_of_exec _ (((), .create none) :: applyRequests () ++ [((), .commit none), ((), .answer none),
      ((), .check none), ((), .begin none), ((), .up (some "no"))]) rfl, rfl, rfl⟩,
    _, _, System.run_of_exec _ (((), .create none) :: applyRequests () ++ [((), .commit none),
      ((), .answer (some "reset"))]) rfl, rfl, rfl⟩

end Csar.Proof.Pgutil
