import CsarCore.Framework.Run
import Mathlib.Logic.Function.Basic

/-!
# Schema migrations

From `pgutil/migrate.go`: `RunMigrations`, called by any number of processes on one
database. An action is one request of a process with what the database answers, or
the end of the process. A migration's `Up` and the record of its name commit together,
and the primary key of the tracking table lets a name be committed once.
-/

namespace Csar.Impl.Pgutil

structure Migration where
  name : String
  up : String
  deriving DecidableEq

/-- What is committed: the names in the tracking table (`none`: there is no table), and the migrations
whose `Up` took effect, oldest first. -/
structure DB where
  table : Option (List String)
  effects : List Migration

def DB.recorded (db : DB) : List String := db.table.getD []

/-- Where a call of `RunMigrations` is: about to create the table; at the head of the loop; past the
query that the first migration is not applied; in its transaction, before `Up`, after `Up` and after the
insert; after the commit, whose answer is on its way; returned; gone. -/
inductive RunPoint
  | start
  | loop (rest : List Migration)
  | absent (m : Migration) (rest : List Migration)
  | begun (m : Migration) (rest : List Migration)
  | upped (m : Migration) (rest : List Migration)
  | inserted (m : Migration) (rest : List Migration)
  | committed (m : Migration) (rest : List Migration)
  | finished (result : Except String Unit)
  | crashed

structure Migrations (κ : Type) where
  db : DB
  procs : κ → RunPoint

/-- `err`: the error that comes back instead of an answer. `answer`: what `tx.Commit` returns once the
transaction is committed. -/
inductive Request
  | create (err : Option String)
  | check (err : Option String)
  | begin (err : Option String)
  | up (err : Option String)
  | insert (err : Option String)
  | commit (err : Option String)
  | answer (err : Option String)
  | leave
  | crash
  deriving DecidableEq

inductive MigrateEvent
  | went
  | committed (m : Migration)
  | failed (message : String)
  | returned
  | crashed
  deriving DecidableEq

/-- A step of one process: the database, its point and what there is to see. -/
def request (ms : List Migration) (db : DB) : RunPoint → Request → Option (DB × RunPoint × MigrateEvent)
  | .start, .create none => some ({ db with table := some db.recorded }, .loop ms, .went)
  | .start, .create (some err) => failing ("creating migrations table: " ++ err)
  | .loop [], .leave => some (db, .finished (.ok ()), .returned)
  | .loop (m :: rest), .check none =>
    match db.table with
    | none => none
    | some names =>
      if m.name ∈ names then some (db, .loop rest, .went)
      else some (db, .absent m rest, .went)
  | .loop (m :: _), .check (some err) => failing ("checking migration " ++ m.name ++ ": " ++ err)
  | .absent m rest, .begin none => some (db, .begun m rest, .went)
  | .absent m _, .begin (some err) => failing ("beginning migration " ++ m.name ++ ": " ++ err)
  | .begun m rest, .up none => some (db, .upped m rest, .went)
  | .begun m _, .up (some err) => failing ("applying migration " ++ m.name ++ ": " ++ err)
  | .upped m rest, .insert none => some (db, .inserted m rest, .went)
  | .upped m _, .insert (some err) => failing ("recording migration " ++ m.name ++ ": " ++ err)
  | .inserted m rest, .commit none =>
    match db.table with
    | none => none
    | some names =>
      -- the primary key: a transaction with a name that is recorded cannot commit
      if m.name ∈ names then none
      else some (⟨some (names ++ [m.name]), db.effects ++ [m]⟩, .committed m rest, .committed m)
  | .inserted m _, .commit (some err) => failing ("committing migration " ++ m.name ++ ": " ++ err)
  | .committed _ rest, .answer none => some (db, .loop rest, .went)
  | .committed m _, .answer (some err) => failing ("committing migration " ++ m.name ++ ": " ++ err)
  | .finished _, _ => none
  | .crashed, _ => none
  | _, .crash => some (db, .crashed, .crashed)
  | _, _ => none
where
  /-- The process returns an error; an open transaction is rolled back. -/
  failing (message : String) : Option (DB × RunPoint × MigrateEvent) :=
    some (db, .finished (.error message), .failed message)

variable {κ : Type} [DecidableEq κ]

/-- The step of an action: which process takes which step. -/
def migrateStep (ms : List Migration) (s : Migrations κ) (a : κ × Request) : Option (Migrations κ × MigrateEvent) :=
  match request ms s.db (s.procs a.1) a.2 with
  | none => none
  | some (db, p, o) => some (⟨db, Function.update s.procs a.1 p⟩, o)

/-- Processes that run the migrations `ms`, without a tracking table at first. -/
def migrateSystem (κ : Type) [DecidableEq κ] (ms : List Migration) :
    System (Migrations κ) (κ × Request) MigrateEvent where
  init := ⟨⟨none, []⟩, fun _ => .start⟩
  step := migrateStep ms

end Csar.Impl.Pgutil
