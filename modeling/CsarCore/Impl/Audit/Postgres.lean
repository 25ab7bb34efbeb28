import CsarCore.Framework.Base64
import CsarCore.Framework.Strings
import CsarCore.Framework.Table
import CsarCore.Framework.Time
import Mathlib.Data.List.Sort

/-!
# Listing audit events

From `audit/postgres.go` and `audit/store.go`: `PostgresStore.List` on the table
`audit_events`, and the cursors. A query is its conditions with the numbers of their
placeholders, and its arguments. The order of the column `id` is a parameter. Instants
are compared as they are, and are read from the table in UTC.
-/

namespace Csar.Impl.Audit

/-- A row of `audit_events`. -/
structure AuditRow where
  id : Bytes
  actor : Bytes
  action : Bytes
  targetType : Bytes
  targetID : Bytes
  scopeType : Bytes
  scopeID : Bytes
  beforeState : Option Bytes
  afterState : Option Bytes
  metadata : Option Bytes
  createdAt : Int
  deriving DecidableEq

abbrev AuditEvents := Table AuditRow AuditRow.id

structure Event where
  id : Bytes
  service : Bytes
  actor : Bytes
  action : Bytes
  targetType : Bytes
  targetID : Bytes
  scopeType : Bytes
  scopeID : Bytes
  beforeState : Option Bytes
  afterState : Option Bytes
  metadata : Option Bytes
  requestID : Bytes
  clientIP : Bytes
  createdAt : Int
  deriving DecidableEq

structure ListFilter where
  scopeType : Bytes := []
  scopeID : Bytes := []
  service : Bytes := []
  actor : Bytes := []
  action : Bytes := []
  targetType : Bytes := []
  targetID : Bytes := []
  requestID : Bytes := []
  since : Option Int := none
  untilTime : Option Int := none
  cursor : Bytes := []
  limit : Int := 0
  deriving DecidableEq

structure ListResult where
  events : List Event
  nextCursor : Bytes
  deriving DecidableEq

/-! ## Cursors -/

def bar : UInt8 := 0x7C

def encodeCursor (t : Int) (id : Bytes) : Bytes := Base64.rawURL.encode (Time.format t ++ bar :: id)

def decodeCursor (cursor : Bytes) : Option (Int × Bytes) :=
  match Base64.rawURL.decode cursor with
  | none => none
  | some b =>
    match Strings.cut b bar with
    | none => none
    | some (time, id) => (Time.parse time).map fun t => (t, id)

/-! ## Queries -/

/-- The order of the column `id`. -/
structure IDOrder where
  lt : Bytes → Bytes → Bool
  irrefl : ∀ a, lt a a = false
  trans : ∀ a b c, lt a b = true → lt b c = true → lt a c = true
  total : ∀ a b, a ≠ b → lt a b = true ∨ lt b a = true

/-- Comes first in the order of byte strings, which is that of the texts of UUIDs. -/
def bytesLt : Bytes → Bytes → Bool
  | _, [] => false
  | [], _ :: _ => true
  | a :: as, b :: bs => decide (a.toNat < b.toNat) || (decide (a = b) && bytesLt as bs)

theorem bytesLt_cons {a b : UInt8} {as bs : Bytes} :
    bytesLt (a :: as) (b :: bs) = true ↔ a.toNat < b.toNat ∨ a = b ∧ bytesLt as bs = true := by
  simp [bytesLt]

theorem bytesLt_trans (a b c : Bytes) (hab : bytesLt a b = true) (hbc : bytesLt b c = true) : bytesLt a c = true := by
  induction a generalizing b c with
  | nil =>
    rcases c with _ | ⟨z, c⟩
    · rcases b with _ | ⟨y, b⟩ <;> cases hbc
    · rfl
  | cons x a ih =>
    rcases b with _ | ⟨y, b⟩ <;> [cases hab; skip]
    rcases c with _ | ⟨z, c⟩ <;> [cases hbc; skip]
    rw [bytesLt_cons] at hab hbc ⊢
    rcases hab with hab | ⟨rfl, hab⟩
    · rcases hbc with hbc | ⟨rfl, -⟩
      · exact .inl (Nat.lt_trans hab hbc)
      · exact .inl hab
    · rcases hbc with hbc | ⟨rfl, hbc⟩
      · exact .inl hbc
      · exact .inr ⟨rfl, ih b c hab hbc⟩

theorem bytesLt_irrefl (a : Bytes) : bytesLt a a = false := by
  induction a with
  | nil => rfl
  | cons x a ih => simp [bytesLt, ih]

theorem bytesLt_total (a b : Bytes) (h : a ≠ b) : bytesLt a b = true ∨ bytesLt b a = true := by
  induction a generalizing b with
  | nil =>
    rcases b with _ | ⟨y, b⟩
    · exact absurd rfl h
    · exact .inl rfl
  | cons x a ih =>
    rcases b with _ | ⟨y, b⟩
    · exact .inr rfl
    · rw [bytesLt_cons, bytesLt_cons]
      rcases Nat.lt_trichotomy x.toNat y.toNat with hlt | heq | hgt
      · exact .inl (.inl hlt)
      · obtain rfl := UInt8.toNat_inj.mp heq
        exact (ih b fun hab => h (by rw [hab])).imp (fun hab => .inr ⟨rfl, hab⟩) fun hba => .inr ⟨rfl, hba⟩
      · exact .inr (.inl hgt)

def IDOrder.bytes : IDOrder := ⟨bytesLt, bytesLt_irrefl, bytesLt_trans, bytesLt_total⟩

inductive Column
  | scopeType
  | scopeID
  | actor
  | action
  | targetType
  | targetID
  deriving DecidableEq

def Column.get (r : AuditRow) : Column → Bytes
  | .scopeType => r.scopeType
  | .scopeID => r.scopeID
  | .actor => r.actor
  | .action => r.action
  | .targetType => r.targetType
  | .targetID => r.targetID

/-- With the numbers of their placeholders: `column = $n`, `created_at >= $n`, `created_at <= $n` and
`(created_at < $k OR (created_at = $l AND id < $m))`. -/
inductive Cond
  | column (c : Column) (n : Nat)
  | since (n : Nat)
  | untilTime (n : Nat)
  | cursor (k l m : Nat)

inductive Arg
  | text (s : Bytes)
  | time (t : Int)
  | int (n : Int)

/-- Its conditions, its arguments and the number of the next placeholder. -/
structure Query where
  conds : List Cond
  args : List Arg
  idx : Nat

/-- `if filter.X != ""`: the column `c` has this value. -/
def Query.text (q : Query) (c : Column) (value : Bytes) : Query :=
  if value ≠ [] then ⟨q.conds ++ [.column c q.idx], q.args ++ [.text value], q.idx + 1⟩ else q

def Query.since (q : Query) : Option Int → Query
  | some t => ⟨q.conds ++ [.since q.idx], q.args ++ [.time t], q.idx + 1⟩
  | none => q

def Query.untilTime (q : Query) : Option Int → Query
  | some t => ⟨q.conds ++ [.untilTime q.idx], q.args ++ [.time t], q.idx + 1⟩
  | none => q

/-- A cursor that cannot be decoded is left out. -/
def Query.cursor (q : Query) (cursor : Bytes) : Query :=
  if cursor ≠ [] then
    match decodeCursor cursor with
    | some (t, id) => ⟨q.conds ++ [.cursor q.idx q.idx (q.idx + 1)], q.args ++ [.time t, .text id], q.idx + 2⟩
    | none => q
  else q

def listQuery (f : ListFilter) : Query :=
  (⟨[], [], 1⟩ : Query)
    |>.text .scopeType f.scopeType
    |>.text .scopeID f.scopeID
    |>.text .actor f.actor
    |>.text .action f.action
    |>.text .targetType f.targetType
    |>.text .targetID f.targetID
    |>.since f.since
    |>.untilTime f.untilTime
    |>.cursor f.cursor

inductive Where
  | column (c : Column) (value : Bytes)
  | since (t : Int)
  | untilTime (t : Int)
  | before (t : Int) (t' : Int) (id : Bytes)
  deriving DecidableEq

/-- The argument of the placeholder `$n`. -/
def placeholder (args : List Arg) (n : Nat) : Option Arg := if n = 0 then none else args[n - 1]?

/-- `none`: a placeholder has no argument, or one of another type. -/
def Cond.resolve (args : List Arg) : Cond → Option Where
  | .column c n =>
    match placeholder args n with
    | some (.text s) => some (.column c s)
    | _ => none
  | .since n =>
    match placeholder args n with
    | some (.time t) => some (.since t)
    | _ => none
  | .untilTime n =>
    match placeholder args n with
    | some (.time t) => some (.untilTime t)
    | _ => none
  | .cursor k l m =>
    match placeholder args k, placeholder args l, placeholder args m with
    | some (.time t), some (.time t'), some (.text id) => some (.before t t' id)
    | _, _, _ => none

def Where.holds (ord : IDOrder) (r : AuditRow) : Where → Bool
  | .column c value => c.get r = value
  | .since t => t ≤ r.createdAt
  | .untilTime t => r.createdAt ≤ t
  | .before t t' id => r.createdAt < t || (r.createdAt = t' && ord.lt r.id id)

/-- The order of `ORDER BY created_at DESC, id DESC`. -/
def Later (ord : IDOrder) (r q : AuditRow) : Prop :=
  q.createdAt < r.createdAt ∨ q.createdAt = r.createdAt ∧ ord.lt q.id r.id = true

def NotEarlier (ord : IDOrder) (r q : AuditRow) : Prop := Later ord r q ∨ r.createdAt = q.createdAt ∧ r.id = q.id

instance (ord : IDOrder) : DecidableRel (Later ord) := fun _ _ => inferInstanceAs (Decidable (_ ∨ _))

instance (ord : IDOrder) : DecidableRel (NotEarlier ord) := fun _ _ => inferInstanceAs (Decidable (_ ∨ _))

/-- `SELECT … WHERE … ORDER BY created_at DESC, id DESC LIMIT $n`; `none` where the
database refuses it. -/
def execute (ord : IDOrder) (t : AuditEvents) (conds : List Cond) (n : Nat) (args : List Arg) : Option (List AuditRow) :=
  match conds.mapM (Cond.resolve args), placeholder args n with
  | some ws, some (.int k) =>
    some (((t.rows.filter fun r => ws.all (Where.holds ord r)).insertionSort (NotEarlier ord)).take k.toNat)
  | _, _ => none

/-- `rows.Scan`: what the table does not have stays empty. -/
def scan (r : AuditRow) : Event :=
  { id := r.id, service := [], actor := r.actor, action := r.action, targetType := r.targetType, targetID := r.targetID,
    scopeType := r.scopeType, scopeID := r.scopeID, beforeState := r.beforeState, afterState := r.afterState,
    metadata := r.metadata, requestID := [], clientIP := [], createdAt := r.createdAt }

def clampLimit (limit : Int) : Int := if limit ≤ 0 ∨ limit > 100 then 50 else limit

def list (ord : IDOrder) (t : AuditEvents) (f : ListFilter) : Option ListResult :=
  let limit := clampLimit f.limit
  let q := listQuery f
  match execute ord t q.conds q.idx (q.args ++ [.int (limit + 1)]) with
  | none => none
  | some rows =>
    let events := rows.map scan
    if events.length > limit then
      let events := events.take limit.toNat
      match events.getLast? with
      | none => none
      | some last => some ⟨events, encodeCursor last.createdAt last.id⟩
    else some ⟨events, []⟩

end Csar.Impl.Audit
