import CsarCore.Framework.Paging
import CsarCore.Impl.Audit.Postgres

/-!
# What a listing is to return

`Selected` are the rows that a filter selects by its conditions on columns, `Beyond`
those behind its cursor. `Meets` is what a filter says of an event, by all its fields.
-/

namespace Csar.Spec.Audit

open Impl.Audit

/-- A value that is set has to be this one. -/
def IfSet (value field : Bytes) : Prop := value ≠ [] → field = value

instance (value field : Bytes) : Decidable (IfSet value field) := inferInstanceAs (Decidable (_ → _))

/-- An instant is not before `since` and not after `till`, as far as they are set. -/
def Within (since till : Option Int) (t : Int) : Prop := (∀ s ∈ since, s ≤ t) ∧ ∀ u ∈ till, t ≤ u

instance (since till : Option Int) (t : Int) : Decidable (Within since till t) := inferInstanceAs (Decidable (_ ∧ _))

/-- A row meets the conditions of a filter on the columns of the table. -/
def Selected (f : ListFilter) (r : AuditRow) : Prop :=
  IfSet f.scopeType r.scopeType ∧ IfSet f.scopeID r.scopeID ∧ IfSet f.actor r.actor ∧ IfSet f.action r.action ∧
    IfSet f.targetType r.targetType ∧ IfSet f.targetID r.targetID ∧ Within f.since f.untilTime r.createdAt

instance (f : ListFilter) : DecidablePred (Selected f) := fun _ => inferInstanceAs (Decidable (_ ∧ _))

/-- A row comes behind the place of a cursor, if it has one. -/
def Beyond (ord : IDOrder) (cursor : Bytes) (r : AuditRow) : Prop :=
  cursor ≠ [] → ∀ p ∈ decodeCursor cursor, r.createdAt < p.1 ∨ r.createdAt = p.1 ∧ ord.lt r.id p.2 = true

instance (ord : IDOrder) (cursor : Bytes) : DecidablePred (Beyond ord cursor) :=
  fun _ => inferInstanceAs (Decidable (_ → _))

/-- An event meets every condition that a filter sets. -/
def Meets (f : ListFilter) (e : Event) : Prop :=
  IfSet f.scopeType e.scopeType ∧ IfSet f.scopeID e.scopeID ∧ IfSet f.service e.service ∧ IfSet f.actor e.actor ∧
    IfSet f.action e.action ∧ IfSet f.targetType e.targetType ∧ IfSet f.targetID e.targetID ∧
    IfSet f.requestID e.requestID ∧ Within f.since f.untilTime e.createdAt

instance (f : ListFilter) : DecidablePred (Meets f) := fun _ => inferInstanceAs (Decidable (_ ∧ _))

/-- The pages of a filter: the cursor of a page leads to the next one. -/
def pager (ord : IDOrder) (t : AuditEvents) (f : ListFilter) : Pager Bytes (Option ListResult) where
  page cursor := list ord t { f with cursor }
  next p := p.bind fun result => if result.nextCursor = [] then none else some result.nextCursor

end Csar.Spec.Audit
