import CsarCore.Impl.Authzconfig.Config
import Mathlib.Logic.Relation

/-!
# Role hierarchies
-/

namespace Csar.Spec.Authzconfig

open Impl.Authzconfig

def Parent (roles : List RoleConfig) (a b : Bytes) : Prop := ∃ r ∈ roles, r.name = b ∧ a ∈ r.parents

def Defined (c : Config) (name : Bytes) : Prop := ∃ r ∈ c.policy.roles, r.name = name

/-- The roles are a hierarchy, and whatever names a role names one of them. -/
structure Hierarchy (c : Config) : Prop where
  /-- A parent is defined before the role. -/
  parents_earlier : ∀ earlier r later, c.policy.roles = earlier ++ r :: later →
    ∀ parent ∈ r.parents, ∃ q ∈ earlier, q.name = parent
  wellFounded : WellFounded (Parent c.policy.roles)
  not_own_ancestor : ∀ a, ¬ Relation.TransGen (Parent c.policy.roles) a a
  names_unique : (c.policy.roles.map RoleConfig.name).Nodup
  assignable_defined : ∀ name ∈ c.serviceAssignableRoles, Defined c name
  bootstrap_defined : ∀ ba ∈ c.bootstrapAssignments, Defined c ba.role

def NoOwnParent (c : Config) : Prop := ∀ r ∈ c.policy.roles, r.name ∉ r.parents

end Csar.Spec.Authzconfig
