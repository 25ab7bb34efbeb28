import CsarCore.Framework.Except
import CsarCore.Spec.Authzconfig.Config
import Mathlib.Order.WellFounded

/-!
# Accepted role hierarchies

`validate` accepts roles if each has a new name and parents among the names recorded
until then, its own one included (`Accepted`). So if no role is its own parent, every
parent comes before the role (`Accepted.parents_earlier`): `hierarchy_iff`.
-/

namespace Csar.Proof.Authzconfig

open Impl.Authzconfig Spec.Authzconfig

variable {quote : Bytes → Bytes} {c : Config} {names out : List Bytes} {roles : List RoleConfig} {i : Nat}

/-! ## The loops -/

/-- The roles that the loop accepts after `names`, and the names it leaves. -/
inductive Accepted : List Bytes → List RoleConfig → List Bytes → Prop
  | nil (names : List Bytes) : Accepted names [] names
  | cons {names out : List Bytes} {r : RoleConfig} {rest : List RoleConfig} (new : r.name ∉ names)
      (parents : ∀ parent ∈ r.parents, parent ∈ r.name :: names) (next : Accepted (r.name :: names) rest out) :
      Accepted names (r :: rest) out

theorem validateParents_ok {name : Bytes} {parents : List Bytes}
    (h : validateParents quote i name names parents = .ok ()) : ∀ parent ∈ parents, parent ∈ names := by
  induction parents with
  | nil => exact fun _ hmem => absurd hmem List.not_mem_nil
  | cons parent rest ih =>
    rw [validateParents, ite_error_eq_ok] at h
    exact List.forall_mem_cons.mpr ⟨by simpa using h.1, ih h.2⟩

theorem accepted_of_validateRoles (h : validateRoles quote i names roles = .ok out) :
    Accepted names roles out := by
  induction roles generalizing i names with
  | nil =>
    cases h
    exact .nil _
  | cons r rest ih =>
    rw [validateRoles, ite_error_eq_ok, ite_error_eq_ok] at h
    obtain ⟨-, hnew, h⟩ := h
    obtain ⟨_, hparents, h⟩ := bind_eq_ok h
    obtain ⟨_, -, h⟩ := bind_eq_ok h
    exact .cons (by simpa using hnew) (validateParents_ok hparents) (ih h)

theorem validateAssignable_ok {assignable : List Bytes}
    (h : validateAssignable quote names i assignable = .ok ()) : ∀ role ∈ assignable, role ∈ names := by
  induction assignable generalizing i with
  | nil => exact fun _ hmem => absurd hmem List.not_mem_nil
  | cons role rest ih =>
    rw [validateAssignable, ite_error_eq_ok, ite_error_eq_ok] at h
    exact List.forall_mem_cons.mpr ⟨by simpa using h.2.1, ih h.2.2⟩

theorem validateBootstrap_ok {assignments : List BootstrapAssignment}
    (h : validateBootstrap quote names i assignments = .ok ()) : ∀ ba ∈ assignments, ba.role ∈ names := by
  induction assignments generalizing i with
  | nil => exact fun _ hmem => absurd hmem List.not_mem_nil
  | cons ba rest ih =>
    rw [validateBootstrap, ite_error_eq_ok, ite_error_eq_ok, ite_error_eq_ok, ite_error_eq_ok] at h
    exact List.forall_mem_cons.mpr ⟨by simpa using h.2.2.1, ih h.2.2.2.2⟩

theorem validate_ok (h : c.validate quote = .ok ()) :
    ∃ names, Accepted [] c.policy.roles names ∧ (∀ role ∈ c.serviceAssignableRoles, role ∈ names) ∧
      ∀ ba ∈ c.bootstrapAssignments, ba.role ∈ names := by
  obtain ⟨_, -, h⟩ := bind_eq_ok h
  obtain ⟨names, hroles, h⟩ := bind_eq_ok h
  obtain ⟨_, -, h⟩ := bind_eq_ok h
  obtain ⟨_, hassignable, h⟩ := bind_eq_ok h
  obtain ⟨_, hbootstrap, -⟩ := bind_eq_ok h
  exact ⟨names, accepted_of_validateRoles hroles, validateAssignable_ok hassignable, validateBootstrap_ok hbootstrap⟩

/-! ## Accepted roles -/

theorem Accepted.mem_names (h : Accepted names roles out) {name : Bytes} (hname : name ∈ out) :
    name ∈ names ∨ ∃ r ∈ roles, r.name = name := by
  induction h with
  | nil => exact .inl hname
  | @cons names out r rest new parents next ih =>
    rcases ih hname with hmem | ⟨q, hq, hname⟩
    · rcases List.mem_cons.mp hmem with rfl | hmem
      · exact .inr ⟨r, List.mem_cons_self, rfl⟩
      · exact .inl hmem
    · exact .inr ⟨q, List.mem_cons_of_mem r hq, hname⟩

theorem Accepted.nodup (h : Accepted names roles out) :
    (roles.map RoleConfig.name).Nodup ∧ ∀ r ∈ roles, r.name ∉ names := by
  induction h with
  | nil => exact ⟨List.nodup_nil, fun _ hmem => absurd hmem List.not_mem_nil⟩
  | @cons names out r rest new parents next ih =>
    obtain ⟨hnodup, hnew⟩ := ih
    refine ⟨List.nodup_cons.mpr ⟨fun hmem => ?_, hnodup⟩, List.forall_mem_cons.mpr ⟨new, fun q hq hmem => ?_⟩⟩
    · obtain ⟨q, hq, hname⟩ := List.mem_map.mp hmem
      exact hnew q hq (hname ▸ List.mem_cons_self)
    · exact hnew q hq (List.mem_cons_of_mem r.name hmem)

theorem Accepted.parents_earlier (h : Accepted names roles out) (hown : ∀ r ∈ roles, r.name ∉ r.parents) :
    ∀ earlier r later, roles = earlier ++ r :: later → ∀ parent ∈ r.parents,
      parent ∈ names ∨ ∃ q ∈ earlier, q.name = parent := by
  induction h with
  | nil =>
    intro earlier r later hsplit
    cases earlier <;> cases hsplit
  | @cons names out r rest new parents next ih =>
    obtain ⟨hr, hrest⟩ := List.forall_mem_cons.mp hown
    intro earlier q later hsplit parent hparent
    cases earlier with
    | nil =>
      cases hsplit
      rcases List.mem_cons.mp (parents parent hparent) with rfl | hmem
      · exact absurd hparent hr
      · exact .inl hmem
    | cons r' earlier =>
      cases hsplit
      rcases ih hrest earlier q later rfl parent hparent with hmem | ⟨q', hq', hname⟩
      · rcases List.mem_cons.mp hmem with rfl | hmem
        · exact .inr ⟨r, List.mem_cons_self, rfl⟩
        · exact .inl hmem
      · exact .inr ⟨q', List.mem_cons_of_mem r hq', hname⟩

def position (roles : List RoleConfig) (name : Bytes) : Nat := (roles.map RoleConfig.name).idxOf name

theorem position_lt (hnodup : (roles.map RoleConfig.name).Nodup)
    (hearlier : ∀ earlier r later, roles = earlier ++ r :: later → ∀ parent ∈ r.parents, ∃ q ∈ earlier, q.name = parent)
    {a b : Bytes} (h : Parent roles a b) : position roles a < position roles b := by
  obtain ⟨r, hr, rfl, ha⟩ := h
  obtain ⟨earlier, later, rfl⟩ := List.append_of_mem hr
  obtain ⟨q, hq, rfl⟩ := hearlier earlier r later rfl a ha
  have hmem : q.name ∈ earlier.map RoleConfig.name := List.mem_map_of_mem hq
  rw [List.map_append, List.map_cons] at hnodup
  have hnew : r.name ∉ earlier.map RoleConfig.name := fun hmem =>
    (List.nodup_append.mp hnodup).2.2 _ hmem _ List.mem_cons_self rfl
  calc position (earlier ++ r :: later) q.name = (earlier.map RoleConfig.name).idxOf q.name := by
        rw [position, List.map_append, List.idxOf_append_of_mem hmem]
    _ < (earlier.map RoleConfig.name).length := List.idxOf_lt_length_of_mem hmem
    _ ≤ position (earlier ++ r :: later) r.name := by
        rw [position, List.map_append, List.idxOf_append_of_notMem hnew]
        exact Nat.le_add_right _ _

/-- The roles of an accepted configuration are a hierarchy exactly if none is its own
parent. -/
theorem hierarchy_iff (h : c.validate quote = .ok ()) : Hierarchy c ↔ NoOwnParent c := by
  obtain ⟨names, hroles, hassignable, hbootstrap⟩ := validate_ok h
  have hdefined : ∀ name ∈ names, Defined c name := fun name hname =>
    (hroles.mem_names hname).resolve_left List.not_mem_nil
  constructor
  · intro hh r hr hown
    exact hh.not_own_ancestor r.name (.single ⟨r, hr, rfl, hown⟩)
  · intro hown
    have hearlier : ∀ earlier r later, c.policy.roles = earlier ++ r :: later →
        ∀ parent ∈ r.parents, ∃ q ∈ earlier, q.name = parent := fun earlier r later hsplit parent hparent =>
      (hroles.parents_earlier hown earlier r later hsplit parent hparent).resolve_left List.not_mem_nil
    have hwf : WellFounded (Parent c.policy.roles) :=
      Subrelation.wf (position_lt hroles.nodup.1 hearlier) (measure (position c.policy.roles)).wf
    exact {
      parents_earlier := hearlier
      wellFounded := hwf
      not_own_ancestor := fun a ha => hwf.transGen.irrefl.irrefl a ha
      names_unique := hroles.nodup.1
      assignable_defined := fun name hname => hdefined name (hassignable name hname)
      bootstrap_defined := fun ba hba => hdefined ba.role (hbootstrap ba hba) }

/-- Two roles, the second with the given parents. -/
def twoRoles (parents : List Bytes) : Config where
  tls := ⟨[], [], []⟩
  policy := ⟨[⟨utf8 "reader", [], []⟩, ⟨utf8 "writer", parents, []⟩], []⟩
  serviceAssignableRoles := [utf8 "reader"]
  bootstrapAssignments := [⟨utf8 "svc", utf8 "writer", utf8 "platform"⟩]
  store := ⟨utf8 "memory", []⟩
  authn := ⟨false, [], []⟩
  audit := ⟨[], [], [], [], [], [], []⟩
  auditOutboxEnabled := false

theorem hierarchy_iff_reader : Hierarchy (twoRoles [utf8 "reader"]) := by
  have haccepted : (twoRoles [utf8 "reader"]).validate id = .ok () := by decide +kernel
  have hown : NoOwnParent (twoRoles [utf8 "reader"]) := by
    unfold NoOwnParent
    decide +kernel
  exact (hierarchy_iff haccepted).mpr hown

/-- A role that is its own parent is accepted. -/
theorem own_parent_accepted : (twoRoles [utf8 "writer"]).validate id = .ok () ∧
    Parent (twoRoles [utf8 "writer"]).policy.roles (utf8 "writer") (utf8 "writer") := by
  refine ⟨by decide +kernel, ⟨utf8 "writer", [utf8 "writer"], []⟩, ?_, rfl, List.mem_singleton.mpr rfl⟩
  exact List.mem_cons_of_mem _ (List.mem_singleton.mpr rfl)

end Csar.Proof.Authzconfig
