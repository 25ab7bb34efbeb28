import CsarCore.Framework.Except
import CsarCore.Spec.Clientx
import Mathlib.Tactic.SplitIfs
import Mathlib.Tactic.Tauto

/-!
# Which addresses are internal

`CheckInternalIP` looks at an IPv4 address in the same way in both of its forms
(`oneVerdict`), and rejects, with all classes, the addresses in the internal
networks and no others (`checkInternalIP_ok`).
-/

namespace Csar.Proof.Clientx

open Impl.Clientx Csar.Net Spec.Clientx

variable {ip : IP}

/-! ## The two forms -/

theorem equal_metadataAddr_mapped (h : ip.length = 4) : equal (mapped ip) metadataAddr = equal ip metadataAddr := by
  have hlen : (mapped ip).length = (mapped [169, 254, 169, 254]).length := by
    rw [length_mapped h]
    rfl
  rw [Bool.eq_iff_iff, metadataAddr, equal_of_length hlen, equal_mapped h rfl, mapped_inj]

theorem isLoopback_mapped (h : ip.length = 4) : isLoopback (mapped ip) = isLoopback ip := by
  rw [isLoopback, isLoopback, to4_mapped h, to4_of_length h]

theorem contains_mapped (h : ip.length = 4) (n : IPNet) : n.contains (mapped ip) = n.contains ip := by
  rw [IPNet.contains, IPNet.contains, short_mapped h]

/-- One form of an IPv4 address is too short for a unique-local one, and the other begins with 0. -/
theorem uniqueLocal_mapped (h : ip.length = 4) :
    ((mapped ip).length == 16 && (mapped ip).headD 0 &&& 0xFE == 0xFC) = (ip.length == 16 && ip.headD 0 &&& 0xFE == 0xFC) := by
  have hhead : (mapped ip).headD 0 = 0 := rfl
  have hzero : ((0 : UInt8) &&& 0xFE == 0xFC) = false := by decide
  rw [h, hhead, hzero, Bool.and_false]
  rfl

theorem verdict_eq (ip : IP) (classes : InternalIPClasses) :
    verdict ip classes =
      if classes.isMetadata && equal ip metadataAddr then some .classMetadata
      else if classes.isLoopback && isLoopback ip then some .classLoopback
      else if classes.isLinkLocal && (linkLocal4.contains ip || linkLocal6.contains ip) then some .classLinkLocal
      else if classes.isPrivate && (private10.contains ip || private172.contains ip || private192.contains ip) then
        some .classPrivate
      else if classes.isPrivate && (ip.length == 16 && ip.headD 0 &&& 0xFE == 0xFC) then some .classPrivate
      else none := by
  rw [verdict, checkInternalIP, Bool.and_assoc]
  split_ifs <;> rfl

theorem oneVerdict : OneVerdict := by
  intro ip classes h
  simp only [verdict_eq, equal_metadataAddr_mapped h, isLoopback_mapped h, contains_mapped h, uniqueLocal_mapped h]

/-! ## The networks -/

theorem not_samePrefix {a b : Bytes} {ones : Nat} (h : a.length ≠ b.length) : ¬ SamePrefix ones a b :=
  fun hsame => h hsame.1

theorem equal_metadataAddr_iff (h : ip.length = 4 ∨ ip.length = 16) :
    equal ip metadataAddr = true ↔ SamePrefix 32 [169, 254, 169, 254] (short ip) := by
  refine form_induction (fun x hx => ?_) (fun x hx ih => ?_) (fun x hx hnone => ?_) h
  · rw [metadataAddr, equal_mapped hx rfl, short_of_length hx, eq_comm]
    exact samePrefix_all.symm
  · rw [equal_metadataAddr_mapped hx, short_mapped hx, ih]
  · refine iff_of_false ?_ (not_samePrefix ?_)
    · rw [metadataAddr, equal_of_length hx]
      rintro rfl
      cases hnone
    · rw [short, hnone, Option.getD_none, hx]
      decide

theorem isLoopback_iff (h : ip.length = 4 ∨ ip.length = 16) :
    isLoopback ip = true ↔ SamePrefix 8 [127, 0, 0, 0] (short ip) ∨ SamePrefix 128 (v6 0 0 1) (short ip) := by
  refine form_induction (fun x hx => ?_) (fun x hx ih => ?_) (fun x hx hnone => ?_) h
  · obtain ⟨a, rest, rfl⟩ := List.exists_cons_of_length_eq_add_one hx
    have hno : ¬ SamePrefix 128 (v6 0 0 1) (a :: rest) := not_samePrefix (by rw [hx]; decide)
    have hsame : SamePrefix 8 [127, 0, 0, 0] (a :: rest) ↔ (127 : UInt8).toNat / 2 ^ 0 = a.toNat / 2 ^ 0 :=
      samePrefix_cons (Nat.le_refl 8) (Nat.succ_injective hx).symm
    rw [isLoopback, to4_of_length hx, short_of_length hx, or_iff_left hno, hsame, Nat.pow_zero, Nat.div_one, Nat.div_one,
      UInt8.toNat_inj]
    show (a == 127) = true ↔ 127 = a
    rw [beq_iff_eq, eq_comm]
  · rw [isLoopback_mapped hx, short_mapped hx, ih]
  · have hshort : short x = x := by rw [short, hnone, Option.getD_none]
    have hno : ¬ SamePrefix 8 [127, 0, 0, 0] x := not_samePrefix (by rw [hx]; decide)
    rw [isLoopback, hnone, hshort, or_iff_right hno, equal_of_length hx, eq_comm]
    exact samePrefix_all.symm

theorem uniqueLocal_iff (h : ip.length = 4 ∨ ip.length = 16) :
    (ip.length == 16 && ip.headD 0 &&& 0xFE == 0xFC) = true ↔ SamePrefix 7 (v6 0xFC 0 0) (short ip) := by
  refine form_induction (fun x hx => ?_) (fun x hx ih => ?_) (fun x hx hnone => ?_) h
  · refine iff_of_false ?_ (not_samePrefix ?_)
    · simp [hx]
    · rw [short_of_length hx, hx]
      decide
  · rw [uniqueLocal_mapped hx, short_mapped hx, ih]
  · obtain ⟨a, rest, rfl⟩ := List.exists_cons_of_length_eq_add_one hx
    have hshort : short (a :: rest) = a :: rest := by rw [short, hnone, Option.getD_none]
    have hsame : SamePrefix 7 (v6 0xFC 0 0) (a :: rest) ↔ (0xFC : UInt8).toNat / 2 ^ (8 - 7) = a.toNat / 2 ^ (8 - 7) :=
      samePrefix_cons (by decide) (Nat.succ_injective hx).symm
    rw [hshort, hsame, ← and_mask_eq_iff (by decide), hx]
    show (a &&& 0xFE == 0xFC) = true ↔ 0xFC = a &&& 0xFE
    rw [beq_iff_eq, eq_comm]

/-- With all classes, the addresses in the internal networks are rejected. -/
theorem checkInternalIP_ok (h : ip.length = 4 ∨ ip.length = 16) :
    checkInternalIP ip allInternalIPClasses = .ok () ↔ ¬ InNets internalNets ip := by
  have hnets : InNets internalNets ip ↔ ∃ n ∈ internalNets, SamePrefix n.2 n.1 (short ip) := Iff.rfl
  rw [checkInternalIP, hnets]
  simp only [allInternalIPClasses, Bool.true_and, ite_error_eq_ok, uniqueLocal_iff h, Bool.or_eq_true,
    equal_metadataAddr_iff h, isLoopback_iff h, linkLocal4, linkLocal6, private10, private172, private192, contains_cidr,
    internalNets, List.exists_mem_cons_iff, List.not_mem_nil, false_and, exists_false, or_false, and_true]
  show _ ∧ _ ∧ ¬ (_ ∨ SamePrefix 10 (v6 0xFE 0x80 0) _) ∧ _ ↔ _
  tauto

end Csar.Proof.Clientx
