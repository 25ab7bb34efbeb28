import Mathlib.Data.List.Basic

/-!
# Byte strings and their hexadecimal text

`hexEncode` writes two lower case digits a byte.
-/

namespace Csar

/-- A byte string: a Go string or byte slice. -/
abbrev Bytes := List UInt8

def utf8 (s : String) : Bytes := s.toUTF8.toList

def hexByte (b : UInt8) : List Char := [Nat.digitChar (b.toNat / 16), Nat.digitChar (b.toNat % 16)]

def hexEncode (bs : Bytes) : String := String.ofList (bs.flatMap hexByte)

theorem digitChar_inj {m n : Nat} (hm : m < 16) (hn : n < 16) (h : Nat.digitChar m = Nat.digitChar n) :
    m = n := by
  have key : ∀ i j : Fin 16, Nat.digitChar i = Nat.digitChar j → i = j := by decide
  exact congrArg Fin.val (key ⟨m, hm⟩ ⟨n, hn⟩ h)

theorem hexByte_inj {a b : UInt8} (h : hexByte a = hexByte b) : a = b := by
  have ha := a.toNat_lt
  have hb := b.toNat_lt
  simp only [hexByte, List.cons.injEq, and_true] at h
  have hq := digitChar_inj (by omega) (by omega) h.1
  have hr := digitChar_inj (by omega) (by omega) h.2
  exact UInt8.toNat_inj.mp (by omega)

theorem hexEncode_injective : Function.Injective hexEncode := by
  intro as bs h
  replace h := String.ofList_injective h
  induction as generalizing bs with
  | nil =>
    cases bs with
    | nil => rfl
    | cons b bs => simp [hexByte] at h
  | cons a as ih =>
    cases bs with
    | nil => simp [hexByte] at h
    | cons b bs =>
      obtain ⟨hab, hrest⟩ := List.append_inj (by simpa using h) (by simp [hexByte])
      rw [hexByte_inj hab, ih hrest]

theorem hexEncode_ne_empty {bs : Bytes} (h : bs ≠ []) : hexEncode bs ≠ "" := fun he =>
  h (hexEncode_injective he)

end Csar
