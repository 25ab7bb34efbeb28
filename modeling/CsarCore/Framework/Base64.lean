import CsarCore.Framework.Hex
import Mathlib.Data.List.Nodup

/-!
# Base64

`encoding/base64`: a group of three bytes is a number of 24 bits, written as four
characters of six bits; the last group may be shorter, with or without padding. The
decoder skips line breaks and does not look at the bits of the last character that
belong to no byte.
-/

namespace Csar.Base64

def pad : UInt8 := 0x3D

def lineBreaks : Bytes := [0x0A, 0x0D]

/-- An alphabet of 64 different characters other than padding and line breaks, and whether it pads. -/
structure Encoding where
  alphabet : Bytes
  padded : Bool
  length_eq : alphabet.length = 64
  nodup : alphabet.Nodup
  no_pad : pad ∉ alphabet
  no_break : ∀ c ∈ lineBreaks, c ∉ alphabet

def alphanumeric : Bytes := (List.range' 65 26 ++ List.range' 97 26 ++ List.range' 48 10).map UInt8.ofNat

/-- Letters and digits differ, and so do two characters that are neither. -/
theorem nodup_alphabet {m n : Nat} (hne : m ≠ n)
    (hother : ∀ k ∈ [m, n], k < 256 ∧ ¬ (65 ≤ k ∧ k < 91) ∧ ¬ (97 ≤ k ∧ k < 123) ∧ ¬ (48 ≤ k ∧ k < 58)) :
    (alphanumeric ++ [UInt8.ofNat m, UInt8.ofNat n]).Nodup := by
  have hnumbers : (List.range' 65 26 ++ List.range' 97 26 ++ List.range' 48 10 ++ [m, n]).Nodup := by
    refine List.nodup_append.mpr ⟨List.nodup_append.mpr ⟨List.nodup_append.mpr
      ⟨List.nodup_range', List.nodup_range', ?_⟩, List.nodup_range', ?_⟩, by simp [hne], ?_⟩
    all_goals
      intro a ha b hb
      simp only [List.mem_append, List.mem_range'_1] at ha hb
    · omega
    · omega
    · have hb' := hother b hb
      omega
  have hbyte : ∀ k ∈ List.range' 65 26 ++ List.range' 97 26 ++ List.range' 48 10 ++ [m, n], k < 256 := by
    intro k hk
    rcases List.mem_append.mp hk with hk | hk
    · simp only [List.mem_append, List.mem_range'_1] at hk
      omega
    · exact (hother k hk).1
  rw [alphanumeric, show [UInt8.ofNat m, UInt8.ofNat n] = [m, n].map UInt8.ofNat from rfl, ← List.map_append]
  refine List.Nodup.map_on (fun a ha b hb heq => ?_) hnumbers
  have hnat := congrArg UInt8.toNat heq
  rwa [UInt8.toNat_ofNat_of_lt' (hbyte a ha), UInt8.toNat_ofNat_of_lt' (hbyte b hb)] at hnat

def std : Encoding :=
  ⟨alphanumeric ++ [0x2B, 0x2F], true, by decide, nodup_alphabet (by decide) (by decide), by decide,
    List.forall_mem_cons.mpr ⟨by decide, List.forall_mem_singleton.mpr (by decide)⟩⟩

theorem std_ascii : ∀ c ∈ pad :: std.alphabet, c.toNat < 128 := by
  have hall : (pad :: std.alphabet).all fun c => c.toNat < 128 := by decide
  exact fun c hc => of_decide_eq_true (List.all_eq_true.mp hall c hc)

def url : Encoding :=
  ⟨alphanumeric ++ [0x2D, 0x5F], true, by decide, nodup_alphabet (by decide) (by decide), by decide,
    List.forall_mem_cons.mpr ⟨by decide, List.forall_mem_singleton.mpr (by decide)⟩⟩

def rawURL : Encoding := { url with padded := false }

namespace Encoding

def char (E : Encoding) (v : Nat) : UInt8 := E.alphabet.getD v 0

def value (E : Encoding) (c : UInt8) : Option Nat := E.alphabet.idxOf? c

def padding (E : Encoding) (n : Nat) : Bytes := if E.padded then List.replicate n pad else []

/-- `EncodeToString`. -/
def encode (E : Encoding) : Bytes → Bytes
  | [] => []
  | [a] =>
    let v := a.toNat * 16
    E.char (v / 64) :: E.char (v % 64) :: E.padding 2
  | [a, b] =>
    let v := (a.toNat * 256 + b.toNat) * 4
    E.char (v / 64 / 64) :: E.char (v / 64 % 64) :: E.char (v % 64) :: E.padding 1
  | a :: b :: c :: rest =>
    let v := (a.toNat * 256 + b.toNat) * 256 + c.toNat
    E.char (v / 64 / 64 / 64) :: E.char (v / 64 / 64 % 64) :: E.char (v / 64 % 64) :: E.char (v % 64) :: encode E rest

/-- The number that some characters are, after those of `acc`. -/
def number (E : Encoding) : Nat → Bytes → Option Nat
  | acc, [] => some acc
  | acc, c :: cs =>
    match E.value c with
    | none => none
    | some v => number E (acc * 64 + v) cs

/-- The byte of two characters, the two bytes of three and the three bytes of four. -/
def oneByte (v : Nat) : Bytes := [UInt8.ofNat (v / 16)]

@[inherit_doc oneByte] def twoBytes (v : Nat) : Bytes := [UInt8.ofNat (v / 4 / 256), UInt8.ofNat (v / 4)]

@[inherit_doc oneByte] def threeBytes (v : Nat) : Bytes :=
  [UInt8.ofNat (v / 256 / 256), UInt8.ofNat (v / 256), UInt8.ofNat v]

/-- The bytes of a text without line breaks. -/
def groups (E : Encoding) : Bytes → Option Bytes
  | [] => some []
  | [_] => none
  | [a, b] => if E.padded then none else (E.number 0 [a, b]).map oneByte
  | [a, b, c] => if E.padded then none else (E.number 0 [a, b, c]).map twoBytes
  | a :: b :: c :: d :: rest =>
    if E.padded ∧ d = pad then
      -- the last group: nothing may follow it
      if rest ≠ [] then none
      else if c = pad then (E.number 0 [a, b]).map oneByte
      else (E.number 0 [a, b, c]).map twoBytes
    else
      match E.number 0 [a, b, c, d], groups E rest with
      | some v, some bs => some (threeBytes v ++ bs)
      | _, _ => none

/-- `DecodeString`; `none` where it returns an error. -/
def decode (E : Encoding) (s : Bytes) : Option Bytes := E.groups (s.filter fun c => c ∉ lineBreaks)

variable {E : Encoding} {bs cs s : Bytes} {v acc : Nat} {c : UInt8}

theorem char_eq (h : v < 64) : ∃ hv : v < E.alphabet.length, E.char v = E.alphabet.get ⟨v, hv⟩ := by
  have hv : v < E.alphabet.length := by rw [E.length_eq]; exact h
  refine ⟨hv, ?_⟩
  rw [char, List.getD_eq_getElem?_getD, List.getElem?_eq_getElem hv]
  rfl

theorem char_mem (h : v < 64) : E.char v ∈ E.alphabet := by
  obtain ⟨hv, hchar⟩ := char_eq (E := E) h
  rw [hchar]
  exact List.get_mem ..

theorem value_char (h : v < 64) : E.value (E.char v) = some v := by
  obtain ⟨hv, hchar⟩ := char_eq (E := E) h
  rw [value, List.idxOf?_eq_some_iff, hchar]
  refine ⟨hv, rfl, fun j hj heq => ?_⟩
  have hjv := (List.Nodup.getElem_inj_iff E.nodup).mp heq
  omega

theorem mem_of_value (h : E.value c = some v) : c ∈ E.alphabet := by
  by_contra hc
  rw [value, List.idxOf?_eq_none_iff.mpr hc] at h
  cases h

theorem char_ne_pad (h : v < 64) : E.char v ≠ pad := fun he => E.no_pad (he ▸ char_mem h)

theorem number_char (h : v < 64) : E.number acc (E.char v :: cs) = E.number (acc * 64 + v) cs := by
  rw [number, value_char h]

/-! ## Round trip -/

theorem ofNat_eq {n : Nat} {a : UInt8} (h : n % 256 = a.toNat) : UInt8.ofNat n = a := by
  apply UInt8.toNat_inj.mp
  rw [UInt8.toNat_ofNat']
  exact h

theorem oneByte_eq (a : UInt8) : oneByte (a.toNat * 16) = [a] := by
  have ha := a.toNat_lt
  rw [oneByte, ofNat_eq (a := a) (by omega)]

theorem twoBytes_eq (a b : UInt8) : twoBytes ((a.toNat * 256 + b.toNat) * 4) = [a, b] := by
  have ha := a.toNat_lt
  have hb := b.toNat_lt
  rw [twoBytes, ofNat_eq (a := a) (by omega), ofNat_eq (a := b) (by omega)]

theorem threeBytes_eq (a b c : UInt8) : threeBytes ((a.toNat * 256 + b.toNat) * 256 + c.toNat) = [a, b, c] := by
  have ha := a.toNat_lt
  have hb := b.toNat_lt
  have hc := c.toNat_lt
  rw [threeBytes, ofNat_eq (a := a) (by omega), ofNat_eq (a := b) (by omega), ofNat_eq (a := c) (by omega)]

theorem number_two (h : v < 64 * 64) : E.number 0 [E.char (v / 64), E.char (v % 64)] = some v := by
  rw [number_char (by omega), number_char (by omega), number]
  congr 1
  omega

theorem number_three (h : v < 64 * 64 * 64) :
    E.number 0 [E.char (v / 64 / 64), E.char (v / 64 % 64), E.char (v % 64)] = some v := by
  rw [number_char (by omega), number_char (by omega), number_char (by omega), number]
  congr 1
  omega

theorem number_four (h : v < 64 * 64 * 64 * 64) :
    E.number 0 [E.char (v / 64 / 64 / 64), E.char (v / 64 / 64 % 64), E.char (v / 64 % 64), E.char (v % 64)] = some v := by
  rw [number_char (by omega), number_char (by omega), number_char (by omega), number_char (by omega), number]
  congr 1
  omega

theorem groups_encode (bs : Bytes) : E.groups (E.encode bs) = some bs := by
  induction bs using encode.induct with
  | case1 => rfl
  | case2 a =>
    have ha := a.toNat_lt
    have hnum : E.number 0 [E.char (a.toNat * 16 / 64), E.char (a.toNat * 16 % 64)] = some (a.toNat * 16) :=
      number_two (by omega)
    rw [encode, padding]
    cases hp : E.padded with
    | true =>
      show E.groups [_, _, pad, pad] = _
      rw [groups, if_pos ⟨hp, rfl⟩, if_neg (by simp), if_pos rfl, hnum, Option.map_some, oneByte_eq]
    | false =>
      show E.groups [_, _] = _
      rw [groups, hp, if_neg (by simp), hnum, Option.map_some, oneByte_eq]
  | case3 a b =>
    have ha := a.toNat_lt
    have hb := b.toNat_lt
    generalize hv : (a.toNat * 256 + b.toNat) * 4 = v
    have hnum : E.number 0 [E.char (v / 64 / 64), E.char (v / 64 % 64), E.char (v % 64)] = some v :=
      number_three (by omega)
    rw [encode, padding, hv]
    cases hp : E.padded with
    | true =>
      show E.groups [_, _, _, pad] = _
      rw [groups, if_pos ⟨hp, rfl⟩, if_neg (by simp), if_neg (char_ne_pad (by omega)), hnum, Option.map_some, ← hv,
        twoBytes_eq]
    | false =>
      show E.groups [_, _, _] = _
      rw [groups, hp, if_neg (by simp), hnum, Option.map_some, ← hv, twoBytes_eq]
  | case4 a b c rest ih =>
    have ha := a.toNat_lt
    have hb := b.toNat_lt
    have hc := c.toNat_lt
    generalize hv : (a.toNat * 256 + b.toNat) * 256 + c.toNat = v
    have hnum : E.number 0 [E.char (v / 64 / 64 / 64), E.char (v / 64 / 64 % 64), E.char (v / 64 % 64), E.char (v % 64)] =
      some v := number_four (by omega)
    rw [encode, hv, groups, if_neg (fun h => char_ne_pad (E := E) (v := v % 64) (by omega) h.2), hnum, ih]
    dsimp only
    rw [← hv, threeBytes_eq]
    rfl

theorem mem_padding {n : Nat} (h : c ∈ E.padding n) : c = pad := by
  unfold padding at h
  split at h
  · exact List.eq_of_mem_replicate h
  · exact absurd h List.not_mem_nil

theorem mem_encode (h : c ∈ E.encode bs) : c ∈ E.alphabet ∨ c = pad := by
  induction bs using encode.induct with
  | case1 => exact absurd h List.not_mem_nil
  | case2 a =>
    have ha := a.toNat_lt
    rw [encode] at h
    simp only [List.mem_cons] at h
    rcases h with rfl | rfl | h
    · exact .inl (char_mem (by omega))
    · exact .inl (char_mem (by omega))
    · exact .inr (mem_padding h)
  | case3 a b =>
    have ha := a.toNat_lt
    have hb := b.toNat_lt
    rw [encode] at h
    simp only [List.mem_cons] at h
    rcases h with rfl | rfl | rfl | h
    · exact .inl (char_mem (by omega))
    · exact .inl (char_mem (by omega))
    · exact .inl (char_mem (by omega))
    · exact .inr (mem_padding h)
  | case4 a b c rest ih =>
    have ha := a.toNat_lt
    have hb := b.toNat_lt
    have hc := c.toNat_lt
    rw [encode] at h
    simp only [List.mem_cons] at h
    rcases h with rfl | rfl | rfl | rfl | h
    · exact .inl (char_mem (by omega))
    · exact .inl (char_mem (by omega))
    · exact .inl (char_mem (by omega))
    · exact .inl (char_mem (by omega))
    · exact ih h

theorem decode_encode (bs : Bytes) : E.decode (E.encode bs) = some bs := by
  have hkeep : (E.encode bs).filter (fun c => c ∉ lineBreaks) = E.encode bs := by
    refine List.filter_eq_self.mpr fun c hc => ?_
    rw [decide_eq_true_eq]
    intro hbreak
    rcases mem_encode hc with h | rfl
    · exact E.no_break c hbreak h
    · exact absurd hbreak (by decide)
  rw [decode, hkeep, groups_encode]

theorem encode_eq_nil (h : E.encode bs = []) : bs = [] := by
  have hdec := groups_encode (E := E) bs
  rw [h] at hdec
  exact (Option.some.inj hdec).symm

/-! ## What is read -/

theorem mem_of_number (h : E.number acc cs = some v) : ∀ c ∈ cs, c ∈ E.alphabet := by
  induction cs generalizing acc with
  | nil => exact fun _ hc => absurd hc List.not_mem_nil
  | cons c cs ih =>
    rw [number] at h
    split at h <;> [cases h; skip]
    rename_i w hw
    exact List.forall_mem_cons.mpr ⟨mem_of_value hw, ih h⟩

theorem mem_of_groups (h : E.groups s = some bs) : ∀ c ∈ s, c ∈ E.alphabet ∨ c = pad := by
  fun_induction E.groups s generalizing bs with
  | case1 => exact fun _ hc => absurd hc List.not_mem_nil
  | case2 => cases h
  | case3 => cases h
  | case4 a b =>
    obtain ⟨v, hv, -⟩ := Option.map_eq_some_iff.mp h
    exact fun c hc => .inl (mem_of_number hv c hc)
  | case5 => cases h
  | case6 a b c =>
    obtain ⟨v, hv, -⟩ := Option.map_eq_some_iff.mp h
    exact fun c hc => .inl (mem_of_number hv c hc)
  | case7 => cases h
  | case8 a b d rest hpad hrest =>
    obtain ⟨v, hv, -⟩ := Option.map_eq_some_iff.mp h
    have hmem := mem_of_number hv
    obtain rfl : rest = [] := not_not.mp hrest
    simp only [List.mem_cons, List.not_mem_nil, or_false, forall_eq_or_imp, forall_eq] at hmem ⊢
    exact ⟨.inl hmem.1, .inl hmem.2, .inr trivial, .inr hpad.2⟩
  | case9 a b c d rest hpad hrest =>
    obtain ⟨v, hv, -⟩ := Option.map_eq_some_iff.mp h
    have hmem := mem_of_number hv
    obtain rfl : rest = [] := not_not.mp hrest
    simp only [List.mem_cons, List.not_mem_nil, or_false, forall_eq_or_imp, forall_eq] at hmem ⊢
    exact ⟨.inl hmem.1, .inl hmem.2.1, .inl hmem.2.2, .inr hpad.2⟩
  | case10 a b c d rest hpad v bs' hbs hv ih =>
    have hmem := mem_of_number hv
    simp only [List.mem_cons, List.not_mem_nil, or_false, forall_eq_or_imp, forall_eq] at hmem ⊢
    exact ⟨.inl hmem.1, .inl hmem.2.1, .inl hmem.2.2.1, .inl hmem.2.2.2, ih hbs⟩
  | case11 => cases h

theorem mem_of_decode (h : E.decode s = some bs) : ∀ c ∈ s, c ∈ E.alphabet ∨ c = pad ∨ c ∈ lineBreaks := by
  intro c hc
  by_cases hbreak : c ∈ lineBreaks
  · exact .inr (.inr hbreak)
  · have hmem := mem_of_groups h c (List.mem_filter.mpr ⟨hc, decide_eq_true hbreak⟩)
    exact hmem.imp_right .inl

end Encoding

end Csar.Base64
