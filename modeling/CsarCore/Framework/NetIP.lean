import CsarCore.Framework.Hex
import Mathlib.Data.List.TakeWhile
import Mathlib.Tactic.Ring

/-!
# IP addresses (`net.IP`, `net.IPNet`)

An address is its bytes, 4 or 16 of them; an IPv4 address has both forms (`mapped`).
That an address is in a network is tested with masks, byte by byte, and means that the
leading bits of the two numbers agree (`contains_cidr`).
-/

namespace Csar.Net

abbrev IP := Bytes

/-- What stands before an IPv4 address in 16 bytes. -/
def v4InV6Prefix : Bytes := [0, 0, 0, 0, 0, 0, 0, 0, 0, 0, 0xFF, 0xFF]

def mapped (ip : IP) : IP := v4InV6Prefix ++ ip

def to4 (ip : IP) : Option IP :=
  if ip.length = 4 then some ip
  else if ip.length = 16 ∧ ip.take 12 = v4InV6Prefix then some (ip.drop 12)
  else none

def short (ip : IP) : IP := (to4 ip).getD ip

def equal (ip x : IP) : Bool :=
  if ip.length = x.length then ip == x
  else if ip.length = 4 ∧ x.length = 16 then x.take 12 == v4InV6Prefix && ip == x.drop 12
  else if ip.length = 16 ∧ x.length = 4 then ip.take 12 == v4InV6Prefix && ip.drop 12 == x
  else false

def ipv6loopback : IP := [0, 0, 0, 0, 0, 0, 0, 0, 0, 0, 0, 0, 0, 0, 0, 1]

def isLoopback (ip : IP) : Bool :=
  match to4 ip with
  | some ip4 => ip4.headD 0 == 127
  | none => equal ip ipv6loopback

/-! ## Networks -/

/-- `CIDRMask`, for so many bytes. -/
def cidrMask : Nat → Nat → Bytes
  | _, 0 => []
  | ones, n + 1 => (if 8 ≤ ones then 0xFF else ~~~ (0xFF >>> UInt8.ofNat ones)) :: cidrMask (ones - 8) n

structure IPNet where
  number : Bytes
  mask : Bytes

/-- The network of a number and how many of its bits count. -/
def cidr (number : Bytes) (ones : Nat) : IPNet := ⟨number, cidrMask ones number.length⟩

def agree : Bytes → Bytes → Bytes → Bool
  | n :: ns, m :: ms, b :: bs => n &&& m == b &&& m && agree ns ms bs
  | _, _, _ => true

def IPNet.contains (n : IPNet) (ip : IP) : Bool :=
  let ip := short ip
  ip.length == n.number.length && agree n.number n.mask ip

/-! ## Numbers -/

def value : Bytes → Nat
  | [] => 0
  | b :: bs => b.toNat * 256 ^ bs.length + value bs

/-- The leading bits of two addresses agree. -/
def SamePrefix (ones : Nat) (a b : Bytes) : Prop :=
  a.length = b.length ∧ value a / 2 ^ (8 * a.length - ones) = value b / 2 ^ (8 * a.length - ones)

instance (ones : Nat) (a b : Bytes) : Decidable (SamePrefix ones a b) := inferInstanceAs (Decidable (_ ∧ _))

theorem value_lt (bs : Bytes) : value bs < 2 ^ (8 * bs.length) := by
  induction bs with
  | nil => decide
  | cons b bs ih =>
    have hb : b.toNat < 256 := b.toNat_lt
    have hpow : (256 : Nat) ^ bs.length = 2 ^ (8 * bs.length) := by rw [Nat.pow_mul]
    have hstep : (2 : Nat) ^ (8 * (b :: bs).length) = 256 * 2 ^ (8 * bs.length) := by
      rw [List.length_cons, Nat.mul_add, Nat.pow_add, Nat.mul_comm]
    rw [value, hpow, hstep]
    calc b.toNat * 2 ^ (8 * bs.length) + value bs
        < b.toNat * 2 ^ (8 * bs.length) + 2 ^ (8 * bs.length) := Nat.add_lt_add_left ih _
      _ = (b.toNat + 1) * 2 ^ (8 * bs.length) := by ring
      _ ≤ 256 * 2 ^ (8 * bs.length) := Nat.mul_le_mul_right _ hb

variable {ones : Nat} {a b : Bytes}

theorem toNat_and_mask (h : ones < 8) (b : UInt8) :
    (b &&& ~~~ (0xFF >>> UInt8.ofNat ones)).toNat = b.toNat / 2 ^ (8 - ones) * 2 ^ (8 - ones) := by
  have hall : ∀ ones < 8, ∀ n < 256, (UInt8.ofNat n &&& ~~~ (0xFF >>> UInt8.ofNat ones)).toNat =
      n / 2 ^ (8 - ones) * 2 ^ (8 - ones) := by decide +kernel
  have hb := hall ones h b.toNat b.toNat_lt
  rwa [UInt8.ofNat_toNat] at hb

theorem and_mask_eq_iff (h : ones < 8) (a b : UInt8) :
    a &&& ~~~ (0xFF >>> UInt8.ofNat ones) = b &&& ~~~ (0xFF >>> UInt8.ofNat ones) ↔
      a.toNat / 2 ^ (8 - ones) = b.toNat / 2 ^ (8 - ones) := by
  rw [← UInt8.toNat_inj, toNat_and_mask h, toNat_and_mask h]
  exact Nat.mul_left_inj (Nat.two_pow_pos _).ne'

theorem and_ff (b : UInt8) : b &&& 0xFF = b := UInt8.and_neg_one

theorem agree_mask_zero (as bs : Bytes) (n : Nat) : agree as (cidrMask 0 n) bs := by
  induction n generalizing as bs with
  | zero => cases as <;> rfl
  | succ n ih =>
    rw [cidrMask]
    rcases as with _ | ⟨a, as⟩
    · rfl
    rcases bs with _ | ⟨b, bs⟩
    · rfl
    have hmask : (if 8 ≤ 0 then (0xFF : UInt8) else ~~~ (0xFF >>> UInt8.ofNat 0)) = 0 := by decide
    rw [hmask, agree, ih as bs, UInt8.and_zero, UInt8.and_zero]
    rfl

theorem mul_add_eq_iff {q r s x y : Nat} (hr : r < q) (hs : s < q) : x * q + r = y * q + s ↔ x = y ∧ r = s := by
  have hdiv : ∀ x {r}, r < q → (x * q + r) / q = x := by
    intro x r hr
    rw [Nat.add_comm, Nat.add_mul_div_right _ _ (Nat.zero_lt_of_lt hr), Nat.div_eq_of_lt hr, Nat.zero_add]
  constructor
  · intro h
    have hxy : x = y := by rw [← hdiv x hr, h, hdiv y hs]
    rw [hxy] at h
    exact ⟨hxy, Nat.add_left_cancel h⟩
  · rintro ⟨rfl, rfl⟩
    rfl

theorem agree_iff {as bs : Bytes} (h : as.length = bs.length) (ones : Nat) :
    agree as (cidrMask ones as.length) bs ↔
      value as / 2 ^ (8 * as.length - ones) = value bs / 2 ^ (8 * as.length - ones) := by
  induction as generalizing bs ones with
  | nil =>
    obtain rfl := List.length_eq_zero_iff.mp h.symm
    simp [agree]
  | cons a as ih =>
    rcases bs with _ | ⟨b, bs⟩
    · cases h
    have hlen : as.length = bs.length := Nat.succ_injective h
    have hpow : (256 : Nat) ^ as.length = 2 ^ (8 * as.length) := by rw [Nat.pow_mul]
    have hlt := value_lt as
    have hlt' := value_lt bs
    rw [← hlen] at hlt'
    rw [List.length_cons, cidrMask, agree, Bool.and_eq_true, beq_iff_eq, value, value, ← hlen, hpow]
    by_cases hones : 8 ≤ ones
    · -- the byte counts as a whole: what is cut off is from the bytes after it
      have hk : 8 * (as.length + 1) - ones = 8 * as.length - (ones - 8) := by omega
      have hdiv : ∀ x v, v < 2 ^ (8 * as.length) → (x * 2 ^ (8 * as.length) + v) / 2 ^ (8 * as.length - (ones - 8)) =
          x * 2 ^ (8 * as.length - (8 * as.length - (ones - 8))) + v / 2 ^ (8 * as.length - (ones - 8)) := by
        intro x v hv
        rw [← pow_mul_pow_sub 2 (Nat.sub_le (8 * as.length) (ones - 8)), Nat.mul_left_comm, Nat.add_comm,
          Nat.add_mul_div_left _ _ (Nat.two_pow_pos _), Nat.add_comm]
      have hrest : ∀ v, v < 2 ^ (8 * as.length) → v / 2 ^ (8 * as.length - (ones - 8)) <
          2 ^ (8 * as.length - (8 * as.length - (ones - 8))) := by
        intro v hv
        rw [Nat.div_lt_iff_lt_mul (Nat.two_pow_pos _), Nat.mul_comm, pow_mul_pow_sub 2 (Nat.sub_le _ _)]
        exact hv
      rw [if_pos hones, ih hlen, hk, hdiv _ _ hlt, hdiv _ _ hlt', mul_add_eq_iff (hrest _ hlt) (hrest _ hlt'),
        UInt8.toNat_inj]
      rw [and_ff, and_ff]
    · -- the bytes after it do not count
      have hk : 8 * (as.length + 1) - ones = 8 * as.length + (8 - ones) := by omega
      have hdiv : ∀ x v, v < 2 ^ (8 * as.length) →
          (x * 2 ^ (8 * as.length) + v) / 2 ^ (8 * as.length + (8 - ones)) = x / 2 ^ (8 - ones) := by
        intro x v hv
        rw [Nat.pow_add, ← Nat.div_div_eq_div_mul, Nat.add_comm, Nat.add_mul_div_right _ _ (Nat.two_pow_pos _),
          Nat.div_eq_of_lt hv, Nat.zero_add]
      rw [if_neg hones, and_mask_eq_iff (Nat.lt_of_not_le hones), show ones - 8 = 0 by omega, hk, hdiv _ _ hlt,
        hdiv _ _ hlt']
      exact and_iff_left (agree_mask_zero as bs _)

theorem samePrefix_iff_agree :
    SamePrefix ones a b ↔ a.length = b.length ∧ agree a (cidrMask ones a.length) b :=
  and_congr_right fun h => (agree_iff h ones).symm

theorem contains_cidr (number : Bytes) (ones : Nat) (ip : IP) :
    (cidr number ones).contains ip ↔ SamePrefix ones number (short ip) := by
  rw [IPNet.contains, cidr, samePrefix_iff_agree, Bool.and_eq_true, beq_iff_eq, eq_comm]

theorem samePrefix_cons {a b : UInt8} {as bs : Bytes} (h : ones ≤ 8) (hlen : as.length = bs.length) :
    SamePrefix ones (a :: as) (b :: bs) ↔ a.toNat / 2 ^ (8 - ones) = b.toNat / 2 ^ (8 - ones) := by
  rw [samePrefix_iff_agree, List.length_cons, List.length_cons, and_iff_right (congrArg (· + 1) hlen), cidrMask, agree,
    show ones - 8 = 0 by omega, agree_mask_zero, Bool.and_true, beq_iff_eq]
  rcases Nat.lt_or_eq_of_le h with hlt | rfl
  · rw [if_neg (Nat.not_le.mpr hlt), and_mask_eq_iff hlt]
  · rw [if_pos (Nat.le_refl 8), and_ff, and_ff, Nat.sub_self, Nat.pow_zero, Nat.div_one, Nat.div_one, UInt8.toNat_inj]

theorem eq_of_value_eq (hlen : a.length = b.length) (h : value a = value b) : a = b := by
  induction a generalizing b with
  | nil => exact (List.length_eq_zero_iff.mp hlen.symm).symm
  | cons x a ih =>
    rcases b with _ | ⟨y, b⟩
    · cases hlen
    have hlen' : a.length = b.length := Nat.succ_injective hlen
    have hlt := value_lt a
    have hlt' := value_lt b
    rw [Nat.pow_mul] at hlt hlt'
    rw [value, value, hlen'] at h
    rw [hlen'] at hlt
    obtain ⟨hxy, hab⟩ := (mul_add_eq_iff hlt hlt').mp h
    rw [UInt8.toNat_inj.mp hxy, ih hlen' hab]

theorem samePrefix_all : SamePrefix (8 * a.length) a b ↔ a = b := by
  rw [SamePrefix, Nat.sub_self, Nat.pow_zero, Nat.div_one, Nat.div_one]
  constructor
  · rintro ⟨hlen, hvalue⟩
    exact eq_of_value_eq hlen hvalue
  · rintro rfl
    exact ⟨rfl, rfl⟩

/-! ## The two forms of an IPv4 address -/

section Forms
variable {ip x : IP}

theorem to4_of_length (h : ip.length = 4) : to4 ip = some ip := if_pos h

theorem length_mapped (h : ip.length = 4) : (mapped ip).length = 16 := by
  rw [mapped, List.length_append, h]
  rfl

theorem to4_mapped (h : ip.length = 4) : to4 (mapped ip) = some ip := by
  have hlen := length_mapped h
  rw [to4, if_neg (by omega), if_pos ⟨hlen, rfl⟩]
  rfl

theorem short_of_length (h : ip.length = 4) : short ip = ip := by
  rw [short, to4_of_length h]
  rfl

theorem short_mapped (h : ip.length = 4) : short (mapped ip) = short ip := by
  rw [short, short, to4_mapped h, to4_of_length h]
  rfl

theorem mapped_or_to4_none (h : ip.length = 16) : (∃ x, x.length = 4 ∧ ip = mapped x) ∨ to4 ip = none := by
  by_cases hprefix : ip.take 12 = v4InV6Prefix
  · refine .inl ⟨ip.drop 12, by rw [List.length_drop, h], ?_⟩
    rw [mapped, ← hprefix, List.take_append_drop]
  · refine .inr ?_
    rw [to4, if_neg (by omega), if_neg fun hmapped => hprefix hmapped.2]

theorem equal_of_length (h : ip.length = x.length) : equal ip x = true ↔ ip = x := by
  rw [equal, if_pos h, beq_iff_eq]

theorem equal_mapped (h : ip.length = 4) (hx : x.length = 4) : equal ip (mapped x) = true ↔ ip = x := by
  have hlen := length_mapped hx
  rw [equal, if_neg (by omega), if_pos ⟨h, hlen⟩, Bool.and_eq_true, beq_iff_eq, beq_iff_eq]
  exact and_iff_right rfl

theorem mapped_inj : mapped ip = mapped x ↔ ip = x := List.append_right_inj v4InV6Prefix

/-- IPv4 addresses, their other form and other addresses are all. -/
@[elab_as_elim]
theorem form_induction {motive : IP → Prop} (v4 : ∀ x, x.length = 4 → motive x)
    (v4mapped : ∀ x, x.length = 4 → motive x → motive (mapped x))
    (v6 : ∀ x, x.length = 16 → to4 x = none → motive x) (h : ip.length = 4 ∨ ip.length = 16) : motive ip := by
  rcases h with h | h
  · exact v4 ip h
  · rcases mapped_or_to4_none h with ⟨x, hx, rfl⟩ | hnone
    · exact v4mapped x hx (v4 x hx)
    · exact v6 ip h hnone

end Forms

/-! ## The text of an address -/

/-- What `ParseIP` sees in a character: the value of a digit, another hexadecimal digit, or one of the marks. -/
inductive Sign
  | digit (d : Nat)
  | letter
  | colon
  | dot
  | other
  deriving DecidableEq

def sign (c : Char) : Sign :=
  if '0' ≤ c ∧ c ≤ '9' then .digit (c.toNat - 48)
  else if ('a' ≤ c ∧ c ≤ 'f') ∨ ('A' ≤ c ∧ c ≤ 'F') then .letter
  else if c = ':' then .colon
  else if c = '.' then .dot
  else .other

/-- A decimal number up to 255, without zeros before it. -/
def isOctet : List Sign → Bool
  | [.digit _] => true
  | [.digit a, .digit _] => a ≠ 0
  | [.digit a, .digit b, .digit c] => a ≠ 0 ∧ a * 100 + b * 10 + c ≤ 255
  | _ => false

/-- `parseIPv4` has no error. -/
def isIPv4 (s : List Sign) : Bool :=
  match s.splitOn .dot with
  | [a, b, c, d] => [a, b, c, d].all isOctet
  | _ => false

def isHex : Sign → Bool
  | .digit _ | .letter => true
  | _ => false

/-- The loop of `parseIPv6`: so many groups are missing, and `::` has been read or not. It has to stand
for one group at least. -/
def isIPv6Groups : Nat → Bool → List Sign → Bool
  | 0, _, _ => false
  | n + 1, ellipsis, s =>
    if s.takeWhile isHex = [] ∨ 4 < (s.takeWhile isHex).length then false
    else
      match s.dropWhile isHex with
      | [] => ellipsis = decide (0 < n)
      | .dot :: _ => 1 ≤ n ∧ ellipsis = decide (1 < n) ∧ isIPv4 s
      | .colon :: .colon :: rest => !ellipsis && if rest = [] then 0 < n else isIPv6Groups n true rest
      | .colon :: c :: rest => isIPv6Groups n ellipsis (c :: rest)
      | _ => false

def isIPv6 : List Sign → Bool
  | .colon :: .colon :: rest => rest = [] || isIPv6Groups 8 true rest
  | s => isIPv6Groups 8 false s

/-- `net.ParseIP` does not return nil. -/
def isIP (s : List Char) : Bool := isIPv4 (s.map sign) || isIPv6 (s.map sign)

theorem sign_high {c : Char} (h : 128 ≤ c.toNat) : sign c = .other := by
  have hle : ∀ d : Char, d.toNat < 128 → ¬ c ≤ d := fun d hd hcd =>
    absurd (UInt32.le_iff_toNat_le.mp (Char.le_def.mp hcd)) (Nat.not_le.mpr (Nat.lt_of_lt_of_le hd h))
  have hne : ∀ d : Char, d.toNat < 128 → c ≠ d := fun d hd he => hle d hd (he ▸ Nat.le_refl _)
  rw [sign, if_neg fun hd => hle '9' (by decide) hd.2,
    if_neg fun hd => hd.elim (fun hd => hle 'f' (by decide) hd.2) fun hd => hle 'F' (by decide) hd.2,
    if_neg (hne ':' (by decide)), if_neg (hne '.' (by decide))]

section Signs

variable {s : List Sign}

theorem other_notMem_of_isOctet (h : isOctet s = true) : Sign.other ∉ s := by
  unfold isOctet at h
  split at h <;> simp_all

theorem other_notMem_of_isIPv4 (h : isIPv4 s = true) : Sign.other ∉ s := by
  unfold isIPv4 at h
  split at h
  · rename_i a b c d hsplit
    simp only [List.all_cons, List.all_nil, Bool.and_true, Bool.and_eq_true] at h
    have hjoin : [Sign.dot].intercalate (s.splitOn .dot) = s := List.intercalate_splitOn Sign.dot
    rw [← hjoin, hsplit]
    simp [List.intercalate, other_notMem_of_isOctet h.1, other_notMem_of_isOctet h.2.1,
      other_notMem_of_isOctet h.2.2.1, other_notMem_of_isOctet h.2.2.2]
  · cases h

theorem other_notMem_of_isIPv6Groups {n : Nat} {ellipsis : Bool} (h : isIPv6Groups n ellipsis s = true) :
    Sign.other ∉ s := by
  have hhex : ∀ {s : List Sign}, Sign.other ∉ s.dropWhile isHex → Sign.other ∉ s := by
    intro s hrest hmem
    rw [← List.takeWhile_append_dropWhile (p := isHex) (l := s), List.mem_append] at hmem
    exact hmem.elim (fun hm => absurd (List.mem_takeWhile_imp hm) (by decide)) hrest
  induction n generalizing ellipsis s with
  | zero => cases h
  | succ n ih =>
    rw [isIPv6Groups] at h
    split at h
    · cases h
    · refine hhex ?_
      split at h
      · rename_i hrest
        simp [hrest]
      · simp only [Bool.decide_and, Bool.and_eq_true, decide_eq_true_eq] at h
        exact fun hm => other_notMem_of_isIPv4 h.2.2 ((List.dropWhile_sublist _).mem hm)
      · rename_i rest hrest
        simp only [Bool.and_eq_true] at h
        rw [hrest]
        split at h
        · rename_i hnil
          simp [hnil]
        · simpa using ih h.2
      · rename_i c rest hne hrest
        rw [hrest]
        simpa using ih h
      · cases h

theorem other_notMem_of_isIP {s : List Char} (h : isIP s = true) : Sign.other ∉ s.map sign := by
  rw [isIP, Bool.or_eq_true] at h
  refine h.elim other_notMem_of_isIPv4 fun h6 => ?_
  unfold isIPv6 at h6
  split at h6
  · rename_i rest hs
    rw [hs]
    rw [Bool.or_eq_true, decide_eq_true_eq] at h6
    rcases h6 with rfl | h6
    · simp
    · simpa using other_notMem_of_isIPv6Groups h6
  · exact other_notMem_of_isIPv6Groups h6

end Signs

end Csar.Net
