import CsarCore.Framework.Utf8
import Mathlib.Data.List.DropRight
import Mathlib.Data.List.Infix
import Mathlib.Data.List.TakeWhile

/-!
# Functions of the package `strings`

On Go strings, which are any bytes.
-/

namespace Csar.Strings

/-- The first and the last of a range, the distance of two of them, and how far each is from its lower
case letter. -/
def upperRanges : List (Nat × Nat × Nat × Int) :=
  [(0x41, 0x5A, 1, 32), (0xC0, 0xD6, 1, 32), (0xD8, 0xDE, 1, 32), (0x100, 0x12E, 2, 1),
    (0x130, 0x130, 1, -199), (0x132, 0x136, 2, 1), (0x139, 0x147, 2, 1), (0x14A, 0x176, 2, 1),
    (0x178, 0x178, 1, -121), (0x179, 0x17D, 2, 1), (0x181, 0x181, 1, 210), (0x182, 0x184, 2, 1),
    (0x186, 0x186, 1, 206), (0x187, 0x187, 1, 1), (0x189, 0x18A, 1, 205), (0x18B, 0x18B, 1, 1),
    (0x18E, 0x18E, 1, 79), (0x18F, 0x18F, 1, 202), (0x190, 0x190, 1, 203), (0x191, 0x191, 1, 1),
    (0x193, 0x193, 1, 205), (0x194, 0x194, 1, 207), (0x196, 0x196, 1, 211), (0x197, 0x197, 1, 209),
    (0x198, 0x198, 1, 1), (0x19C, 0x19C, 1, 211), (0x19D, 0x19D, 1, 213), (0x19F, 0x19F, 1, 214),
    (0x1A0, 0x1A4, 2, 1), (0x1A6, 0x1A6, 1, 218), (0x1A7, 0x1A7, 1, 1), (0x1A9, 0x1A9, 1, 218),
    (0x1AC, 0x1AC, 1, 1), (0x1AE, 0x1AE, 1, 218), (0x1AF, 0x1AF, 1, 1), (0x1B1, 0x1B2, 1, 217),
    (0x1B3, 0x1B5, 2, 1), (0x1B7, 0x1B7, 1, 219), (0x1B8, 0x1B8, 1, 1), (0x1BC, 0x1BC, 1, 1),
    (0x1C4, 0x1C4, 1, 2), (0x1C5, 0x1C5, 1, 1), (0x1C7, 0x1C7, 1, 2), (0x1C8, 0x1C8, 1, 1),
    (0x1CA, 0x1CA, 1, 2), (0x1CB, 0x1DB, 2, 1), (0x1DE, 0x1EE, 2, 1), (0x1F1, 0x1F1, 1, 2),
    (0x1F2, 0x1F4, 2, 1), (0x1F6, 0x1F6, 1, -97), (0x1F7, 0x1F7, 1, -56), (0x1F8, 0x21E, 2, 1),
    (0x220, 0x220, 1, -130), (0x222, 0x232, 2, 1), (0x23A, 0x23A, 1, 10795), (0x23B, 0x23B, 1, 1),
    (0x23D, 0x23D, 1, -163), (0x23E, 0x23E, 1, 10792), (0x241, 0x241, 1, 1), (0x243, 0x243, 1, -195),
    (0x244, 0x244, 1, 69), (0x245, 0x245, 1, 71), (0x246, 0x24E, 2, 1), (0x370, 0x372, 2, 1),
    (0x376, 0x376, 1, 1), (0x37F, 0x37F, 1, 116), (0x386, 0x386, 1, 38), (0x388, 0x38A, 1, 37),
    (0x38C, 0x38C, 1, 64), (0x38E, 0x38F, 1, 63), (0x391, 0x3A1, 1, 32), (0x3A3, 0x3AB, 1, 32),
    (0x3CF, 0x3CF, 1, 8), (0x3D8, 0x3EE, 2, 1), (0x3F4, 0x3F4, 1, -60), (0x3F7, 0x3F7, 1, 1),
    (0x3F9, 0x3F9, 1, -7), (0x3FA, 0x3FA, 1, 1), (0x3FD, 0x3FF, 1, -130), (0x400, 0x40F, 1, 80),
    (0x410, 0x42F, 1, 32), (0x460, 0x480, 2, 1), (0x48A, 0x4BE, 2, 1), (0x4C0, 0x4C0, 1, 15),
    (0x4C1, 0x4CD, 2, 1), (0x4D0, 0x52E, 2, 1), (0x531, 0x556, 1, 48), (0x10A0, 0x10C5, 1, 7264),
    (0x10C7, 0x10C7, 1, 7264), (0x10CD, 0x10CD, 1, 7264), (0x13A0, 0x13EF, 1, 38864), (0x13F0, 0x13F5, 1, 8),
    (0x1C90, 0x1CBA, 1, -3008), (0x1CBD, 0x1CBF, 1, -3008), (0x1E00, 0x1E94, 2, 1), (0x1E9E, 0x1E9E, 1, -7615),
    (0x1EA0, 0x1EFE, 2, 1), (0x1F08, 0x1F0F, 1, -8), (0x1F18, 0x1F1D, 1, -8), (0x1F28, 0x1F2F, 1, -8),
    (0x1F38, 0x1F3F, 1, -8), (0x1F48, 0x1F4D, 1, -8), (0x1F59, 0x1F5F, 2, -8), (0x1F68, 0x1F6F, 1, -8),
    (0x1F88, 0x1F8F, 1, -8), (0x1F98, 0x1F9F, 1, -8), (0x1FA8, 0x1FAF, 1, -8), (0x1FB8, 0x1FB9, 1, -8),
    (0x1FBA, 0x1FBB, 1, -74), (0x1FBC, 0x1FBC, 1, -9), (0x1FC8, 0x1FCB, 1, -86), (0x1FCC, 0x1FCC, 1, -9),
    (0x1FD8, 0x1FD9, 1, -8), (0x1FDA, 0x1FDB, 1, -100), (0x1FE8, 0x1FE9, 1, -8), (0x1FEA, 0x1FEB, 1, -112),
    (0x1FEC, 0x1FEC, 1, -7), (0x1FF8, 0x1FF9, 1, -128), (0x1FFA, 0x1FFB, 1, -126), (0x1FFC, 0x1FFC, 1, -9),
    (0x2126, 0x2126, 1, -7517), (0x212A, 0x212A, 1, -8383), (0x212B, 0x212B, 1, -8262),
    (0x2132, 0x2132, 1, 28), (0x2160, 0x216F, 1, 16), (0x2183, 0x2183, 1, 1), (0x24B6, 0x24CF, 1, 26),
    (0x2C00, 0x2C2F, 1, 48), (0x2C60, 0x2C60, 1, 1), (0x2C62, 0x2C62, 1, -10743), (0x2C63, 0x2C63, 1, -3814),
    (0x2C64, 0x2C64, 1, -10727), (0x2C67, 0x2C6B, 2, 1), (0x2C6D, 0x2C6D, 1, -10780),
    (0x2C6E, 0x2C6E, 1, -10749), (0x2C6F, 0x2C6F, 1, -10783), (0x2C70, 0x2C70, 1, -10782),
    (0x2C72, 0x2C72, 1, 1), (0x2C75, 0x2C75, 1, 1), (0x2C7E, 0x2C7F, 1, -10815), (0x2C80, 0x2CE2, 2, 1),
    (0x2CEB, 0x2CED, 2, 1), (0x2CF2, 0x2CF2, 1, 1), (0xA640, 0xA66C, 2, 1), (0xA680, 0xA69A, 2, 1),
    (0xA722, 0xA72E, 2, 1), (0xA732, 0xA76E, 2, 1), (0xA779, 0xA77B, 2, 1), (0xA77D, 0xA77D, 1, -35332),
    (0xA77E, 0xA786, 2, 1), (0xA78B, 0xA78B, 1, 1), (0xA78D, 0xA78D, 1, -42280), (0xA790, 0xA792, 2, 1),
    (0xA796, 0xA7A8, 2, 1), (0xA7AA, 0xA7AA, 1, -42308), (0xA7AB, 0xA7AB, 1, -42319),
    (0xA7AC, 0xA7AC, 1, -42315), (0xA7AD, 0xA7AD, 1, -42305), (0xA7AE, 0xA7AE, 1, -42308),
    (0xA7B0, 0xA7B0, 1, -42258), (0xA7B1, 0xA7B1, 1, -42282), (0xA7B2, 0xA7B2, 1, -42261),
    (0xA7B3, 0xA7B3, 1, 928), (0xA7B4, 0xA7C2, 2, 1), (0xA7C4, 0xA7C4, 1, -48), (0xA7C5, 0xA7C5, 1, -42307),
    (0xA7C6, 0xA7C6, 1, -35384), (0xA7C7, 0xA7C9, 2, 1), (0xA7D0, 0xA7D0, 1, 1), (0xA7D6, 0xA7D8, 2, 1),
    (0xA7F5, 0xA7F5, 1, 1), (0xFF21, 0xFF3A, 1, 32), (0x10400, 0x10427, 1, 40), (0x104B0, 0x104D3, 1, 40),
    (0x10570, 0x1057A, 1, 39), (0x1057C, 0x1058A, 1, 39), (0x1058C, 0x10592, 1, 39), (0x10594, 0x10595, 1, 39),
    (0x10C80, 0x10CB2, 1, 64), (0x118A0, 0x118BF, 1, 32), (0x16E40, 0x16E5F, 1, 32), (0x1E900, 0x1E921, 1, 34)]

/-- `unicode.ToLower`. -/
def lowerChar (c : Char) : Char :=
  match upperRanges.find? fun r => r.1 ≤ c.toNat ∧ c.toNat ≤ r.2.1 ∧ (c.toNat - r.1) % r.2.2.1 = 0 with
  | some r => Char.ofNat (c.toNat + r.2.2.2).toNat
  | none => c

/-- `strings.ToLower`; a byte that belongs to no character becomes U+FFFD. -/
def toLower (s : Bytes) : Bytes := encodeRunes ((text s).map lowerChar)

/-- Letters of ASCII in upper case, and with them the Kelvin sign and the long s. -/
def foldChar (c : Char) : Char :=
  if c = Char.ofNat 0x212A then 'K' else if c = Char.ofNat 0x17F then 'S' else c.toUpper

/-- `strings.EqualFold`, for two strings of which one is ASCII. -/
def equalFold (s t : Bytes) : Bool := (text s).map foldChar = (text t).map foldChar

theorem toUpper_toLower (c : Char) : c.toLower.toUpper = c.toUpper := by
  have hupper : ∀ n < 91, (Char.ofNat n).toLower.toUpper = (Char.ofNat n).toUpper := by decide
  by_cases hc : c.isUpper
  · have hle : c.toNat < 91 := Nat.lt_succ_of_le (UInt32.le_iff_toNat_le.mp (of_decide_eq_true hc).2)
    rw [← Char.ofNat_toNat c]
    exact hupper c.toNat hle
  · have hsame : c.toLower = c := dif_neg fun h => hc (decide_eq_true h)
    rw [hsame]

variable {c : Char} {s : Bytes} {sep : UInt8}

theorem foldChar_of_toLower {d : Char} (h : c.toLower = d) (hd : d.toNat < 128) : foldChar c = d.toUpper := by
  have hne : ∀ k : Char, k.toLower = k → 128 ≤ k.toNat → c ≠ k := by
    rintro k hk hlarge rfl
    rw [← h, hk] at hd
    omega
  rw [foldChar, if_neg (hne _ (by decide) (by decide)), if_neg (hne _ (by decide) (by decide)), ← h,
    toUpper_toLower]

theorem equalFold_of_toLower {cs ds : List Char} (h : cs.map Char.toLower = ds) (hds : ∀ d ∈ ds, d.toNat < 128)
    (hlower : ∀ d ∈ ds, d.toLower = d) : equalFold (encodeRunes cs) (encodeRunes ds) := by
  refine decide_eq_true ?_
  rw [text_encodeRunes, text_encodeRunes, ← h, List.map_map]
  refine List.map_congr_left fun c hc => ?_
  have hmem : c.toLower ∈ ds := h ▸ List.mem_map_of_mem hc
  rw [foldChar_of_toLower rfl (hds _ hmem), Function.comp_apply, foldChar_of_toLower (hlower _ hmem) (hds _ hmem)]

/-- `unicode.IsSpace`, on what starts at a byte. -/
def isSpace : Option Char → Bool
  | none => false
  | some c =>
    (9 ≤ c.toNat ∧ c.toNat ≤ 13) ∨ c.toNat ∈ [0x20, 0x85, 0xA0, 0x1680, 0x2028, 0x2029, 0x202F, 0x205F, 0x3000] ∨
      (0x2000 ≤ c.toNat ∧ c.toNat ≤ 0x200A)

/-- `unicode.IsControl`, on what starts at a byte. -/
def isControl : Option Char → Bool
  | none => false
  | some c => c.toNat < 0x20 ∨ (0x7F ≤ c.toNat ∧ c.toNat < 0xA0)

def runesLength (rs : List (Option Char)) : Nat := rs.foldr (fun r n => (r.map Char.utf8Size).getD 1 + n) 0

def trimSpace (s : Bytes) : Bytes :=
  let left := runesLength ((runes s).takeWhile isSpace)
  let right := runesLength ((runes s).reverse.takeWhile isSpace)
  (s.take (s.length - right)).drop left

/-- `strings.TrimLeftFunc(s, unicode.IsSpace)`. -/
def trimLeft (s : Bytes) : Bytes := s.drop (runesLength ((runes s).takeWhile isSpace))

/-- `strings.Trim` with a cutset of one byte. -/
def trim (s : Bytes) (c : UInt8) : Bytes := (s.dropWhile (· = c)).rdropWhile (· = c)

def fieldsIn : Nat → Bytes → List Bytes
  | 0, _ => []
  | n + 1, s =>
    let s := trimLeft s
    let k := runesLength ((runes s).takeWhile fun r => !isSpace r)
    if s = [] then [] else s.take k :: fieldsIn n (s.drop k)

/-- `strings.Fields`: the parts between spaces. -/
def fields (s : Bytes) : List Bytes := fieldsIn s.length s

def replaceIn (old new : Bytes) : Nat → Bytes → Bytes
  | 0, _ => []
  | _ + 1, [] => []
  | n + 1, c :: s =>
    if old.isPrefixOf (c :: s) then new ++ replaceIn old new n ((c :: s).drop old.length)
    else c :: replaceIn old new n s

/-- `strings.ReplaceAll`, of a string that is not empty. -/
def replaceAll (s old new : Bytes) : Bytes := replaceIn old new s.length s

def contains (s substr : Bytes) : Bool := substr <:+: s

/-- `strings.Split` with a separator of one byte. -/
def split (s : Bytes) (sep : UInt8) : List Bytes := s.splitOn sep

/-- `strings.SplitN(s, sep, 2)`: what is before and behind the first separator. -/
def cut (s : Bytes) (sep : UInt8) : Option (Bytes × Bytes) :=
  match s.dropWhile fun c => c ≠ sep with
  | [] => none
  | _ :: rest => some (s.takeWhile fun c => c ≠ sep, rest)

theorem cut_append {rest : Bytes} (h : sep ∉ s) : cut (s ++ sep :: rest) sep = some (s, rest) := by
  have hs : ∀ c ∈ s, decide (c ≠ sep) = true := fun c hc => decide_eq_true fun he => h (he ▸ hc)
  unfold cut
  rw [List.dropWhile_append_of_pos hs, List.takeWhile_append_of_pos hs, List.dropWhile_cons_of_neg (by simp),
    List.takeWhile_cons_of_neg (by simp), List.append_nil]

theorem eq_of_cut {a rest : Bytes} (h : cut s sep = some (a, rest)) : s = a ++ sep :: rest ∧ sep ∉ a := by
  have hsplit := List.takeWhile_append_dropWhile (p := fun c => decide (c ≠ sep)) (l := s)
  unfold cut at h
  split at h <;> cases h
  rename_i c hdrop
  have hc : c = sep := by
    have hhead := List.head?_dropWhile_not (fun c => decide (c ≠ sep)) s
    rw [hdrop] at hhead
    simpa using hhead
  refine ⟨?_, fun hmem => ?_⟩
  · rw [hdrop, hc] at hsplit
    exact hsplit.symm
  · have hne := List.mem_takeWhile_imp hmem
    simp at hne

/-- `strings.SplitN`, for a positive number of parts and a separator of one byte. -/
def splitN (s : Bytes) (sep : UInt8) : Nat → List Bytes
  | 0 => []
  | 1 => [s]
  | n + 2 =>
    match cut s sep with
    | none => [s]
    | some (a, rest) => a :: splitN rest sep (n + 1)

theorem eq_of_splitN_three {a b c : Bytes} (h : splitN s sep 3 = [a, b, c]) :
    s = a ++ sep :: (b ++ sep :: c) ∧ sep ∉ a ∧ sep ∉ b := by
  rw [splitN] at h
  split at h <;> [cases h; skip]
  rename_i a' rest hcut
  rw [splitN] at h
  split at h <;> cases h
  rename_i hcut'
  obtain ⟨hs, ha⟩ := eq_of_cut hcut
  obtain ⟨hrest, hb⟩ := eq_of_cut hcut'
  exact ⟨by rw [hs, hrest], ha, hb⟩

def trimPrefix (s start : Bytes) : Bytes := if start.isPrefixOf s then s.drop start.length else s

theorem trimPrefix_eq_nil {start : Bytes} : trimPrefix s start = [] ↔ s = [] ∨ s = start := by
  unfold trimPrefix
  split
  · rename_i h
    obtain ⟨t, rfl⟩ := List.isPrefixOf_iff_prefix.mp h
    rw [List.drop_left, List.append_eq_nil_iff, List.append_right_eq_self]
    exact ⟨.inr, fun ht => ht.elim And.right id⟩
  · rename_i h
    refine ⟨.inl, fun hs => hs.resolve_right ?_⟩
    rintro rfl
    exact h (List.isPrefixOf_iff_prefix.mpr List.prefix_rfl)

/-! ## Trimming -/

def spaceChar (c : Char) : Bool := isSpace (some c)

theorem runesLength_runes (s : Bytes) : runesLength (runes s) = s.length := by
  induction s using runes_ind with
  | nil => rfl
  | char c bs ih =>
    rw [runes_char, List.length_append, String.length_utf8EncodeChar, ← ih]
    rfl
  | stray b bs hb ih =>
    rw [runes_stray hb, List.length_cons, ← ih, Nat.add_comm]
    rfl

theorem runesLength_append (rs rs' : List (Option Char)) : runesLength (rs ++ rs') = runesLength rs + runesLength rs' := by
  induction rs with
  | nil => exact (Nat.zero_add _).symm
  | cons r rs ih =>
    show _ + runesLength (rs ++ rs') = _ + runesLength rs + _
    rw [ih, Nat.add_assoc]

theorem runesLength_reverse (rs : List (Option Char)) : runesLength rs.reverse = runesLength rs := by
  induction rs with
  | nil => rfl
  | cons r rs ih =>
    rw [List.reverse_cons, runesLength_append, ih, Nat.add_comm]
    rfl

theorem takeWhile_rdropWhile {α : Type} (p : α → Bool) (cs : List α) (hne : cs.rdropWhile p ≠ []) :
    cs.takeWhile p = (cs.rdropWhile p).takeWhile p := by
  have hlast := List.rdropWhile_last_not p cs hne
  have hshort : ((cs.rdropWhile p).takeWhile p).length ≠ (cs.rdropWhile p).length := by
    intro hlen
    have hall := List.takeWhile_eq_self_iff.mp ((List.takeWhile_prefix p).eq_of_length hlen)
    exact hlast (hall _ (List.getLast_mem hne))
  conv_lhs => rw [← List.rdropWhile_append_rtakeWhile (p := p) (l := cs)]
  rw [List.takeWhile_append, if_neg hshort]

theorem runes_trimSpace (s : Bytes) : runes (trimSpace s) = ((runes s).rdropWhile isSpace).dropWhile isSpace := by
  have hends : runes s = (runes s).rdropWhile isSpace ++ (runes s).rtakeWhile isSpace :=
    (List.rdropWhile_append_rtakeWhile ..).symm
  obtain ⟨x, z, hs, hx, hz⟩ := exists_of_runes_append hends
  have hright : runesLength ((runes s).reverse.takeWhile isSpace) = z.length := by
    rw [← runesLength_runes, hz, List.rtakeWhile, runesLength_reverse]
  have htake : s.take (s.length - z.length) = x := by
    rw [hs, List.length_append, Nat.add_sub_cancel, List.take_left]
  rw [trimSpace, hright, htake]
  by_cases hne : (runes s).rdropWhile isSpace = []
  · have hnil : x = [] := by
      rw [← List.length_eq_zero_iff, ← runesLength_runes, hx, hne]
      rfl
    rw [hnil, hne, List.drop_nil]
    rfl
  · obtain ⟨l, m, rfl, hl, hm⟩ :=
      exists_of_runes_append (hx.trans (List.takeWhile_append_dropWhile (p := isSpace)).symm)
    rw [takeWhile_rdropWhile isSpace _ hne, ← hl, runesLength_runes, List.drop_left, hm]

theorem trimSpace_of_ends (hleft : ∀ r ∈ (runes s).head?, isSpace r = false)
    (hright : ∀ r ∈ (runes s).getLast?, isSpace r = false) : trimSpace s = s := by
  have htake : ∀ rs : List (Option Char), (∀ r ∈ rs.head?, isSpace r = false) → rs.takeWhile isSpace = [] := by
    intro rs h
    cases rs with
    | nil => rfl
    | cons r rs => exact List.takeWhile_cons_of_neg (by rw [h r rfl]; exact Bool.false_ne_true)
  rw [← List.head?_reverse] at hright
  rw [trimSpace, htake _ hleft, htake _ hright]
  exact List.take_length

theorem trimSpace_ends (s : Bytes) : (∀ r ∈ (runes (trimSpace s)).head?, isSpace r = false) ∧
    ∀ r ∈ (runes (trimSpace s)).getLast?, isSpace r = false := by
  rw [runes_trimSpace]
  constructor
  · intro r hr
    have hnot := List.head?_dropWhile_not isSpace ((runes s).rdropWhile isSpace)
    rw [hr] at hnot
    simpa using hnot
  · intro r hr
    obtain ⟨t, ht⟩ := List.dropWhile_suffix isSpace (l := (runes s).rdropWhile isSpace)
    have hlast : ((runes s).rdropWhile isSpace).getLast? = some r := by
      rw [← ht, List.getLast?_append, hr]
      rfl
    have hne : (runes s).rdropWhile isSpace ≠ [] := by
      intro hnil
      rw [hnil] at hlast
      cases hlast
    rw [List.getLast?_eq_some_getLast hne] at hlast
    rw [← Option.some.inj hlast]
    exact eq_false_of_ne_true (List.rdropWhile_last_not isSpace (runes s) hne)

theorem trimSpace_trimSpace (s : Bytes) : trimSpace (trimSpace s) = trimSpace s :=
  trimSpace_of_ends (trimSpace_ends s).1 (trimSpace_ends s).2

theorem trimSpace_encodeRunes (cs : List Char) :
    trimSpace (encodeRunes cs) = encodeRunes ((cs.rdropWhile spaceChar).dropWhile spaceChar) := by
  refine eq_encodeRunes ?_
  rw [runes_trimSpace, runes_encodeRunes, List.rdropWhile, ← List.map_reverse, List.dropWhile_map, ← List.map_reverse,
    List.dropWhile_map]
  rfl

theorem dropWhile_append_stop {p : Char → Bool} {l r : List Char} (hc : p c = false) :
    (l ++ c :: r).dropWhile p = l.dropWhile p ++ c :: r := by
  have hstop : (c :: r).dropWhile p = c :: r := List.dropWhile_cons_of_neg (by simp [hc])
  rw [List.dropWhile_append, hstop]
  split
  · rename_i hnil
    rw [List.isEmpty_iff.mp hnil]
    rfl
  · rfl

theorem trimSpace_append (hc : spaceChar c = false) (ps ks : List Char) :
    trimSpace (encodeRunes (ps ++ c :: ks)) = encodeRunes (ps.dropWhile spaceChar ++ c :: ks.rdropWhile spaceChar) := by
  have hright : (ps ++ c :: ks).rdropWhile spaceChar = ps ++ c :: ks.rdropWhile spaceChar := by
    have hrev : (ps ++ c :: ks).reverse = ks.reverse ++ c :: ps.reverse := by simp
    rw [List.rdropWhile, hrev, dropWhile_append_stop hc, List.rdropWhile]
    simp
  rw [trimSpace_encodeRunes, hright, dropWhile_append_stop hc]

/-! ## Lower case -/

def inRange (r : Nat × Nat × Nat × Int) (n : Nat) : Prop := r.1 ≤ n ∧ n ≤ r.2.1 ∧ (n - r.1) % r.2.2.1 = 0

/-- The numbers from `lo` to `hi` with the distance `step` are not of `r`. In terms that are fast to check. -/
def apart (lo hi step : Nat) (r : Nat × Nat × Nat × Int) : Bool :=
  Nat.blt hi r.1 || Nat.blt r.2.1 lo ||
    (Nat.beq r.2.2.1 2 && (Nat.beq lo hi || Nat.beq step 2) && Nat.beq ((lo + r.1) % 2) 1)

/-- The spaces, in the same form. -/
def spaceRanges : List (Nat × Nat × Nat × Int) :=
  [(9, 13, 1, 0), (0x20, 0x20, 1, 0), (0x85, 0x85, 1, 0), (0xA0, 0xA0, 1, 0), (0x1680, 0x1680, 1, 0),
    (0x2000, 0x200A, 1, 0), (0x2028, 0x2029, 1, 0), (0x202F, 0x202F, 1, 0), (0x205F, 0x205F, 1, 0), (0x3000, 0x3000, 1, 0)]

/-- A range is moved to characters that are no upper case letters and no spaces. -/
def movedWell (r : Nat × Nat × Nat × Int) : Bool :=
  let lo := (r.1 + r.2.2.2).toNat
  let hi := (r.2.1 + r.2.2.2).toNat
  (0 ≤ r.1 + r.2.2.2 && (hi < 0xD800 || 0xDFFF < lo && hi < 0x110000)) &&
    (upperRanges ++ spaceRanges).all (apart lo hi r.2.2.1)

theorem upperRanges_movedWell : upperRanges.all movedWell := by decide +kernel

theorem not_inRange_of_apart {r r' : Nat × Nat × Nat × Int} {n m : Nat}
    (h : apart (r.1 + r.2.2.2).toNat (r.2.1 + r.2.2.2).toNat r.2.2.1 r') (h0 : 0 ≤ r.1 + r.2.2.2) (hn : inRange r n)
    (hm : (m : Int) = n + r.2.2.2) : ¬ inRange r' m := by
  obtain ⟨hlo, hhi, hmod⟩ := hn
  rintro ⟨hlo', hhi', hmod'⟩
  simp only [apart, Bool.or_eq_true, Bool.and_eq_true, Nat.blt_eq, Nat.beq_eq] at h
  rcases h with (hbelow | habove) | ⟨⟨hstep', hone | hstep⟩, hodd⟩
  · omega
  · omega
  · rw [hstep'] at hmod'
    omega
  · rw [hstep'] at hmod'
    rw [hstep] at hmod
    omega

theorem lowerChar_cases (c : Char) :
    lowerChar c = c ∨ ∃ r ∈ upperRanges, inRange r c.toNat ∧ ((lowerChar c).toNat : Int) = c.toNat + r.2.2.2 := by
  unfold lowerChar
  split
  · rename_i r hr
    have hin := List.find?_some hr
    simp only [decide_eq_true_eq] at hin
    have hmem := List.mem_of_find?_eq_some hr
    refine .inr ⟨r, hmem, hin, ?_⟩
    have hmoved := List.all_eq_true.mp upperRanges_movedWell r hmem
    obtain ⟨hlo, hhi, -⟩ := hin
    simp only [movedWell, Bool.or_eq_true, Bool.and_eq_true, decide_eq_true_eq] at hmoved
    have hvalid : (c.toNat + r.2.2.2).toNat.isValidChar := by
      unfold Nat.isValidChar
      omega
    rw [Char.ofNat, dif_pos hvalid]
    show (((c.toNat + r.2.2.2).toNat : Nat) : Int) = _
    omega
  · exact .inl rfl

theorem not_inRange_lowerChar (h : lowerChar c ≠ c) : ∀ r ∈ upperRanges ++ spaceRanges, ¬ inRange r (lowerChar c).toNat := by
  obtain ⟨r, hr, hin, hmoved⟩ := (lowerChar_cases c).resolve_left h
  have hwell := List.all_eq_true.mp upperRanges_movedWell r hr
  simp only [movedWell, Bool.and_eq_true, decide_eq_true_eq] at hwell
  intro r' hr'
  exact not_inRange_of_apart (List.all_eq_true.mp hwell.2 r' hr') hwell.1.1 hin hmoved

theorem lowerChar_lowerChar (c : Char) : lowerChar (lowerChar c) = lowerChar c := by
  by_cases h : lowerChar c = c
  · rw [h, h]
  · rcases lowerChar_cases (lowerChar c) with hsame | ⟨r, hr, hin, -⟩
    · exact hsame
    · exact absurd hin (not_inRange_lowerChar h r (List.mem_append_left _ hr))

theorem spaceChar_iff : spaceChar c ↔ ∃ r ∈ spaceRanges, inRange r c.toNat := by
  simp only [spaceRanges, List.mem_cons, List.not_mem_nil, or_false, exists_eq_or_imp, exists_eq_left, inRange, Nat.mod_one,
    and_true, spaceChar, isSpace, decide_eq_true_eq]
  omega

theorem spaceChar_lowerChar (h : spaceChar (lowerChar c)) : spaceChar c := by
  by_cases hsame : lowerChar c = c
  · rw [hsame] at h
    exact h
  · obtain ⟨r, hr, hin⟩ := spaceChar_iff.mp h
    exact absurd hin (not_inRange_lowerChar hsame r (List.mem_append_right _ hr))

/-- A range is that of ASCII, or one of other characters that is moved to others or behind the letter `f`. -/
def movedApart (r : Nat × Nat × Nat × Int) : Bool :=
  r = (0x41, 0x5A, 1, 32) ∨
    (128 ≤ r.1 ∧ 103 ≤ r.1 + r.2.2.2 ∧ (r.2.1 + r.2.2.2 ≤ 122 ∨ 128 ≤ r.1 + r.2.2.2))

theorem upperRanges_movedApart : upperRanges.all movedApart := by decide +kernel

/-- What does not tell letters of ASCII from their lower case, and no others from letters behind `f`, is
the same in lower case. -/
theorem lowerChar_congr {β : Type} (q : Char → β) (b : β)
    (hcase : ∀ n < 26, q (Char.ofNat (97 + n)) = q (Char.ofNat (65 + n)))
    (hletter : ∀ n < 20, q (Char.ofNat (103 + n)) = b) (hhigh : ∀ c : Char, 128 ≤ c.toNat → q c = b) (c : Char) :
    q (lowerChar c) = q c := by
  rcases lowerChar_cases c with hsame | ⟨r, hr, hin, hmoved⟩
  · rw [hsame]
  have hapart := List.all_eq_true.mp upperRanges_movedApart r hr
  simp only [movedApart, decide_eq_true_eq] at hapart
  have hchar : ∀ (d : Char) (k : Nat), k ≤ d.toNat → d = Char.ofNat (k + (d.toNat - k)) := by
    intro d k hk
    rw [Nat.add_sub_cancel' hk, Char.ofNat_toNat]
  obtain ⟨hlo, hhi, -⟩ := hin
  rcases hapart with rfl | ⟨hnot, hlow, hto⟩
  · have hlower : ((lowerChar c).toNat : Int) = c.toNat + 32 := hmoved
    have hle : c.toNat ≤ 90 := hhi
    have hge : 65 ≤ c.toNat := hlo
    have hcase' := hcase (c.toNat - 65) (by omega)
    rw [← hchar c 65 hge, show 97 + (c.toNat - 65) = (lowerChar c).toNat by omega, Char.ofNat_toNat] at hcase'
    exact hcase'
  · rw [hhigh c (by omega)]
    rcases hto with hto | hto
    · rw [hchar (lowerChar c) 103 (by omega)]
      exact hletter _ (by omega)
    · exact hhigh _ (by omega)

theorem toLower_toLower (s : Bytes) : toLower (toLower s) = toLower s := by
  rw [toLower, toLower, text_encodeRunes, List.map_map]
  congr 1
  exact List.map_congr_left fun c _ => lowerChar_lowerChar c

theorem trimSpace_toLower_trimSpace (s : Bytes) : trimSpace (toLower (trimSpace s)) = toLower (trimSpace s) := by
  obtain ⟨hleft, hright⟩ := trimSpace_ends s
  have hspace : ∀ o : Option (Option Char), (∀ r ∈ o, isSpace r = false) →
      ∀ r ∈ o.map fun r => some (lowerChar (r.getD runeError)), isSpace r = false := by
    intro o ho r hr
    obtain ⟨r', hr', rfl⟩ := Option.map_eq_some_iff.mp hr
    refine eq_false_of_ne_true fun h => ?_
    have hc := spaceChar_lowerChar h
    cases r' with
    | none => exact absurd hc (by decide)
    | some c => exact absurd (ho _ hr') (by rw [show isSpace (some c) = true from hc]; decide)
  have hrunes : runes (toLower (trimSpace s)) = (runes (trimSpace s)).map fun r => some (lowerChar (r.getD runeError)) := by
    rw [toLower, runes_encodeRunes, text, List.map_map, List.map_map]
    rfl
  refine trimSpace_of_ends ?_ ?_
  · rw [hrunes, List.head?_map]
    exact hspace _ hleft
  · rw [hrunes, List.getLast?_map]
    exact hspace _ hright

/-! ## Replacing in valid UTF-8 -/

section Replacing

variable {old new : Bytes}

/-- The bytes that continue a character stay, and valid UTF-8 stays behind them. -/
theorem replaceIn_valid (hold : validUtf8 old) (hne : old ≠ []) (hnew : validUtf8 new) (n : Nat) :
    ∀ (tail : Bytes) {s : Bytes}, (∀ b ∈ tail, continues b) → validUtf8 s → (tail ++ s).length ≤ n →
      ∃ s', validUtf8 s' ∧ replaceIn old new n (tail ++ s) = tail ++ s' := by
  have hstart : ∀ b t, continues b → old.isPrefixOf (b :: t) = false := by
    intro b t hb
    rw [Bool.eq_false_iff, ne_eq, List.isPrefixOf_iff_prefix]
    intro hprefix
    obtain ⟨o, os, rfl⟩ := List.exists_cons_of_ne_nil hne
    obtain ⟨rfl, -⟩ := List.cons_prefix_cons.mp hprefix
    rw [startsRune_of_valid hold o rfl] at hb
    cases hb
  induction n with
  | zero =>
    intro tail s _ _ hn
    obtain ⟨rfl, rfl⟩ := List.append_eq_nil_iff.mp (List.length_eq_zero_iff.mp (Nat.le_zero.mp hn))
    exact ⟨[], rfl, rfl⟩
  | succ n ih =>
    intro tail s htail hs hn
    cases tail with
    | cons b tail =>
      obtain ⟨hb, htail⟩ := List.forall_mem_cons.mp htail
      obtain ⟨s', hs', heq⟩ := ih tail htail hs (Nat.le_of_succ_le_succ hn)
      refine ⟨s', hs', ?_⟩
      rw [List.cons_append, replaceIn, hstart b _ hb]
      exact congrArg (b :: ·) heq
    | nil =>
      by_cases hempty : s = []
      · subst hempty
        exact ⟨[], rfl, rfl⟩
      · obtain ⟨c, t, rfl, ht⟩ := validUtf8_cons hs hempty
        obtain ⟨b, bs, hc, -, hbs⟩ := utf8EncodeChar_cons c
        rw [List.nil_append] at hn ⊢
        rw [hc, List.cons_append] at hn hs ⊢
        rw [replaceIn]
        by_cases hmatch : old.isPrefixOf (b :: (bs ++ t))
        · obtain ⟨rest, hrest⟩ := List.isPrefixOf_iff_prefix.mp hmatch
          have hvalid : validUtf8 rest := validUtf8_of_append hold (by rw [hrest]; exact hs)
          have hlen := congrArg List.length hrest
          have hpos := List.length_pos_iff.mpr hne
          rw [List.length_append] at hlen
          obtain ⟨s', hs', heq⟩ := ih [] (s := rest) (by simp) hvalid (by rw [List.nil_append]; omega)
          refine ⟨new ++ s', validUtf8_append hnew hs', ?_⟩
          rw [if_pos hmatch, ← hrest, List.drop_left]
          exact congrArg (new ++ ·) heq
        · obtain ⟨s', hs', heq⟩ := ih bs hbs ht (Nat.le_of_succ_le_succ hn)
          refine ⟨String.utf8EncodeChar c ++ s', validUtf8_append ?_ hs', ?_⟩
          · exact validUtf8_iff.mpr ⟨[c], by rw [encodeRunes_cons, encodeRunes, List.flatMap_nil, List.append_nil]⟩
          · rw [if_neg hmatch, heq, hc]
            rfl

theorem validUtf8_replaceAll {s : Bytes} (hs : validUtf8 s) (hold : validUtf8 old) (hne : old ≠ [])
    (hnew : validUtf8 new) : validUtf8 (replaceAll s old new) := by
  obtain ⟨s', hs', heq⟩ := replaceIn_valid hold hne hnew s.length [] (s := s) (by simp) hs (Nat.le_refl _)
  have hall : replaceAll s old new = s' := heq
  rw [hall]
  exact hs'

/-- More than enough bytes are enough. -/
theorem replaceIn_eq_replaceAll (hne : old ≠ []) : ∀ {n : Nat} {s : Bytes}, s.length ≤ n →
    replaceIn old new n s = replaceAll s old new := by
  have hpos := List.length_pos_iff.mpr hne
  have hboth : ∀ n m : Nat, ∀ s : Bytes, s.length ≤ n → s.length ≤ m → replaceIn old new n s = replaceIn old new m s := by
    intro n
    induction n with
    | zero =>
      intro m s hn _
      rw [List.length_eq_zero_iff.mp (Nat.le_zero.mp hn)]
      cases m <;> rfl
    | succ n ih =>
      intro m s hn hm
      cases s with
      | nil => cases m <;> rfl
      | cons c s =>
        obtain ⟨m, rfl⟩ : ∃ m', m = m' + 1 := Nat.exists_eq_succ_of_ne_zero (by rintro rfl; cases hm)
        have hdrop : ((c :: s).drop old.length).length ≤ s.length := by
          rw [List.length_drop, List.length_cons]
          omega
        rw [replaceIn, replaceIn, ih m s (Nat.le_of_succ_le_succ hn) (Nat.le_of_succ_le_succ hm),
          ih m _ (Nat.le_trans hdrop (Nat.le_of_succ_le_succ hn)) (Nat.le_trans hdrop (Nat.le_of_succ_le_succ hm))]
  exact fun {n s} hn => hboth n s.length s hn (Nat.le_refl _)

theorem replaceAll_append (hne : old ≠ []) (s : Bytes) : replaceAll (old ++ s) old new = new ++ replaceAll s old new := by
  obtain ⟨c, cs, rfl⟩ := List.exists_cons_of_ne_nil hne
  have hmatch : (c :: cs).isPrefixOf (c :: (cs ++ s)) := List.isPrefixOf_iff_prefix.mpr (List.prefix_append (c :: cs) s)
  have hdrop : (c :: (cs ++ s)).drop (c :: cs).length = s := List.drop_left
  rw [replaceAll, List.cons_append, List.length_cons, replaceIn, if_pos hmatch, hdrop,
    replaceIn_eq_replaceAll hne (by rw [List.length_append]; omega)]

theorem replaceAll_cons {c : UInt8} {s : Bytes} (hne : old ≠ []) (h : ¬ old <+: c :: s) :
    replaceAll (c :: s) old new = c :: replaceAll s old new := by
  rw [replaceAll, List.length_cons, replaceIn, if_neg fun hm => h (List.isPrefixOf_iff_prefix.mp hm),
    replaceIn_eq_replaceAll hne (Nat.le_refl _)]

end Replacing

end Csar.Strings
