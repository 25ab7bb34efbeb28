import CsarCore.Framework.Hex

/-!
# UTF-8 as Go reads it

A Go string is any list of bytes. `runes` cuts it into characters the way a `range`
loop does: where no character starts, one byte is cut off (`none`). `text` reads such a
byte as U+FFFD, and `sanitize` puts U+FFFD in its place; `encodeRunes` is the other
direction. What is about the characters of a string is proved along them (`runes_ind`).
-/

namespace Csar

/-- U+FFFD, `utf8.RuneError`. -/
def runeError : Char := Char.ofNat 0xFFFD

def firstRune (bs : Bytes) : Option Char := bs.toByteArray.utf8DecodeChar? 0

def runesIn : Nat → Bytes → List (Option Char)
  | 0, _ => []
  | _ + 1, [] => []
  | n + 1, b :: bs =>
    match firstRune (b :: bs) with
    | some c => some c :: runesIn n ((b :: bs).drop c.utf8Size)
    | none => none :: runesIn n bs

/-- `none`: a byte that belongs to no character. -/
def runes (bs : Bytes) : List (Option Char) := runesIn bs.length bs

/-- With U+FFFD for bytes that belong to no character. -/
def text (bs : Bytes) : List Char := (runes bs).map fun r => r.getD runeError

def encodeRunes (cs : List Char) : Bytes := cs.flatMap String.utf8EncodeChar

theorem encodeRunes_cons (c : Char) (cs : List Char) : encodeRunes (c :: cs) = String.utf8EncodeChar c ++ encodeRunes cs :=
  List.flatMap_cons ..

theorem firstRune_encode (c : Char) (bs : Bytes) : firstRune (String.utf8EncodeChar c ++ bs) = some c := by
  unfold firstRune
  rw [List.toByteArray_append]
  exact ByteArray.utf8DecodeChar?_utf8EncodeChar_append

theorem utf8EncodeChar_ne_nil (c : Char) : String.utf8EncodeChar c ≠ [] := by
  intro h
  have hlen := String.length_utf8EncodeChar c
  have hpos := c.utf8Size_pos
  rw [h, List.length_nil] at hlen
  omega

theorem runesIn_char {n : Nat} (c : Char) (bs : Bytes) :
    runesIn (n + 1) (String.utf8EncodeChar c ++ bs) = some c :: runesIn n bs := by
  have hfirst := firstRune_encode c bs
  have hdrop : (String.utf8EncodeChar c ++ bs).drop c.utf8Size = bs := by
    rw [← String.length_utf8EncodeChar c]
    exact List.drop_left
  rcases hb : String.utf8EncodeChar c ++ bs with _ | ⟨b, rest⟩
  · exact absurd (List.append_eq_nil_iff.mp hb).1 (utf8EncodeChar_ne_nil c)
  · rw [hb] at hfirst hdrop
    rw [runesIn, hfirst]
    dsimp only
    rw [hdrop]

/-! ## Along the characters of a string -/

variable {bs : Bytes} {c : Char} {b : UInt8} {s : Bytes} {cs : List Char} {t : Bytes}

theorem firstRune_eq_some (h : firstRune bs = some c) : ∃ rest, bs = String.utf8EncodeChar c ++ rest := by
  obtain ⟨l, hl⟩ := ByteArray.exists_of_utf8DecodeChar?_eq_some h
  refine ⟨l.data.toList, ?_⟩
  have hdata := congrArg (fun b => b.data.toList) hl
  simpa using hdata

/-- Bytes that belong to no character are met one at a time; the others in groups. -/
theorem runes_ind {motive : Bytes → Prop} (nil : motive [])
    (char : ∀ c bs, motive bs → motive (String.utf8EncodeChar c ++ bs))
    (stray : ∀ b bs, firstRune (b :: bs) = none → motive bs → motive (b :: bs)) (s : Bytes) : motive s := by
  have hle : ∀ n s, s.length ≤ n → motive s := by
    intro n
    induction n with
    | zero =>
      intro s hs
      rw [List.length_eq_zero_iff.mp (Nat.le_zero.mp hs)]
      exact nil
    | succ n ih =>
      rintro (_ | ⟨b, bs⟩) hs
      · exact nil
      · rcases hc : firstRune (b :: bs) with _ | c
        · exact stray b bs hc (ih bs (Nat.le_of_succ_le_succ hs))
        · obtain ⟨rest, hrest⟩ := firstRune_eq_some hc
          have hlen := congrArg List.length hrest
          have hpos := List.length_pos_iff.mpr (utf8EncodeChar_ne_nil c)
          rw [List.length_append] at hlen
          rw [hrest]
          exact char c rest (ih rest (by omega))
  exact hle s.length s (Nat.le_refl _)

theorem runesIn_stray {n : Nat} (h : firstRune (b :: bs) = none) :
    runesIn (n + 1) (b :: bs) = none :: runesIn n bs := by
  rw [runesIn, h]

theorem runesIn_of_le {n : Nat} (h : s.length ≤ n) : runesIn n s = runes s := by
  have hboth : ∀ n m, s.length ≤ n → s.length ≤ m → runesIn n s = runesIn m s := by
    clear h n
    induction s using runes_ind with
    | nil => intro n m _ _; cases n <;> cases m <;> rfl
    | char c bs ih =>
      intro n m hn hm
      have hpos := List.length_pos_iff.mpr (utf8EncodeChar_ne_nil c)
      rw [List.length_append] at hn hm
      obtain ⟨n, rfl⟩ : ∃ k, n = k + 1 := ⟨n - 1, by omega⟩
      obtain ⟨m, rfl⟩ : ∃ k, m = k + 1 := ⟨m - 1, by omega⟩
      rw [runesIn_char, runesIn_char, ih n m (by omega) (by omega)]
    | stray b bs hb ih =>
      intro n m hn hm
      rw [List.length_cons] at hn hm
      obtain ⟨n, rfl⟩ : ∃ k, n = k + 1 := ⟨n - 1, by omega⟩
      obtain ⟨m, rfl⟩ : ∃ k, m = k + 1 := ⟨m - 1, by omega⟩
      rw [runesIn_stray hb, runesIn_stray hb, ih n m (by omega) (by omega)]
  exact hboth n s.length h (Nat.le_refl _)

@[simp] theorem runes_nil : runes [] = [] := rfl

@[simp] theorem runes_char (c : Char) (bs : Bytes) : runes (String.utf8EncodeChar c ++ bs) = some c :: runes bs := by
  have hpos := List.length_pos_iff.mpr (utf8EncodeChar_ne_nil c)
  have hlen : (String.utf8EncodeChar c ++ bs).length = (String.utf8EncodeChar c).length + bs.length :=
    List.length_append
  obtain ⟨n, hn⟩ : ∃ n, (String.utf8EncodeChar c ++ bs).length = n + 1 :=
    ⟨(String.utf8EncodeChar c ++ bs).length - 1, by omega⟩
  rw [runes, hn, runesIn_char, runesIn_of_le (by omega)]

theorem runes_stray (h : firstRune (b :: bs) = none) : runes (b :: bs) = none :: runes bs := by
  rw [runes, List.length_cons, runesIn_stray h]
  rfl

theorem runes_encodeRunes (cs : List Char) : runes (encodeRunes cs) = cs.map some := by
  induction cs with
  | nil => rfl
  | cons c cs ih => rw [encodeRunes_cons, runes_char, ih, List.map_cons]

theorem text_encodeRunes (cs : List Char) : text (encodeRunes cs) = cs := by
  unfold text
  rw [runes_encodeRunes, List.map_map]
  exact List.map_id cs

theorem encodeRunes_injective : Function.Injective encodeRunes := by
  intro cs cs' h
  rw [← text_encodeRunes cs, h, text_encodeRunes]

theorem runes_cases (s : Bytes) :
    s = [] ∨ (∃ c bs, s = String.utf8EncodeChar c ++ bs) ∨ ∃ b bs, s = b :: bs ∧ firstRune (b :: bs) = none := by
  induction s using runes_ind with
  | nil => exact .inl rfl
  | char c bs _ => exact .inr (.inl ⟨c, bs, rfl⟩)
  | stray b bs hb _ => exact .inr (.inr ⟨b, bs, rfl, hb⟩)

theorem text_char (c : Char) (bs : Bytes) : text (String.utf8EncodeChar c ++ bs) = c :: text bs := by
  rw [text, runes_char]
  rfl

theorem text_stray (h : firstRune (b :: bs) = none) : text (b :: bs) = runeError :: text bs := by
  rw [text, runes_stray h]
  rfl

theorem eq_of_text_cons (h : text s = c :: cs) (hc : c ≠ runeError) :
    ∃ bs, s = String.utf8EncodeChar c ++ bs ∧ text bs = cs := by
  induction s using runes_ind with
  | nil => cases h
  | char c' bs _ =>
    rw [text_char, List.cons.injEq] at h
    obtain ⟨rfl, hbs⟩ := h
    exact ⟨bs, rfl, hbs⟩
  | stray b bs hb _ =>
    rw [text_stray hb, List.cons.injEq] at h
    exact absurd h.1.symm hc

theorem eq_of_text_append (cs : List Char) {rest : List Char} (h : text s = cs ++ rest)
    (hcs : ∀ c ∈ cs, c ≠ runeError) : ∃ bs, s = encodeRunes cs ++ bs ∧ text bs = rest := by
  induction cs generalizing s with
  | nil => exact ⟨s, rfl, h⟩
  | cons c cs ih =>
    obtain ⟨hc, hrest⟩ := List.forall_mem_cons.mp hcs
    obtain ⟨bs, rfl, hbs⟩ := eq_of_text_cons h hc
    obtain ⟨bs', rfl, hbs'⟩ := ih hbs hrest
    exact ⟨bs', by rw [encodeRunes_cons, List.append_assoc], hbs'⟩

/-- `utf8.ValidString`. -/
def validUtf8 (s : Bytes) : Bool := (runes s).all Option.isSome

def sanitize (s : Bytes) : Bytes := encodeRunes (text s)

@[simp] theorem sanitize_nil : sanitize [] = [] := rfl

@[simp] theorem sanitize_char (c : Char) (bs : Bytes) :
    sanitize (String.utf8EncodeChar c ++ bs) = String.utf8EncodeChar c ++ sanitize bs := by
  rw [sanitize, text, runes_char, List.map_cons]
  exact List.flatMap_cons ..

theorem sanitize_stray (h : firstRune (b :: bs) = none) :
    sanitize (b :: bs) = String.utf8EncodeChar runeError ++ sanitize bs := by
  rw [sanitize, text, runes_stray h, List.map_cons]
  exact List.flatMap_cons ..

theorem length_sanitize (s : Bytes) : (sanitize s).length = s.length + 2 * (runes s).count none := by
  induction s using runes_ind with
  | nil => rfl
  | char c bs ih =>
    rw [sanitize_char, runes_char, List.length_append, List.length_append, ih, List.count_cons_of_ne (by simp)]
    omega
  | stray b bs hb ih =>
    have herr : (String.utf8EncodeChar runeError).length = 3 := by decide
    rw [sanitize_stray hb, runes_stray hb, List.length_append, List.length_cons, ih, herr, List.count_cons_self]
    omega

theorem sanitize_of_valid (h : validUtf8 s) : sanitize s = s := by
  unfold validUtf8 at h
  induction s using runes_ind with
  | nil => rfl
  | char c bs ih =>
    rw [runes_char, List.all_cons, Bool.and_eq_true] at h
    rw [sanitize_char, ih h.2]
  | stray b bs hb ih =>
    rw [runes_stray hb] at h
    cases h

theorem sanitize_eq_self : sanitize s = s ↔ validUtf8 s := by
  refine ⟨fun h => ?_, sanitize_of_valid⟩
  have hlen := length_sanitize s
  have hnone : (none : Option Char) ∉ runes s := List.count_eq_zero.mp (by rw [h] at hlen; omega)
  exact List.all_eq_true.mpr fun r hr => Option.isSome_iff_ne_none.mpr fun he => hnone (he ▸ hr)

theorem sanitize_eq_nil : sanitize s = [] ↔ s = [] := by
  refine ⟨fun h => List.length_eq_zero_iff.mp ?_, fun h => by rw [h, sanitize_nil]⟩
  have hlen := length_sanitize s
  rw [h, List.length_nil] at hlen
  omega

theorem text_eq_nil (h : text s = []) : s = [] := by
  have hs : sanitize s = [] := by
    rw [sanitize, h]
    rfl
  exact sanitize_eq_nil.mp hs

/-! ## Where characters start

A character is a byte that continues none and then bytes that do, so that a string
may be cut before every byte that continues none (`runes_append`). -/

def continues (b : UInt8) : Bool := 0x80 ≤ b.toNat ∧ b.toNat < 0xC0

theorem utf8EncodeChar_ascii (h : c.toNat < 128) : String.utf8EncodeChar c = [UInt8.ofNat c.toNat] :=
  if_pos (Nat.le_of_lt_succ h)

theorem forall_continues (ns : List Nat) : ∀ x ∈ ns.map fun n => UInt8.ofNat (n % 64 + 128), continues x := by
  refine List.forall_mem_map.mpr fun n _ => ?_
  have hmod : n % 64 < 64 := Nat.mod_lt n (by decide)
  simp only [continues, UInt8.toNat_ofNat', decide_eq_true_eq]
  omega

theorem utf8EncodeChar_high (h : 128 ≤ c.toNat) :
    ∃ b bs, String.utf8EncodeChar c = b :: bs ∧ 0xC0 ≤ b.toNat ∧ bs ≠ [] ∧ ∀ x ∈ bs, continues x := by
  have hlead : ∀ n k, 0xC0 ≤ k → k + n < 256 → 0xC0 ≤ (UInt8.ofNat (n + k)).toNat := by
    intro n k hk hlt
    rw [UInt8.toNat_ofNat']
    omega
  have hv : ¬ c.val.toNat ≤ 127 := Nat.not_le.mpr h
  rw [String.utf8EncodeChar, if_neg hv]
  split
  · exact ⟨_, _, rfl, hlead _ _ (by decide) (by omega), by simp, forall_continues [c.toNat]⟩
  · split
    · exact ⟨_, _, rfl, hlead _ _ (by decide) (by omega), by simp, forall_continues [c.toNat / 64, c.toNat]⟩
    · exact ⟨_, _, rfl, hlead _ _ (by decide) (by omega), by simp,
        forall_continues [c.toNat / 4096, c.toNat / 64, c.toNat]⟩

theorem utf8EncodeChar_cons (c : Char) :
    ∃ b bs, String.utf8EncodeChar c = b :: bs ∧ continues b = false ∧ ∀ x ∈ bs, continues x := by
  rcases Nat.lt_or_ge c.toNat 128 with h | h
  · have hb : continues (UInt8.ofNat c.toNat) = false := by
      simp only [continues, UInt8.toNat_ofNat', decide_eq_false_iff_not]
      omega
    exact ⟨_, [], utf8EncodeChar_ascii h, hb, by simp⟩
  · obtain ⟨b, bs, heq, hb, -, hbs⟩ := utf8EncodeChar_high h
    refine ⟨b, bs, heq, ?_, hbs⟩
    simp only [continues, decide_eq_false_iff_not]
    omega

/-- A string does not continue a character. -/
def StartsRune (s : Bytes) : Prop := ∀ b ∈ s.head?, continues b = false

theorem firstRune_append (h : firstRune (b :: s) = none) (ht : StartsRune t) :
    firstRune (b :: s ++ t) = none := by
  refine Option.eq_none_iff_forall_ne_some.mpr fun c hc => ?_
  have hsome : ∀ rest, b :: s ≠ String.utf8EncodeChar c ++ rest := by
    intro rest heq
    rw [heq, firstRune_encode] at h
    cases h
  obtain ⟨rest, hrest⟩ := firstRune_eq_some hc
  rcases List.append_eq_append_iff.mp hrest with ⟨mid, henc, ht'⟩ | ⟨mid, heq, -⟩
  · cases mid with
    | nil =>
      rw [List.append_nil] at henc
      exact hsome [] (by rw [henc, List.append_nil])
    | cons x mid =>
      -- the character goes on in `t`, which does not continue one
      obtain ⟨b', bs, heq, -, hbs⟩ := utf8EncodeChar_cons c
      rw [heq, List.cons_append, List.cons.injEq] at henc
      have hx : continues x := hbs x (henc.2 ▸ List.mem_append_right s List.mem_cons_self)
      rw [ht', List.cons_append] at ht
      rw [ht x rfl] at hx
      cases hx
  · exact hsome mid heq

theorem runes_append (ht : StartsRune t) : runes (s ++ t) = runes s ++ runes t := by
  induction s using runes_ind with
  | nil => rfl
  | char c bs ih => rw [List.append_assoc, runes_char, runes_char, ih, List.cons_append]
  | stray b bs hb ih =>
    have hfirst : firstRune (b :: (bs ++ t)) = none := firstRune_append hb ht
    rw [List.cons_append, runes_stray hfirst, runes_stray hb, ih, List.cons_append]

theorem utf8EncodeChar_ofNat (h : b.toNat < 128) : String.utf8EncodeChar (Char.ofNat b.toNat) = [b] := by
  have hone : ∀ n < 128, String.utf8EncodeChar (Char.ofNat n) = [UInt8.ofNat n] := by decide
  rw [hone _ h, UInt8.ofNat_toNat]

theorem runes_ascii (h : b.toNat < 128) (bs : Bytes) :
    runes (b :: bs) = some (Char.ofNat b.toNat) :: runes bs := by
  have hsplit : b :: bs = String.utf8EncodeChar (Char.ofNat b.toNat) ++ bs := by
    rw [utf8EncodeChar_ofNat h]
    rfl
  rw [hsplit, runes_char]

theorem text_ascii (h : b.toNat < 128) (bs : Bytes) : text (b :: bs) = Char.ofNat b.toNat :: text bs := by
  rw [text, runes_ascii h]
  rfl

theorem stray_high (h : firstRune (b :: bs) = none) : 128 ≤ b.toNat := by
  refine Nat.le_of_not_lt fun hlt => ?_
  have hfirst := firstRune_encode (Char.ofNat b.toNat) bs
  rw [utf8EncodeChar_ofNat hlt] at hfirst
  rw [show b :: bs = [b] ++ bs from rfl, hfirst] at h
  cases h

theorem startsRune_ascii (h : b.toNat < 128) (bs : Bytes) : StartsRune (b :: bs) := by
  rintro _ ⟨⟩
  simp only [continues, decide_eq_false_iff_not]
  omega

theorem validUtf8_of_ascii (h : ∀ b ∈ s, b.toNat < 128) : validUtf8 s := by
  induction s with
  | nil => rfl
  | cons b bs ih =>
    obtain ⟨hb, hbs⟩ := List.forall_mem_cons.mp h
    rw [validUtf8, runes_ascii hb]
    exact ih hbs

/-! ## Strings of characters -/

theorem toList_loop (b : ByteArray) (i : Nat) (acc : List UInt8) :
    ByteArray.toList.loop b i acc = acc.reverse ++ b.data.toList.drop i := by
  have hsize : b.data.toList.length = b.size := rfl
  induction hn : b.size - i generalizing i acc with
  | zero =>
    rw [ByteArray.toList.loop, if_neg (by omega), List.drop_eq_nil_of_le (by omega), List.append_nil]
  | succ n ih =>
    have hlt : i < b.data.toList.length := by omega
    have hget : b.get! i = b.data.toList[i] := getElem!_pos b.data i hlt
    rw [ByteArray.toList.loop, if_pos (by omega), ih _ _ (by omega), List.drop_eq_getElem_cons hlt, hget,
      List.reverse_cons, List.append_assoc]
    rfl

theorem toList_toByteArray (s : Bytes) : s.toByteArray.toList = s := by
  rw [ByteArray.toList, toList_loop, List.toList_data_toByteArray]
  rfl

theorem utf8_eq_encodeRunes (s : String) : utf8 s = encodeRunes s.toList := by
  obtain ⟨cs, rfl⟩ : ∃ cs, s = String.ofList cs := ⟨s.toList, String.ofList_toList.symm⟩
  rw [utf8, String.toUTF8, String.toByteArray_ofList, List.utf8Encode, toList_toByteArray, String.toList_ofList,
    encodeRunes]

theorem utf8_injective {s t : String} (h : utf8 s = utf8 t) : s = t := by
  rw [utf8_eq_encodeRunes, utf8_eq_encodeRunes] at h
  exact String.toList_inj.mp (encodeRunes_injective h)

theorem utf8_inj {s t : String} : utf8 s = utf8 t ↔ s = t := ⟨utf8_injective, congrArg utf8⟩

theorem utf8_beq {s t : String} : (utf8 s == utf8 t) = (s == t) := by
  by_cases h : s = t
  · simp [h]
  · rw [beq_false_of_ne h, beq_false_of_ne (mt utf8_injective h)]

theorem validUtf8_encodeRunes (cs : List Char) : validUtf8 (encodeRunes cs) := by
  rw [validUtf8, runes_encodeRunes]
  simp

theorem validUtf8_utf8 (s : String) : validUtf8 (utf8 s) := by
  rw [utf8_eq_encodeRunes]
  exact validUtf8_encodeRunes _

theorem sanitize_utf8 (s : String) : sanitize (utf8 s) = utf8 s := sanitize_of_valid (validUtf8_utf8 s)

theorem utf8_ne_nil {s : String} (h : s ≠ "") : utf8 s ≠ [] := by
  intro hnil
  have hempty : utf8 "" = [] := by
    rw [utf8_eq_encodeRunes]
    rfl
  exact h (utf8_injective (hnil.trans hempty.symm))

/-! ## Valid UTF-8 -/

theorem encodeRunes_append (cs ds : List Char) : encodeRunes (cs ++ ds) = encodeRunes cs ++ encodeRunes ds :=
  List.flatMap_append

theorem validUtf8_iff : validUtf8 s ↔ ∃ cs, s = encodeRunes cs := by
  constructor
  · intro h
    exact ⟨text s, (sanitize_of_valid h).symm⟩
  · rintro ⟨cs, rfl⟩
    exact validUtf8_encodeRunes cs

theorem validUtf8_append (hs : validUtf8 s) (ht : validUtf8 t) : validUtf8 (s ++ t) := by
  obtain ⟨cs, rfl⟩ := validUtf8_iff.mp hs
  obtain ⟨ds, rfl⟩ := validUtf8_iff.mp ht
  exact validUtf8_iff.mpr ⟨cs ++ ds, (encodeRunes_append cs ds).symm⟩

theorem validUtf8_flatMap {α : Type} {f : α → Bytes} {l : List α} (h : ∀ a ∈ l, validUtf8 (f a)) :
    validUtf8 (l.flatMap f) := by
  induction l with
  | nil => rfl
  | cons a l ih =>
    obtain ⟨ha, hl⟩ := List.forall_mem_cons.mp h
    rw [List.flatMap_cons]
    exact validUtf8_append ha (ih hl)

theorem runes_encodeRunes_append (cs : List Char) (s : Bytes) : runes (encodeRunes cs ++ s) = cs.map some ++ runes s := by
  induction cs with
  | nil => rfl
  | cons c cs ih => rw [encodeRunes_cons, List.append_assoc, runes_char, ih, List.map_cons, List.cons_append]

theorem text_encodeRunes_append (cs : List Char) (s : Bytes) : text (encodeRunes cs ++ s) = cs ++ text s := by
  rw [text, runes_encodeRunes_append, List.map_append, List.map_map]
  exact congrArg (· ++ text s) (List.map_id cs)

theorem runes_valid_append (h : validUtf8 s) (t : Bytes) : runes (s ++ t) = runes s ++ runes t := by
  obtain ⟨cs, rfl⟩ := validUtf8_iff.mp h
  rw [runes_encodeRunes_append, runes_encodeRunes]

theorem validUtf8_of_append (hs : validUtf8 s) (h : validUtf8 (s ++ t)) : validUtf8 t := by
  unfold validUtf8 at h
  rw [runes_valid_append hs, List.all_append, Bool.and_eq_true] at h
  exact h.2

theorem validUtf8_cons (h : validUtf8 s) (hne : s ≠ []) :
    ∃ c t, s = String.utf8EncodeChar c ++ t ∧ validUtf8 t := by
  obtain ⟨_ | ⟨c, cs⟩, rfl⟩ := validUtf8_iff.mp h
  · exact absurd rfl hne
  · exact ⟨c, encodeRunes cs, encodeRunes_cons c cs, validUtf8_encodeRunes cs⟩

theorem exists_of_runes_append {rs rs' : List (Option Char)} (h : runes s = rs ++ rs') :
    ∃ a b, s = a ++ b ∧ runes a = rs ∧ runes b = rs' := by
  induction s using runes_ind generalizing rs with
  | nil =>
    obtain ⟨rfl, rfl⟩ := List.append_eq_nil_iff.mp h.symm
    exact ⟨[], [], rfl, rfl, rfl⟩
  | char c bs ih =>
    cases rs with
    | nil => exact ⟨[], _, rfl, rfl, h⟩
    | cons r rs =>
      rw [runes_char] at h
      obtain ⟨rfl, hrest⟩ := List.cons.inj h
      obtain ⟨a, b, rfl, rfl, rfl⟩ := ih hrest
      exact ⟨String.utf8EncodeChar c ++ a, b, (List.append_assoc ..).symm, runes_char c a, rfl⟩
  | stray b bs hb ih =>
    cases rs with
    | nil => exact ⟨[], _, rfl, rfl, h⟩
    | cons r rs =>
      rw [runes_stray hb] at h
      obtain ⟨rfl, hrest⟩ := List.cons.inj h
      obtain ⟨a, t, rfl, rfl, rfl⟩ := ih hrest
      refine ⟨b :: a, t, rfl, runes_stray ?_, rfl⟩
      -- the bytes behind do not help a stray byte, so those before the cut do not either
      rw [Option.eq_none_iff_forall_ne_some]
      intro c hc
      obtain ⟨rest, hrest⟩ := firstRune_eq_some hc
      rw [← List.cons_append, hrest, List.append_assoc, firstRune_encode] at hb
      cases hb

theorem eq_encodeRunes (h : runes s = cs.map some) : s = encodeRunes cs := by
  have hvalid : validUtf8 s := by
    rw [validUtf8, h, List.all_map]
    exact List.all_eq_true.mpr fun _ _ => rfl
  obtain ⟨ds, rfl⟩ := validUtf8_iff.mp hvalid
  rw [runes_encodeRunes] at h
  rw [List.map_injective_iff.mpr (fun _ _ => Option.some.inj) h]

theorem startsRune_of_valid (h : validUtf8 s) : StartsRune s := by
  intro b hb
  have hne : s ≠ [] := by
    rintro rfl
    cases hb
  obtain ⟨c, t, rfl, -⟩ := validUtf8_cons h hne
  obtain ⟨b', bs, heq, hb', -⟩ := utf8EncodeChar_cons c
  rw [heq] at hb
  cases hb
  exact hb'

theorem mem_encodeRunes_ascii (hb : b.toNat < 128) : b ∈ encodeRunes cs ↔ Char.ofNat b.toNat ∈ cs := by
  have hchar : ∀ c : Char, b ∈ String.utf8EncodeChar c ↔ c = Char.ofNat b.toNat := by
    intro c
    constructor
    · intro hmem
      rcases Nat.lt_or_ge c.toNat 128 with hc | hc
      · rw [utf8EncodeChar_ascii hc, List.mem_singleton] at hmem
        rw [hmem, UInt8.toNat_ofNat', Nat.mod_eq_of_lt (by omega), Char.ofNat_toNat]
      · obtain ⟨x, xs, heq, hx, -, hxs⟩ := utf8EncodeChar_high hc
        rw [heq, List.mem_cons] at hmem
        rcases hmem with rfl | hmem
        · omega
        · have hcont := hxs b hmem
          simp only [continues, decide_eq_true_eq] at hcont
          omega
    · rintro rfl
      rw [utf8EncodeChar_ofNat hb]
      exact List.mem_singleton_self b
  rw [encodeRunes, List.mem_flatMap]
  simp only [hchar, exists_eq_right]

theorem length_le_encodeRunes (cs : List Char) : cs.length ≤ (encodeRunes cs).length := by
  induction cs with
  | nil => exact Nat.zero_le _
  | cons c cs ih =>
    have hpos := c.utf8Size_pos
    rw [encodeRunes_cons, List.length_append, String.length_utf8EncodeChar, List.length_cons]
    omega

/-- Of any four places in a row in valid UTF-8, a character starts at one. -/
theorem length_encodeRunes_ascii (h : ∀ c ∈ cs, c.toNat < 128) : (encodeRunes cs).length = cs.length := by
  induction cs with
  | nil => rfl
  | cons c cs ih =>
    obtain ⟨hc, hcs⟩ := List.forall_mem_cons.mp h
    rw [encodeRunes_cons, utf8EncodeChar_ascii hc, List.length_append, ih hcs, List.length_cons, Nat.add_comm]
    rfl

theorem exists_valid_take (h : validUtf8 s) {n : Nat} (hn : n ≤ s.length) :
    ∃ k ≤ n, n < k + 4 ∧ validUtf8 (s.take k) := by
  obtain ⟨cs, rfl⟩ := validUtf8_iff.mp h
  clear h
  induction cs generalizing n with
  | nil =>
    have hzero : n = 0 := Nat.le_zero.mp hn
    exact ⟨0, by omega, by omega, rfl⟩
  | cons c cs ih =>
    have hsize := c.utf8Size_le_four
    have hlen := String.length_utf8EncodeChar c
    rw [encodeRunes_cons, List.length_append] at hn
    rcases Nat.lt_or_ge n c.utf8Size with hlt | hge
    · exact ⟨0, Nat.zero_le n, by omega, rfl⟩
    · obtain ⟨k, hk, hnear, hvalid⟩ := ih (n := n - c.utf8Size) (by omega)
      refine ⟨c.utf8Size + k, by omega, by omega, ?_⟩
      rw [encodeRunes_cons, ← hlen, List.take_length_add_append]
      obtain ⟨ds, hds⟩ := validUtf8_iff.mp hvalid
      exact validUtf8_iff.mpr ⟨c :: ds, by rw [hds, encodeRunes_cons]⟩

end Csar
