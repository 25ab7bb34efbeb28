import CsarCore.Framework.Json.Number
import CsarCore.Framework.Json.Quote
import CsarCore.Framework.Json.Text

/-!
# Decoding and encoding

`parse` is what a text denotes: numbers as decimal numbers, strings as sequences of
code points. `unmarshal` and `marshal` are `json.Unmarshal` into an `any` and
`json.Marshal` of what comes out of it: numbers are binary64, strings are bytes,
objects are maps.
-/

namespace Csar.Json

abbrev Doc := Json Decimal (List CodePoint)

/-- A value of type `any`; members are in the order of their keys. -/
abbrev Value := Json Float64 Bytes

def readNumber (cs : List Char) : Decimal := (parseNumber cs).getD ⟨false, 0, 0⟩

/-- Its numbers and strings can be read. -/
def wellFormed (r : Raw) : Bool := r.all (fun n => (parseNumber (text n)).isSome) fun s => (unquote (text s)).isSome

/-- What a text denotes that is written so. -/
def denoted (r : Raw) : Doc := r.map (fun n => readNumber (text n)) fun s => (unquote (text s)).getD []

def parse (raw : Bytes) : Option Doc := ((parseRaw raw).filter wellFormed).map denoted

/-- No JSON text or one that is nested too deep, and a number that does not fit. -/
inductive UnmarshalError
  | malformed
  | outOfRange
  deriving DecidableEq

def maxNestingDepth : Nat := 10000

def inRange (d : Doc) : Bool := d.all (fun x => x.toFloat64.isSome) fun _ => true

def toFloat (x : Decimal) : Float64 := x.toFloat64.getD ⟨false, 0, 0, by decide⟩

def decode (d : Doc) : Value := (d.map toFloat goString).normalize

/-- `json.Unmarshal` into an `any`. -/
def unmarshal (raw : Bytes) : Except UnmarshalError Value :=
  match parse raw with
  | none => .error .malformed
  | some d =>
    if maxNestingDepth < d.depth then .error .malformed
    else if inRange d then .ok (decode d)
    else .error .outOfRange

/-- Of its text or a number, and a value that is no object. -/
inductive MapError
  | value (err : UnmarshalError)
  | mistyped
  deriving DecidableEq

/-- A `map[string]any`; `none`: the nil map. -/
abbrev GoMap := Option (List (Bytes × Value))

/-- `json.Unmarshal` into a nil map; `null` leaves it nil. -/
def unmarshalMap (raw : Bytes) : Except MapError GoMap :=
  match unmarshal raw with
  | .error err => .error (.value err)
  | .ok .null => .ok none
  | .ok (.object ms) => .ok (some ms)
  | .ok _ => .error .mistyped

/-- `m[key]`. -/
def GoMap.get (m : GoMap) (key : Bytes) : Option Value := (m.getD []).lookup key

/-- `s, _ := v.(string)`. -/
def stringOf : Option Value → Bytes
  | some (.string s) => s
  | _ => []

def quoteBytes (s : Bytes) : Bytes := encodeRunes (quote s)

/-- What `json.Unmarshal` makes is always written. -/
def marshal (v : Value) : Bytes := print (v.map (fun f => encodeRunes (formatFloat f)) quoteBytes)

/-- With its numbers as they are written and its strings as Go has them. -/
abbrev Message := Json (List Char) Bytes

/-- How it is written. -/
def spelled (m : Message) : Raw := m.map encodeRunes quoteBytes

def write (m : Message) : Bytes := print (spelled m)

def readable (m : Message) : Bool := m.all (fun cs => (parseNumber cs).isSome) fun _ => true

theorem marshal_eq_write (v : Value) : marshal v = write (v.map formatFloat id) := by
  rw [write, spelled, map_map]
  rfl

theorem parse_of_unmarshal {raw : Bytes} {v : Value} (h : unmarshal raw = .ok v) :
    ∃ d, parse raw = some d ∧ inRange d ∧ v = decode d := by
  unfold unmarshal at h
  split at h
  · cases h
  · rename_i d hd
    split at h <;> [cases h; skip]
    split at h <;> cases h
    exact ⟨d, hd, ‹_›, rfl⟩

/-! ## What is written can be read -/

def numberChar (c : Char) : Bool := c.isDigit || c == '-' || c == '+' || c == '.' || c == 'e' || c == 'E'

variable {c : Char} {cs : List Char} {m : Message}

theorem numberChar_ascii (h : numberChar c) : c.toNat < 128 := by
  simp only [numberChar, Char.isDigit, Bool.or_eq_true, Bool.and_eq_true, decide_eq_true_eq, beq_iff_eq] at h
  rcases h with ((((⟨-, h⟩ | rfl) | rfl) | rfl) | rfl) | rfl
  · exact Nat.lt_of_le_of_lt h (by decide)
  all_goals decide

theorem numberChar_of_isDigit (h : c.isDigit = true) : numberChar c := by
  simp [numberChar, h]

theorem numberChar_digits {ds : List Char} {n : Nat} (h : parseExponentDigits ds = some n) :
    ∀ c ∈ ds, numberChar c := by
  unfold parseExponentDigits at h
  split at h <;> cases h
  rename_i hds
  exact fun c hc => numberChar_of_isDigit (List.all_eq_true.mp hds.2 c hc)

theorem numberChar_exponent {e : Int} (h : parseExponent cs = some e) : ∀ c ∈ cs, numberChar c := by
  unfold parseExponent at h
  split at h
  · exact fun _ hc => absurd hc List.not_mem_nil
  · rename_i c cs
    split at h <;> [skip; cases h]
    rename_i hc
    refine List.forall_mem_cons.mpr ⟨by rcases hc with rfl | rfl <;> decide, ?_⟩
    split at h <;> obtain ⟨n, hn, -⟩ := Option.map_eq_some_iff.mp h
    · exact List.forall_mem_cons.mpr ⟨by decide, numberChar_digits hn⟩
    · exact List.forall_mem_cons.mpr ⟨by decide, numberChar_digits hn⟩
    · exact numberChar_digits hn

theorem numberChar_takeWhile (cs : List Char) : ∀ c ∈ cs.takeWhile Char.isDigit, numberChar c :=
  fun _ hc => numberChar_of_isDigit (List.mem_takeWhile_imp hc)

theorem numberChar_of_rest (h : ∀ c ∈ cs.dropWhile Char.isDigit, numberChar c) :
    ∀ c ∈ cs, numberChar c := by
  rw [← List.takeWhile_append_dropWhile (p := Char.isDigit) (l := cs)]
  exact List.forall_mem_append.mpr ⟨numberChar_takeWhile cs, h⟩

theorem numberChar_fraction {frac rest : List Char} (h : parseFraction cs = some (frac, rest))
    (hrest : ∀ c ∈ rest, numberChar c) : ∀ c ∈ cs, numberChar c := by
  unfold parseFraction at h
  split at h
  · split at h <;> cases h
    exact List.forall_mem_cons.mpr ⟨by decide, numberChar_of_rest hrest⟩
  · cases h
    exact hrest

theorem numberChar_unsigned {x : Nat × Int} (h : parseUnsigned cs = some x) :
    cs ≠ [] ∧ ∀ c ∈ cs, numberChar c := by
  simp only [parseUnsigned] at h
  split at h <;> [cases h; skip]
  rename_i hint
  split at h <;> [cases h; skip]
  rename_i frac rest hfrac
  obtain ⟨e, he, -⟩ := Option.map_eq_some_iff.mp h
  refine ⟨?_, numberChar_of_rest (numberChar_fraction hfrac (numberChar_exponent he))⟩
  rintro rfl
  exact hint (.inl rfl)

theorem numberChar_of_parseNumber {d : Decimal} (h : parseNumber cs = some d) :
    cs ≠ [] ∧ ∀ c ∈ cs, numberChar c := by
  unfold parseNumber at h
  split at h
  · obtain ⟨x, hx, -⟩ := Option.map_eq_some_iff.mp h
    exact ⟨List.cons_ne_nil _ _, List.forall_mem_cons.mpr ⟨by decide, (numberChar_unsigned hx).2⟩⟩
  · obtain ⟨x, hx, -⟩ := Option.map_eq_some_iff.mp h
    exact numberChar_unsigned hx

theorem classify_of_numberChar {n : Bytes} (h : ∀ c ∈ text n, numberChar c) : ∀ b ∈ n, classify b = .other := by
  have hascii : ∀ m < 128, numberChar (Char.ofNat m) → classify (UInt8.ofNat m) = .other := by decide
  induction n using runes_ind with
  | nil => exact fun _ hb => absurd hb List.not_mem_nil
  | char c bs ih =>
    rw [text_char] at h
    obtain ⟨hc, hbs⟩ := List.forall_mem_cons.mp h
    have hlt := numberChar_ascii hc
    rw [utf8EncodeChar_ascii hlt]
    exact List.forall_mem_cons.mpr ⟨hascii _ hlt (by rwa [Char.ofNat_toNat]), ih hbs⟩
  | stray b bs hb ih =>
    rw [text_stray hb] at h
    exact absurd (List.forall_mem_cons.mp h).1 (by decide)

theorem plain_of_parseNumber {n : Bytes} (h : (parseNumber (text n)).isSome) : plain n := by
  obtain ⟨d, hd⟩ := Option.isSome_iff_exists.mp h
  have hchars := numberChar_of_parseNumber hd
  have hne : n ≠ [] := fun hn => hchars.1 (by rw [hn]; rfl)
  have hword : ∀ cs, parseNumber cs = none → n ≠ encodeRunes cs := by
    rintro cs hcs rfl
    rw [text_encodeRunes, hcs] at h
    cases h
  simp only [plain, Bool.and_eq_true, decide_eq_true_eq, List.all_eq_true]
  exact ⟨⟨⟨⟨hne, classify_of_numberChar hchars.2⟩, hword _ (by decide)⟩, hword _ (by decide)⟩, hword _ (by decide)⟩

theorem closedFrom_char (hslash : c ≠ '\\') (hquote : c ≠ '"') (bs : Bytes) :
    closedFrom false (String.utf8EncodeChar c ++ bs) = closedFrom false bs := by
  have hnot : ∀ d : Char, d.toNat < 128 → c ≠ d → UInt8.ofNat d.toNat ∉ String.utf8EncodeChar c := by
    intro d hd hne hmem
    have hlt : (UInt8.ofNat d.toNat).toNat = d.toNat := Nat.mod_eq_of_lt (by omega)
    have hmem : UInt8.ofNat d.toNat ∈ encodeRunes [c] := List.mem_append_left [] hmem
    have hc := (mem_encodeRunes_ascii (by omega)).mp hmem
    rw [hlt, Char.ofNat_toNat, List.mem_singleton] at hc
    exact hne hc.symm
  exact closedFrom_skip (hnot '"' (by decide) hquote) (hnot '\\' (by decide) hslash) bs

/-- What can be read as a string has no quote in it. -/
theorem closed_of_unquote {s : Bytes} (h : (unquote (text s)).isSome) : closed s := by
  refine content_ind (motive := fun s => closedFrom false s) rfl ?_ ?_ ?_ ?_ s (by simpa [unquote] using h)
  · intro a b c d n bs hn ih
    have hdigits := hexFour_digits hn
    have hskip : ∀ x ∈ [a, b, c, d], ∀ t, closedFrom false (String.utf8EncodeChar x ++ t) = closedFrom false t :=
      fun x hx => closedFrom_char (hexValue_ne (hdigits x hx) rfl) (hexValue_ne (hdigits x hx) rfl)
    simp only [List.forall_mem_cons] at hskip
    obtain ⟨ha, hb, hc, hd, -⟩ := hskip
    simp only [encodeRunes_cons, List.append_assoc]
    show closedFrom false (String.utf8EncodeChar a ++ _)
    rw [ha, hb, hc, hd]
    exact ih
  · intro e c bs he ih
    have hone : (shortEscapes.map Prod.fst).all fun x => (String.utf8EncodeChar x).length = 1 := by decide
    have hlength := of_decide_eq_true (List.all_eq_true.mp hone e (shortEscapes_letter he))
    obtain ⟨b, hb⟩ := List.length_eq_one_iff.mp hlength
    simp only [encodeRunes_cons, List.append_assoc, hb]
    exact ih
  · intro c bs hslash hquote _ ih
    rw [closedFrom_char hslash hquote]
    exact ih
  · intro b bs hb ih
    have hhigh := stray_high hb
    have hne : ∀ x : UInt8, x.toNat < 128 → x ∉ [b] := by
      intro x hx hmem
      rw [List.mem_singleton.mp hmem] at hx
      omega
    have hskip := closedFrom_skip (hne 0x22 (by decide)) (hne 0x5C (by decide)) bs
    exact hskip.trans ih

theorem parseRaw_print_of_wellFormed {r : Raw} (h : wellFormed r) : parseRaw (print r) = some r :=
  parseRaw_print (all_imp (fun _ => plain_of_parseNumber) (fun _ => closed_of_unquote) h)

theorem parse_print {r : Raw} (h : wellFormed r) : parse (print r) = some (denoted r) := by
  rw [parse, parseRaw_print_of_wellFormed h, Option.filter_some_pos h, Option.map_some]

/-- The number that is read where a binary64 was written. -/
def reread (f : Float64) : Decimal := readNumber (formatFloat f)

theorem reread_eq (f : Float64) : parseNumber (formatFloat f) = some (reread f) := by
  obtain ⟨d, hd, -⟩ := parseNumber_formatFloat f
  rw [reread, readNumber, hd]
  rfl

theorem value_reread (f : Float64) : (reread f).value = f.shortest.value := by
  obtain ⟨d, hd, -, hv⟩ := parseNumber_formatFloat f
  rw [reread, readNumber, hd]
  exact hv

theorem toFloat64_reread (f : Float64) : (reread f).toFloat64 = some f := by
  have hneg : (reread f).neg = f.shortest.neg := by
    obtain ⟨d, hd, hneg, -⟩ := parseNumber_formatFloat f
    rw [reread, readNumber, hd, neg_shortest]
    exact hneg
  rw [Decimal.toFloat64_congr hneg (value_reread f), toFloat64_shortest]

theorem text_quoteBytes (s : Bytes) : text (quoteBytes s) = quote s := text_encodeRunes _

theorem unquote_quoteBytes (s : Bytes) : unquote (text (quoteBytes s)) = some ((text s).map .scalar) := by
  rw [text_quoteBytes, unquote_quote]

theorem wellFormed_spelled (h : readable m) : wellFormed (spelled m) := by
  rw [wellFormed, spelled, all_map]
  refine all_imp (fun cs hcs => ?_) (fun s _ => ?_) h
  · rw [text_encodeRunes]
    exact hcs
  · rw [unquote_quoteBytes]
    rfl

theorem readable_float (v : Value) : readable (v.map formatFloat id) := by
  rw [readable, all_map]
  exact all_of_forall (fun f => by rw [reread_eq]; rfl) (fun _ => rfl) v

theorem parse_write (h : readable m) :
    parse (write m) = some (m.map readNumber fun s => (text s).map .scalar) := by
  rw [write, parse_print (wellFormed_spelled h), denoted, spelled, map_map]
  simp only [text_encodeRunes, unquote_quoteBytes, Option.getD_some]

def image (v : Value) : Doc := v.map reread fun s => (text s).map .scalar

theorem parse_marshal (v : Value) : parse (marshal v) = some (image v) := by
  rw [marshal_eq_write, parse_write (readable_float v), map_map]
  rfl

/-! ## Values -/

theorem goString_scalar (s : Bytes) : goString ((text s).map .scalar) = sanitize s := by
  rw [goString, List.map_map]
  exact congrArg encodeRunes (List.map_id _)

def readFloat (cs : List Char) : Float64 := toFloat (readNumber cs)

theorem unmarshal_write (h : m.all (fun cs => ((parseNumber cs).bind Decimal.toFloat64).isSome) fun _ => true)
    (hd : m.depth ≤ maxNestingDepth) : unmarshal (write m) = .ok (m.map readFloat sanitize).normalize := by
  have hread : readable m := all_imp (fun cs hcs => by
    cases hp : parseNumber cs with
    | none => simp [hp] at hcs
    | some d => rfl) (fun _ _ => rfl) h
  have hrange : inRange (m.map readNumber fun s => (text s).map .scalar) := by
    rw [inRange, all_map]
    refine all_imp (fun cs hcs => ?_) (fun _ _ => rfl) h
    cases hp : parseNumber cs with
    | none => simp [hp] at hcs
    | some d => simpa [hp, readNumber] using hcs
  rw [unmarshal, parse_write hread]
  dsimp only
  rw [depth_map, if_neg (Nat.not_lt.mpr hd), if_pos hrange, decode, map_map]
  simp only [goString_scalar]
  rfl

theorem unmarshal_marshal {v : Value} (h : v.depth ≤ maxNestingDepth) :
    unmarshal (marshal v) = .ok (v.map id sanitize).normalize := by
  have hfloat : ∀ f, readFloat (formatFloat f) = f := fun f => by
    rw [readFloat, readNumber, reread_eq, Option.getD_some, toFloat, toFloat64_reread, Option.getD_some]
  have hnumbers : (v.map formatFloat id).all (fun cs => ((parseNumber cs).bind Decimal.toFloat64).isSome) fun _ => true := by
    rw [all_map]
    exact all_of_forall (fun f => by rw [reread_eq, Option.bind_some, toFloat64_reread]; rfl) (fun _ => rfl) v
  rw [marshal_eq_write, unmarshal_write hnumbers (by rwa [depth_map]), map_map]
  simp only [hfloat, id_eq]
  rfl

/-! ## Texts as they are written -/

/-- `none`: no JSON text, or one that is nested too deep. -/
def scanRaw (raw : Bytes) : Option Raw := (parseRaw raw).filter fun r => r.depth ≤ maxNestingDepth ∧ wellFormed r

/-- `json.Valid`. -/
def valid (raw : Bytes) : Bool := (scanRaw raw).isSome

def goText (s : Bytes) : Bytes := goString ((unquote (text s)).getD [])

/-- What is read before the target is looked at. -/
def scan (raw : Bytes) : Option Message := (scanRaw raw).map (map text goText)

variable {raw : Bytes} {r : Raw}

theorem scanRaw_eq_some :
    scanRaw raw = some r ↔ parseRaw raw = some r ∧ r.depth ≤ maxNestingDepth ∧ wellFormed r := by
  rw [scanRaw, Option.filter_eq_some_iff, decide_eq_true_eq]

theorem scanRaw_print (h : wellFormed r) :
    scanRaw (print r) = if r.depth ≤ maxNestingDepth then some r else none := by
  rw [scanRaw, parseRaw_print_of_wellFormed h, Option.filter_some]
  simp only [h, and_true, decide_eq_true_eq]

theorem parse_of_scanRaw (h : scanRaw raw = some r) : parse raw = some (denoted r) := by
  obtain ⟨hparse, -, hwf⟩ := scanRaw_eq_some.mp h
  rw [parse, hparse, Option.filter_some_pos hwf, Option.map_some]

theorem goText_quoteBytes (s : Bytes) : goText (quoteBytes s) = sanitize s := by
  rw [goText, unquote_quoteBytes, Option.getD_some, goString_scalar]

theorem scan_write (h : readable m) (hd : m.depth ≤ maxNestingDepth) :
    scan (write m) = some (m.map id sanitize) := by
  have hdepth : (spelled m).depth ≤ maxNestingDepth := by rwa [spelled, depth_map]
  rw [scan, write, scanRaw_print (wellFormed_spelled h), if_pos hdepth, Option.map_some, spelled, map_map]
  simp only [text_encodeRunes, goText_quoteBytes]
  rfl

/-! ## Raw messages

A `json.RawMessage` that was read from a text is known by what it denotes. -/

/-- `json.Unmarshal` into an empty string. -/
def readString : Message → Option Bytes
  | .string s => some s
  | .null => some []
  | _ => none

/-- `json.Unmarshal` into an `int` that is zero. -/
def readInt : Message → Option Int
  | .number cs => parseInt cs
  | .null => some 0
  | _ => none

/-- A `map[string]json.RawMessage`; `none`: the nil map. -/
abbrev RawMap := Option (List (Bytes × Message))

/-- `json.Unmarshal` into a nil map. -/
def readMap : Message → Option RawMap
  | .object ms => some (some (setAll ms))
  | .null => some none
  | _ => none

end Csar.Json
