import CsarCore.Framework.Json.Compact
import CsarCore.Framework.Json.Members
import CsarCore.Framework.Strings
import CsarCore.Framework.Time
import Mathlib.Data.List.Nodup

/-!
# Structs

`json.Marshal` and `json.Unmarshal` at a struct of strings and integers, of
`json.RawMessage`s that are left out when they are empty, and of times in UTC. A field is
found by its name, and if none has it by its name without regard to case; of two members
for one field the later one counts, and `null` changes nothing. A raw message is
compacted when it is written, and read without the spaces between its tokens. A struct is
read back as `copy` has it, unless the text is nested too deep.
-/

namespace Csar.Json

/-- Its name in JSON, and how it is read and set. -/
inductive Field (α : Type)
  | string (name : Bytes) (omitEmpty : Bool) (get : α → Bytes) (set : Bytes → α → α)
  | int (name : Bytes) (omitEmpty : Bool) (get : α → Int) (set : Int → α → α)
  | raw (name : Bytes) (get : α → Option Bytes) (set : Option Bytes → α → α)
  | time (name : Bytes) (get : α → Int) (set : Int → α → α)

namespace Field

variable {α : Type}

def name : Field α → Bytes
  | .string name _ _ _ => name
  | .int name _ _ _ => name
  | .raw name _ _ => name
  | .time name _ _ => name

/-- `none` if it is left out; no value: it cannot be written. -/
def load (a : α) : Field α → Option (Option Raw)
  | .string _ omitEmpty get _ =>
    some (if omitEmpty ∧ get a = [] then none else some (.string (quoteBytes (get a))))
  | .int _ omitEmpty get _ =>
    some (if omitEmpty ∧ get a = 0 then none else some (.number (encodeRunes (formatInt (get a)))))
  | .raw _ get _ =>
    if (get a).getD [] = [] then some none
    else (scanRaw ((get a).getD [])).map fun r => some (compact r)
  | .time _ get _ => if Time.FourDigitYear (get a) then some (some (.string (Time.format (get a)))) else none

def member (a : α) (f : Field α) : Option (Option (Bytes × Raw)) :=
  (f.load a).map (Option.map fun r => (quoteBytes f.name, r))

def written (a : α) (f : Field α) : List (Bytes × Raw) :=
  (((f.load a).getD none).map fun r => (quoteBytes f.name, r)).toList

/-- Puts a value into a field; `none`: a value of another type. -/
def store : Field α → Raw → α → Option α
  | .raw _ _ set, r, a => some (set (some (print r)) a)
  | _, .null, a => some a
  | .string _ _ _ set, .string s, a => some (set (goText s) a)
  | .int _ _ _ set, .number n, a => (parseInt (text n)).map fun n => set n a
  | .time _ _ set, .string s, a => (Time.parse s).map fun t => set t a
  | _, _, _ => none

def find (fields : List (Field α)) (key : Bytes) : Option (Field α) :=
  match fields.find? fun f => f.name = key with
  | some f => some f
  | none => fields.find? fun f => Strings.equalFold key f.name

theorem load_raw_empty {a : α} {name : Bytes} {get : α → Option Bytes} {set : Option Bytes → α → α}
    (h : (get a).getD [] = []) : load a (.raw name get set) = some none := if_pos h

theorem load_raw {a : α} {name : Bytes} {get : α → Option Bytes} {set : Option Bytes → α → α}
    (h : (get a).getD [] ≠ []) :
    load a (.raw name get set) = (scanRaw ((get a).getD [])).map fun r => some (compact r) := if_neg h

/-- A string or an integer. -/
def flat : Field α → Bool
  | .string _ _ _ _ => true
  | .int _ _ _ _ => true
  | _ => false

/-- The integers of a struct are integers of 64 bits. -/
def Fits (a : α) : Field α → Prop
  | .int _ _ get _ => inInt64 (get a)
  | _ => True

/-- What reading a field back does to a struct. -/
def copy (a : α) : Field α → α → α
  | .string _ omitEmpty get set, b => if omitEmpty ∧ get a = [] then b else set (sanitize (get a)) b
  | .int _ omitEmpty get set, b => if omitEmpty ∧ get a = 0 then b else set (get a) b
  | .raw _ get set, b => if (get a).getD [] = [] then b else set (compactRaw ((get a).getD [])) b
  | .time _ get set, b => set (get a) b

end Field

/-- No JSON text, and a value of the wrong type. -/
inductive StructError
  | malformed
  | mistyped
  deriving DecidableEq

variable {α : Type}

def structMembers (fields : List (Field α)) (a : α) : Option (List (Bytes × Raw)) :=
  (fields.mapM (Field.member a)).map fun ms => ms.filterMap id

/-- `json.Marshal`; `none`: an error. -/
def marshalStruct (fields : List (Field α)) (a : α) : Option Bytes :=
  (structMembers fields a).map fun ms => print (.object ms)

/-- One member of the text; a member without a field is skipped. -/
def storeMember (fields : List (Field α)) (a : α) (m : Bytes × Raw) : Option α :=
  match Field.find fields (goText m.1) with
  | none => some a
  | some f => f.store m.2 a

/-- `json.Unmarshal` into a struct that holds `a`. -/
def unmarshalStruct (fields : List (Field α)) (raw : Bytes) (a : α) : Except StructError α :=
  match scanRaw raw with
  | none => .error .malformed
  | some .null => .ok a
  | some (.object ms) =>
    match ms.foldlM (storeMember fields) a with
    | none => .error .mistyped
    | some a => .ok a
  | some _ => .error .mistyped

/-! ## Round trip -/

theorem find?_of_nodup {φ : Type} {name : φ → Bytes} {fields : List φ} (hnames : (fields.map name).Nodup) {f : φ}
    (hf : f ∈ fields) : (fields.find? fun g => name g = name f) = some f := by
  obtain ⟨f', hf'⟩ : ∃ f', (fields.find? fun g => name g = name f) = some f' :=
    Option.isSome_iff_exists.mp (List.find?_isSome.mpr ⟨f, hf, by simp⟩)
  have hsame : f' = f :=
    List.inj_on_of_nodup_map hnames (List.mem_of_find?_eq_some hf') hf (by simpa using List.find?_some hf')
  rw [hf', hsame]

section RoundTrip

variable {fields : List (Field α)} {a : α} {f : Field α} {ms : List (Bytes × Raw)} {r : Raw} {b : α}

theorem names_of_strings (names : List String) (h : fields.map Field.name = names.map utf8) (hnodup : names.Nodup) :
    (fields.map Field.name).Nodup ∧ ∀ f ∈ fields, validUtf8 f.name := by
  refine ⟨h ▸ hnodup.map fun _ _ => utf8_injective, fun f hf => ?_⟩
  obtain ⟨name, -, hname⟩ := List.mem_map.mp (h ▸ List.mem_map_of_mem hf)
  exact hname ▸ validUtf8_utf8 name

theorem find_name (hnames : (fields.map Field.name).Nodup) (hf : f ∈ fields) : Field.find fields f.name = some f := by
  rw [Field.find, find?_of_nodup hnames hf]

theorem unquote_format (t : Int) : (unquote (text (Time.format t))).isSome := by
  refine unquote_of_safe fun b hb => ?_
  rcases Time.plain_format t b hb with hdigit | hpunct
  · simp only [Time.isDigit, Time.digitValue, Option.isSome_ite] at hdigit
    rw [safeByte]
    refine decide_eq_true ⟨by omega, by omega, ?_, ?_⟩ <;> (rintro rfl; revert hdigit; decide)
  · have hall : ∀ b ∈ Time.punctuation, safeByte b := List.all_eq_true.mp (by decide)
    exact hall b hpunct

/-- What is written of a field is a value, and is read back as `copy` has it. -/
theorem load_spec (h : f.load a = some (some r)) :
    wellFormed r ∧ (f.Fits a → ∀ b, f.store r b = some (f.copy a b)) := by
  cases f with
  | string name omitEmpty get set =>
    simp only [Field.load, Option.some.injEq, Option.ite_none_left_eq_some] at h
    obtain ⟨hne, rfl⟩ := h
    refine ⟨Option.isSome_of_eq_some (unquote_quoteBytes _), fun _ b => ?_⟩
    rw [Field.store, Field.copy, if_neg hne, goText_quoteBytes]
  | int name omitEmpty get set =>
    simp only [Field.load, Option.some.injEq, Option.ite_none_left_eq_some] at h
    obtain ⟨hne, rfl⟩ := h
    refine ⟨?_, fun hfits b => ?_⟩
    · show (parseNumber (text (encodeRunes _))).isSome
      rw [text_encodeRunes]
      exact parseNumber_formatInt _
    · rw [Field.store, Field.copy, if_neg hne, text_encodeRunes, parseInt_formatInt hfits, Option.map_some]
  | raw name get set =>
    rw [Field.load] at h
    split at h
    · cases h
    · rename_i hne
      obtain ⟨r', hr', heq⟩ := Option.map_eq_some_iff.mp h
      cases heq
      refine ⟨wellFormed_compact (scanRaw_eq_some.mp hr').2.2, fun _ b => ?_⟩
      rw [Field.store, Field.copy, if_neg hne, compactRaw, hr']
      rfl
  | time name get set =>
    rw [Field.load] at h
    split at h
    · rename_i hyear
      cases h
      refine ⟨unquote_format _, fun _ b => ?_⟩
      show (Time.parse (Time.format (get a))).map _ = _
      rw [Time.parse_format hyear]
      rfl
    · cases h

theorem copy_of_omitted (h : f.load a = some none) (b : α) : f.copy a b = b := by
  cases f with
  | string name omitEmpty get set | int name omitEmpty get set =>
    simp only [Field.load, Option.some.injEq, ite_eq_left_iff, reduceCtorEq, imp_false, not_not] at h
    exact if_pos h
  | raw name get set =>
    rw [Field.load] at h
    split at h
    · rename_i hempty
      exact if_pos hempty
    · obtain ⟨r', -, heq⟩ := Option.map_eq_some_iff.mp h
      cases heq
  | time name get set =>
    rw [Field.load] at h
    split at h <;> cases h

/-- The members of a struct are those of its fields, if all can be written. -/
theorem structMembers_eq_some :
    structMembers fields a = some ms ↔ (∀ f ∈ fields, (f.load a).isSome) ∧ ms = fields.flatMap (Field.written a) := by
  induction fields generalizing ms with
  | nil =>
    refine ⟨fun h => ⟨fun f hf => absurd hf List.not_mem_nil, ?_⟩, ?_⟩
    · cases h
      rfl
    · rintro ⟨-, rfl⟩
      rfl
  | cons f fields ih =>
    have hcons : structMembers (f :: fields) a =
        (f.load a).bind fun o => (structMembers fields a).map fun ms' =>
          (o.map fun r => (quoteBytes f.name, r)).toList ++ ms' := by
      rw [structMembers, structMembers, List.mapM_cons, Field.member]
      cases f.load a with
      | none => rfl
      | some o =>
        cases fields.mapM (Field.member a) with
        | none => rfl
        | some os => cases o <;> rfl
    have hwritten : ∀ o, f.load a = some o →
        Field.written a f = (o.map fun r => (quoteBytes f.name, r)).toList := by
      intro o ho
      rw [Field.written, ho]
      rfl
    rw [hcons, List.flatMap_cons, List.forall_mem_cons]
    cases hload : f.load a with
    | none => simp
    | some o =>
      rw [Option.bind_some, hwritten o hload, Option.map_eq_some_iff]
      constructor
      · rintro ⟨ms', hms', rfl⟩
        obtain ⟨hall, rfl⟩ := ih.mp hms'
        exact ⟨⟨rfl, hall⟩, rfl⟩
      · rintro ⟨⟨-, hall⟩, rfl⟩
        exact ⟨_, ih.mpr ⟨hall, rfl⟩, rfl⟩

theorem structMembers_congr (h : ∀ f ∈ fields, f.load a = f.load b) :
    structMembers fields a = structMembers fields b := by
  have hmapM : fields.mapM (Field.member a) = fields.mapM (Field.member b) := by
    induction fields with
    | nil => rfl
    | cons f fields ih =>
      obtain ⟨hf, hfields⟩ := List.forall_mem_cons.mp h
      rw [List.mapM_cons, List.mapM_cons, Field.member, Field.member, hf, ih hfields]
  rw [structMembers, structMembers, hmapM]

theorem mem_written {m : Bytes × Raw} :
    m ∈ f.written a ↔ m.1 = quoteBytes f.name ∧ f.load a = some (some m.2) := by
  unfold Field.written
  rcases f.load a with _ | _ | r
  · simp
  · simp
  · simp [Prod.ext_iff, eq_comm]

theorem mem_structMembers (h : structMembers fields a = some ms) {m : Bytes × Raw} :
    m ∈ ms ↔ ∃ f ∈ fields, m.1 = quoteBytes f.name ∧ f.load a = some (some m.2) := by
  rw [(structMembers_eq_some.mp h).2, List.mem_flatMap]
  simp only [mem_written]

theorem foldlM_storeMember (hnames : (fields.map Field.name).Nodup)
    (hvalid : ∀ f ∈ fields, validUtf8 f.name) (hfits : ∀ f ∈ fields, f.Fits a) {part : List (Field α)}
    (hpart : part ⊆ fields) (h : ∀ f ∈ part, (f.load a).isSome) (b : α) :
    (part.flatMap (Field.written a)).foldlM (storeMember fields) b =
      some (part.foldl (fun b f => f.copy a b) b) := by
  induction part generalizing b with
  | nil => rfl
  | cons f part ih =>
    obtain ⟨hf, hrest⟩ := List.cons_subset.mp hpart
    obtain ⟨hload, hloads⟩ := List.forall_mem_cons.mp h
    obtain ⟨o, ho⟩ := Option.isSome_iff_exists.mp hload
    rw [List.flatMap_cons, Field.written, ho, List.foldl_cons]
    cases o with
    | none =>
      rw [copy_of_omitted ho]
      exact ih hrest hloads b
    | some r =>
      have hkey : goText (quoteBytes f.name) = f.name := by
        rw [goText_quoteBytes, sanitize_of_valid (hvalid f hf)]
      show ((quoteBytes f.name, r) :: part.flatMap (Field.written a)).foldlM _ b = _
      rw [List.foldlM_cons, storeMember, hkey, find_name hnames hf]
      dsimp only
      rw [(load_spec ho).2 (hfits f hf)]
      exact ih hrest hloads _

theorem wellFormed_structMembers (h : structMembers fields a = some ms) : wellFormed (.object ms) :=
  all_object.mpr fun m hm => by
    obtain ⟨f, -, hname, hload⟩ := (mem_structMembers h).mp hm
    rw [hname, unquote_quoteBytes]
    exact ⟨rfl, (load_spec hload).1⟩

theorem unmarshalStruct_marshalStruct (hnames : (fields.map Field.name).Nodup)
    (hvalid : ∀ f ∈ fields, validUtf8 f.name) (hfits : ∀ f ∈ fields, f.Fits a)
    (h : structMembers fields a = some ms) (b : α) :
    unmarshalStruct fields (print (.object ms)) b =
      if depth (.object ms) ≤ maxNestingDepth then .ok (fields.foldl (fun b f => f.copy a b) b)
      else .error .malformed := by
  rw [unmarshalStruct, scanRaw_print (wellFormed_structMembers h)]
  by_cases hdepth : depth (.object ms) ≤ maxNestingDepth
  · rw [if_pos hdepth, if_pos hdepth]
    obtain ⟨hall, rfl⟩ := structMembers_eq_some.mp h
    dsimp only
    rw [foldlM_storeMember hnames hvalid hfits (List.Subset.refl fields) hall b]
  · rw [if_neg hdepth, if_neg hdepth]

theorem depth_load (h : f.flat) (hr : f.load a = some (some r)) : r.depth = 0 := by
  cases f with
  | string name omitEmpty get set | int name omitEmpty get set =>
    simp only [Field.load, Option.some.injEq, Option.ite_none_left_eq_some] at hr
    obtain ⟨-, rfl⟩ := hr
    rfl
  | raw | time => cases h

/-- Strings and integers are always written, and are read back. -/
theorem unmarshalStruct_flat (hnames : (fields.map Field.name).Nodup) (hvalid : ∀ f ∈ fields, validUtf8 f.name)
    (hflat : ∀ f ∈ fields, f.flat) (hfits : ∀ f ∈ fields, f.Fits a) (b : α) :
    unmarshalStruct fields ((marshalStruct fields a).getD []) b = .ok (fields.foldl (fun b f => f.copy a b) b) := by
  have hall : ∀ f ∈ fields, (f.load a).isSome := by
    intro f hf
    have hf := hflat f hf
    cases f with
    | string | int => rfl
    | raw | time => cases hf
  have hms := structMembers_eq_some.mpr ⟨hall, rfl⟩
  have hdepth : depth (.object (fields.flatMap (Field.written a))) ≤ maxNestingDepth := by
    refine Nat.le_trans (depth_object_le (d := 0) fun m hm => ?_) (by decide)
    obtain ⟨f, hf, -, hload⟩ := (mem_structMembers hms).mp hm
    exact Nat.le_of_eq (depth_load (hflat f hf) hload)
  rw [marshalStruct, hms, Option.map_some, Option.getD_some, unmarshalStruct_marshalStruct hnames hvalid hfits hms,
    if_pos hdepth]

theorem foldl_copy_string {name : Bytes} {get : α → Bytes} {set : Bytes → α → α} (h : set [] b = b) :
    (Field.string name true get set :: fields).foldl (fun b f => f.copy a b) b =
      fields.foldl (fun b f => f.copy a b) (set (sanitize (get a)) b) := by
  rw [List.foldl_cons, Field.copy]
  split
  · rename_i hempty
    rw [hempty.2, sanitize_nil, h]
  · rfl

theorem foldl_copy_int {name : Bytes} {get : α → Int} {set : Int → α → α} (h : set 0 b = b) :
    (Field.int name true get set :: fields).foldl (fun b f => f.copy a b) b =
      fields.foldl (fun b f => f.copy a b) (set (get a) b) := by
  rw [List.foldl_cons, Field.copy]
  split
  · rename_i hempty
    rw [hempty.2, h]
  · rfl

end RoundTrip

/-! ## Sizes -/

/-- Elements of some sizes in brackets: one more for each, for the comma or the bracket after it. -/
def seqSize (ns : List Nat) : Nat := 1 + max 1 (ns.foldr (fun n k => n + 1 + k) 0)

def printedSize : Raw → Nat :=
  fold ⟨4, fun b => if b then 4 else 5, List.length, fun s => s.length + 2, seqSize,
    fun ms => seqSize (ms.map fun m => m.1.length + 3 + m.2)⟩

@[simp] theorem printedSize_array (vs : List Raw) : printedSize (.array vs) = seqSize (vs.map printedSize) :=
  fold_array _ vs

@[simp] theorem printedSize_object (ms : List (Bytes × Raw)) :
    printedSize (.object ms) = seqSize (ms.map fun m => m.1.length + 3 + printedSize m.2) := by
  rw [printedSize, fold_object]
  exact congrArg seqSize List.map_map

def tokensLength (ts : List Token) : Nat := (ts.flatMap Token.bytes).length

theorem tokensLength_append (ts us : List Token) : tokensLength (ts ++ us) = tokensLength ts + tokensLength us := by
  rw [tokensLength, List.flatMap_append, List.length_append]
  rfl

theorem tokensLength_cons (t : Token) (ts : List Token) : tokensLength (t :: ts) = t.bytes.length + tokensLength ts := by
  rw [tokensLength, List.flatMap_cons, List.length_append]
  rfl

theorem tokensLength_commaJoin (tss : List (List Token)) :
    tokensLength (commaJoin tss) + 1 = max 1 ((tss.map tokensLength).foldr (fun n k => n + 1 + k) 0) := by
  have hcommas : ∀ tss : List (List Token), tokensLength (tss.flatMap (Token.comma :: ·)) =
      (tss.map tokensLength).foldr (fun n k => n + 1 + k) 0 := by
    intro tss
    induction tss with
    | nil => rfl
    | cons ts tss ih =>
      have hcomma : Token.comma.bytes.length = 1 := rfl
      rw [List.flatMap_cons, tokensLength_append, tokensLength_cons, ih, List.map_cons, List.foldr_cons, hcomma]
      omega
  cases tss with
  | nil => rfl
  | cons ts tss =>
    rw [commaJoin, tokensLength_append, hcommas, List.map_cons, List.foldr_cons]
    omega

theorem tokensLength_brackets {t u : Token} (ht : t.bytes.length = 1) (hu : u.bytes.length = 1)
    (tss : List (List Token)) : tokensLength (t :: (commaJoin tss ++ [u])) = seqSize (tss.map tokensLength) := by
  rw [tokensLength_cons, tokensLength_append, tokensLength_cons, ht, hu, seqSize, ← tokensLength_commaJoin]
  rfl

theorem length_print (r : Raw) : (print r).length = printedSize r := by
  show tokensLength (tokens r) = printedSize r
  induction r using ind with
  | null => rfl
  | bool b => cases b <;> rfl
  | number n => exact tokensLength_cons _ _
  | string s =>
    show tokensLength [.string s] = s.length + 2
    rw [tokensLength_cons, Token.bytes, List.length_cons, List.length_append]
    rfl
  | array vs ih =>
    rw [tokens_array, tokensLength_brackets rfl rfl, printedSize_array, List.map_map]
    exact congrArg seqSize (List.map_congr_left ih)
  | object ms ih =>
    have hmember : ∀ m ∈ ms, tokensLength (.string m.1 :: .colon :: tokens m.2) = m.1.length + 3 + printedSize m.2 := by
      intro m hm
      have hcolon : Token.colon.bytes.length = 1 := rfl
      rw [tokensLength_cons, tokensLength_cons, ih m hm, hcolon, Token.bytes, List.length_cons, List.length_append,
        List.length_singleton]
      omega
    rw [tokens_object, tokensLength_brackets rfl rfl, printedSize_object, List.map_map]
    exact congrArg seqSize (List.map_congr_left hmember)

end Csar.Json
