import CsarCore.Proof.Audit.Prepare
import Mathlib.Data.Bool.AllAny
import Mathlib.Data.Nat.Digits.Lemmas

/-!
# The payload of an event

The payload is written field by field (`Json.marshalStruct`), so its size is that of its
members (`length_marshalEvent`), and what is decoded from it is `restored`: the prepared
event with its JSON fields compacted. That gives the same payload again if these keep to
the limits of `ValidateEvent` and it is not nested too deep, which is not checked
(`payload_fidelity_iff`, `payload_budget_iff`).
-/

namespace Csar.Proof.Audit

open Impl.Audit Spec.Audit
open Csar.Json (Raw scanRaw quoteBytes compactRaw compact print printedSize)

/-! ## Sizes -/

variable {c : Char} {e : Event} {payload name : Bytes} {raw : Option Bytes} {service : String} {id : Uuid}
    {now : Int}

variable {n : Nat} {α : Type} {a b : α}

theorem eq_ofNat_iff (h : n.isValidChar) : c = Char.ofNat n ↔ c.toNat = n := by
  constructor
  · rintro rfl
    rw [Char.ofNat, dif_pos h]
    rfl
  · rintro rfl
    exact (Char.ofNat_toNat c).symm

theorem eq_lineSeparator : c = Char.ofNat 0x2028 ↔ c.toNat = 0x2028 := eq_ofNat_iff (.inl (by decide))

theorem eq_paragraphSeparator : c = Char.ofNat 0x2029 ↔ c.toNat = 0x2029 := eq_ofNat_iff (.inl (by decide))

theorem length_escapeUnit (n : Nat) : (encodeRunes (Json.escapeUnit n)).length = 6 := by
  have hdigit : ∀ m < 16, (Nat.digitChar m).toNat < 128 := by decide
  have hmod : ∀ m, (Nat.digitChar (m % 16)).toNat < 128 := fun m => hdigit _ (Nat.mod_lt m (by decide))
  refine length_encodeRunes_ascii ?_
  simp only [Json.escapeUnit, List.forall_mem_cons, hmod, List.not_mem_nil, false_implies, implies_true, and_true]
  decide

theorem length_escape (r : Option Char) : (encodeRunes (Json.escape r)).length = quotedRune r := by
  cases r with
  | none => exact length_escapeUnit _
  | some c =>
    have hshort : Json.shortEscape c = none ↔ ['"', '\\', '\x08', '\x0c', '\n', '\r', '\t'].contains c = false := by
      rw [Bool.eq_false_iff, ne_eq, List.contains_iff_mem]
      exact Json.lookup_eq_none_iff_keys
    have hunsafe : Json.unsafeChar c = true ↔
        c.toNat < 32 ∨ ['<', '>', '&', Char.ofNat 0x2028, Char.ofNat 0x2029].contains c = true := by
      simp [Json.unsafeChar, eq_lineSeparator, eq_paragraphSeparator]
    cases hs : Json.shortEscape c with
    | some e =>
      have hcontains : ['"', '\\', '\x08', '\x0c', '\n', '\r', '\t'].contains c = true := by
        refine Bool.not_eq_false _ ▸ fun hfalse => ?_
        rw [hshort.mpr hfalse] at hs
        cases hs
      have hascii : (Json.shortEscapes.map Prod.fst).all fun x => x.toNat < 128 := by decide
      have hletter := of_decide_eq_true
        (List.all_eq_true.mp hascii e (Json.shortEscapes_letter (Json.shortEscape_some hs).1))
      simp only [Json.escape, quotedRune, hs, hcontains, if_true]
      exact length_encodeRunes_ascii (List.forall_mem_cons.mpr ⟨by decide, by simpa using hletter⟩)
    | none =>
      simp only [Json.escape, quotedRune, hs, hshort.mp hs, Bool.false_eq_true, if_false, ← hunsafe]
      by_cases hu : Json.unsafeChar c = true
      · simp only [hu, if_true]
        exact length_escapeUnit _
      · have hone : (encodeRunes [c]).length = c.utf8Size := by
          rw [encodeRunes_cons, List.length_append, String.length_utf8EncodeChar]
          rfl
        simpa only [hu, Bool.false_eq_true, if_false] using hone

theorem length_quoteBytes (s : Bytes) : (quoteBytes s).length = quotedSize s := by
  unfold quoteBytes Json.quote quotedSize
  induction runes s with
  | nil => rfl
  | cons r rs ih =>
    rw [List.flatMap_cons, encodeRunes, List.flatMap_append, List.length_append, List.map_cons, List.foldr_cons]
    exact congrArg₂ (· + ·) (length_escape r) ih

theorem extraBytes_html (h : Json.htmlChar c) : (String.utf8EncodeChar c).length + extraBytes (some c) = 6 := by
  simp only [Json.htmlChar, decide_eq_true_eq, ← eq_lineSeparator, ← eq_paragraphSeparator] at h
  rcases h with rfl | rfl | rfl | rfl | rfl <;> decide

theorem extraBytes_plain (h : Json.htmlChar c = false) : extraBytes (some c) = 0 := by
  simp only [Json.htmlChar, decide_eq_false_iff_not, ← eq_lineSeparator, ← eq_paragraphSeparator, not_or] at h
  simp [extraBytes, h]

theorem length_escapeHTML (s : Bytes) : (Json.escapeHTML s).length = escapedSize s := by
  unfold escapedSize
  induction s using runes_ind with
  | nil => rfl
  | char c bs ih =>
    rw [runes_char, List.map_cons, List.foldr_cons, List.length_append]
    by_cases hh : Json.htmlChar c
    · have hextra := extraBytes_html hh
      rw [Json.escapeHTML_html hh, List.length_append, length_escapeUnit, ih]
      omega
    · rw [Json.escapeHTML_char (Bool.eq_false_iff.mpr hh), List.length_append, ih,
        extraBytes_plain (Bool.eq_false_iff.mpr hh)]
      omega
  | stray b bs hb ih =>
    rw [Json.escapeHTML_stray hb, runes_stray hb, List.map_cons, List.foldr_cons, List.length_cons, List.length_cons, ih,
      extraBytes]
    omega

theorem encodedSize_eq (r : Raw) : encodedSize r = printedSize (compact r) := by
  induction r using Json.ind with
  | null | bool | number => rfl
  | string s => exact congrArg (· + 2) (length_escapeHTML s).symm
  | array vs ih =>
    rw [encodedSize, Json.fold_array, compact, Json.map_array, Json.printedSize_array, List.map_map]
    exact congrArg Json.seqSize (List.map_congr_left ih)
  | object ms ih =>
    rw [encodedSize, Json.fold_object, compact, Json.map_object, Json.printedSize_object, List.map_map]
    dsimp only
    rw [List.map_map]
    refine congrArg Json.seqSize (List.map_congr_left fun m hm => ?_)
    exact congrArg₂ (fun k v => k + 3 + v) (length_escapeHTML m.1).symm (ih m hm)

theorem scanRaw_nil : scanRaw [] = none := by decide

def fieldSizes (e : Event) (f : Json.Field Event) : List Nat :=
  (f.written e).map fun m => m.1.length + 3 + printedSize m.2

section Fields

variable {e : Event} {name : String} (hname : (quoteBytes (utf8 name)).length = (utf8 name).length)
include hname

theorem fieldSizes_string (get : Event → Bytes) (set : Bytes → Event → Event) :
    fieldSizes e (.string (utf8 name) false get set) = stringMember name (get e) := by
  show [(quoteBytes (utf8 name)).length + 3 + ((quoteBytes (get e)).length + 2)] = _
  rw [hname, length_quoteBytes]
  rfl

theorem fieldSizes_optional (get : Event → Bytes) (set : Bytes → Event → Event) :
    fieldSizes e (.string (utf8 name) true get set) = optionalMember name (get e) := by
  unfold optionalMember
  by_cases h : get e = []
  · simp [fieldSizes, Json.Field.written, Json.Field.load, h]
  · have hstring := fieldSizes_string hname (e := e) get set
    rw [if_neg h, ← hstring]
    simp [fieldSizes, Json.Field.written, Json.Field.load, Json.Field.name, h]

theorem fieldSizes_raw (get : Event → Option Bytes) (set : Option Bytes → Event → Event) :
    fieldSizes e (.raw (utf8 name) get set) = rawMember name (get e) := by
  unfold rawMember fieldSizes Json.Field.written
  by_cases h : (get e).getD [] = []
  · rw [Json.Field.load_raw_empty h, h, scanRaw_nil]
    rfl
  · rw [Json.Field.load_raw h]
    cases scanRaw ((get e).getD []) with
    | none => rfl
    | some r =>
      show [(quoteBytes (utf8 name)).length + 3 + printedSize (compact r)] = [(utf8 name).length + 3 + encodedSize r]
      rw [hname, encodedSize_eq]

theorem fieldSizes_time {get : Event → Int} (set : Int → Event → Event) (h : Time.FourDigitYear (get e)) :
    fieldSizes e (.time (utf8 name) get set) = [(utf8 name).length + 3 + ((Time.format (get e)).length + 2)] := by
  simp only [fieldSizes, Json.Field.written, Json.Field.load, if_pos h, Json.Field.name, ← hname]
  rfl

end Fields

theorem marshalEvent_eq_some :
    marshalEvent e = some payload ↔ ∃ ms, Json.structMembers eventFields e = some ms ∧ payload = print (.object ms) := by
  rw [marshalEvent, Json.marshalStruct, Option.map_eq_some_iff]
  exact exists_congr fun ms => and_congr_right fun _ => eq_comm

theorem load_isSome : (∀ f ∈ eventFields, (f.load e).isSome) ↔
    (∀ raw ∈ [e.beforeState, e.afterState, e.metadata], invalidRaw raw = false) ∧ Time.FourDigitYear e.createdAt := by
  have hstring : ∀ name omitEmpty get set, (Json.Field.load e (.string name omitEmpty get set)).isSome = true :=
    fun _ _ _ _ => rfl
  have hraw : ∀ name get set, (Json.Field.load e (.raw name get set)).isSome = true ↔ invalidRaw (get e) = false := by
    intro name get set
    unfold invalidRaw
    by_cases h : (get e).getD [] = []
    · simp [Json.Field.load_raw_empty h, h]
    · simp [Json.Field.load_raw h, h, Json.valid, Option.isSome_iff_ne_none]
  have htime : ∀ name get set, (Json.Field.load e (.time name get set)).isSome = true ↔ Time.FourDigitYear (get e) := by
    intro name get set
    simp [Json.Field.load]
  simp only [eventFields, List.forall_mem_cons, hstring, hraw, htime, true_and, List.not_mem_nil, false_implies,
    implies_true, and_true, and_assoc]

theorem length_marshalEvent (h : marshalEvent e = some payload) : payload.length = eventSize e := by
  obtain ⟨ms, hms, rfl⟩ := marshalEvent_eq_some.mp h
  obtain ⟨hload, rfl⟩ := Json.structMembers_eq_some.mp hms
  have hyear := (load_isSome.mp hload).2
  have hsizes : (eventFields.flatMap (Json.Field.written e)).map (fun m => m.1.length + 3 + printedSize m.2) =
      eventFields.flatMap (fieldSizes e) := List.map_flatMap ..
  rw [Json.length_print, Json.printedSize_object, hsizes, eventSize]
  refine congrArg Json.seqSize ?_
  simp only [eventFields, List.flatMap_cons, List.flatMap_nil, List.append_nil, List.append_assoc]
  rw [fieldSizes_string, fieldSizes_optional, fieldSizes_string, fieldSizes_string, fieldSizes_string, fieldSizes_string,
    fieldSizes_string, fieldSizes_string, fieldSizes_raw, fieldSizes_raw, fieldSizes_raw, fieldSizes_optional,
    fieldSizes_optional, fieldSizes_time _ _ hyear]
  all_goals decide +kernel

/-! ## The event that is read back -/

def restoredRaw (raw : Option Bytes) : Option Bytes := if raw.getD [] = [] then none else compactRaw (raw.getD [])

def restored (e : Event) : Event :=
  { e with
    beforeState := restoredRaw e.beforeState
    afterState := restoredRaw e.afterState
    metadata := restoredRaw e.metadata }

theorem copy_string {omitEmpty : Bool} {get : α → Bytes} {set : Bytes → α → α}
    (h : set [] b = b) (hvalid : validUtf8 (get a)) :
    Json.Field.copy a (.string name omitEmpty get set) b = set (get a) b := by
  rw [Json.Field.copy]
  split
  · rename_i hempty
    rw [hempty.2, h]
  · rw [sanitize_of_valid hvalid]

theorem copy_raw (get : α → Option Bytes) {set : Option Bytes → α → α}
    (h : set none b = b) : Json.Field.copy a (.raw name get set) b = set (restoredRaw (get a)) b := by
  rw [Json.Field.copy, restoredRaw]
  split
  · exact h.symm
  · rfl

theorem copy_event (h : ∀ s ∈ strings e, validUtf8 s) :
    eventFields.foldl (fun b f => f.copy e b) zeroEvent = restored e := by
  simp only [strings, List.forall_mem_cons] at h
  obtain ⟨hid, hservice, hactor, haction, htype, htarget, hscope, hscopeID, hrequest, hclient, -⟩ := h
  simp only [eventFields, List.foldl_cons, List.foldl_nil]
  rw [copy_string rfl hid, copy_string rfl hservice, copy_string rfl hactor, copy_string rfl haction,
    copy_string rfl htype, copy_string rfl htarget, copy_string rfl hscope, copy_string rfl hscopeID,
    copy_raw Event.beforeState rfl, copy_raw Event.afterState rfl, copy_raw Event.metadata rfl, copy_string rfl hrequest,
    copy_string rfl hclient]
  rfl

/-- No JSON field is nested too deep to stand in the payload. -/
def Shallow (e : Event) : Prop :=
  ∀ raw ∈ [e.beforeState, e.afterState, e.metadata], ∀ r, scanRaw (raw.getD []) = some r →
    r.depth < Json.maxNestingDepth

theorem depth_load : (∀ f ∈ eventFields, ∀ r, f.load e = some (some r) → r.depth < Json.maxNestingDepth) ↔
    Shallow e := by
  have hstring : ∀ name omitEmpty get set, (∀ r, Json.Field.load e (.string name omitEmpty get set) = some (some r) →
      r.depth < Json.maxNestingDepth) ↔ True := by
    refine fun name omitEmpty get set => iff_true_intro fun r h => ?_
    simp only [Json.Field.load, Option.some.injEq, Option.ite_none_left_eq_some] at h
    rw [← h.2]
    exact (by decide : 0 < Json.maxNestingDepth)
  have hraw : ∀ name get set, (∀ r, Json.Field.load e (.raw name get set) = some (some r) →
      r.depth < Json.maxNestingDepth) ↔ ∀ r, scanRaw ((get e).getD []) = some r → r.depth < Json.maxNestingDepth := by
    intro name get set
    by_cases h : (get e).getD [] = []
    · simp [Json.Field.load_raw_empty h, h, scanRaw_nil]
    · simp [Json.Field.load_raw h, Json.depth_compact]
  have htime : ∀ name get set, (∀ r, Json.Field.load e (.time name get set) = some (some r) →
      r.depth < Json.maxNestingDepth) ↔ True := by
    refine fun name get set => iff_true_intro fun r h => ?_
    simp only [Json.Field.load, Option.ite_none_right_eq_some, Option.some.injEq] at h
    rw [← h.2]
    exact (by decide : 0 < Json.maxNestingDepth)
  simp only [Shallow, eventFields, List.forall_mem_cons, List.not_mem_nil, false_implies, implies_true, and_true, hstring,
    hraw, htime, true_and]

/-- The event is read back, unless nested too deep. -/
theorem unmarshalEvent_marshalEvent (h : marshalEvent e = some payload)
    (hvalid : ∀ s ∈ strings e, validUtf8 s) :
    (Shallow e → unmarshalEvent payload = some (restored e)) ∧ (¬ Shallow e → unmarshalEvent payload = none) := by
  obtain ⟨ms, hms, rfl⟩ := marshalEvent_eq_some.mp h
  have hdepth : Json.depth (.object ms) ≤ Json.maxNestingDepth ↔ Shallow e := by
    rw [show Json.maxNestingDepth = 9999 + 1 from rfl, Json.depth_object_le_iff, ← depth_load]
    constructor
    · intro hms' f hf r hr
      exact Nat.lt_succ_of_le (hms' (quoteBytes f.name, r) ((Json.mem_structMembers hms).mpr ⟨f, hf, rfl, hr⟩))
    · intro hfields m hm
      obtain ⟨f, hf, -, hr⟩ := (Json.mem_structMembers hms).mp hm
      exact Nat.le_of_lt_succ (hfields f hf m.2 hr)
  have hfits : ∀ f ∈ eventFields, f.Fits e := by simp [eventFields, Json.Field.Fits]
  have hread := Json.unmarshalStruct_marshalStruct (by decide +kernel) (by decide +kernel) hfits hms zeroEvent
  rw [copy_event hvalid] at hread
  constructor
  · intro hshallow
    rw [unmarshalEvent, hread, if_pos (hdepth.mpr hshallow)]
    rfl
  · intro hdeep
    rw [unmarshalEvent, hread, if_neg (mt hdepth.mp hdeep)]
    rfl

/-! ## Writing it again -/

theorem raw_cases (h : invalidRaw raw = false) : raw.getD [] = [] ∧ restoredRaw raw = none ∨
    ∃ r, scanRaw (raw.getD []) = some r ∧ raw.getD [] ≠ [] ∧ restoredRaw raw = some (print (compact r)) ∧
      scanRaw (print (compact r)) = some (compact r) ∧ print (compact r) ≠ [] := by
  by_cases hempty : raw.getD [] = []
  · exact .inl ⟨hempty, if_pos hempty⟩
  · have hvalid : (scanRaw (raw.getD [])).isSome := by
      simpa [invalidRaw, hempty, Json.valid, Option.isSome_iff_ne_none] using h
    obtain ⟨r, hr⟩ := Option.isSome_iff_exists.mp hvalid
    obtain ⟨-, hdepth, hwf⟩ := Json.scanRaw_eq_some.mp hr
    have hscan : scanRaw (print (compact r)) = some (compact r) := by
      rw [Json.scanRaw_print (Json.wellFormed_compact hwf), Json.depth_compact, if_pos hdepth]
    refine .inr ⟨r, hr, hempty, ?_, hscan, ?_⟩
    · rw [restoredRaw, if_neg hempty, compactRaw, hr]
      rfl
    · intro hnil
      rw [hnil, scanRaw_nil] at hscan
      cases hscan

theorem load_restoredRaw {get : α → Option Bytes} {set : Option Bytes → α → α}
    (h : invalidRaw (get a) = false) (hb : get b = restoredRaw (get a)) :
    Json.Field.load b (.raw name get set) = Json.Field.load a (.raw name get set) := by
  rcases raw_cases h with ⟨hempty, hnone⟩ | ⟨r, hr, hne, hsome, hscan, hne'⟩
  · rw [Json.Field.load_raw_empty hempty, Json.Field.load_raw_empty (by rw [hb, hnone]; rfl)]
  · have hget : (get b).getD [] = print (compact r) := by
      rw [hb, hsome]
      rfl
    rw [Json.Field.load_raw hne, Json.Field.load_raw (by rw [hget]; exact hne'), hget, hscan, hr, Option.map_some,
      Option.map_some, Json.compact_compact]

theorem marshalEvent_restored (h : ∀ raw ∈ [e.beforeState, e.afterState, e.metadata], invalidRaw raw = false) :
    marshalEvent (restored e) = marshalEvent e := by
  simp only [List.forall_mem_cons] at h
  obtain ⟨hbefore, hafter, hmetadata, -⟩ := h
  have hload : ∀ f ∈ eventFields, f.load (restored e) = f.load e := by
    simp only [eventFields, List.forall_mem_cons]
    exact ⟨rfl, rfl, rfl, rfl, rfl, rfl, rfl, rfl, load_restoredRaw hbefore rfl, load_restoredRaw hafter rfl,
      load_restoredRaw hmetadata rfl, rfl, rfl, rfl, fun _ hf => absurd hf List.not_mem_nil⟩
  rw [marshalEvent, marshalEvent, Json.marshalStruct, Json.marshalStruct, Json.structMembers_congr hload]

theorem getD_copyRaw (raw : Option Bytes) : (copyRaw raw).getD [] = raw.getD [] := by
  unfold copyRaw
  split
  · rename_i h
    exact h.symm
  · rfl

theorem invalidRaw_copyRaw (raw : Option Bytes) : invalidRaw (copyRaw raw) = invalidRaw raw := by
  rw [invalidRaw, getD_copyRaw]
  rfl

theorem copyRaw_restoredRaw (h : invalidRaw raw = false) : copyRaw (restoredRaw raw) = restoredRaw raw := by
  rcases raw_cases h with ⟨-, hnone⟩ | ⟨r, -, -, hsome, -, hne⟩
  · rw [hnone]
    rfl
  · rw [hsome]
    exact if_neg hne

theorem invalidRaw_restoredRaw (h : invalidRaw raw = false) : invalidRaw (restoredRaw raw) = false := by
  rcases raw_cases h with ⟨-, hnone⟩ | ⟨r, -, -, hsome, hscan, -⟩
  · rw [hnone]
    rfl
  · rw [hsome]
    simp [invalidRaw, Json.valid, hscan]

theorem length_restoredRaw_le (h : invalidRaw raw = false) (limit : Nat) :
    ((restoredRaw raw).getD []).length ≤ limit ↔ ∀ r, scanRaw (raw.getD []) = some r → encodedSize r ≤ limit := by
  rcases raw_cases h with ⟨hempty, hnone⟩ | ⟨r, hr, -, hsome, -, -⟩
  · rw [hnone, hempty, scanRaw_nil]
    simp
  · rw [hsome, hr]
    show (print (compact r)).length ≤ limit ↔ _
    rw [Json.length_print, ← encodedSize_eq]
    simp

theorem sameJSON_restoredRaw (h : invalidRaw (copyRaw raw) = false) :
    SameJSON (restoredRaw (copyRaw raw)) (copyRaw raw) := by
  rcases raw_cases h with ⟨hempty, hnone⟩ | ⟨r, hr, hne, hsome, hscan, -⟩
  · rw [getD_copyRaw] at hempty
    rw [hnone, copyRaw, if_pos hempty]
    trivial
  · rw [getD_copyRaw] at hne hr
    obtain ⟨bytes, rfl⟩ : ∃ bytes, raw = some bytes := by
      cases raw with
      | none => exact absurd rfl hne
      | some bytes => exact ⟨bytes, rfl⟩
    rw [hsome, copyRaw, if_neg hne]
    exact ⟨_, Json.parse_compact hr |>.trans (Json.parse_of_scanRaw hr), Json.parse_of_scanRaw hr⟩

/-! ## Fidelity -/

theorem truncateMicrosecond_idem (t : Int) : truncateMicrosecond (truncateMicrosecond t) = truncateMicrosecond t := by
  unfold truncateMicrosecond
  omega

theorem truncateMicrosecond_ne_zero {t : Int} (h : 1970 ≤ year t) : truncateMicrosecond t ≠ Time.zeroTime := by
  intro hzero
  have hday : t / Time.dayNanos = 366 := by
    have hd : (Time.dayNanos : Int) = 86400000000000 := rfl
    rw [truncateMicrosecond, Time.zeroTime, hd] at hzero
    rw [hd]
    omega
  have hyear : (Time.dateOfDay 366).year = 1 := by decide
  rw [year, hday, hyear] at h
  exact absurd h (by decide)

theorem validUtf8_format [UuidText] (id : Uuid) : validUtf8 (UuidText.format id) := by
  have hascii : ∀ b ∈ uuidBytes, b.toNat < 128 := List.all_iff_forall_prop.mp (by decide)
  exact validUtf8_of_ascii fun b hb => hascii b (UuidText.bytes_format id b hb)

theorem validUtf8_prepared [UuidText] (h : ∀ s ∈ strings e, validUtf8 s) (service : String) (id : Uuid) (now : Int) :
    ∀ s ∈ strings (preparedFor service e id now), validUtf8 s := by
  simp only [strings, List.forall_mem_cons] at h ⊢
  obtain ⟨-, -, hrest⟩ := h
  exact ⟨validUtf8_format id, validUtf8_utf8 service, hrest⟩

theorem preparedFor_restored [UuidText] (htime : Timely e now)
    (hjson : ∀ raw ∈ [e.beforeState, e.afterState, e.metadata], invalidRaw raw = false) (now' : Int) :
    preparedFor service (restored (preparedFor service e id now)) id now' = restored (preparedFor service e id now) := by
  have hcopy : ∀ raw ∈ [e.beforeState, e.afterState, e.metadata],
      copyRaw (restoredRaw (copyRaw raw)) = restoredRaw (copyRaw raw) := fun raw hraw =>
    copyRaw_restoredRaw (by rw [invalidRaw_copyRaw]; exact hjson raw hraw)
  simp only [List.forall_mem_cons] at hcopy
  obtain ⟨hbefore, hafter, hmetadata, -⟩ := hcopy
  have hcreated : (preparedFor service e id now).createdAt ≠ Time.zeroTime := truncateMicrosecond_ne_zero htime.1
  have htruncate : truncateMicrosecond (preparedFor service e id now).createdAt = (preparedFor service e id now).createdAt :=
    truncateMicrosecond_idem _
  unfold preparedFor restored cloneEvent at *
  dsimp only at *
  rw [hbefore, hafter, hmetadata, if_neg hcreated, htruncate]

theorem restorable_prepared [UuidText] : Restorable (preparedFor service e id now) ↔ Restorable e := by
  unfold Restorable Embeds
  simp only [preparedFor, cloneEvent, getD_copyRaw]

theorem restorable_iff (hjson : ∀ raw ∈ [e.beforeState, e.afterState, e.metadata], invalidRaw raw = false) :
    Restorable e ↔ Shallow e ∧ ((restored e).beforeState.getD []).length ≤ maxStateBytes ∧
      ((restored e).afterState.getD []).length ≤ maxStateBytes ∧
      ((restored e).metadata.getD []).length ≤ maxMetadataBytes := by
  simp only [List.forall_mem_cons] at hjson
  obtain ⟨hbefore, hafter, hmetadata, -⟩ := hjson
  have hb := length_restoredRaw_le hbefore maxStateBytes
  have ha := length_restoredRaw_le hafter maxStateBytes
  have hm := length_restoredRaw_le hmetadata maxMetadataBytes
  unfold Restorable Embeds Shallow
  simp only [restored, hb, ha, hm, List.forall_mem_cons, List.not_mem_nil, false_implies, implies_true, and_true,
    imp_and, forall_and]
  tauto

theorem parseEventID_prepared [UuidText]
    (h : Valid (preparedFor service e id now)) : UuidText.format id ≠ [] ∧ parseEventID (UuidText.format id) = .ok id := by
  have hne : UuidText.format id ≠ [] := List.ne_nil_of_length_eq_add_one (UuidText.length_format id)
  obtain ⟨u, hu⟩ := h.id hne
  obtain ⟨hparse, hzero⟩ := parseEventID_eq_ok.mp hu
  obtain rfl : id = u := Option.some.inj ((UuidText.parse_format id).symm.trans hparse)
  exact ⟨hne, parseEventID_eq_ok.mpr ⟨UuidText.parse_format id, hzero⟩⟩

theorem valid_restored [UuidText] (h : Valid e) (hkeep : Restorable e) : Valid (restored e) := by
  obtain ⟨-, hbefore, hafter, hmetadata⟩ := (restorable_iff h.json).mp hkeep
  have hjson := h.json
  simp only [List.forall_mem_cons] at hjson
  obtain ⟨hb, ha, hm, -⟩ := hjson
  refine ⟨h.id, h.present, ?_, ⟨hbefore, hafter⟩, hmetadata⟩
  simp only [restored, List.forall_mem_cons]
  exact ⟨invalidRaw_restoredRaw hb, invalidRaw_restoredRaw ha, invalidRaw_restoredRaw hm,
    fun _ hraw => absurd hraw List.not_mem_nil⟩

/-- What keeps to its limits is read back and enqueued again. -/
theorem fidelity_of_restorable [UuidText]
    (hvalid : Valid (preparedFor service e id now)) (hpayload : marshalEvent (preparedFor service e id now) = some payload)
    (hsize : payload.length ≤ maxOutboxPayload) (hstrings : ∀ s ∈ strings e, validUtf8 s) (htime : Timely e now)
    (hkeep : Restorable (preparedFor service e id now)) : Fidelity service (preparedFor service e id now) payload := by
  have hshallow := ((restorable_iff hvalid.json).mp hkeep).1
  have hread := (unmarshalEvent_marshalEvent hpayload (validUtf8_prepared hstrings service id now)).1 hshallow
  have hjson : ∀ raw ∈ [e.beforeState, e.afterState, e.metadata], invalidRaw (copyRaw raw) = false :=
    (List.forall_mem_map (f := copyRaw) (P := fun raw => invalidRaw raw = false)).mp hvalid.json
  have hsame := fun raw hraw => sameJSON_restoredRaw (hjson raw hraw)
  simp only [List.forall_mem_cons] at hsame
  refine ⟨_, hread, ⟨rfl, rfl, hsame.1, hsame.2.1, hsame.2.2.1⟩, fun random now' =>
    ⟨restored (preparedFor service e id now), ?_, rfl⟩⟩
  rw [enqueueEvent_eq_ok]
  refine ⟨id, .inr (parseEventID_prepared hvalid), .inr rfl, (preparedFor_restored htime ?_ now').symm,
    valid_restored hvalid hkeep, (marshalEvent_restored hvalid.json).trans hpayload, hsize⟩
  intro raw hraw
  rw [← invalidRaw_copyRaw]
  exact hjson raw hraw

/-- What is read back and enqueued again has kept to its limits. -/
theorem restorable_of_fidelity [UuidText]
    (hvalid : Valid (preparedFor service e id now)) (hpayload : marshalEvent (preparedFor service e id now) = some payload)
    (hstrings : ∀ s ∈ strings e, validUtf8 s) (hfid : Fidelity service (preparedFor service e id now) payload) :
    Restorable (preparedFor service e id now) := by
  obtain ⟨hread, hdeep⟩ := unmarshalEvent_marshalEvent hpayload (validUtf8_prepared hstrings service id now)
  obtain ⟨decoded, hdecoded, -, hagain⟩ := hfid
  have hshallow : Shallow (preparedFor service e id now) := by
    by_contra hnot
    rw [hdeep hnot] at hdecoded
    cases hdecoded
  obtain rfl := Option.some.inj ((hread hshallow).symm.trans hdecoded)
  obtain ⟨again, hok, -⟩ := hagain none 0
  obtain ⟨id', -, -, rfl, hvalid', -⟩ := enqueueEvent_eq_ok.mp hok
  have hstates := hvalid'.states
  have hmetadata := hvalid'.metadata
  rw [restorable_iff hvalid.json]
  simp only [preparedFor, cloneEvent, getD_copyRaw] at hstates hmetadata
  exact ⟨hshallow, hstates.1, hstates.2, hmetadata⟩

/-! ## The budget of the payload -/

theorem quotedSize_of_plain {s : Bytes}
    (h : ∀ b ∈ s, b.toNat < 128 ∧ quotedRune (some (Char.ofNat b.toNat)) = 1) : quotedSize s = s.length := by
  unfold quotedSize
  induction s with
  | nil => rfl
  | cons b bs ih =>
    obtain ⟨⟨hlt, hone⟩, hbs⟩ := List.forall_mem_cons.mp h
    rw [runes_ascii hlt, List.map_cons, List.foldr_cons, ih hbs, hone, List.length_cons, Nat.add_comm]

theorem quotedSize_format [UuidText] (id : Uuid) : quotedSize (UuidText.format id) = 36 := by
  have hplain : ∀ b ∈ uuidBytes, b.toNat < 128 ∧ quotedRune (some (Char.ofNat b.toNat)) = 1 :=
    List.all_iff_forall_prop.mp (by decide)
  rw [quotedSize_of_plain fun b hb => hplain b (UuidText.bytes_format id b hb), UuidText.length_format]

theorem eventSize_prepared [UuidText] (service : String) (e : Event) (id : Uuid) (now : Int) :
    eventSize (preparedFor service e id now) = payloadSize service e now := by
  have hid : stringMember "id" (UuidText.format id) = stringMember "id" (List.replicate 36 0x30) := by
    have hzeros : quotedSize (List.replicate 36 0x30) = 36 := by decide
    rw [stringMember, stringMember, quotedSize_format, hzeros]
  have hraw : ∀ name raw, rawMember name (copyRaw raw) = rawMember name raw := by
    intro name raw
    rw [rawMember, getD_copyRaw]
    rfl
  unfold payloadSize eventSize preparedFor cloneEvent
  dsimp only
  rw [hid, hraw, hraw, hraw]

theorem marshalEvent_isSome (hjson : ∀ raw ∈ [e.beforeState, e.afterState, e.metadata], invalidRaw raw = false)
    (hyear : Time.FourDigitYear e.createdAt) : ∃ payload, marshalEvent e = some payload :=
  ⟨_, marshalEvent_eq_some.mpr ⟨_, Json.structMembers_eq_some.mpr ⟨load_isSome.mpr ⟨hjson, hyear⟩, rfl⟩, rfl⟩⟩

theorem enqueueEvent_prepared [UuidText] {event prepared : Event} {random : Option Uuid}
    (hprepare : prepareEvent (some event) random now = .ok prepared)
    (hservice : prepared.service = [] ∨ prepared.service = utf8 service)
    (hvalid : validateEvent { prepared with service := utf8 service } = .ok ())
    (hmarshal : marshalEvent { prepared with service := utf8 service } = some payload) :
    enqueueEvent service (some event) random now =
      if payload.length > maxOutboxPayload then .error .payloadTooLarge
      else .ok ({ prepared with service := utf8 service }, payload) := by
  have hskip : ¬ (prepared.service ≠ [] ∧ prepared.service ≠ utf8 service) := by tauto
  unfold enqueueEvent
  rw [hprepare]
  show (if prepared.service ≠ [] ∧ prepared.service ≠ utf8 service then _ else _) = _
  rw [if_neg hskip, hvalid]
  show (outboxPayload _ >>= _) = _
  rw [outboxPayload, hmarshal]
  dsimp only
  split <;> rfl

/-! ## Strings of angle brackets -/

def hexDigit (d : Nat) : UInt8 := if d < 10 then UInt8.ofNat (48 + d) else UInt8.ofNat (87 + d)

def hexValue (b : UInt8) : Nat := if b < 58 then b.toNat - 48 else b.toNat - 87

/-- The digits of a number from the last one on, and dashes. -/
instance sampleText : UuidText where
  parse s := some (BitVec.ofNat 128 (Nat.ofDigits 16 ((s.takeWhile (· ≠ 45)).map hexValue)))
  format u := (Nat.digits 16 u.toNat).map hexDigit ++ List.replicate (36 - (Nat.digits 16 u.toNat).length) 45
  parse_format u := by
    have hdigit : ∀ d < 16, hexDigit d ≠ 45 ∧ hexValue (hexDigit d) = d := by decide
    have hdigits : ∀ d ∈ Nat.digits 16 u.toNat, d < 16 := fun d hd => Nat.digits_lt_base (by decide) hd
    have hstop : ∀ k, (List.replicate k (45 : UInt8)).takeWhile (· ≠ 45) = [] := fun k => by cases k <;> rfl
    have hmap : ((Nat.digits 16 u.toNat).map hexDigit).map hexValue = Nat.digits 16 u.toNat := by
      rw [List.map_map]
      exact (List.map_congr_left fun d hd => (hdigit d (hdigits d hd)).2).trans (List.map_id _)
    rw [List.takeWhile_append_of_pos, hstop, List.append_nil, hmap, Nat.ofDigits_digits, BitVec.ofNat_toNat,
      BitVec.setWidth_eq]
    exact List.forall_mem_map.mpr fun d hd => decide_eq_true (hdigit d (hdigits d hd)).1
  length_format u := by
    have hlen := (Nat.digits_length_le_iff (b := 16) (k := 32) (by decide) u.toNat).mpr u.isLt
    rw [List.length_append, List.length_map, List.length_replicate]
    omega
  bytes_format u := by
    have hdigit : ∀ d < 16, hexDigit d ∈ uuidBytes := by decide
    refine List.forall_mem_append.mpr ⟨List.forall_mem_map.mpr fun d hd => ?_, fun b hb => ?_⟩
    · exact hdigit d (Nat.digits_lt_base (by decide) hd)
    · rw [List.eq_of_mem_replicate hb]
      exact List.mem_cons_self

def sampleID : Uuid := 0x550e8400e29b41d4a716446655440000

def sampleEvent : Event :=
  { zeroEvent with
    id := UuidText.format sampleID
    actor := [97]
    action := [98]
    targetType := [99]
    scopeType := [100]
    createdAt := 63000000000123456789 }

/-- A JSON string of `n` characters `<`. -/
def angleRaw (n : Nat) : Bytes := print (.string (List.replicate n 0x3C))

def angleEvent (n : Nat) : Event := { sampleEvent with beforeState := some (angleRaw n) }

theorem length_angleRaw (n : Nat) : (angleRaw n).length = n + 2 := by
  rw [angleRaw, Json.length_print]
  show (List.replicate n (0x3C : UInt8)).length + 2 = n + 2
  rw [List.length_replicate]

theorem scanRaw_angleRaw (n : Nat) : scanRaw (angleRaw n) = some (.string (List.replicate n 0x3C)) := by
  have hsafe : ∀ b ∈ List.replicate n (0x3C : UInt8), Json.safeByte b := by
    intro b hb
    rw [List.eq_of_mem_replicate hb]
    decide
  have hwf : Json.wellFormed (.string (List.replicate n 0x3C)) := Json.unquote_of_safe hsafe
  rw [angleRaw, Json.scanRaw_print hwf]
  exact if_pos (Nat.zero_le _)

theorem encodedSize_angles (n : Nat) : encodedSize (.string (List.replicate n 0x3C)) = 6 * n + 2 := by
  have hextra : ((runes (List.replicate n 0x3C)).map extraBytes).foldr (· + ·) 0 = 5 * n := by
    induction n with
    | zero => rfl
    | succ n ih =>
      rw [List.replicate_succ, runes_ascii (by decide), List.map_cons, List.foldr_cons, ih,
        show extraBytes (some (Char.ofNat (UInt8.toNat 0x3C))) = 5 by decide]
      omega
  show (List.replicate n (0x3C : UInt8)).length + _ + 2 = _
  rw [hextra, List.length_replicate]
  omega

theorem seqSize_middle (n : Nat) (ms ns : List Nat) : Json.seqSize (ms ++ [n] ++ ns) = n + Json.seqSize (ms ++ [0] ++ ns) := by
  have hsum : ∀ k, ((ms ++ [k] ++ ns).foldr (fun m l => m + 1 + l) 0) =
      k + 1 + ((ms ++ ns).foldr (fun m l => m + 1 + l) 0) := by
    intro k
    induction ms with
    | nil => rfl
    | cons m ms ih =>
      rw [List.cons_append, List.cons_append, List.cons_append, List.foldr_cons, List.foldr_cons, ih]
      omega
  rw [Json.seqSize, Json.seqSize, hsum, hsum]
  omega

theorem payloadSize_angleEvent (n : Nat) : payloadSize "svc" (angleEvent n) 0 = 6 * n + 211 := by
  have hraw : rawMember "before_state" (some (angleRaw n)) = [15 + (6 * n + 2)] := by
    rw [rawMember, Option.getD_some, scanRaw_angleRaw]
    dsimp only
    rw [encodedSize_angles, show (utf8 "before_state").length = 12 by decide +kernel]
  have hcreated : (angleEvent n).createdAt ≠ Time.zeroTime := by exact (by decide : sampleEvent.createdAt ≠ Time.zeroTime)
  rw [payloadSize, if_neg hcreated, eventSize]
  dsimp only [angleEvent]
  rw [hraw, List.append_assoc, List.append_assoc, List.append_assoc, List.append_assoc, seqSize_middle]
  refine (congrArg (_ + ·) (?_ : Json.seqSize _ = 194)).trans ?_
  · decide +kernel
  · omega

theorem identity_angleEvent (n : Nat) : Identity (angleEvent n) none sampleID := by
  have hid : parseEventID (UuidText.format sampleID) = .ok sampleID :=
    parseEventID_eq_ok.mpr ⟨UuidText.parse_format sampleID, by decide⟩
  exact .inr ⟨List.ne_nil_of_length_eq_add_one (UuidText.length_format sampleID), hid⟩

theorem valid_angleEvent (h : n + 2 ≤ maxStateBytes) : Valid (preparedFor "svc" (angleEvent n) sampleID 0) where
  id _ := ⟨sampleID, parseEventID_eq_ok.mpr ⟨UuidText.parse_format sampleID, by decide⟩⟩
  present := by
    have hsample : ¬ (sampleEvent.actor = [] ∨ sampleEvent.action = [] ∨ sampleEvent.targetType = [] ∨
        sampleEvent.scopeType = []) := by decide
    exact hsample
  json := by
    have hangle : invalidRaw (some (angleRaw n)) = false := by simp [invalidRaw, Json.valid, scanRaw_angleRaw]
    simp only [List.forall_mem_cons]
    refine ⟨?_, rfl, rfl, fun _ h => absurd h List.not_mem_nil⟩
    exact (invalidRaw_copyRaw _).trans hangle
  states := by
    refine ⟨?_, Nat.zero_le _⟩
    show ((copyRaw (some (angleRaw n))).getD []).length ≤ maxStateBytes
    rw [getD_copyRaw, Option.getD_some, length_angleRaw]
    exact h
  metadata := Nat.zero_le _

theorem strings_angleEvent (n : Nat) : ∀ s ∈ strings (angleEvent n), validUtf8 s := by
  have hsample : ∀ s ∈ (strings sampleEvent).drop 1, validUtf8 s := by decide
  exact List.forall_mem_cons.mpr ⟨validUtf8_format sampleID, hsample⟩

theorem timely_angleEvent (n : Nat) : Timely (angleEvent n) 0 := by
  have hsample : Timely sampleEvent 0 := by decide
  exact hsample

theorem restorable_angleEvent (n : Nat) : Restorable (angleEvent n) ↔ 6 * n + 2 ≤ maxStateBytes := by
  have hother : ∀ limit, Embeds limit none := by
    intro limit r hr
    rw [Option.getD_none, scanRaw_nil] at hr
    cases hr
  constructor
  · rintro ⟨hbefore, -⟩
    have hsize := (hbefore _ (scanRaw_angleRaw n)).1
    rwa [encodedSize_angles] at hsize
  · intro hsize
    refine ⟨fun r hr => ?_, hother _, hother _⟩
    rw [angleEvent, Option.getD_some, scanRaw_angleRaw] at hr
    cases hr
    rw [encodedSize_angles]
    exact ⟨hsize, by exact (by decide : 0 < Json.maxNestingDepth)⟩

theorem marshal_angleEvent (n : Nat) (h : n + 2 ≤ maxStateBytes) :
    ∃ payload, marshalEvent (preparedFor "svc" (angleEvent n) sampleID 0) = some payload ∧ payload.length = 6 * n + 211 := by
  have hyear : Time.FourDigitYear (preparedFor "svc" sampleEvent sampleID 0).createdAt := by decide
  obtain ⟨payload, hpayload⟩ := marshalEvent_isSome (valid_angleEvent h).json hyear
  refine ⟨payload, hpayload, ?_⟩
  rw [length_marshalEvent hpayload, eventSize_prepared, payloadSize_angleEvent]

theorem enqueue_angleEvent (h : n + 2 ≤ maxStateBytes) (hfits : 6 * n + 211 ≤ maxOutboxPayload) :
    ∃ payload, marshalEvent (preparedFor "svc" (angleEvent n) sampleID 0) = some payload ∧
      enqueueEvent "svc" (some (angleEvent n)) none 0 = .ok (preparedFor "svc" (angleEvent n) sampleID 0, payload) := by
  obtain ⟨payload, hpayload, hlength⟩ := marshal_angleEvent n h
  exact ⟨payload, hpayload, enqueueEvent_eq_ok.mpr ⟨sampleID, identity_angleEvent n, .inl rfl, rfl, valid_angleEvent h,
    hpayload, by rw [hlength]; exact hfits⟩⟩

/-! ## Results -/

/-- Of the events that `EnqueueTx` accepts, those keep to the fidelity of the outbox whose JSON fields
keep to their limits in the payload. -/
theorem payload_fidelity_iff [UuidText] {service : String} {event prepared : Event} {random : Option Uuid} {now : Int}
    {payload : Bytes} (haccept : enqueueEvent service (some event) random now = .ok (prepared, payload))
    (hstrings : ∀ s ∈ strings event, validUtf8 s) (htime : Timely event now) :
    Fidelity service prepared payload ↔ Restorable event := by
  obtain ⟨id, -, -, rfl, hvalid, hpayload, hsize⟩ := enqueueEvent_eq_ok.mp haccept
  rw [← restorable_prepared]
  exact ⟨restorable_of_fidelity hvalid hpayload hstrings, fidelity_of_restorable hvalid hpayload hsize hstrings htime⟩

theorem payload_fidelity_angled : ∃ prepared payload,
    enqueueEvent "svc" (some (angleEvent 10)) none 0 = .ok (prepared, payload) ∧ Fidelity "svc" prepared payload := by
  obtain ⟨payload, -, hok⟩ := enqueue_angleEvent (by decide : 10 + 2 ≤ maxStateBytes) (by decide)
  exact ⟨_, payload, hok, (payload_fidelity_iff hok (strings_angleEvent 10) (timely_angleEvent 10)).mpr
    ((restorable_angleEvent 10).mpr (by decide))⟩

/-- 11000 angle brackets are within the limit of a state, but the 66002 bytes that are read back are
refused when they are enqueued again. -/
theorem angled_state_refused : ∃ prepared payload,
    enqueueEvent "svc" (some (angleEvent 11000)) none 0 = .ok (prepared, payload) ∧
    (∀ s ∈ strings (angleEvent 11000), validUtf8 s) ∧ Timely (angleEvent 11000) 0 ∧
    ¬ Fidelity "svc" prepared payload := by
  have hstate : 11000 + 2 ≤ maxStateBytes := by decide
  obtain ⟨payload, hpayload, hok⟩ := enqueue_angleEvent hstate (by decide)
  refine ⟨_, payload, hok, strings_angleEvent _, timely_angleEvent _, fun hfid => ?_⟩
  have hkeep := restorable_of_fidelity (valid_angleEvent hstate) hpayload (strings_angleEvent _) hfid
  rw [restorable_prepared, restorable_angleEvent] at hkeep
  exact absurd hkeep (by decide)

/-- Of the events that `ValidateEvent` accepts after `PrepareEvent`, those fit into the outbox whose size
in the payload is within its limit. -/
theorem payload_budget_iff [UuidText] {service : String} {event prepared : Event} {random : Option Uuid} {now : Int}
    {payload : Bytes} (hprepare : prepareEvent (some event) random now = .ok prepared)
    (hservice : prepared.service = [] ∨ prepared.service = utf8 service)
    (hvalid : validateEvent { prepared with service := utf8 service } = .ok ())
    (hmarshal : marshalEvent { prepared with service := utf8 service } = some payload) :
    (payload.length ≤ maxOutboxPayload ↔ payloadSize service event now ≤ maxOutboxPayload) ∧
    (enqueueEvent service (some event) random now ≠ .error .payloadTooLarge ↔
      payloadSize service event now ≤ maxOutboxPayload) := by
  have hlength : payload.length = payloadSize service event now := by
    obtain ⟨id, -, rfl⟩ := prepareEvent_eq_ok.mp hprepare
    rw [length_marshalEvent hmarshal]
    exact eventSize_prepared service event id now
  rw [enqueueEvent_prepared hprepare hservice hvalid hmarshal, hlength]
  refine ⟨Iff.rfl, ?_⟩
  split
  · rename_i hover
    simp [Nat.not_le.mpr hover]
  · rename_i hfits
    simp [Nat.not_lt.mp hfits]

theorem prepareEvent_angleEvent (n : Nat) : prepareEvent (some (angleEvent n)) none 0 =
    .ok { preparedFor "svc" (angleEvent n) sampleID 0 with service := [] } :=
  prepareEvent_eq_ok.mpr ⟨sampleID, identity_angleEvent n, rfl⟩

theorem payload_budget_angled : ∃ payload,
    marshalEvent (preparedFor "svc" (angleEvent 10) sampleID 0) = some payload ∧ payload.length ≤ maxOutboxPayload := by
  have hstate : 10 + 2 ≤ maxStateBytes := by decide
  obtain ⟨payload, hpayload, -⟩ := marshal_angleEvent 10 hstate
  have hiff := (payload_budget_iff (prepareEvent_angleEvent 10) (.inl rfl)
    (validateEvent_eq_ok.mpr (valid_angleEvent hstate)) hpayload).1
  rw [payloadSize_angleEvent] at hiff
  exact ⟨payload, hpayload, hiff.mpr (by decide)⟩

/-- A state of 64 KiB takes 384 KiB in the payload. -/
theorem angled_state_over_budget : ∃ prepared, prepareEvent (some (angleEvent 65534)) none 0 = .ok prepared ∧
    validateEvent { prepared with service := utf8 "svc" } = .ok () ∧
    stringBytes { prepared with service := utf8 "svc" } ≤ 4096 ∧
    enqueueEvent "svc" (some (angleEvent 65534)) none 0 = .error .payloadTooLarge := by
  have hstate : 65534 + 2 ≤ maxStateBytes := by decide
  have hvalid := validateEvent_eq_ok.mpr (valid_angleEvent hstate)
  have hsmall : stringBytes (preparedFor "svc" sampleEvent sampleID 0) ≤ 4096 := by decide +kernel
  obtain ⟨payload, hpayload, hlength⟩ := marshal_angleEvent 65534 hstate
  refine ⟨_, prepareEvent_angleEvent 65534, hvalid, hsmall, ?_⟩
  rw [enqueueEvent_prepared (prepareEvent_angleEvent 65534) (.inl rfl) hvalid hpayload, hlength, if_pos (by decide)]

end Csar.Proof.Audit
