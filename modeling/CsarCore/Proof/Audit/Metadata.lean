import CsarCore.Proof.Audit.Capture
import CsarCore.Proof.Audit.Payload
import CsarCore.Spec.Audit.HTTPResponse
import Mathlib.Data.Nat.Digits.Defs

/-!
# The metadata of a response

Whichever encoding is returned is that of a map with what is basic about the request
(`Holds`), which is in the JSON (`basics_of_marshalMap`). The last one has four keys at
most, so its size is bounded (`length_basics`): it fits.
-/

namespace Csar.Proof.Audit

open Impl.Audit Spec.Audit
open Csar.Json (Raw goText quoteBytes print printedSize scanRaw formatInt)

/-! ## Names -/

theorem goText_quoted (name : String) : goText (quoteBytes (utf8 name)) = utf8 name := by
  rw [Json.goText_quoteBytes, sanitize_of_valid (validUtf8_utf8 name)]

variable {name : String} {ms : List (Bytes × Raw)} {v : MetaValue} {status : GoInt} {mode : Bytes}
    {out : HTTPResponse} {raw : Bytes} {r : HTTPResponse} {ref : Nat} {mem : Memory}

theorem eq_of_sanitize {k : Bytes} (hname : ∀ c ∈ name.toList, c ≠ runeError)
    (h : sanitize k = utf8 name) : k = utf8 name := by
  rw [utf8_eq_encodeRunes] at h ⊢
  have htext : text k = name.toList ++ [] := by
    rw [List.append_nil]
    exact encodeRunes_injective h
  obtain ⟨bs, rfl, hbs⟩ := eq_of_text_append name.toList htext hname
  rw [text_eq_nil hbs, List.append_nil]

theorem named_append {ns : List (Bytes × Raw)} {r : Raw} :
    Named (ms ++ ns) name r ↔ Named ms name r ∨ Named ns name r := by
  simp only [Named, List.mem_append, and_or_left, exists_or]

theorem named_field {name' : String} {r r' : Raw} :
    Named (field name r) name' r' ↔ name = name' ∧ r' = r := by
  constructor
  · rintro ⟨k, hk, hmem⟩
    obtain ⟨rfl, rfl⟩ := Prod.mk.inj (List.mem_singleton.mp hmem)
    rw [goText_quoted] at hk
    exact ⟨utf8_injective hk, rfl⟩
  · rintro ⟨rfl, rfl⟩
    exact ⟨_, goText_quoted name, List.mem_singleton.mpr rfl⟩

theorem named_stringOmitEmpty {name' : String} {s : Bytes} {r : Raw} :
    Named (stringOmitEmpty name s) name' r ↔ s ≠ [] ∧ name = name' ∧ r = stringTree s := by
  unfold stringOmitEmpty
  split
  · rename_i h
    simp [Named, h]
  · rename_i h
    rw [named_field]
    simp [h]

theorem named_ite {p : Prop} [Decidable p] {r : Raw} :
    Named (if p then ms else []) name r ↔ p ∧ Named ms name r := by
  split <;> simp [Named, *]

theorem responseBasics (r : HTTPResponse) : ResponseBasics r (responseMembers r) := by
  have hoptional : ∀ {name s}, (∀ t, Named (responseMembers r) name t ↔ s ≠ [] ∧ t = stringTree s) →
      OptionalMember (responseMembers r) name (sanitize s) := by
    intro name s h
    by_cases hs : s = []
    · refine .inl ⟨by rw [hs, sanitize_nil], fun t ht => ?_⟩
      exact ((h t).mp ht).1 hs
    · refine .inr ⟨quoteBytes s, fun t => (h t).trans (and_iff_right hs), Json.goText_quoteBytes s⟩
  refine ⟨?_, ⟨quoteBytes r.origin, ?_, Json.goText_quoteBytes _⟩, hoptional ?_, hoptional ?_, hoptional ?_⟩ <;>
  · intro t
    simp [responseMembers, named_append, named_field, named_stringOmitEmpty, named_ite, intTree, stringTree]

/-! ## Valid JSON -/

theorem wellFormed_int (n : Int) : Json.wellFormed (intTree n) := by
  show (Json.parseNumber (text (encodeRunes (formatInt n)))).isSome
  rw [text_encodeRunes]
  exact Json.parseNumber_formatInt n

theorem wellFormed_string (s : Bytes) : Json.wellFormed (stringTree s) :=
  Option.isSome_of_eq_some (Json.unquote_quoteBytes s)

theorem wellFormed_object (h : ∀ m ∈ ms, ∃ k, m.1 = quoteBytes k ∧ Json.wellFormed m.2) : Json.wellFormed (.object ms) :=
  Json.all_object.mpr fun m hm => by
    obtain ⟨k, hk, hwf⟩ := h m hm
    rw [hk]
    exact ⟨wellFormed_string k, hwf⟩

theorem wellFormed_responseMembers (r : HTTPResponse) : Json.wellFormed (.object (responseMembers r)) := by
  have hfield : ∀ name t, Json.wellFormed t → ∀ m ∈ field name t, ∃ k, m.1 = quoteBytes k ∧ Json.wellFormed m.2 := by
    intro name t ht m hm
    rw [List.mem_singleton.mp hm]
    exact ⟨_, rfl, ht⟩
  have homit : ∀ name s, ∀ m ∈ stringOmitEmpty name s, ∃ k, m.1 = quoteBytes k ∧ Json.wellFormed m.2 := by
    intro name s m hm
    obtain ⟨-, hm⟩ := List.mem_ite_nil_left.mp hm
    exact hfield name _ (wellFormed_string s) m hm
  refine wellFormed_object ?_
  simp only [responseMembers, List.forall_mem_append, and_assoc]
  have hbool : ∀ b, Json.wellFormed (.bool b) := fun b => rfl
  exact ⟨hfield _ _ (wellFormed_int _), hfield _ _ (wellFormed_int _), hfield _ _ (wellFormed_string _), homit _ _,
    homit _ _, hfield _ _ (wellFormed_string _), homit _ _, hfield _ _ (wellFormed_int _), hfield _ _ (wellFormed_int _),
    hfield _ _ (hbool _), homit _ _, homit _ _, homit _ _,
    fun m hm => hfield _ _ (hbool true) m (List.mem_ite_nil_right.mp hm).2⟩

theorem wellFormed_marshalValue {responses : List HTTPResponse} {r : Raw}
    (h : marshalValue responses v = some r) : Json.wellFormed r := by
  cases v with
  | int n =>
    cases h
    exact wellFormed_int n.1
  | string s =>
    cases h
    exact wellFormed_string s
  | bool b =>
    cases h
    rfl
  | response ref =>
    obtain ⟨out, -, rfl⟩ := Option.map_eq_some_iff.mp h
    exact wellFormed_responseMembers out
  | other json =>
    obtain ⟨e, -, rfl⟩ := Option.map_eq_some_iff.mp h
    exact e.wellFormed

theorem two_mul_depth_le (r : Raw) : 2 * r.depth ≤ printedSize r := by
  have hseq : ∀ (ds ns : List Nat), List.Forall₂ (fun d n => 2 * d ≤ n) ds ns →
      2 * (ds.foldr max 0 + 1) ≤ Json.seqSize ns := by
    intro ds ns h
    unfold Json.seqSize
    induction h with
    | nil => decide
    | cons h _ ih =>
      rw [List.foldr_cons, List.foldr_cons]
      omega
  induction r using Json.ind with
  | null | bool | number | string => exact Nat.zero_le _
  | array vs ih =>
    rw [Json.depth_array, Json.printedSize_array]
    refine hseq _ _ ?_
    rw [List.forall₂_map_left_iff, List.forall₂_map_right_iff, List.forall₂_same]
    exact ih
  | object ms ih =>
    rw [Json.depth_object, Json.printedSize_object]
    refine hseq _ _ ?_
    rw [List.forall₂_map_left_iff, List.forall₂_map_right_iff, List.forall₂_same]
    exact fun m hm => Nat.le_trans (ih m hm) (Nat.le_add_left _ _)

theorem scanRaw_print_metadata {r : Raw} (h : Json.wellFormed r) (hlen : (print r).length ≤ maxMetadataBytes) :
    scanRaw (print r) = some r := by
  have hdepth := two_mul_depth_le r
  rw [Json.length_print] at hlen
  have hmax : maxMetadataBytes = 16384 := rfl
  have hnest : Json.maxNestingDepth = 10000 := rfl
  rw [Json.scanRaw_print h, if_pos (by omega)]

/-! ## Members of a map -/

theorem mapM_eq_some {α β : Type} {f : α → Option β} {as : List α} {bs : List β} (h : as.mapM f = some bs) :
    (∀ a ∈ as, ∃ b ∈ bs, f a = some b) ∧ ∀ b ∈ bs, ∃ a ∈ as, f a = some b := by
  induction as generalizing bs with
  | nil =>
    cases h
    simp
  | cons a as ih =>
    rw [List.mapM_cons] at h
    obtain ⟨b, hb, h⟩ := Option.bind_eq_some_iff.mp h
    obtain ⟨bs', hbs', h⟩ := Option.bind_eq_some_iff.mp h
    cases h
    obtain ⟨hforth, hback⟩ := ih hbs'
    refine ⟨List.forall_mem_cons.mpr ⟨⟨b, List.mem_cons_self, hb⟩, fun x hx => ?_⟩,
      List.forall_mem_cons.mpr ⟨⟨a, List.mem_cons_self, hb⟩, fun y hy => ?_⟩⟩
    · obtain ⟨y, hy, hxy⟩ := hforth x hx
      exact ⟨y, List.mem_cons_of_mem b hy, hxy⟩
    · obtain ⟨x, hx, hxy⟩ := hback y hy
      exact ⟨x, List.mem_cons_of_mem a hx, hxy⟩

variable {responses : List HTTPResponse} {m : MetaMap} {ms : List (Bytes × Raw)}

theorem member_of_get (hms : m.entries.mapM (marshalEntry responses) = some ms)
    (hname : ∀ c ∈ name.toList, c ≠ runeError) (hget : m.get (utf8 name) = some v) :
    ∃ r, marshalValue responses v = some r ∧ Member ms name r := by
  obtain ⟨hforth, hback⟩ := mapM_eq_some hms
  obtain ⟨e, he, hentry⟩ := hforth _ (SortedMap.mem_entries.mpr hget)
  obtain ⟨r, hr, rfl⟩ := Option.map_eq_some_iff.mp hentry
  refine ⟨r, hr, fun r' => ⟨?_, ?_⟩⟩
  · rintro ⟨k, hk, hmem⟩
    obtain ⟨e', he', hentry'⟩ := hback _ hmem
    obtain ⟨r'', hr'', heq⟩ := Option.map_eq_some_iff.mp hentry'
    obtain ⟨rfl, rfl⟩ := Prod.mk.inj heq
    rw [Json.goText_quoteBytes] at hk
    -- another key is read as another name
    have hkey := eq_of_sanitize hname hk
    have hget' := SortedMap.mem_entries.mp (show (e'.1, e'.2) ∈ m.entries from he')
    rw [hkey, hget] at hget'
    cases hget'
    exact Option.some.inj (hr''.symm.trans hr)
  · rintro rfl
    exact ⟨_, goText_quoted name, he⟩

/-- A map has the basics of a request, and a response that is like `out`. -/
structure Holds (status : GoInt) (mode : Bytes) (out : HTTPResponse) (responses : List HTTPResponse) (m : MetaMap) :
    Prop where
  status : m.get (utf8 "http_status") = some (.int status)
  mode : m.get (utf8 "audit_mode") = some (.string mode)
  response : ∃ ref r, m.get (utf8 "http_response") = some (.response ref) ∧ responses[ref]? = some r ∧
    r.status = out.status ∧ r.origin = out.origin ∧ r.contentType = out.contentType ∧ r.code = out.code ∧
    r.message = out.message

theorem basics_of_marshalMap (h : Holds status mode out responses m)
    (hraw : marshalMap responses m = some raw) (hlen : raw.length ≤ maxMetadataBytes) :
    ∃ ms, scanRaw raw = some (.object ms) ∧ Basics status.1 mode out ms := by
  obtain ⟨ms, hms, rfl⟩ := Option.map_eq_some_iff.mp hraw
  have hwf : Json.wellFormed (.object ms) := by
    refine wellFormed_object fun e he => ?_
    obtain ⟨e', -, hentry⟩ := (mapM_eq_some hms).2 e he
    obtain ⟨r, hr, rfl⟩ := Option.map_eq_some_iff.mp hentry
    exact ⟨_, rfl, wellFormed_marshalValue hr⟩
  refine ⟨ms, scanRaw_print_metadata hwf hlen, ?_, ?_, ?_⟩
  · obtain ⟨r, hr, hmember⟩ := member_of_get hms (by simp [runeError]) h.status
    cases hr
    exact hmember
  · obtain ⟨r, hr, hmember⟩ := member_of_get hms (by simp [runeError]) h.mode
    cases hr
    exact ⟨quoteBytes mode, hmember, Json.goText_quoteBytes mode⟩
  · obtain ⟨ref, r', hget, hr', hstatus, horigin, htype, hcode, hmessage⟩ := h.response
    obtain ⟨r, hr, hmember⟩ := member_of_get hms (by simp [runeError]) hget
    rw [marshalValue, hr', Option.map_some] at hr
    cases hr
    have hbasics := responseBasics r'
    refine ⟨_, hmember, ?_⟩
    exact ⟨hstatus ▸ hbasics.status, horigin ▸ hbasics.origin, htype ▸ hbasics.contentType, hcode ▸ hbasics.code,
      hmessage ▸ hbasics.message⟩

/-! ## Sizes -/

theorem length_quoteBytes_le (s : Bytes) : (quoteBytes s).length ≤ 6 * s.length := by
  have hrune : ∀ c : Char, quotedRune (some c) ≤ 6 * c.utf8Size := by
    intro c
    have hpos := c.utf8Size_pos
    rw [quotedRune]
    split
    · omega
    · split <;> omega
  rw [length_quoteBytes, quotedSize]
  induction s using runes_ind with
  | nil => exact Nat.le_refl 0
  | char c bs ih =>
    have hc := hrune c
    rw [runes_char, List.map_cons, List.foldr_cons, List.length_append, String.length_utf8EncodeChar]
    omega
  | stray b bs hb ih =>
    rw [runes_stray hb, List.map_cons, List.foldr_cons, List.length_cons, quotedRune]
    omega

theorem length_encodeRunes_le (cs : List Char) : (encodeRunes cs).length ≤ 4 * cs.length := by
  induction cs with
  | nil => exact Nat.le_refl 0
  | cons c cs ih =>
    have hsize := c.utf8Size_le_four
    rw [encodeRunes_cons, List.length_append, String.length_utf8EncodeChar, List.length_cons]
    omega

theorem length_utf8_le (s : String) : (utf8 s).length ≤ 4 * s.length := by
  rw [utf8_eq_encodeRunes]
  exact length_encodeRunes_le s.toList

theorem length_formatInt_le {n : Int} (hlo : minInt64 ≤ n) (hhi : n ≤ 18446744073709551615) : (formatInt n).length ≤ 20 := by
  rw [minInt64] at hlo
  unfold formatInt
  split
  · rename_i hneg
    have hdigits := Nat.toDigits_length 10 n.natAbs 19 (by decide) (by omega)
    rw [List.length_cons]
    omega
  · exact Nat.toDigits_length 10 n.natAbs 20 (by decide) (by omega)

theorem size_intTree {n : Int} (hlo : minInt64 ≤ n) (hhi : n ≤ 18446744073709551615) : printedSize (intTree n) ≤ 80 := by
  have hdigits := length_formatInt_le hlo hhi
  have hbytes := length_encodeRunes_le (formatInt n)
  show (encodeRunes (formatInt n)).length ≤ 80
  omega

theorem size_stringTree (s : Bytes) : printedSize (stringTree s) ≤ 6 * s.length + 2 :=
  Nat.add_le_add_right (length_quoteBytes_le s) 2

def cost (ms : List (Bytes × Raw)) : Nat := (ms.map fun m => m.1.length + 4 + printedSize m.2).foldr (· + ·) 0

theorem cost_append (ms ns : List (Bytes × Raw)) : cost (ms ++ ns) = cost ms + cost ns := by
  unfold cost
  induction ms with
  | nil => exact (Nat.zero_add _).symm
  | cons m ms ih =>
    rw [List.cons_append, List.map_cons, List.map_cons, List.foldr_cons, List.foldr_cons, ih]
    omega

theorem size_object_le (ms : List (Bytes × Raw)) : printedSize (.object ms) ≤ 2 + cost ms := by
  have hsum : ∀ ms : List (Bytes × Raw), (ms.map fun m => m.1.length + 3 + printedSize m.2).foldr (fun n k => n + 1 + k) 0 =
      cost ms := by
    intro ms
    unfold cost
    induction ms with
    | nil => rfl
    | cons m ms ih =>
      rw [List.map_cons, List.map_cons, List.foldr_cons, List.foldr_cons, ih]
      omega
  rw [Json.printedSize_object, Json.seqSize, hsum]
  omega

theorem cost_entry (name : String) (r : Raw) :
    (quoteBytes (utf8 name)).length + 4 + printedSize r ≤ 24 * name.length + 4 + printedSize r := by
  have hquote := length_quoteBytes_le (utf8 name)
  have hname := length_utf8_le name
  omega

theorem cost_field (name : String) (r : Raw) : cost (field name r) ≤ 24 * name.length + 4 + printedSize r :=
  cost_entry name r

theorem cost_stringOmitEmpty (name : String) (s : Bytes) :
    cost (stringOmitEmpty name s) ≤ 24 * name.length + 6 + 6 * s.length := by
  unfold stringOmitEmpty
  split
  · exact Nat.zero_le _
  · have hfield := cost_field name (stringTree s)
    have hsize := size_stringTree s
    omega

/-- A response as it is bounded by capturing it, and then without its body. -/
structure Bounded (r : HTTPResponse) : Prop where
  ints : ∀ n ∈ [r.version, r.status, r.durationMS, r.observedBytes], minInt64 ≤ n ∧ n ≤ 18446744073709551615
  state : r.state = .omitted
  omissionReason : r.omissionReason = some .metadataBudget
  contentType : r.contentType.length ≤ 128
  origin : r.origin.length ≤ 28
  stage : r.stage = []
  code : r.code.length ≤ 256
  message : r.message.length ≤ 1024
  body : r.body = []

theorem size_response (h : Bounded r) : printedSize (.object (responseMembers r)) ≤ 12600 := by
  have hints := h.ints
  simp only [List.forall_mem_cons] at hints
  obtain ⟨hversion, hstatus, hduration, hobserved, -⟩ := hints
  have hobject := size_object_le (responseMembers r)
  have hint : ∀ name n, minInt64 ≤ n ∧ n ≤ 18446744073709551615 →
      cost (field name (intTree n)) ≤ 24 * name.length + 84 := by
    intro name n hn
    have hfield := cost_field name (intTree n)
    have hsize := size_intTree hn.1 hn.2
    omega
  have hstring : ∀ name s, cost (field name (stringTree s)) ≤ 24 * name.length + 6 + 6 * s.length := by
    intro name s
    have hfield := cost_field name (stringTree s)
    have hsize := size_stringTree s
    omega
  have h1 : cost (field "version" _) ≤ 24 * 7 + 84 := hint "version" _ hversion
  have h2 : cost (field "status" _) ≤ 24 * 6 + 84 := hint "status" _ hstatus
  have h3 : cost (field "state" _) ≤ 24 * 5 + 6 + 6 * _ := hstring "state" r.state.text
  have h4 : cost (stringOmitEmpty "omission_reason" _) ≤ 24 * 15 + 6 + 6 * _ :=
    cost_stringOmitEmpty "omission_reason" ((r.omissionReason.map OmissionReason.text).getD [])
  have h5 : cost (stringOmitEmpty "content_type" _) ≤ 24 * 12 + 6 + 6 * _ :=
    cost_stringOmitEmpty "content_type" r.contentType
  have h6 : cost (field "origin" _) ≤ 24 * 6 + 6 + 6 * _ := hstring "origin" r.origin
  have h7 : cost (stringOmitEmpty "stage" r.stage) = 0 := by rw [h.stage]; rfl
  have h8 : cost (field "duration_ms" _) ≤ 24 * 11 + 84 := hint "duration_ms" _ hduration
  have h9 : cost (field "observed_bytes" _) ≤ 24 * 14 + 84 := hint "observed_bytes" _ hobserved
  have h10 : cost (field "capture_complete" _) ≤ 24 * 16 + 4 + _ := cost_field "capture_complete" (.bool r.captureComplete)
  have h11 : cost (stringOmitEmpty "code" _) ≤ 24 * 4 + 6 + 6 * _ := cost_stringOmitEmpty "code" r.code
  have h12 : cost (stringOmitEmpty "message" _) ≤ 24 * 7 + 6 + 6 * _ := cost_stringOmitEmpty "message" r.message
  have h13 : cost (stringOmitEmpty "body" r.body) = 0 := by rw [h.body]; rfl
  have h14 : cost (if r.fieldsOmitted then field "fields_omitted" (.bool true) else []) ≤ 24 * 14 + 8 := by
    split
    · exact cost_field "fields_omitted" (.bool true)
    · exact Nat.zero_le _
  have hbool : printedSize (.bool r.captureComplete) ≤ 5 := by cases r.captureComplete <;> decide
  have hstate : r.state.text.length ≤ 4 * 7 := by
    rw [h.state]
    exact length_utf8_le "omitted"
  have hreason : ((r.omissionReason.map OmissionReason.text).getD []).length ≤ 4 * 15 := by
    rw [h.omissionReason]
    exact length_utf8_le "metadata_budget"
  have hlen := h.contentType
  have hlen' := h.origin
  have hcode := h.code
  have hmessage := h.message
  simp only [responseMembers, cost_append] at hobject ⊢
  omega

theorem mapM_of_forall {α β : Type} {f : α → Option β} {g : α → β} {as : List α} (h : ∀ a ∈ as, f a = some (g a)) :
    as.mapM f = some (as.map g) := by
  induction as with
  | nil => rfl
  | cons a as ih =>
    obtain ⟨ha, has⟩ := List.forall_mem_cons.mp h
    rw [List.mapM_cons, ha, ih has]
    rfl

/-- The entries of the last map, in any order. -/
def basicEntries (status : GoInt) (mode : Bytes) (ref : Nat) : List (Bytes × MetaValue) :=
  [(utf8 "http_status", .int status), (utf8 "audit_mode", .string mode), (utf8 "http_response", .response ref),
    (utf8 "query_omitted", .bool true)]

theorem basicEntries_nodup (status : GoInt) (mode : Bytes) (ref : Nat) : (basicEntries status mode ref).Nodup := by
  have hkeys : (["http_status", "audit_mode", "http_response", "query_omitted"].map utf8).Nodup :=
    List.Nodup.map (fun _ _ => utf8_injective) (by decide)
  exact List.Nodup.of_map Prod.fst hkeys

theorem marshalMap_basics
    (hentries : ∀ e, e ∈ m.entries ↔ e ∈ basicEntries status mode ref) (hmode : mode.length ≤ 64)
    (hr : responses[ref]? = some r) (hbounded : Bounded r) :
    ∃ raw, marshalMap responses m = some raw ∧ raw.length ≤ maxMetadataBytes := by
  let tree : Bytes × MetaValue → Bytes × Raw := fun e =>
    (quoteBytes e.1, (marshalValue responses e.2).getD .null)
  have htree : ∀ e ∈ m.entries, marshalEntry responses e = some (tree e) := by
    intro e he
    have he' := (hentries e).mp he
    simp only [basicEntries, List.mem_cons, List.not_mem_nil, or_false] at he'
    rcases he' with rfl | rfl | rfl | rfl
    · rfl
    · rfl
    · simp [marshalEntry, tree, marshalValue, hr]
    · rfl
  have hperm : m.entries.Perm (basicEntries status mode ref) :=
    (List.perm_ext_iff_of_nodup (List.Nodup.of_map _ m.nodup_keys) (basicEntries_nodup status mode ref)).mpr hentries
  have hcost : cost (m.entries.map tree) = cost ((basicEntries status mode ref).map tree) :=
    ((hperm.map tree).map _).foldr_eq 0
  refine ⟨_, by rw [marshalMap, mapM_of_forall htree]; rfl, ?_⟩
  have hobject := size_object_le (m.entries.map tree)
  have hstatus := size_intTree status.2.1 status.2.2
  have hstring := size_stringTree mode
  have hresponse := size_response hbounded
  have h1 : _ ≤ 24 * 11 + 4 + _ := cost_entry "http_status" (intTree status.1)
  have h2 : _ ≤ 24 * 10 + 4 + _ := cost_entry "audit_mode" (stringTree mode)
  have h3 : _ ≤ 24 * 13 + 4 + _ := cost_entry "http_response" (.object (responseMembers r))
  have h4 : _ ≤ 24 * 13 + 4 + 4 := cost_entry "query_omitted" (.bool true)
  have hsum : cost ((basicEntries status mode ref).map tree) =
      (quoteBytes (utf8 "http_status")).length + 4 + printedSize (intTree status.1) +
      ((quoteBytes (utf8 "audit_mode")).length + 4 + printedSize (stringTree mode) +
      ((quoteBytes (utf8 "http_response")).length + 4 + printedSize (.object (responseMembers r)) +
      ((quoteBytes (utf8 "query_omitted")).length + 4 + printedSize (.bool true)))) := by
    have hvalue : marshalValue responses (.response ref) = some (.object (responseMembers r)) := by
      rw [marshalValue, hr]
      rfl
    simp only [cost, basicEntries, tree, List.map_cons, List.map_nil, List.foldr_cons, List.foldr_nil, hvalue]
    rfl
  have hmax : maxMetadataBytes = 16384 := rfl
  rw [Json.length_print]
  omega

/-! ## The reductions -/

theorem encode_eq_some (hm : mem.maps[ref]? = some m) :
    encode mem ref = some raw ↔ marshalMap mem.responses m = some raw ∧ raw.length ≤ maxMetadataBytes := by
  rw [encode, hm, Option.bind_some]
  cases marshalMap mem.responses m with
  | none => simp
  | some raw' =>
    simp only [Option.ite_none_left_eq_some, Option.some.injEq, Nat.not_lt]
    constructor
    · rintro ⟨hlen, rfl⟩
      exact ⟨rfl, hlen⟩
    · rintro ⟨rfl, hlen⟩
      exact ⟨hlen, rfl⟩

theorem get_dropQuery (hquery : name ≠ "query") (homitted : name ≠ "query_omitted") (m : MetaMap) :
    (dropQuery m).get (utf8 name) = m.get (utf8 name) := by
  rw [dropQuery, SortedMap.get_set, SortedMap.get_filterKeys, utf8_beq, bne, utf8_beq, beq_false_of_ne hquery,
    beq_false_of_ne homitted]
  rfl

theorem get_keepBasics (m : MetaMap) (k : Bytes) :
    (keepBasics m).get k = if basicKeys.contains k then m.get k else none := SortedMap.get_filterKeys m _ k

theorem holds_dropQuery (h : Holds status mode out responses m) :
    Holds status mode out responses (dropQuery m) := by
  obtain ⟨ref, r, hget, hr⟩ := h.response
  refine ⟨?_, ?_, ref, r, ?_, hr⟩
  · rw [get_dropQuery (by decide) (by decide), h.status]
  · rw [get_dropQuery (by decide) (by decide), h.mode]
  · rw [get_dropQuery (by decide) (by decide), hget]

theorem holds_keepBasics (h : Holds status mode out responses m) :
    Holds status mode out responses (keepBasics m) := by
  have hbasic : ∀ name ∈ ["http_status", "audit_mode", "http_response", "query_omitted"],
      (keepBasics m).get (utf8 name) = m.get (utf8 name) := by
    intro name hname
    have hmem : utf8 name ∈ basicKeys := List.mem_map_of_mem hname
    rw [get_keepBasics, if_pos (List.contains_iff_mem.mpr hmem)]
  simp only [List.forall_mem_cons] at hbasic
  obtain ⟨hstatus, hmode, hresponse, -⟩ := hbasic
  obtain ⟨ref, r, hget, hr⟩ := h.response
  exact ⟨hstatus.trans h.status, hmode.trans h.mode, ref, r, hresponse.trans hget, hr⟩

theorem mem_keepBasics (hstatus : m.get (utf8 "http_status") = some (.int status))
    (hmode : m.get (utf8 "audit_mode") = some (.string mode)) (hresponse : m.get (utf8 "http_response") = some (.response ref))
    (e : Bytes × MetaValue) : e ∈ (keepBasics (dropQuery m)).entries ↔ e ∈ basicEntries status mode ref := by
  have homitted : (dropQuery m).get (utf8 "query_omitted") = some (.bool true) := by
    rw [dropQuery, SortedMap.get_set, beq_self_eq_true]
    rfl
  have hget : ∀ k v, (keepBasics (dropQuery m)).get k = some v ↔ k ∈ basicKeys ∧ (dropQuery m).get k = some v := by
    intro k v
    rw [get_keepBasics, Option.ite_none_right_eq_some, List.contains_iff_mem]
  have hstatus' := (get_dropQuery (by decide) (by decide) m).trans hstatus
  have hmode' := (get_dropQuery (by decide) (by decide) m).trans hmode
  have hresponse' := (get_dropQuery (by decide) (by decide) m).trans hresponse
  obtain ⟨k, v⟩ := e
  rw [SortedMap.mem_entries, hget]
  simp only [basicKeys, basicEntries, List.map_cons, List.map_nil, List.mem_cons, List.not_mem_nil, or_false, Prod.mk.injEq]
  constructor
  · rintro ⟨rfl | rfl | rfl | rfl, hv⟩
    · exact .inl ⟨rfl, Option.some.inj (hv.symm.trans hstatus')⟩
    · exact .inr (.inl ⟨rfl, Option.some.inj (hv.symm.trans hmode')⟩)
    · exact .inr (.inr (.inl ⟨rfl, Option.some.inj (hv.symm.trans hresponse')⟩))
    · exact .inr (.inr (.inr ⟨rfl, Option.some.inj (hv.symm.trans homitted)⟩))
  · rintro (⟨rfl, rfl⟩ | ⟨rfl, rfl⟩ | ⟨rfl, rfl⟩ | ⟨rfl, rfl⟩)
    · exact ⟨.inl rfl, hstatus'⟩
    · exact ⟨.inr (.inl rfl), hmode'⟩
    · exact ⟨.inr (.inr (.inl rfl)), hresponse'⟩
    · exact ⟨.inr (.inr (.inr rfl)), homitted⟩

def Good (status : GoInt) (mode : Bytes) (out : HTTPResponse) (raw : Bytes) : Prop :=
  raw.length ≤ maxMetadataBytes ∧ ∃ ms, scanRaw raw = some (.object ms) ∧ Basics status.1 mode out ms

theorem good_of_encode (hm : mem.maps[ref]? = some m) (h : Holds status mode out mem.responses m)
    (hraw : encode mem ref = some raw) : Good status mode out raw := by
  obtain ⟨hmarshal, hlen⟩ := (encode_eq_some hm).mp hraw
  exact ⟨hlen, basics_of_marshalMap h hmarshal hlen⟩

theorem maps_updateMap (hm : mem.maps[ref]? = some m) (f : MetaMap → MetaMap) :
    (mem.updateMap ref f).maps[ref]? = some (f m) := by
  rw [Memory.updateMap, List.getElem?_modify_eq, hm]
  rfl

/-- Whatever has to be dropped, an encoding is returned. -/
theorem reduce_good {b : Nat}
    (hm : mem.maps[ref]? = some m) (hr : mem.responses[b]? = some r)
    (hstatus : m.get (utf8 "http_status") = some (.int status)) (hmode : m.get (utf8 "audit_mode") = some (.string mode))
    (hresponse : m.get (utf8 "http_response") = some (.response b))
    (hlen : mode.length ≤ 64) (hbounded : Bounded (dropBody r)) :
    ∃ raw, (reduce mem ref (some b)).2 = some raw ∧ Good status mode r raw := by
  have hm' : (mem.updateResponse b dropBody).maps[ref]? = some m := hm
  have hr' : (mem.updateResponse b dropBody).responses[b]? = some (dropBody r) := by
    rw [Memory.updateResponse, List.getElem?_modify_eq, hr]
    rfl
  have hholds : Holds status mode r mem.responses m :=
    ⟨hstatus, hmode, b, r, hresponse, hr, rfl, rfl, rfl, rfl, rfl⟩
  have hdropped : Holds status mode r (mem.updateResponse b dropBody).responses m :=
    ⟨hstatus, hmode, b, dropBody r, hresponse, hr', rfl, rfl, rfl, rfl, rfl⟩
  unfold reduce
  cases h₁ : encode mem ref with
  | some raw => exact ⟨raw, rfl, good_of_encode hm hholds h₁⟩
  | none =>
    dsimp only
    cases h₂ : encode (mem.updateResponse b dropBody) ref with
    | some raw => exact ⟨raw, rfl, good_of_encode hm' hdropped h₂⟩
    | none =>
      dsimp only
      have hm₂ := maps_updateMap hm' dropQuery
      cases h₃ : encode ((mem.updateResponse b dropBody).updateMap ref dropQuery) ref with
      | some raw => exact ⟨raw, rfl, good_of_encode hm₂ (holds_dropQuery hdropped) h₃⟩
      | none =>
        dsimp only
        have hm₃ := maps_updateMap hm₂ keepBasics
        obtain ⟨raw, hraw, hfits⟩ := marshalMap_basics (mem_keepBasics hstatus hmode hresponse) hlen hr' hbounded
        have hencode := (encode_eq_some hm₃).mpr ⟨hraw, hfits⟩
        exact ⟨raw, hencode, good_of_encode hm₃ (holds_keepBasics (holds_dropQuery hdropped)) hencode⟩

/-! ## What is not touched -/

theorem maps_updateMap_ne {i : Nat} (h : i ≠ ref) (f : MetaMap → MetaMap) :
    (mem.updateMap ref f).maps[i]? = mem.maps[i]? := by
  exact List.getElem?_modify_ne f mem.maps h.symm

theorem responses_updateResponse_ne {b i : Nat} (h : i ≠ b) (f : HTTPResponse → HTTPResponse) :
    (mem.updateResponse b f).responses[i]? = mem.responses[i]? := by
  exact List.getElem?_modify_ne f mem.responses h.symm

theorem reduce_frame (mem : Memory) (ref b : Nat) :
    (∀ i ≠ ref, (reduce mem ref (some b)).1.maps[i]? = mem.maps[i]?) ∧
    ∀ i ≠ b, (reduce mem ref (some b)).1.responses[i]? = mem.responses[i]? := by
  have hbody : ∀ i ≠ b, (mem.updateResponse b dropBody).responses[i]? = mem.responses[i]? :=
    fun i hi => responses_updateResponse_ne hi dropBody
  unfold reduce
  split
  · exact ⟨fun _ _ => rfl, fun _ _ => rfl⟩
  · dsimp only
    split
    · exact ⟨fun _ _ => rfl, hbody⟩
    · split
      · exact ⟨fun i hi => maps_updateMap_ne hi dropQuery, hbody⟩
      · refine ⟨fun i hi => ?_, hbody⟩
        rw [maps_updateMap_ne hi, maps_updateMap_ne hi]
        rfl

/-! ## The full encoding -/

theorem mapM_set {α : Type} {f f' : Bytes × MetaValue → Option α} {k : Bytes} {v' : MetaValue}
    (hk : f (k, v) = f' (k, v')) {es : List (Bytes × MetaValue)} (hes : ∀ e ∈ es, f e = f' e) :
    (Json.set k v es).mapM f = (Json.set k v' es).mapM f' := by
  have hcongr : ∀ {es : List (Bytes × MetaValue)}, (∀ e ∈ es, f e = f' e) → es.mapM f = es.mapM f' := by
    intro es hes
    induction es with
    | nil => rfl
    | cons e es ih =>
      obtain ⟨he, hes⟩ := List.forall_mem_cons.mp hes
      rw [List.mapM_cons, List.mapM_cons, he, ih hes]
  have hcons : ∀ {es es' : List (Bytes × MetaValue)}, es.mapM f = es'.mapM f' →
      ((k, v) :: es).mapM f = ((k, v') :: es').mapM f' := by
    intro es es' h
    rw [List.mapM_cons, List.mapM_cons, hk, h]
  induction es with
  | nil => exact hcons rfl
  | cons e es ih =>
    obtain ⟨he, hes'⟩ := List.forall_mem_cons.mp hes
    rw [Json.set, Json.set]
    cases compare k e.1 with
    | lt => exact hcons (hcongr hes)
    | eq => exact hcons (hcongr hes')
    | gt => rw [List.mapM_cons, List.mapM_cons, he, ih hes']

theorem marshalMap_shared {response : Nat} (hr : mem.responses[response]? = some r)
    (hlive : ∀ k ref, m.get k = some (.response ref) → ref < mem.responses.length) :
    marshalMap (mem.responses ++ [r]) (m.set (utf8 "http_response") (.response mem.responses.length)) =
      fullEncoding mem m response := by
  unfold fullEncoding marshalMap SortedMap.set
  refine congrArg (Option.map _) (mapM_set ?_ fun e he => ?_)
  · simp [marshalEntry, marshalValue, hr]
  · unfold marshalEntry
    refine congrArg (Option.map _) ?_
    cases hv : e.2 with
    | response ref =>
      have hget : m.get e.1 = some (.response ref) := SortedMap.mem_entries.mp (hv ▸ he)
      rw [marshalValue, marshalValue, List.getElem?_append_left (hlive e.1 ref hget)]
    | int n => rfl
    | string s => rfl
    | bool b => rfl
    | other json => rfl

theorem reduce_of_encode (h : encode mem ref = some raw) (b : Option Nat) :
    (reduce mem ref b).2 = some raw := by
  unfold reduce
  rw [h]

/-! ## The contract -/

/-- `EncodeHTTPMetadata` on a bounded response. -/
theorem metadataContract {base response : Nat}
    (hbase : mem.maps[base]? = some m) (hresponse : mem.responses[response]? = some r)
    (hlive : ∀ k ref, m.get k = some (.response ref) → ref < mem.responses.length)
    (hstatus : m.get (utf8 "http_status") = some (.int status)) (hmode : m.get (utf8 "audit_mode") = some (.string mode))
    (hlen : mode.length ≤ 64) (hbounded : Bounded (dropBody r)) :
    MetadataContract mem m response r status.1 mode (encodeHTTPMetadata mem (some base) (some response)) := by
  let m' : MetaMap := m.set (utf8 "http_response") (.response mem.responses.length)
  let mem' : Memory := share (mem.newMap m) mem.maps.length r
  have hrun : encodeHTTPMetadata mem (some base) (some response) =
      reduce mem' mem.maps.length (some mem.responses.length) := by
    unfold encodeHTTPMetadata
    simp only [Option.bind_some, hbase, hresponse, Option.getD_some, SortedMap.copy_eq]
    rfl
  have hmap : mem'.maps[mem.maps.length]? = some m' := by
    have hnew : ((mem.newMap m).newResponse r).maps[mem.maps.length]? = some m := List.getElem?_concat_length
    exact maps_updateMap hnew _
  have hmaps : ∀ ref < mem.maps.length, mem'.maps[ref]? = mem.maps[ref]? := by
    intro ref href
    rw [show mem'.maps[ref]? = (mem.maps ++ [m])[ref]? from maps_updateMap_ne (Nat.ne_of_lt href) _]
    exact List.getElem?_append_left href
  have hother : ∀ {name : String}, name ≠ "http_response" → m'.get (utf8 name) = m.get (utf8 name) := by
    intro name hne
    rw [SortedMap.get_set, utf8_beq, beq_false_of_ne hne]
    rfl
  have hown : m'.get (utf8 "http_response") = some (.response mem.responses.length) := by
    rw [SortedMap.get_set, beq_self_eq_true]
    rfl
  obtain ⟨raw, hraw, hfits, ms, hscan, hbasics⟩ := reduce_good hmap List.getElem?_concat_length
    ((hother (by decide)).trans hstatus) ((hother (by decide)).trans hmode) hown hlen hbounded
  have hframe := reduce_frame mem' mem.maps.length mem.responses.length
  rw [hrun]
  refine ⟨⟨raw, ms, hraw, hfits, hscan, hbasics⟩, ?_, ?_, ?_⟩
  · intro full hfull hlen
    have hmarshal : marshalMap mem'.responses m' = some full := (marshalMap_shared hresponse hlive).trans hfull
    exact reduce_of_encode ((encode_eq_some hmap).mpr ⟨hmarshal, hlen⟩) _
  · exact fun ref href => (hframe.1 ref (Nat.ne_of_lt href)).trans (hmaps ref href)
  · exact fun ref href => (hframe.2 ref (Nat.ne_of_lt href)).trans (List.getElem?_append_left href)

theorem length_clipDiagnostic_le (value : Bytes) (limit : Nat) : (clipDiagnostic value limit).length ≤ limit := by
  unfold clipDiagnostic
  split
  · assumption
  · obtain ⟨k, hk, heq, -⟩ := backOff_spec value limit
    rw [heq, List.length_take]
    omega

theorem bounded_capture (inp : HTTPResponseInput) (hstatus : Json.inInt64 inp.status)
    (hobserved : Json.inInt64 inp.observedBytes) : Bounded (dropBody (captureHTTPResponse inp)) := by
  have hint : ∀ {n : Int}, Json.inInt64 n → minInt64 ≤ n ∧ n ≤ 18446744073709551615 := by
    intro n hn
    obtain ⟨hmin, hmax⟩ := of_decide_eq_true hn
    exact ⟨hmin, Int.le_trans hmax (by decide)⟩
  unfold captureHTTPResponse
  extract_lets ct out
  have htype : out.contentType.length ≤ 128 := by
    show (if ct.2 = none then clipDiagnostic ct.1 128 else []).length ≤ 128
    split
    · exact length_clipDiagnostic_le ct.1 128
    · exact Nat.zero_le _
  have horigin : out.origin.length ≤ 28 := length_utf8_le "unknown"
  have hints : ∀ n ∈ [out.version, out.status, out.durationMS, out.observedBytes],
      minInt64 ≤ n ∧ n ≤ 18446744073709551615 := by
    simp only [List.forall_mem_cons]
    have hconst : Json.inInt64 httpResponseVersion ∧ Json.inInt64 0 := by decide
    exact ⟨hint hconst.1, hint hstatus, hint hconst.2, hint hobserved, by simp⟩
  have hout : ∀ state reason body omitted (code message : Bytes), code.length ≤ 256 → message.length ≤ 1024 →
      Bounded (dropBody { out with
        state := state, omissionReason := reason, body := body, fieldsOmitted := omitted, code := code,
        message := message }) :=
    fun _ _ _ _ code message hcode hmessage =>
      ⟨hints, rfl, rfl, htype, horigin, rfl, hcode, hmessage, rfl⟩
  have hplain := fun state reason omitted =>
    hout state reason out.body omitted out.code out.message (Nat.zero_le _) (Nat.zero_le _)
  clear_value out ct
  split
  · exact hplain _ _ _
  split
  · exact hplain _ _ _
  split
  · exact hplain _ _ _
  split
  · exact hplain _ _ _
  split
  · exact hplain _ _ _
  · unfold describe
    extract_lets fields out' body limit
    split
    · exact hplain _ _ _
    · exact hout _ _ _ _ _ _ (length_clipDiagnostic_le _ 256) (length_clipDiagnostic_le _ 1024)

/-- `EncodeHTTPMetadata` of a captured response fits and keeps the basics. -/
theorem encode_metadata_contract (mem : Memory) (base response : Nat) (m : MetaMap) (inp : HTTPResponseInput) (status : GoInt)
    (mode : Bytes) (hbase : mem.maps[base]? = some m) (hresponse : mem.responses[response]? = some (captureHTTPResponse inp))
    (hlive : ∀ k ref, m.get k = some (.response ref) → ref < mem.responses.length)
    (hints : Json.inInt64 inp.status ∧ Json.inInt64 inp.observedBytes)
    (hstatus : m.get (utf8 "http_status") = some (.int status)) (hmode : m.get (utf8 "audit_mode") = some (.string mode))
    (hlen : mode.length ≤ 64) :
    MetadataContract mem m response (captureHTTPResponse inp) status.1 mode
      (encodeHTTPMetadata mem (some base) (some response)) :=
  metadataContract hbase hresponse hlive hstatus hmode hlen (bounded_capture inp hints.1 hints.2)

def sampleMeta (mode : Bytes) : MetaMap :=
  ((SortedMap.empty.set (utf8 "http_status") (.int ⟨403, by decide⟩)).set (utf8 "audit_mode") (.string mode)).set
    (utf8 "callback") (.other none)

theorem get_sampleMeta (mode k : Bytes) :
    (sampleMeta mode).get k = if k == utf8 "callback" then some (.other none)
      else if k == utf8 "audit_mode" then some (.string mode)
      else if k == utf8 "http_status" then some (.int ⟨403, by decide⟩) else none := by
  rw [sampleMeta, SortedMap.get_set, SortedMap.get_set, SortedMap.get_set]
  rfl

def sampleMemory (mode : Bytes) : Memory := ⟨[sampleMeta mode], [captureHTTPResponse deniedInput]⟩

theorem sampleMeta_status (mode : Bytes) :
    (sampleMeta mode).get (utf8 "http_status") = some (.int ⟨403, by decide⟩) := by
  rw [get_sampleMeta, utf8_beq, utf8_beq, utf8_beq]
  rfl

theorem sampleMeta_mode (mode : Bytes) : (sampleMeta mode).get (utf8 "audit_mode") = some (.string mode) := by
  rw [get_sampleMeta, utf8_beq, utf8_beq]
  rfl

theorem sampleMeta_live {k : Bytes} (h : (sampleMeta mode).get k = some (.response ref)) : ref < 1 := by
  rw [get_sampleMeta] at h
  split at h
  · cases h
  split at h
  · cases h
  split at h <;> cases h

theorem encode_metadata_contract_unmarshallable :
    MetadataContract (sampleMemory [97, 108, 108]) (sampleMeta [97, 108, 108]) 0 (captureHTTPResponse deniedInput) 403
      [97, 108, 108] (encodeHTTPMetadata (sampleMemory [97, 108, 108]) (some 0) (some 0)) :=
  encode_metadata_contract (sampleMemory [97, 108, 108]) 0 0 (sampleMeta [97, 108, 108]) deniedInput ⟨403, by decide⟩
    [97, 108, 108] rfl rfl (fun _ _ => sampleMeta_live) (by decide) (sampleMeta_status _) (sampleMeta_mode _) (by decide)

/-- A mode that is no text is altered in the metadata. -/
theorem audit_mode_altered :
    ∃ raw ms, (encodeHTTPMetadata (sampleMemory [0xFF]) (some 0) (some 0)).2 = some raw ∧
      scanRaw raw = some (.object ms) ∧ ¬ StringMember ms "audit_mode" [0xFF] := by
  have hcontract : MetadataContract (sampleMemory [0xFF]) (sampleMeta [0xFF]) 0 (captureHTTPResponse deniedInput) 403 [0xFF]
      (encodeHTTPMetadata (sampleMemory [0xFF]) (some 0) (some 0)) :=
    metadataContract rfl rfl (fun _ _ => sampleMeta_live) (sampleMeta_status _) (sampleMeta_mode _) (by decide)
      (bounded_capture deniedInput (by decide) (by decide))
  obtain ⟨raw, ms, hraw, -, hscan, hbasics⟩ := hcontract.encoded
  refine ⟨raw, ms, hraw, hscan, ?_⟩
  rintro ⟨q, hq, hraw⟩
  obtain ⟨q', hq', hsane⟩ := hbasics.mode
  have heq : (.string q : Raw) = .string q' := (hq' _).mp ((hq _).mpr rfl)
  cases heq
  exact absurd (hraw.symm.trans hsane) (by decide)

end Csar.Proof.Audit
