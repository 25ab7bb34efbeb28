import CsarCore.Framework.SortedMap
import CsarCore.Impl.Audit.Enqueue
import CsarCore.Impl.Audit.HTTPResponse

/-!
# `EncodeHTTPMetadata`

The rest of `audit/http_response.go`. Maps and responses are behind references: `meta`
refers to `bounded`, which is changed between two encodings. A value of a metadata map
that is no integer, string, bool or response is known by what `json.Marshal` writes for
it, or that it fails.
-/

namespace Csar.Impl.Audit

open Csar.Json (Raw quoteBytes print formatInt)

/-! ## Values -/

structure Encoded where
  tree : Raw
  wellFormed : Json.wellFormed tree

/-- An integer of one of Go's types. -/
def GoInt := { n : Int // minInt64 ≤ n ∧ n ≤ 18446744073709551615 }

/-- A value in a `map[string]any`. -/
inductive MetaValue
  | int (n : GoInt)
  | string (s : Bytes)
  | bool (b : Bool)
  /-- A `*HTTPResponse`. -/
  | response (ref : Nat)
  /-- Any other value; `none`: `json.Marshal` fails. -/
  | other (json : Option Encoded)

abbrev MetaMap := SortedMap Bytes MetaValue

structure Memory where
  maps : List MetaMap
  responses : List HTTPResponse

/-! ## JSON -/

def CaptureState.text : CaptureState → Bytes
  | .omitted => utf8 "omitted"
  | .empty => utf8 "empty"
  | .captured => utf8 "captured"
  | .truncated => utf8 "truncated"

def OmissionReason.text : OmissionReason → Bytes
  | .inspectionLimit => utf8 "inspection_limit"
  | .contentEncoding => utf8 "content_encoding"
  | .contentType => utf8 "content_type"
  | .invalidJsonEnvelope => utf8 "invalid_json_envelope"
  | .noErrorFields => utf8 "no_error_fields"
  | .metadataBudget => utf8 "metadata_budget"

def intTree (n : Int) : Raw := .number (encodeRunes (formatInt n))

def stringTree (s : Bytes) : Raw := .string (quoteBytes s)

def field (name : String) (r : Raw) : List (Bytes × Raw) := [(quoteBytes (utf8 name), r)]

/-- A string field with `omitempty`. -/
def stringOmitEmpty (name : String) (s : Bytes) : List (Bytes × Raw) :=
  if s = [] then [] else field name (stringTree s)

def responseMembers (r : HTTPResponse) : List (Bytes × Raw) :=
  field "version" (intTree r.version) ++ field "status" (intTree r.status) ++
    field "state" (stringTree r.state.text) ++
    stringOmitEmpty "omission_reason" ((r.omissionReason.map OmissionReason.text).getD []) ++
    stringOmitEmpty "content_type" r.contentType ++ field "origin" (stringTree r.origin) ++
    stringOmitEmpty "stage" r.stage ++ field "duration_ms" (intTree r.durationMS) ++
    field "observed_bytes" (intTree r.observedBytes) ++ field "capture_complete" (.bool r.captureComplete) ++
    stringOmitEmpty "code" r.code ++ stringOmitEmpty "message" r.message ++ stringOmitEmpty "body" r.body ++
    (if r.fieldsOmitted then field "fields_omitted" (.bool true) else [])

def marshalValue (responses : List HTTPResponse) : MetaValue → Option Raw
  | .int n => some (intTree n.1)
  | .string s => some (stringTree s)
  | .bool b => some (.bool b)
  | .response ref => responses[ref]?.map fun r => .object (responseMembers r)
  | .other json => json.map Encoded.tree

def marshalEntry (responses : List HTTPResponse) (e : Bytes × MetaValue) : Option (Bytes × Raw) :=
  (marshalValue responses e.2).map fun r => (quoteBytes e.1, r)

/-- `json.Marshal` of a map. -/
def marshalMap (responses : List HTTPResponse) (m : MetaMap) : Option Bytes :=
  (m.entries.mapM (marshalEntry responses)).map fun ms => print (.object ms)

/-! ## Encoding -/

def encode (mem : Memory) (ref : Nat) : Option Bytes :=
  match (mem.maps[ref]?).bind (marshalMap mem.responses) with
  | none => none
  | some raw => if raw.length > maxMetadataBytes then none else some raw

def Memory.newMap (mem : Memory) (m : MetaMap) : Memory := { mem with maps := mem.maps ++ [m] }

def Memory.newResponse (mem : Memory) (r : HTTPResponse) : Memory := { mem with responses := mem.responses ++ [r] }

def Memory.updateMap (mem : Memory) (ref : Nat) (f : MetaMap → MetaMap) : Memory :=
  { mem with maps := mem.maps.modify ref f }

def Memory.updateResponse (mem : Memory) (ref : Nat) (f : HTTPResponse → HTTPResponse) : Memory :=
  { mem with responses := mem.responses.modify ref f }

/-- `bounded = *response` and `meta["http_response"] = &bounded`. -/
def share (mem : Memory) (ref : Nat) (r : HTTPResponse) : Memory :=
  (mem.newResponse r).updateMap ref fun m => m.set (utf8 "http_response") (.response mem.responses.length)

def dropBody (r : HTTPResponse) : HTTPResponse :=
  { r with body := [], state := .omitted, omissionReason := some .metadataBudget }

def dropQuery (m : MetaMap) : MetaMap :=
  (m.filterKeys fun k => k != utf8 "query").set (utf8 "query_omitted") (.bool true)

def basicKeys : List Bytes := ["http_status", "audit_mode", "http_response", "query_omitted"].map utf8

def keepBasics (m : MetaMap) : MetaMap := m.filterKeys fun k => basicKeys.contains k

/-- The reductions once `meta` is there; `bounded` is none without a response. -/
def reduce (mem : Memory) (ref : Nat) (bounded : Option Nat) : Memory × Option Bytes :=
  match encode mem ref with
  | some raw => (mem, some raw)
  | none =>
    let mem := match bounded with
      | some b => mem.updateResponse b dropBody
      | none => mem
    match encode mem ref with
    | some raw => (mem, some raw)
    | none =>
      let mem := mem.updateMap ref dropQuery
      match encode mem ref with
      | some raw => (mem, some raw)
      | none =>
        let mem := mem.updateMap ref keepBasics
        (mem, encode mem ref)

/-- With the references to the base map and to the response, which may be nil. -/
def encodeHTTPMetadata (mem : Memory) (base response : Option Nat) : Memory × Option Bytes :=
  let ref := mem.maps.length
  let made := mem.newMap (((base.bind fun b => mem.maps[b]?).getD .empty).copy)
  match response.bind fun r => mem.responses[r]? with
  | some r => reduce (share made ref r) ref (some mem.responses.length)
  | none => reduce made ref none

end Csar.Impl.Audit
