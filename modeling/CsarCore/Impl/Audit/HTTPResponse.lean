import CsarCore.Framework.Json.Struct
import CsarCore.Framework.Mime
import CsarCore.Impl.JsonRedact

/-!
# `audit/http_response.go`

`CaptureHTTPResponse`. The states and omission reasons are the texts of the source in
camel case. `json.MarshalIndent` gives no error on strings, integers and maps of them.
-/

namespace Csar.Impl.Audit

open Csar.Json Csar.Impl

def httpResponseVersion : Int := 1

def maxHTTPInspectBytes : Nat := 64 * 1024

def defaultHTTPBodyBytes : Nat := 4 * 1024

inductive CaptureState
  | omitted
  | empty
  | captured
  | truncated
  deriving DecidableEq

inductive OmissionReason
  | inspectionLimit
  | contentEncoding
  | contentType
  | invalidJsonEnvelope
  | noErrorFields
  | metadataBudget
  deriving DecidableEq

structure HTTPResponse where
  version : Int
  status : Int
  state : CaptureState
  omissionReason : Option OmissionReason := none
  contentType : Bytes := []
  origin : Bytes
  stage : Bytes := []
  durationMS : Int := 0
  observedBytes : Int
  captureComplete : Bool
  code : Bytes := []
  message : Bytes := []
  body : Bytes := []
  fieldsOmitted : Bool := false
  deriving DecidableEq

structure HTTPResponseInput where
  status : Int
  contentType : Bytes
  contentEncoding : Bytes
  body : Bytes
  observedBytes : Int
  complete : Bool
  maxBodyBytes : Int
  secrets : List Bytes
  redact : JsonRedact.Config

/-- The longest valid part of at most `n` bytes from the start, one byte less at a time. -/
def backOff (value : Bytes) : Nat → Bytes
  | 0 => []
  | n + 1 => if validUtf8 (value.take (n + 1)) then value.take (n + 1) else backOff value n

def clipDiagnostic (value : Bytes) (limit : Nat) : Bytes :=
  if value.length ≤ limit then value else backOff value limit

/-- A `map[string]any` of strings, integers and such maps. -/
abbrev Fields := List (Bytes × Json Int Bytes)

/-- The keys of an error envelope that are captured. -/
def errorKeys : List Bytes :=
  ["code", "errorCode", "error_code", "error", "message", "error_description", "detail", "title", "description",
    "reason", "status", "request_id", "requestId"].map utf8

def errorKey : Bytes := utf8 "error"

def maxErrorDepth : Nat := 4

/-- The loop of `safeErrorFields`, at one key; `nested` is for the inner envelope. -/
def safeErrorField (secrets : List Bytes) (members : List (Bytes × Message))
    (nested : List (Bytes × Message) → Fields × Bool) (acc : Fields × Bool) (key : Bytes) : Fields × Bool :=
  match members.lookup key with
  | none => acc
  | some raw =>
    match readString raw with
    | some value =>
      (set key (.string (clipDiagnostic (JsonRedact.redactText value secrets) defaultHTTPBodyBytes)) acc.1, acc.2)
    | none =>
      if key = errorKey then
        match readMap raw with
        | some (some inner) =>
          let fields := nested inner
          (if fields.1 = [] then acc.1 else set key (.object fields.1) acc.1, acc.2 || fields.2)
        | _ => acc
      else if key = utf8 "status" then
        match readInt raw with
        | some n => (set key (.number n) acc.1, acc.2)
        | none => acc
      else acc

/-- For how many envelopes in each other are still looked at: none beyond `maxErrorDepth`. -/
def safeErrorFields (secrets : List Bytes) : Nat → List (Bytes × Message) → Fields × Bool
  | 0, _ => ([], true)
  | levels + 1, members =>
    let r := errorKeys.foldl (safeErrorField secrets members (safeErrorFields secrets levels)) ([], false)
    (r.1, r.2 || r.1.length ≠ members.length)

def diagnosticString (fields : Fields) : List Bytes → Bytes
  | [] => []
  | key :: keys =>
    match fields.lookup key with
    | some (.string value) => if value ≠ [] then value else diagnosticString fields keys
    | _ => diagnosticString fields keys

/-- The envelope in an envelope: `safe["error"].(map[string]any)`. -/
def nestedFields (safe : Fields) : Option Fields :=
  match safe.lookup errorKey with
  | some (.object fields) => some fields
  | _ => none

/-- The code of an envelope, before it is clipped. -/
def diagnosticCode (safe : Fields) : Bytes :=
  let code := diagnosticString safe (["code", "errorCode", "error_code", "error"].map utf8)
  match nestedFields safe with
  | some nested =>
    if code = [] then diagnosticString nested (["code", "errorCode", "error_code"].map utf8) else code
  | none => code

/-- The message of an envelope, before it is clipped. -/
def diagnosticMessage (safe : Fields) : Bytes :=
  let message := diagnosticString safe
    (["message", "error_description", "detail", "title", "description", "reason"].map utf8)
  match nestedFields safe with
  | some nested =>
    if message = [] then diagnosticString nested (["message", "detail", "description", "reason"].map utf8) else message
  | none => message

/-- `json.MarshalIndent(safe, "", "  ")`. -/
def marshalFields (safe : Fields) : Bytes :=
  printIndent ((Json.object safe).map (fun n => encodeRunes (formatInt n)) quoteBytes)

/-- The number of bytes that the body may have. -/
def bodyLimit (maxBodyBytes : Int) : Nat :=
  if maxBodyBytes ≤ 0 ∨ defaultHTTPBodyBytes < maxBodyBytes then defaultHTTPBodyBytes else maxBodyBytes.toNat

/-- The end of `CaptureHTTPResponse`, once the fields to keep are known. -/
def describe (out : HTTPResponse) (maxBodyBytes : Int) (safe : Fields) (omitted : Bool) : HTTPResponse :=
  let out := { out with fieldsOmitted := omitted }
  if safe = [] then { out with omissionReason := some .noErrorFields }
  else
    let body := marshalFields safe
    let limit := bodyLimit maxBodyBytes
    { out with
      code := clipDiagnostic (diagnosticCode safe) 256
      message := clipDiagnostic (diagnosticMessage safe) 1024
      body := clipDiagnostic body limit
      state := if limit < body.length then .truncated else .captured }

/-- With the keys that are always sensitive, and with those of the configuration. -/
def redactBody (inp : HTTPResponseInput) : Except UnmarshalError Bytes :=
  match JsonRedact.parseAndRedactJSON inp.body ⟨inp.redact.pathFields, [], []⟩ with
  | .error err => .error err
  | .ok redacted =>
    if inp.redact.sensitiveKeys ≠ [] then JsonRedact.parseAndRedactJSON redacted inp.redact else .ok redacted

/-- The error envelope in a redacted body; `none`: there is none. -/
def errorEnvelope (redacted : Except UnmarshalError Bytes) : RawMap :=
  match redacted with
  | .error _ => none
  | .ok raw => ((Json.scan raw).bind readMap).join

def captureHTTPResponse (inp : HTTPResponseInput) : HTTPResponse :=
  let ct := Mime.parseMediaType inp.contentType
  let out : HTTPResponse :=
    { version := httpResponseVersion
      status := inp.status
      state := .omitted
      contentType := if ct.2 = none then clipDiagnostic ct.1 128 else []
      origin := utf8 "unknown"
      observedBytes := inp.observedBytes
      captureComplete := inp.complete }
  if inp.complete = false ∨ maxHTTPInspectBytes < inp.body.length then
    { out with omissionReason := some .inspectionLimit }
  else if inp.contentEncoding ≠ [] ∧ Strings.equalFold inp.contentEncoding (utf8 "identity") = false then
    { out with omissionReason := some .contentEncoding }
  else if inp.body = [] then { out with state := .empty }
  else if ct.1 ≠ utf8 "application/json" ∧ (utf8 "+json").isSuffixOf ct.1 = false then
    { out with omissionReason := some .contentType }
  else
    match errorEnvelope (redactBody inp) with
    | none => { out with omissionReason := some .invalidJsonEnvelope }
    | some members =>
      let fields := safeErrorFields inp.secrets (maxErrorDepth + 1) members
      describe out inp.maxBodyBytes fields.1 fields.2

end Csar.Impl.Audit
