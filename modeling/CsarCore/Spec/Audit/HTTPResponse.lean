import CsarCore.Impl.Audit.HTTPResponse
import CsarCore.Impl.Audit.Metadata

/-!
# What a captured response shows, and its metadata

Of an error envelope only the members under `errorKeys` are to show, and in an envelope
in it again only those, down to `maxErrorDepth`. `fullBody` is what is to show if there
is room enough, and `CaptureBudget` how a response keeps to the room there is.
`EncodeHTTPMetadata` is to return JSON within the limit of an event's metadata, with what
is basic about the request and the response in it (`Basics`), and to leave the memory as
it was. Of bytes that are no valid UTF-8, JSON has U+FFFD.
-/

namespace Csar.Spec.Audit

section

open Csar.Json Impl.Audit

variable {ν : Type}

/-- Two values show the same, to a depth of envelopes: they are equal, or objects with the same under
each of `errorKeys`, where what is under `errorKey` has to show the same only. -/
def ShowsSame : Nat → Json ν Bytes → Json ν Bytes → Prop
  | 0, .object _, .object _ => True
  | levels + 1, .object ms, .object ms' =>
    (∀ k ∈ errorKeys, k ≠ errorKey → ms.lookup k = ms'.lookup k) ∧
      Option.Rel (ShowsSame levels) (ms.lookup errorKey) (ms'.lookup errorKey)
  | _, v, v' => v = v'

/-- Two bodies are objects that show the same. -/
def BodiesAgree (body body' : Bytes) : Prop :=
  ∃ ms ms', unmarshal body = .ok (.object ms) ∧ unmarshal body' = .ok (.object ms') ∧
    ShowsSame (maxErrorDepth + 1) (.object ms) (.object ms')

/-- Two responses say the same of the body, except whether fields were left out. -/
structure SameDiagnostics (out out' : HTTPResponse) : Prop where
  state : out.state = out'.state
  omissionReason : out.omissionReason = out'.omissionReason
  code : out.code = out'.code
  message : out.message = out'.message
  body : out.body = out'.body

/-! ## Budgets -/

/-- What is to show of a member, a string as it is after `text`; `nested` is for the envelope in an
envelope. -/
def shown (text : Bytes → Bytes) (nested : List (Bytes × Message) → Fields) (key : Bytes) (raw : Message) :
    Option (Json Int Bytes) :=
  match readString raw with
  | some value => some (.string (text value))
  | none =>
    if key = errorKey then
      match readMap raw with
      | some (some inner) => if nested inner = [] then none else some (.object (nested inner))
      | _ => none
    else if key = utf8 "status" then (readInt raw).map .number
    else none

/-- What is to show of an envelope, to a depth of envelopes. -/
def envelopeFields (secrets : List Bytes) : Nat → List (Bytes × Message) → Fields
  | 0, _ => []
  | levels + 1, members =>
    errorKeys.foldl (fun acc key =>
      match (members.lookup key).bind (shown (Impl.JsonRedact.redactText · secrets) (envelopeFields secrets levels) key) with
      | some v => set key v acc
      | none => acc) []

/-- All that is to show of a body, as indented JSON; `none`: no error envelope. -/
def fullBody (inp : HTTPResponseInput) : Option Bytes :=
  (errorEnvelope (redactBody inp)).map fun members =>
    marshalFields (envelopeFields inp.secrets (maxErrorDepth + 1) members)

def captureLimit (maxBodyBytes : Int) : Nat :=
  if 1 ≤ maxBodyBytes ∧ maxBodyBytes ≤ 4096 then maxBodyBytes.toNat else 4096

def texts (out : HTTPResponse) : List Bytes :=
  [out.contentType, out.origin, out.stage, out.code, out.message, out.body]

structure CaptureBudget (inp : HTTPResponseInput) (out : HTTPResponse) : Prop where
  valid : ∀ s ∈ texts out, validUtf8 s
  contentType : out.contentType.length ≤ 128
  code : out.code.length ≤ 256
  message : out.message.length ≤ 1024
  body : out.body.length ≤ captureLimit inp.maxBodyBytes
  captured : out.state = .captured → fullBody inp = some out.body
  truncated : out.state = .truncated → ∃ full, fullBody inp = some full ∧ out.body <+: full ∧
    captureLimit inp.maxBodyBytes < out.body.length + 4

end

/-! ## Metadata -/

open Impl.Audit
open Csar.Json (Raw goText)

def Named (ms : List (Bytes × Raw)) (name : String) (r : Raw) : Prop :=
  ∃ k, goText k = utf8 name ∧ (k, r) ∈ ms

def Member (ms : List (Bytes × Raw)) (name : String) (r : Raw) : Prop := ∀ r', Named ms name r' ↔ r' = r

def IntMember (ms : List (Bytes × Raw)) (name : String) (n : Int) : Prop :=
  Member ms name (.number (encodeRunes (Json.formatInt n)))

/-- A string is under a name, as `json.Unmarshal` reads it. -/
def StringMember (ms : List (Bytes × Raw)) (name : String) (s : Bytes) : Prop :=
  ∃ q, Member ms name (.string q) ∧ goText q = s

def OptionalMember (ms : List (Bytes × Raw)) (name : String) (s : Bytes) : Prop :=
  (s = [] ∧ ∀ r, ¬ Named ms name r) ∨ StringMember ms name s

/-- The basics of a response are in its JSON. -/
structure ResponseBasics (response : HTTPResponse) (ms : List (Bytes × Raw)) : Prop where
  status : IntMember ms "status" response.status
  origin : StringMember ms "origin" (sanitize response.origin)
  contentType : OptionalMember ms "content_type" (sanitize response.contentType)
  code : OptionalMember ms "code" (sanitize response.code)
  message : OptionalMember ms "message" (sanitize response.message)

/-- The basics of a request and its response are in the metadata. -/
structure Basics (status : Int) (mode : Bytes) (response : HTTPResponse) (ms : List (Bytes × Raw)) : Prop where
  status : IntMember ms "http_status" status
  mode : StringMember ms "audit_mode" (sanitize mode)
  response : ∃ rs, Member ms "http_response" (.object rs) ∧ ResponseBasics response rs

def fullEncoding (mem : Memory) (m : MetaMap) (response : Nat) : Option Bytes :=
  marshalMap mem.responses (m.set (utf8 "http_response") (.response response))

/-- What is done with a base map `m` and a response `out`; `r` is the memory after it, and what is returned. -/
structure MetadataContract (mem : Memory) (m : MetaMap) (response : Nat) (out : HTTPResponse) (status : Int) (mode : Bytes)
    (r : Memory × Option Bytes) : Prop where
  encoded : ∃ raw ms, r.2 = some raw ∧ raw.length ≤ maxMetadataBytes ∧ Json.scanRaw raw = some (.object ms) ∧
    Basics status mode out ms
  full : ∀ raw, fullEncoding mem m response = some raw → raw.length ≤ maxMetadataBytes → r.2 = some raw
  maps : ∀ ref < mem.maps.length, r.1.maps[ref]? = mem.maps[ref]?
  responses : ∀ ref < mem.responses.length, r.1.responses[ref]? = mem.responses[ref]?

end Csar.Spec.Audit
