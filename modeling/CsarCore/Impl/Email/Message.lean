import CsarCore.Framework.Mail

/-!
# `email/message.go`, `email/errors.go` and `emailnorm/emailnorm.go`

The checks of a message, and the text that is sent for it; writes to a `bytes.Buffer`
have no errors. The text of an error of `mail.ParseAddress` is a parameter of `normalize`.
-/

namespace Csar.Impl.Email

inductive Outcome
  | retryable
  | rejected
  | unknown
  deriving DecidableEq

structure SendError where
  stage : String
  outcome : Outcome
  code : Nat

def failure (stage : String) (outcome : Outcome) (code : Nat) : SendError := ⟨stage, outcome, code⟩

structure Message where
  fromAddr : Bytes
  toAddr : Bytes
  subject : Bytes
  textBody : Bytes
  htmlBody : Bytes
  id : Bytes

structure Receipt where
  provider : String
  messageID : Bytes

structure Address where
  name : Bytes
  address : Bytes

/-- `mail.ParseAddress`, `Address.String`, `uuid.NewString`, the encodings of a subject and of a body,
the date, and the boundary of the parts. -/
structure Lib where
  parseAddress : Bytes → Option Address
  addressText : Address → Bytes
  newUUID : Bytes
  encodeSubject : Bytes → Bytes
  quotedPrintable : Bytes → Bytes
  date : Bytes
  boundary : Bytes

/-- `strings.ContainsAny`, for a set of ASCII characters. -/
def containsAny (s set : Bytes) : Bool := s.any fun c => c ∈ set

def validAddress (a : Address) : Bool :=
  a.address.length ≤ 254 && a.name.length ≤ 128 && a.address.count 0x40 = 1 && !containsAny a.address [0x0D, 0x0A, 0x00]

/-- `ascii`: no rune outside of the visible characters. -/
def ascii (s : Bytes) : Bool := (text s).all fun r => 33 ≤ r.toNat ∧ r.toNat ≤ 126

def validID (id : Bytes) : Bool :=
  if id.length < 5 ∨ id.length > 254 ∨ id.head? ≠ some 0x3C ∨ id.getLast? ≠ some 0x3E then false
  else
    let inner := id.tail.dropLast
    inner.count 0x40 = 1 && !containsAny inner [0x3C, 0x3E, 0x20, 0x09, 0x0D, 0x0A] && ascii inner

section Prepare

variable (lib : Lib)

def checkAddress (stage : String) (s : Bytes) : Except SendError Address :=
  match lib.parseAddress s with
  | none => .error (failure stage .rejected 0)
  | some a => if validAddress a then .ok a else .error (failure stage .rejected 0)

/-- `prepare`: the message with what is filled in, and its addresses. -/
def prepare : Option Message → Except SendError (Message × Address × Address)
  | none => .error (failure "validate" .rejected 0)
  | some m =>
    if containsAny (m.fromAddr ++ m.toAddr ++ m.subject ++ m.id) [0x0D, 0x0A, 0x00] ∨ m.subject.length > 256 ∨
        Strings.trimSpace m.subject = [] ∨ m.textBody.length + m.htmlBody.length > 1024 * 1024 ∨
        (m.textBody = [] ∧ m.htmlBody = []) then
      .error (failure "validate" .rejected 0)
    else do
      let sender ← checkAddress lib "sender" m.fromAddr
      let recipient ← checkAddress lib "recipient" m.toAddr
      let id :=
        if m.id = [] then
          utf8 "<" ++ lib.newUUID ++ utf8 "@" ++ (Strings.splitN sender.address 0x40 2).getD 1 [] ++ utf8 ">"
        else m.id
      if validID id then
        let m := { m with fromAddr := lib.addressText sender, toAddr := lib.addressText recipient, id := id }
        .ok (m, sender, recipient)
      else .error (failure "message_id" .rejected 0)

/-- A part of a message, the first one or a later one. -/
def part (first : Bool) (kind : String) (body : Bytes) : Bytes :=
  (if first then [] else utf8 "\r\n") ++ utf8 "--" ++ lib.boundary ++ utf8 "\r\n" ++
    utf8 "Content-Transfer-Encoding: quoted-printable\r\n" ++ utf8 "Content-Type: " ++ utf8 kind ++
    utf8 "; charset=UTF-8\r\n\r\n" ++ lib.quotedPrintable body

def mimeMessage (m : Message) : Bytes :=
  utf8 "From: " ++ m.fromAddr ++ utf8 "\r\nTo: " ++ m.toAddr ++ utf8 "\r\nSubject: " ++ lib.encodeSubject m.subject ++
    utf8 "\r\nDate: " ++ lib.date ++ utf8 "\r\nMessage-ID: " ++ m.id ++ utf8 "\r\nMIME-Version: 1.0\r\n" ++
    utf8 "Content-Type: multipart/alternative; boundary=\"" ++ lib.boundary ++ utf8 "\"\r\n\r\n" ++
    (if m.textBody = [] then [] else part lib true "text/plain" m.textBody) ++
    (if m.htmlBody = [] then [] else part lib (m.textBody = []) "text/html" m.htmlBody) ++
    utf8 "\r\n--" ++ lib.boundary ++ utf8 "--\r\n"

end Prepare

end Csar.Impl.Email

namespace Csar.Impl.Emailnorm

def normalize (refusal : Bytes → String) (value : Bytes) : Except String Bytes :=
  match Mail.parseSingleAddress (runes (Strings.trimSpace value)) with
  | none => .error (refusal (Strings.trimSpace value))
  | some addr =>
    let email := Strings.toLower (Strings.trimSpace (encodeRunes (Mail.addrSpec addr)))
    if email = [] ∨ 0x40 ∉ email then .error "invalid email" else .ok email

end Csar.Impl.Emailnorm
