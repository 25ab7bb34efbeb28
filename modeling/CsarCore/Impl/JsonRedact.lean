import CsarCore.Framework.Json.Codec
import CsarCore.Framework.Regexp
import CsarCore.Impl.Logutil

/-!
# `jsonredact/redact.go` and `jsonredact/text.go`

The functions that change a value in place give the changed value here, with the `bool`
that they return. A map has at most one member for a key, so what is done to the member
of a key is done here to the members that have it. Then the patterns of texts, each under
its name, and `RedactText`.
-/

namespace Csar.Impl.JsonRedact

section

open Csar.Json

def defaultMask : Bytes := utf8 "[REDACTED]"

structure Config where
  pathFields : List Bytes
  sensitiveKeys : List Bytes
  mask : Bytes

/-- The element of a path that stands for any key, or for an array. -/
def star : Bytes := utf8 "*"

mutual

def redactPath (mask : Bytes) : List Bytes → Value → Value × Bool
  | [], v => (v, false)
  | key :: rest, .object ms =>
    if rest = [] then
      if key ∈ keys ms then (.object (ms.map fun m => if m.1 = key then (m.1, .string mask) else m), true)
      else (.object ms, false)
    else
      let r := redactMembers mask (fun k => key = star ∨ k = key) rest ms
      (.object r.1, r.2)
  | key :: rest, .array vs =>
    let r := redactElements mask (if key = star then rest else key :: rest) vs
    (.array r.1, r.2)
  | _ :: _, v => (v, false)

/-- The loop of `RedactPath` over an array. -/
def redactElements (mask : Bytes) (path : List Bytes) : List Value → List Value × Bool
  | [] => ([], false)
  | v :: vs =>
    let r := redactPath mask path v
    let rs := redactElements mask path vs
    (r.1 :: rs.1, r.2 || rs.2)

/-- `RedactPath` on the members of a map whose keys are as asked. -/
def redactMembers (mask : Bytes) (p : Bytes → Bool) (path : List Bytes) :
    List (Bytes × Value) → List (Bytes × Value) × Bool
  | [] => ([], false)
  | (k, v) :: ms =>
    let rs := redactMembers mask p path ms
    if p k then
      let r := redactPath mask path v
      ((k, r.1) :: rs.1, r.2 || rs.2)
    else ((k, v) :: rs.1, rs.2)

end

mutual

/-- The walk of `redactKeysWalk` and `RedactSensitiveKeys`. -/
def redactWalk (p : Bytes → Bool) (mask : Bytes) : Value → Value × Bool
  | .object ms =>
    let r := redactWalkMembers p mask ms
    (.object r.1, r.2)
  | .array vs =>
    let r := redactWalkElements p mask vs
    (.array r.1, r.2)
  | v => (v, false)

def redactWalkElements (p : Bytes → Bool) (mask : Bytes) : List Value → List Value × Bool
  | [] => ([], false)
  | v :: vs =>
    let r := redactWalk p mask v
    let rs := redactWalkElements p mask vs
    (r.1 :: rs.1, r.2 || rs.2)

def redactWalkMembers (p : Bytes → Bool) (mask : Bytes) : List (Bytes × Value) → List (Bytes × Value) × Bool
  | [] => ([], false)
  | (k, v) :: ms =>
    let rs := redactWalkMembers p mask ms
    if p k then ((k, .string mask) :: rs.1, true)
    else
      let r := redactWalk p mask v
      ((k, r.1) :: rs.1, r.2 || rs.2)

end

def redactKeysWalk (data : Value) (keys : List Bytes) (mask : Bytes) : Value × Bool :=
  redactWalk (fun k => keys.contains (Strings.toLower k)) mask data

def redactKeys (data : Value) (keys : List Bytes) (mask : Bytes) : Value × Bool :=
  if keys = [] then (data, false) else redactKeysWalk data (keys.map Strings.toLower) mask

def redactSensitiveKeys (data : Value) (mask : Bytes) : Value × Bool := redactWalk Logutil.isSensitiveKey mask data

def Config.maskOrDefault (cfg : Config) : Bytes := if cfg.mask = [] then defaultMask else cfg.mask

def Config.paths (cfg : Config) : List (List Bytes) := cfg.pathFields.map fun f => Strings.split f 46

/-- What `ParseAndRedactJSON` does between decoding and encoding. -/
def redact (cfg : Config) (data : Value) : Value :=
  let data := cfg.paths.foldl (fun data path => (redactPath cfg.maskOrDefault path data).1) data
  if cfg.sensitiveKeys ≠ [] then (redactKeys data cfg.sensitiveKeys cfg.maskOrDefault).1
  else (redactSensitiveKeys data cfg.maskOrDefault).1

def parseAndRedactJSON (raw : Bytes) (cfg : Config) : Except UnmarshalError Bytes :=
  if raw = [] then .ok []
  else
    match unmarshal raw with
    | .error e => .error e
    | .ok data => .ok (marshal (redact cfg data))

end

/-! ## Texts -/

open Csar.Regexp

def alnumOr (these : String) : Regexp Rune := chars fun c => c.isAlphanum || these.toList.contains c

def anyOf (these : String) : Regexp Rune := chars fun c => these.toList.contains c

def noneOf (these : String) : Regexp Rune := chars fun c => !these.toList.contains c

def noSpaceOr (these : String) : Regexp Rune := chars fun c => !isBlank c && !these.toList.contains c

def spaces : Regexp Rune := .star (chars isBlank)

def cookieText : Regexp Rune :=
  cat [wordBoundary, .group 1 (oneOf (folded "set-cookie") [folded "cookie"]), spaces, char ':', spaces,
    plus (noneOf "\r\n")]

def urlCredentials : Regexp Rune :=
  cat [.group 1 (cat [chars Char.isAlpha, .star (alnumOr "+.-"), literal "://"]), plus (noSpaceOr "/@"), char ':',
    plus (noSpaceOr "/@"), char '@']

/-- Two words with `_`, `-` or nothing between them. -/
def joined (a b : String) : Regexp Rune := cat [folded a, opt (anyOf "_-"), folded b]

def credentialText : Regexp Rune :=
  cat [wordBoundary,
    .group 1 (oneOf (folded "authorization") [folded "cookie", folded "set-cookie", joined "api" "key",
      joined "access" "token", joined "refresh" "token", joined "client" "secret", folded "password",
      folded "secret", folded "token"]),
    opt (anyOf "\"'"), spaces, anyOf ":=", spaces,
    .group 2 (oneOf (cat [literal "\"", .star (noneOf "\""), literal "\""])
      [cat [literal "'", .star (noneOf "'"), literal "'"], plus (noSpaceOr ",;")])]

/-- `[a-z0-9._~+/=-]` with `(?i)`. -/
def bearerChar : Regexp Rune :=
  chars fun c => (Strings.foldChar c).isAlphanum || "._~+/=-".toList.contains c

def bearerText : Regexp Rune :=
  cat [wordBoundary, .group 1 (oneOf (folded "bearer") [folded "basic"]), plus (chars isBlank), plus bearerChar]

def jwtText : Regexp Rune :=
  cat [wordBoundary, literal "eyJ", plus (alnumOr "_-"), char '.', plus (alnumOr "_-"), char '.',
    plus (alnumOr "_-"), wordBoundary]

def emailText : Regexp Rune :=
  cat [plus (alnumOr ".!#$%&'*+/=?^_`\x7b|\x7d~-"), char '@', plus (alnumOr "-"),
    plus (cat [char '.', plus (alnumOr "-")])]

/-- The loop of `RedactText` over the secrets; short ones are left alone. -/
def redactSecrets (value : Bytes) (secrets : List Bytes) : Bytes :=
  secrets.foldl (fun value secret => if 8 ≤ secret.length then Strings.replaceAll value secret defaultMask else value)
    value

/-- The patterns and what replaces them, in the order of `RedactText`. -/
def textPatterns : List (Regexp Rune × List Piece) :=
  [(cookieText, [.group 1, .text (utf8 ": [REDACTED]")]),
    (urlCredentials, [.group 1, .text (utf8 "[REDACTED]@")]),
    (bearerText, [.group 1, .text (utf8 " [REDACTED]")]),
    (credentialText, [.group 1, .text (utf8 "=[REDACTED]")]),
    (jwtText, [.text defaultMask]),
    (emailText, [.text defaultMask])]

def redactText (value : Bytes) (secrets : List Bytes) : Bytes :=
  textPatterns.foldl (fun value p => replaceAllString p.1 value p.2) (redactSecrets value secrets)

end Csar.Impl.JsonRedact
