import CsarCore.Framework.Json.Scanner
import CsarCore.Framework.Reader

/-!
# `ReadJSON` of `httpx/response.go`

The body of a request is a stream. What `json.Unmarshal` makes of a value, with unknown
fields refused, is a parameter, and so is the text of an error of `Decode`.
-/

namespace Csar.Impl.Httpx

open Csar.Json

def maxReadJSONBytes : Nat := 1048576

structure Error where
  code : String
  message : String
  status : Nat
  deriving DecidableEq

def validation (message : String) : Error := ⟨"VALIDATION_ERROR", message, 400⟩

variable {τ ε : Type} (unmarshal : Bytes → Except String τ) (text : Stream ε → String)

/-- `Decoder.Decode`, with what is left to read. -/
def decode (body : Stream ε) : Except String (τ × Bytes) :=
  match Scanner.read body.err.isNone .start body.data with
  | none => .error (text body)
  | some rest => (unmarshal (body.data.take (body.data.length - rest.length))).map (·, rest)

/-- `Decoder.More`: false at the end and at an error, where there is no byte. -/
def more (rest : Bytes) : Bool := (rest.dropWhile isSpaceByte).head?.any fun c => c ≠ 0x5D ∧ c ≠ 0x7D

def readJSON (tooLarge : ε) (body : Stream ε) : Except Error τ := do
  let (v, rest) ← (decode unmarshal text (body.maxBytes maxReadJSONBytes tooLarge)).mapError fun e =>
    validation ("invalid JSON: " ++ e)
  if more rest then .error (validation "request body must contain a single JSON object") else .ok v

end Csar.Impl.Httpx
