import CsarCore.Framework.Hex

/-!
# UUIDs

The texts of UUIDs are those of a library.
-/

namespace Csar

/-- The dash, and hexadecimal digits in lower case. -/
def uuidBytes : Bytes := [45, 48, 49, 50, 51, 52, 53, 54, 55, 56, 57, 97, 98, 99, 100, 101, 102]

/-- `Parse` and `String` of `github.com/google/uuid`, with what is assumed of them. -/
class UuidText where
  parse : Bytes → Option (BitVec 128)
  format : BitVec 128 → Bytes
  parse_format (u : BitVec 128) : parse (format u) = some u
  length_format (u : BitVec 128) : (format u).length = 36
  bytes_format (u : BitVec 128) : ∀ b ∈ format u, b ∈ uuidBytes

end Csar
