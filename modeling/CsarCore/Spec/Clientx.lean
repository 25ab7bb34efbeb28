import CsarCore.Impl.Clientx

/-!
# Internal addresses and bounded reads

An address is internal by the networks that the classes of `CheckInternalIP` stand for.
`BoundedRead` is what a limit on the response asks of `exec`.
-/

namespace Csar.Spec.Clientx

open Impl.Clientx Csar.Net

def v6 (a b z : UInt8) : IP := [a, b, 0, 0, 0, 0, 0, 0, 0, 0, 0, 0, 0, 0, 0, z]

/-- Loopback, link-local, the metadata address, private (RFC 1918) and unique-local. -/
def internalNets : List (IP × Nat) :=
  [([127, 0, 0, 0], 8), (v6 0 0 1, 128), ([169, 254, 0, 0], 16), (v6 0xFE 0x80 0, 10), ([169, 254, 169, 254], 32),
    ([10, 0, 0, 0], 8), ([172, 16, 0, 0], 12), ([192, 168, 0, 0], 16), (v6 0xFC 0 0, 7)]

/-- An address, in either form, is in one of some networks. -/
def InNets (nets : List (IP × Nat)) (ip : IP) : Prop := ∃ n ∈ nets, SamePrefix n.2 n.1 (short ip)

instance (nets : List (IP × Nat)) (ip : IP) : Decidable (InNets nets ip) :=
  inferInstanceAs (Decidable (∃ n ∈ nets, _))

/-- The class for which an address is rejected. -/
def verdict (ip : IP) (classes : InternalIPClasses) : Option InternalIPClass :=
  match checkInternalIP ip classes with
  | .error e => some e.cls
  | .ok () => none

/-- The verdict is the same in whichever form the address is. -/
def OneVerdict : Prop := ∀ ip classes, ip.length = 4 → verdict (mapped ip) classes = verdict ip classes

/-! ## Reads under a limit -/

/-- A status is one of those allowed, or, without any, a 2xx. -/
def Succeeds (status : Int) (allow : List Int) : Prop :=
  if allow = [] then 200 ≤ status ∧ status < 300 else status ∈ allow

/-- An error is `ErrResponseTooLarge`, without a body. -/
def TooLarge (e : Error) : Prop := e.err = some .responseTooLarge ∧ e.body = none

/-- A read of `body` under the limit `m` is exact. -/
structure BoundedRead (m : Int) (allow : List Int) (status : Int) (body : Bytes)
    (r : Executed) : Prop where
  whole : r.err = none ∧ r.raw = some body ↔ body.length ≤ m ∧ Succeeds status allow
  failed : r.err ≠ none → r.raw = none
  tooLarge : (∃ e, r.err = some e ∧ TooLarge e) ↔ m < body.length
  otherwise : body.length ≤ m → ¬ Succeeds status allow →
    ∃ e, r.err = some e ∧ ¬ TooLarge e ∧ e.body = some (body.take (min body.length 4096))

end Csar.Spec.Clientx
