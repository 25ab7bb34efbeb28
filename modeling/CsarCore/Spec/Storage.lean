import CsarCore.Impl.Storage

/-!
# Good keys and canonical metadata
-/

namespace Csar.Spec.Storage

open Impl.Storage

def NoControl (s : Bytes) : Prop := ∀ r ∈ runes s, Strings.isControl r = false

instance : DecidablePred NoControl := fun s => inferInstanceAs (Decidable (∀ r ∈ runes s, Strings.isControl r = false))

/-! ## Metadata -/

/-- What an entry is in the canonical map, if it is in it. -/
def canonicalEntry (e : Bytes × Bytes) : Option (Bytes × Bytes) :=
  if canonicalKey e.1 = [] then none else some (canonicalKey e.1, Strings.trimSpace e.2)

/-- The map that is returned: nil for an empty one. -/
def returned (m : SortedMap Bytes Bytes) : Metadata := if m.entries.isEmpty then none else some m

/-- Every order of the loop over the map gives one result. -/
def OrderIndependent (metadata : Metadata) : Prop :=
  ∀ es es' : List (Bytes × Bytes), es.Perm metadata.entries → es'.Perm metadata.entries →
    canonicalMetadata es = canonicalMetadata es'

/-- Keys with one canonical key have one value, but for spaces around it. -/
def Agreeing (metadata : Metadata) : Prop :=
  ∀ e ∈ metadata.entries, ∀ e' ∈ metadata.entries, canonicalKey e.1 ≠ [] → canonicalKey e.1 = canonicalKey e'.1 →
    Strings.trimSpace e.2 = Strings.trimSpace e'.2

end Csar.Spec.Storage
