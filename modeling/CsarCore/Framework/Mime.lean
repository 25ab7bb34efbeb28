import CsarCore.Framework.Strings

/-!
# Media types

`mime.ParseMediaType`, for the media type and the error. Of the parameters it matters
only whether they can be read and whether a name comes twice with different values.
-/

namespace Csar.Mime

inductive MediaTypeError
  | noMediaType
  | expectedSlash
  | expectedToken
  | unexpectedContent
  | invalidMediaParameter
  | duplicateParameter
  deriving DecidableEq

/-- The special characters of RFC 1521 and RFC 2045. -/
def isTSpecial (b : UInt8) : Bool := (utf8 "()<>@,;:\\\"/[]?=").contains b

def isTokenChar (b : UInt8) : Bool := 0x20 < b && b < 0x7F && !isTSpecial b

def consumeToken (v : Bytes) : Bytes × Bytes := (v.takeWhile isTokenChar, v.dropWhile isTokenChar)

/-- Behind the first quote. A backslash is one if it quotes nothing special. -/
def consumeQuoted : Bytes → Option (Bytes × Bytes)
  | [] => none
  | 0x22 :: rest => some ([], rest)
  | 0x5C :: c :: rest =>
    if isTSpecial c then (consumeQuoted rest).map fun r => (c :: r.1, r.2)
    else (consumeQuoted (c :: rest)).map fun r => (0x5C :: r.1, r.2)
  | c :: rest => if c = 0x0D ∨ c = 0x0A then none else (consumeQuoted rest).map fun r => (c :: r.1, r.2)

/-- A token or a quoted string, and the rest; `none`: neither. -/
def consumeValue : Bytes → Option (Bytes × Bytes)
  | 0x22 :: rest => consumeQuoted rest
  | v =>
    let r := consumeToken v
    if r.1 = [] then none else some r

/-- A parameter: its name, its value and the rest. -/
def consumeMediaParam (v : Bytes) : Option (Bytes × Bytes × Bytes) :=
  match Strings.trimLeft v with
  | 0x3B :: rest =>
    let r := consumeToken (Strings.trimLeft rest)
    if r.1 = [] then none
    else
      match Strings.trimLeft r.2 with
      | 0x3D :: rest => (consumeValue (Strings.trimLeft rest)).map fun x => (Strings.toLower r.1, x)
      | _ => none
  | _ => none

/-- With those read so far. A name with a `*` is kept apart from others by the code, and is different
from them here. -/
def parseParams : Nat → Bytes → List (Bytes × Bytes) → Option MediaTypeError
  | 0, _, _ => none
  | n + 1, v, params =>
    if Strings.trimLeft v = [] then none
    else
      match consumeMediaParam (Strings.trimLeft v) with
      | none => if Strings.trimSpace v = utf8 ";" then none else some .invalidMediaParameter
      | some (key, value, rest) =>
        if (params.lookup key).any fun old => old ≠ value then some .duplicateParameter
        else parseParams n rest ((key, value) :: params)

def checkMediaTypeDisposition (s : Bytes) : Option MediaTypeError :=
  let typ := consumeToken s
  if typ.1 = [] then some .noMediaType
  else
    match typ.2 with
    | [] => none
    | 0x2F :: rest =>
      let subtype := consumeToken rest
      if subtype.1 = [] then some .expectedToken
      else if subtype.2 ≠ [] then some .unexpectedContent
      else none
    | _ => some .expectedSlash

/-- A media type with parameters that cannot be read is returned all the same. -/
def parseMediaType (v : Bytes) : Bytes × Option MediaTypeError :=
  let base := v.takeWhile fun c => c ≠ 0x3B
  let mediatype := Strings.trimSpace (Strings.toLower base)
  match checkMediaTypeDisposition mediatype with
  | some err => ([], some err)
  | none =>
    let params := v.drop base.length
    match parseParams params.length params [] with
    | none => (mediatype, none)
    | some .invalidMediaParameter => (mediatype, some .invalidMediaParameter)
    | some err => ([], some err)

/-! ## Media types are ASCII -/

theorem isTokenChar_ascii {b : UInt8} (h : isTokenChar b) : b.toNat < 128 := by
  simp only [isTokenChar, Bool.and_eq_true, decide_eq_true_eq] at h
  exact Nat.lt_trans h.1.2 (by decide)

theorem token_ascii (v : Bytes) : ∀ b ∈ (consumeToken v).1, b.toNat < 128 :=
  fun _ hb => isTokenChar_ascii (List.mem_takeWhile_imp hb)

theorem checkMediaTypeDisposition_ascii {s : Bytes} (h : checkMediaTypeDisposition s = none) : ∀ b ∈ s, b.toNat < 128 := by
  have hsplit : ∀ v, v = (consumeToken v).1 ++ (consumeToken v).2 := fun v => (List.takeWhile_append_dropWhile ..).symm
  unfold checkMediaTypeDisposition at h
  dsimp only at h
  split at h
  · cases h
  · rw [hsplit s]
    refine List.forall_mem_append.mpr ⟨token_ascii s, ?_⟩
    split at h
    · rename_i hrest
      rw [hrest]
      exact fun b hb => absurd hb List.not_mem_nil
    · rename_i rest hrest
      rw [hrest]
      split at h
      · cases h
      · split at h
        · cases h
        · rename_i hend
          rw [hsplit rest, not_ne_iff.mp hend, List.append_nil]
          exact List.forall_mem_cons.mpr ⟨by decide, token_ascii rest⟩
    · cases h

theorem parseMediaType_ascii {v : Bytes} (h : (parseMediaType v).2 = none) : ∀ b ∈ (parseMediaType v).1, b.toNat < 128 := by
  unfold parseMediaType at h ⊢
  dsimp only at h ⊢
  split at h
  · cases h
  · rename_i hcheck
    split at h
    · exact checkMediaTypeDisposition_ascii hcheck
    · cases h
    · cases h

end Csar.Mime
