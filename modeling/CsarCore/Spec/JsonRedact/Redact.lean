import CsarCore.Impl.JsonRedact

/-!
# Redaction of JSON

Nothing that stands at a redacted position shows, and everything else stays. A position
is redacted if a path addresses it or what it is in, or if it is under a sensitive key.
`hide` does in one pass what the code does in several.
-/

namespace Csar.Spec.JsonRedact

open Csar.Json Impl.JsonRedact Csar.Impl

variable {ν σ : Type}

/-- One of the configured keys, but for case, or without such keys one that `logutil` takes for sensitive. -/
def sensitive (cfg : Config) (k : Bytes) : Bool :=
  if cfg.sensitiveKeys = [] then Logutil.isSensitiveKey k
  else cfg.sensitiveKeys.any fun key => Strings.toLower key = Strings.toLower k

/-! ## Documents that differ under sensitive keys only -/

/-- A value without what is stored under some keys. -/
def blank (s : σ → Bool) : Json ν σ → Json ν σ :=
  fold ⟨.null, .bool, .number, .string, .array, fun ms => .object (ms.map fun m => (m.1, if s m.1 then .null else m.2))⟩

/-- Two documents that differ only inside values under keys for which `s`. -/
def Alike (s : Bytes → Bool) (raw raw' : Bytes) : Prop :=
  ∃ d d', parse raw = some d ∧ parse raw' = some d' ∧ blank (fun k => s (goString k)) d = blank (fun k => s (goString k)) d'

/-! ## Redaction in one pass -/

def behindKey (k : Bytes) : List Bytes → Option (List Bytes)
  | key :: rest => if rest ≠ [] ∧ (key = star ∨ key = k) then some rest else none
  | [] => none

def behindElement : List Bytes → List Bytes
  | key :: rest => if key = star then rest else key :: rest
  | [] => []

/-- A member is replaced: its key is sensitive or a path ends there. -/
def Masked (s : Bytes → Bool) (paths : List (List Bytes)) (k : Bytes) : Prop := s k ∨ [k] ∈ paths

instance (s : Bytes → Bool) (paths : List (List Bytes)) (k : Bytes) : Decidable (Masked s paths k) :=
  inferInstanceAs (Decidable (_ ∨ _))

/-- Puts a mask at every position that is redacted. -/
def hide (mask : Bytes) (s : Bytes → Bool) : Value → List (List Bytes) → Value :=
  fold ⟨fun _ => .null, fun b _ => .bool b, fun n _ => .number n, fun t _ => .string t,
    fun vs paths => .array (vs.map fun v => v (paths.map behindElement)),
    fun ms paths => .object (ms.map fun m =>
      (m.1, if Masked s paths m.1 then .string mask else m.2 (paths.filterMap (behindKey m.1))))⟩

/-! ## Positions -/

/-- The last element of a path is the last key, one before it is a key or, if it is `*`, any key or
index; other indices are passed over. -/
inductive Addresses : List Bytes → List (Step Bytes) → Prop
  | last {k : Bytes} : Addresses [k] [.key k]
  | key {k : Bytes} {path : List Bytes} {p : List (Step Bytes)} : Addresses path p → Addresses (k :: path) (.key k :: p)
  | anyKey {k : Bytes} {path : List Bytes} {p : List (Step Bytes)} :
    Addresses path p → Addresses (star :: path) (.key k :: p)
  | element {k : Bytes} {path : List Bytes} {i : Nat} {p : List (Step Bytes)} :
    k ≠ star → Addresses (k :: path) p → Addresses (k :: path) (.index i :: p)
  | anyElement {path : List Bytes} {i : Nat} {p : List (Step Bytes)} :
    Addresses path p → Addresses (star :: path) (.index i :: p)

/-- A path addresses a position or one it is in, or it is under a sensitive key. -/
def Redacted (s : Bytes → Bool) (paths : List (List Bytes)) (p : List (Step Bytes)) : Prop :=
  (∃ path ∈ paths, ∃ q, q <+: p ∧ Addresses path q) ∨ ∃ k, .key k ∈ p ∧ s k

/-! ## One path -/

/-- An element of the path is the key that is passed, `*` is any key or one index; other indices are
passed over. -/
def Matches : List Bytes → List (Step Bytes) → Prop
  | [], [] => True
  | key :: rest, .key k :: p => (key = star ∨ key = k) ∧ Matches rest p
  | key :: rest, .index _ :: p => Matches (behindElement (key :: rest)) p
  | _, _ => False

def Addressed (path : List Bytes) (v : Value) (p : List (Step Bytes)) : Prop := Matches path p ∧ (v.get? p).isSome

/-- A value without what is in it. -/
def root : Value → Value
  | .array vs => .array (vs.map fun _ => .null)
  | .object ms => .object (ms.map fun m => (m.1, .null))
  | v => v

/-- The mask at the positions that the path addresses, no other change, and a report of whether there are
any. -/
structure RedactsExactly (mask : Bytes) (path : List Bytes) (v : Value) : Prop where
  masked : ∀ p, Addressed path v p → (redactPath mask path v).1.get? p = some (.string mask)
  kept : ∀ p, (∀ q, q <+: p → ¬ Addressed path v q) →
    ((redactPath mask path v).1.get? p).map root = (v.get? p).map root
  reported : (redactPath mask path v).2 = true ↔ ∃ p, Addressed path v p

/-- The last step of a position is the last key of the path. -/
def EndsNamed (path : List Bytes) (p : List (Step Bytes)) : Prop := p.getLast? = path.getLast?.map .key

/-- Addressed positions end with the path's last element as a key, but for some that hold the mask
already next to one that does. -/
structure OnlyNamed (mask : Bytes) (path : List Bytes) (v : Value) : Prop where
  named : ∀ p, Addressed path v p → EndsNamed path p ∨ v.get? p = some (.string mask)
  some_named : ∀ p, Addressed path v p → ∃ q, Addressed path v q ∧ EndsNamed path q

/-! ## Survival -/

def goStep : Step (List CodePoint) → Step Bytes
  | .key k => .key (goString k)
  | .index i => .index i

/-- Two documents are the same at their roots: numbers of one value, arrays of one length, objects with
the same keys. -/
def SameNode : Doc → Doc → Prop
  | .null, .null => True
  | .bool b, .bool b' => b = b'
  | .number x, .number x' => x.value = x'.value
  | .string t, .string t' => t = t'
  | .array vs, .array vs' => vs.length = vs'.length
  | .object ms, .object ms' => (keys ms).Perm (keys ms')
  | _, _ => False

def Frame (s : Bytes → Bool) (paths : List (List Bytes)) (d d' : Doc) : Prop :=
  ∀ p, ¬ Redacted s paths (p.map goStep) → Option.Rel SameNode (d.get? p) (d'.get? p)

/-- No half of a surrogate pair is alone. -/
def Scalar (t : List CodePoint) : Prop := ∀ c ∈ t, ∃ a, c = .scalar a

/-- A root that survives in a Go value: a number is written like its nearest binary64 number, strings and
keys are text. -/
def Lasting : Doc → Prop
  | .number x => (toFloat x).shortest.value = x.value
  | .string t => Scalar t
  | .object ms => ∀ k ∈ keys ms, Scalar k
  | _ => True

/-- What is not redacted survives in a Go value. -/
def Survives (s : Bytes → Bool) (paths : List (List Bytes)) (d : Doc) : Prop :=
  ∀ p j, ¬ Redacted s paths (p.map goStep) → d.get? p = some j → Lasting j

end Csar.Spec.JsonRedact
