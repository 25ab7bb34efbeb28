import CsarCore.Impl.Configutil

/-!
# Texts whose references by number are kept

What the parts of a text are to become (`Kept`): references by number (`$1`, `${12}`) stay
as they are written, and every other reference stands for what the environment has of it
(`Expands`).
-/

namespace Csar.Spec.Configutil

open Impl.Configutil Csar.Shell

/-- A number: digits only. -/
def numeric (name : Bytes) : Bool := name ≠ [] && name.all isDigit

/-- `:-` and `-`, which stand before what is taken in place of a variable. -/
def colonDash : Bytes := [0x3A, 0x2D]
def dash : Bytes := [0x2D]

/-- `s` is `before`, `sep` and `behind`, and `sep` does not begin in it earlier. -/
def FirstAt (sep before behind s : Bytes) : Prop :=
  s = before ++ (sep ++ behind) ∧ ∀ i < before.length, ¬ sep <+: s.drop i

/-- What a reference stands for: `name:-fallback` for the variable, or the fallback if that is not set or
empty; `name-fallback` for it, or the fallback if it is not set; any other for the variable, or nothing. -/
inductive Expands (env : Env) : Bytes → Bytes → Prop
  | unlessEmpty {ref name fallback : Bytes} (h : FirstAt colonDash name fallback ref) :
    Expands env ref (if (env name).getD [] = [] then fallback else (env name).getD [])
  | unlessUnset {ref name fallback : Bytes} (hcolon : ¬ colonDash <:+: ref) (h : FirstAt dash name fallback ref) :
    Expands env ref ((env name).getD fallback)
  | plain {name : Bytes} (h : ¬ dash <:+: name) : Expands env name ((env name).getD [])

/-- What a part of a text is to become. Braces without a name are dropped. -/
inductive Becomes (env : Env) : Piece → Bytes → Prop
  | byte (c : UInt8) : Becomes env (.byte c) [c]
  | bad (text : Bytes) : Becomes env (.bad text) []
  | number {name : Bytes} (text : Bytes) (h : numeric name) : Becomes env (.ref name text) text
  | expanded {name value : Bytes} (text : Bytes) (h : ¬ numeric name) (hv : Expands env name value) :
    Becomes env (.ref name text) value

/-- `out` is what the parts are to become, one after the other. -/
inductive Kept (env : Env) : List Piece → Bytes → Prop
  | nil : Kept env [] []
  | cons {p : Piece} {ps : List Piece} {value out : Bytes} (h : Becomes env p value) (hs : Kept env ps out) :
    Kept env (p :: ps) (value ++ out)

/-- A reference in braces whose name begins with a digit. -/
def bracedDigit : Piece → Bool
  | .ref name text => name.head?.any isDigit && text ≠ dollar :: name
  | _ => false

/-- Every dollar begins a reference by number. -/
def numbersOnly : Piece → Bool
  | .byte c => c ≠ dollar
  | .bad _ => false
  | .ref name _ => numeric name

end Csar.Spec.Configutil
