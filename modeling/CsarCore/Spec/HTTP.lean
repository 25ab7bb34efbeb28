import CsarCore.Framework.HttpResponse
import CsarCore.Impl.HTTPServer.Server
import CsarCore.Impl.Httpx.Response

/-!
# Servers, handlers and bodies

`served` are the listeners that a server's history has seen served; `Over` says that a
`Shutdown` was issued, or that `serve` has returned or could not bind. `StatusFirst` are
the handlers whose status is easy to see. A body is to be one JSON value with spaces
around it (`Single`), and not longer than 1 MiB; `Overlooked` are the bodies that have
more, which `More` does not see.
-/

namespace Csar.Spec.HTTPServer

open Impl.HTTPServer

variable {ν κ : Type}

abbrev ServerHistory (ν κ : Type) := List (ServerAct ν κ × ServerEvent ν)

/-- The listeners with which `http.Server` was called. -/
def served : ServerHistory ν κ → List ν
  | [] => []
  | (_, .served ln) :: tr => served tr ++ [ln]
  | _ :: tr => served tr

def Ends : ServerEvent ν → Prop
  | .shutdown => True
  | .returned => True
  | .failed => True
  | _ => False

def Over (tr : ServerHistory ν κ) : Prop := ∃ e ∈ tr, Ends e.2

/-- The one listener that was served has been asked. -/
def Accepting (tr : ServerHistory ν κ) : Prop := ∃ ln, served tr = [ln] ∧ ∃ e ∈ tr, e.2 = .accept ln

end Csar.Spec.HTTPServer

namespace Csar.Spec.HTTPMiddleware

open Http

/-- The first call but flushes writes no 1xx and, after a flush, no status but 200; and if it reads from
an empty source, the response has no status but 200. -/
structure StatusFirst (handler : List ResponseCall) : Prop where
  written : ∀ flushes code rest, handler = flushes ++ .writeHeader code :: rest → (∀ c ∈ flushes, c = .flush) →
    code.informational = false ∧ (flushes = [] ∨ code = .ok)
  read : ∀ silent code rest, handler = .readFrom [] :: (silent ++ .writeHeader code :: rest) →
    (∀ c ∈ silent, c.Silent) → code.informational = false → code = .ok

end Csar.Spec.HTTPMiddleware

namespace Csar.Spec.Httpx

open Impl.Httpx Csar.Json

/-- A text of JSON's white space. -/
def Spaces (s : Bytes) : Prop := ∀ c ∈ s, isSpaceByte c = true

/-- A JSON value, without spaces around it. -/
def IsValue (v : Bytes) : Prop :=
  Scanner.read true .start v = some [] ∧ ∀ c ∈ v.head?, isSpaceByte c = false

/-- One JSON value with spaces around it. -/
def Single (data : Bytes) : Prop :=
  ∃ ws v ws', data = ws ++ (v ++ ws') ∧ Spaces ws ∧ IsValue v ∧ Spaces ws'

/-- A value that ends with its last byte, as objects and arrays do, and not before a byte that does not
continue it. -/
def IsClosed (v : Bytes) : Prop := Scanner.read false .start v = some []

/-- The first MiB of a body is a JSON value that decodes, spaces, and then a closing bracket; or nothing
more, though the body goes on behind it, and the end of the value shows there. -/
def Overlooked {τ : Type} (unmarshal : Bytes → Except String τ) (data : Bytes) : Prop :=
  ∃ ws v ws' tail x, data.take maxReadJSONBytes = ws ++ (v ++ (ws' ++ tail)) ∧
    Spaces ws ∧ IsValue v ∧ Spaces ws' ∧ unmarshal (ws ++ v) = .ok x ∧
    ((∃ c ∈ tail.head?, c ∈ [0x5D, 0x7D]) ∨
      tail = [] ∧ maxReadJSONBytes < data.length ∧ (ws' ≠ [] ∨ IsClosed v))

end Csar.Spec.Httpx
