import CsarCore.Framework.Shell
import CsarCore.Framework.Strconv
import Mathlib.Logic.Function.Basic

/-!
# Configuration values (`configutil`)

`SafeExpandEnv`, its use on the nodes of a YAML document, and `parseDuration`. The nodes
are behind pointers, and an alias has the pointer of the node with its anchor. What
`yaml.Node.Decode` and `time.ParseDuration` do are parameters.
-/

namespace Csar.Impl.Configutil

abbrev Env := Bytes → Option Bytes

def Env.getenv (env : Env) (name : Bytes) : Bytes := (env name).getD []

/-- What is before and behind the first place of `sep`. -/
def cutAt (sep : Bytes) : Bytes → Option (Bytes × Bytes)
  | [] => if sep = [] then some ([], []) else none
  | c :: cs =>
    if sep.isPrefixOf (c :: cs) then some ([], (c :: cs).drop sep.length)
    else (cutAt sep cs).map fun (before, behind) => (c :: before, behind)

/-- What stands for a reference. -/
def mapping (env : Env) (key : Bytes) : Bytes :=
  match key with
  | [] => []
  | c :: _ =>
    if Shell.isDigit c then Shell.dollar :: key
    else
      match cutAt [0x3A, 0x2D] key with
      | some (name, fallback) => if env.getenv name ≠ [] then env.getenv name else fallback
      | none =>
        match cutAt [0x2D] key with
        | some (name, fallback) => if (env name).isSome then env.getenv name else fallback
        | none => env.getenv key

def safeExpandEnv (env : Env) (s : Bytes) : Bytes := Shell.expand s (mapping env)

theorem safeExpandEnv_nil (env : Env) : safeExpandEnv env [] = [] := rfl

/-! ## `yaml_env.go` -/

section

inductive Kind
  | documentNode
  | sequenceNode
  | mappingNode
  | scalarNode
  | aliasNode
  deriving DecidableEq

/-- `yaml.Node`, as far as it is looked at. -/
@[ext] structure Node (ι : Type) where
  kind : Kind
  tag : String
  value : Bytes
  content : List ι
  aliasOf : Option ι

/-- The nodes behind pointers. Behind nil there is none. -/
abbrev Heap (ι : Type) := ι → Option (Node ι)

def scalarYAMLTag (value : Bytes) : String :=
  if value = utf8 "true" ∨ value = utf8 "false" then "!!bool"
  else if value = utf8 "null" ∨ value = utf8 "~" then "!!null"
  else "!!str"

section Expand

variable {ι : Type} (env : Env)

/-- The case of a scalar. -/
def expandScalar (node : Node ι) : Node ι :=
  if node.value = [] then node
  else
    let expanded := safeExpandEnv env node.value
    if expanded ≠ node.value then { node with value := expanded, tag := scalarYAMLTag expanded } else node

def mappingValues : List ι → List ι
  | _ :: v :: rest => v :: mappingValues rest
  | _ => []

/-- With calls at most `n` deep; `none` if these do not suffice. -/
def expandEnvInYAMLNode [DecidableEq ι] : Nat → Heap ι → ι → Option (Heap ι)
  | 0, _, _ => none
  | n + 1, h, p =>
    match h p with
    | none => some h
    | some node =>
      match node.kind with
      | .documentNode => node.content.foldlM (expandEnvInYAMLNode n) h
      | .sequenceNode => node.content.foldlM (expandEnvInYAMLNode n) h
      | .mappingNode => (mappingValues node.content).foldlM (expandEnvInYAMLNode n) h
      | .scalarNode => some (Function.update h p (some (expandScalar env node)))
      | .aliasNode =>
        match node.aliasOf with
        | none => some h
        | some q => expandEnvInYAMLNode n h q

/-- `UnmarshalYAMLWithEnv`, from the nodes that `yaml.Unmarshal` gives. -/
def unmarshalYAMLWithEnv [DecidableEq ι] {ρ : Type} (decode : Heap ι → ι → Except String ρ) (n : Nat) (h : Heap ι)
    (root : ι) : Option (Except String ρ) :=
  (expandEnvInYAMLNode env n h root).map fun h' => (decode h' root).mapError fun e => "decoding config: " ++ e

end Expand

end

/-! ## `duration.go` -/

/-- `fracDayPattern.MatchString`: somewhere there is `\d*\.\d+d`. -/
def hasFractionalDays : List Char → Bool
  | [] => false
  | c :: s =>
    (c = '.' && s.takeWhile Char.isDigit ≠ [] && (s.dropWhile Char.isDigit).head? = some 'd') || hasFractionalDays s

/-- `fractional days are not supported in %q; …`, or an error of `time.ParseDuration`. -/
inductive DurationError
  | fractionalDays (s : List Char)
  | parse (text : String)
  deriving DecidableEq

/-- Where `Atoi` has an error, of the largest `int`; the product wraps around. -/
def hoursOf (days : List Char) : Int := wrap64 ((Strconv.atoi (String.ofList days)).getD maxInt64 * 24)

/-- `dayPattern.ReplaceAllStringFunc`, over at most `n` characters: as many digits as there are, and a `d`. -/
def expandDays : Nat → List Char → List Char
  | 0, s => s
  | _ + 1, [] => []
  | n + 1, c :: s =>
    let days := (c :: s).takeWhile Char.isDigit
    let rest := (c :: s).dropWhile Char.isDigit
    if days ≠ [] ∧ rest.head? = some 'd' then Strconv.itoa (hoursOf days) ++ 'h' :: expandDays n rest.tail
    else c :: expandDays n s

def parseDuration (parse : List Char → Except String Int) (s : List Char) : Except DurationError Int :=
  if hasFractionalDays s then .error (.fractionalDays s) else (parse (expandDays s.length s)).mapError .parse

end Csar.Impl.Configutil
