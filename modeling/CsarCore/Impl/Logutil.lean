import CsarCore.Framework.Strings

/-!
# `logutil/redact.go`

The keys that are sensitive, and `RedactingHandler`, with what it uses of `log/slog`. A
handler is known by the calls that made it from the one it started from.
-/

namespace Csar.Impl.Logutil

def sensitiveKeys : List Bytes :=
  ["authorization", "bearer", "token", "password", "key", "secret", "api_key", "api-key", "iam_token",
    "oauth_token", "cookie", "set-cookie", "x-api-key", "x-csar-authorization"].map utf8

/-- What no key that is not sensitive contains. -/
def sensitiveSubstrings : List Bytes :=
  ["token", "secret", "password", "bearer", "authorization", "api_key", "api-key"].map utf8

def isSensitiveKey (key : Bytes) : Bool :=
  let lower := Strings.toLower key
  sensitiveKeys.contains lower || sensitiveSubstrings.any fun substr => Strings.contains lower substr

variable {ν : Type}

/-- A `slog.Value` that is no group: a string, or a value of any other kind. -/
inductive Value (ν : Type)
  | string (s : Bytes)
  | other (v : ν)
  deriving DecidableEq

inductive Attr (ν : Type)
  | value (key : Bytes) (v : Value ν)
  | group (key : Bytes) (attrs : List (Attr ν))

namespace Attr

def key : Attr ν → Bytes
  | .value key _ => key
  | .group key _ => key

def isGroup : Attr ν → Bool
  | .value _ _ => false
  | .group _ _ => true

def isEmptyGroup : Attr ν → Bool
  | .group _ [] => true
  | _ => false

/-- Groups are made by `slog.GroupValue`, which leaves empty groups out. -/
inductive Built : Attr ν → Prop
  | value (key : Bytes) (v : Value ν) : Built (.value key v)
  | group (key : Bytes) (attrs : List (Attr ν)) (hattrs : ∀ a ∈ attrs, Built a)
      (hne : ∀ a ∈ attrs, a.isEmptyGroup = false) : Built (.group key attrs)

end Attr

def slogGroup (key : Bytes) (attrs : List (Attr ν)) : Attr ν :=
  .group key (attrs.filter fun a => !a.isEmptyGroup)

def redactedValue : Bytes := utf8 "[REDACTED]"

mutual

def redactAttr : Attr ν → Attr ν
  | .group key attrs => slogGroup key (redactAttrs attrs)
  | .value key v => if isSensitiveKey key then .value key (.string redactedValue) else .value key v

/-- The loops over attributes. -/
def redactAttrs : List (Attr ν) → List (Attr ν)
  | [] => []
  | a :: attrs => redactAttr a :: redactAttrs attrs

end

theorem redactAttrs_eq_map (attrs : List (Attr ν)) : redactAttrs attrs = attrs.map redactAttr := by
  induction attrs with
  | nil => rfl
  | cons a attrs ih => rw [redactAttrs, ih, List.map_cons]

theorem built_slogGroup (key : Bytes) {attrs : List (Attr ν)} (h : ∀ a ∈ attrs, a.Built) :
    (slogGroup key attrs).Built := by
  refine .group key _ (fun a ha => h a (List.mem_filter.mp ha).1) fun a ha => ?_
  simpa using (List.mem_filter.mp ha).2

theorem built_redactAttr {a : Attr ν} (h : a.Built) : (redactAttr a).Built := by
  induction h with
  | value key v =>
    rw [redactAttr]
    split
    · exact .value key _
    · exact .value key v
  | group key attrs _ _ ih =>
    rw [redactAttr, redactAttrs_eq_map]
    exact built_slogGroup key (List.forall_mem_map.mpr ih)

/-- Attributes are added by `AddAttrs` and `Add`, which leave empty groups out. -/
@[ext] structure Record (ν : Type) where
  time : Int
  level : Int
  message : Bytes
  pc : Nat
  attrs : List (Attr ν)
  built : ∀ a ∈ attrs, a.Built ∧ a.isEmptyGroup = false

def newRecord (time level : Int) (message : Bytes) (pc : Nat) : Record ν where
  time := time
  level := level
  message := message
  pc := pc
  attrs := []
  built := fun _ h => absurd h List.not_mem_nil

def Record.addAttrs (r : Record ν) (attrs : List (Attr ν)) (h : ∀ a ∈ attrs, a.Built) : Record ν :=
  { r with
    attrs := r.attrs ++ attrs.filter fun a => !a.isEmptyGroup
    built := by
      refine List.forall_mem_append.mpr ⟨r.built, fun a ha => ?_⟩
      obtain ⟨hmem, hne⟩ := List.mem_filter.mp ha
      exact ⟨h a hmem, by simpa using hne⟩ }

/-- A call that makes a handler from another one. -/
inductive Call (ν : Type)
  | withAttrs (attrs : List (Attr ν))
  | withGroup (name : Bytes)

structure RedactingHandler (ν : Type) where
  inner : List (Call ν)

def newRedactingHandler (inner : List (Call ν)) : RedactingHandler ν := ⟨inner⟩

namespace RedactingHandler

def cleaned (r : Record ν) : Record ν :=
  (newRecord r.time r.level r.message r.pc).addAttrs (redactAttrs r.attrs) (by
    rw [redactAttrs_eq_map]
    exact List.forall_mem_map.mpr fun a ha => built_redactAttr (r.built a ha).1)

/-- The inner handler that is called, and its record. -/
def handle (h : RedactingHandler ν) (r : Record ν) : List (Call ν) × Record ν := (h.inner, cleaned r)

def withAttrs (h : RedactingHandler ν) (attrs : List (Attr ν)) : RedactingHandler ν :=
  ⟨h.inner ++ [.withAttrs (redactAttrs attrs)]⟩

def withGroup (h : RedactingHandler ν) (name : Bytes) : RedactingHandler ν := ⟨h.inner ++ [.withGroup name]⟩

def call (h : RedactingHandler ν) : Call ν → RedactingHandler ν
  | .withAttrs attrs => h.withAttrs attrs
  | .withGroup name => h.withGroup name

end RedactingHandler

end Csar.Impl.Logutil
