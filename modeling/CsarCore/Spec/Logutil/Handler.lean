import CsarCore.Impl.Logutil

/-!
# Secrets in log records

A value is secret if a sensitive key is above it: of its attribute, of a group that it
is in, or the name of a group that the logger opened. `Alike` relates two uses of a
logger that differ in secrets only, `AlikeLeaves` those that differ only in values, of
attributes that are no groups, with a sensitive key of their own.
-/

namespace Csar.Spec.Logutil

open Impl.Logutil

variable {ν : Type}

mutual

/-- Attributes that are the same but for some that `free` relates. -/
inductive Differ (free : Attr ν → Attr ν → Prop) : Attr ν → Attr ν → Prop
  | free {a b : Attr ν} (h : free a b) : Differ free a b
  | value (key : Bytes) (v : Value ν) : Differ free (.value key v) (.value key v)
  | group (key : Bytes) {as bs : List (Attr ν)} (h : DifferAll free as bs) :
      Differ free (.group key as) (.group key bs)

@[inherit_doc Differ]
inductive DifferAll (free : Attr ν → Attr ν → Prop) : List (Attr ν) → List (Attr ν) → Prop
  | nil : DifferAll free [] []
  | cons {a b : Attr ν} {as bs : List (Attr ν)} (h : Differ free a b) (hs : DifferAll free as bs) :
      DifferAll free (a :: as) (b :: bs)

end

/-- The same sensitive key, with anything as the value. -/
def SecretAttr (a b : Attr ν) : Prop := a.key = b.key ∧ isSensitiveKey a.key

/-- The same sensitive key, with values that are no groups. -/
def SecretLeaf (a b : Attr ν) : Prop := SecretAttr a b ∧ a.isGroup = false ∧ b.isGroup = false

/-- A logger, as the calls that made it, and a record. -/
structure Use (ν : Type) where
  calls : List (Call ν)
  record : Record ν
  built : ∀ attrs, .withAttrs attrs ∈ calls → ∀ a ∈ attrs, a.Built

def Use.passed (u : Use ν) : List (Call ν) × Record ν :=
  (u.calls.foldl RedactingHandler.call (newRedactingHandler [])).handle u.record

/-- Calls, and attributes after them, that are the same but for attributes that `free` relates and what
is in a group whose name is `opened`. -/
inductive DifferCalls (free : Attr ν → Attr ν → Prop) (opened : Bytes → Prop) :
    List (Call ν) → List (Attr ν) → List (Call ν) → List (Attr ν) → Prop
  | record {as bs : List (Attr ν)} (h : DifferAll free as bs) : DifferCalls free opened [] as [] bs
  | withAttrs {as bs as' bs' : List (Attr ν)} {cs cs' : List (Call ν)} (h : DifferAll free as as')
      (hs : DifferCalls free opened cs bs cs' bs') :
      DifferCalls free opened (.withAttrs as :: cs) bs (.withAttrs as' :: cs') bs'
  | withGroup (name : Bytes) {bs bs' : List (Attr ν)} {cs cs' : List (Call ν)}
      (hs : DifferCalls free opened cs bs cs' bs') :
      DifferCalls free opened (.withGroup name :: cs) bs (.withGroup name :: cs') bs'
  | opened {name : Bytes} (h : opened name) (bs bs' : List (Attr ν)) (cs cs' : List (Call ν)) :
      DifferCalls free opened (.withGroup name :: cs) bs (.withGroup name :: cs') bs'

def SameHead (r r' : Record ν) : Prop :=
  r.time = r'.time ∧ r.level = r'.level ∧ r.message = r'.message ∧ r.pc = r'.pc

def Alike (u u' : Use ν) : Prop :=
  SameHead u.record u'.record ∧
    DifferCalls SecretAttr (fun name => isSensitiveKey name) u.calls u.record.attrs u'.calls u'.record.attrs

def AlikeLeaves (u u' : Use ν) : Prop :=
  SameHead u.record u'.record ∧
    DifferCalls SecretLeaf (fun _ => False) u.calls u.record.attrs u'.calls u'.record.attrs

end Csar.Spec.Logutil
