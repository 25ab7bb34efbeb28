import CsarCore.Framework.Strings

/-!
# Listing token objects

From `s3store/client.go`: `listObjectsSDK`, `listObjectsIAM` and `listPageIAM`. The
storage is a function from an optional continuation token to a page, the same for both;
fetching one object is a parameter. The loops have no bound: here they go through at
most `fuel` pages, and `none` says that there are more.
-/

namespace Csar.Impl.S3Store

/-- A page of `ListObjectsV2`, with what may be absent: the keys, whether it is truncated, the next token. -/
structure ListPage where
  contents : List (Option Bytes)
  isTruncated : Option Bool
  nextContinuationToken : Option Bytes
  deriving DecidableEq

/-- `s3store: fetch object %q: %w`. -/
structure FetchError (ε : Type) where
  key : Bytes
  err : ε
  deriving DecidableEq

section

variable {η ε : Type} (server : Option Bytes → ListPage) (keyPrefix : Bytes) (fetch : Bytes → Bytes → Except ε η)

/-- The loop over `resp.Contents` in `listObjectsSDK`. -/
def fetchContentsSDK : List (Option Bytes) → List η → Except (FetchError ε) (List η)
  | [], entries => .ok entries
  | none :: rest, entries => fetchContentsSDK rest entries
  | some key :: rest, entries =>
    let tokenRef := Strings.trimPrefix key keyPrefix
    if tokenRef = [] then fetchContentsSDK rest entries
    else
      match fetch key tokenRef with
      | .error err => .error ⟨key, err⟩
      | .ok entry => fetchContentsSDK rest (entries ++ [entry])

/-- `listObjectsSDK` from a continuation token on. -/
def listObjectsSDK : Nat → Option Bytes → List η → Option (Except (FetchError ε) (List η))
  | 0, _, _ => none
  | fuel + 1, continuationToken, entries =>
    let resp := server continuationToken
    match fetchContentsSDK keyPrefix fetch resp.contents entries with
    | .error err => some (.error err)
    | .ok entries =>
      match resp.isTruncated with
      | some true => listObjectsSDK fuel resp.nextContinuationToken entries
      | _ => some (.ok entries)

/-- The keys and the next token of a page, as decoded into `s3ListBucketResult`, where what is absent is
the zero value. -/
def listPageIAM (continuationToken : Bytes) : List Bytes × Bytes :=
  let result := server (if continuationToken = [] then none else some continuationToken)
  let nextToken := if result.isTruncated.getD false then result.nextContinuationToken.getD [] else []
  (result.contents.map fun key => key.getD [], nextToken)

/-- The loop over `objects` in `listObjectsIAM`. -/
def fetchObjectsIAM : List Bytes → List η → Except (FetchError ε) (List η)
  | [], entries => .ok entries
  | key :: rest, entries =>
    let tokenRef := Strings.trimPrefix key keyPrefix
    if tokenRef = [] then fetchObjectsIAM rest entries
    else
      match fetch key tokenRef with
      | .error err => .error ⟨key, err⟩
      | .ok entry => fetchObjectsIAM rest (entries ++ [entry])

/-- `listObjectsIAM` from a continuation token on. -/
def listObjectsIAM : Nat → Bytes → List η → Option (Except (FetchError ε) (List η))
  | 0, _, _ => none
  | fuel + 1, continuationToken, entries =>
    match listPageIAM server continuationToken with
    | (objects, nextToken) =>
      match fetchObjectsIAM keyPrefix fetch objects entries with
      | .error err => some (.error err)
      | .ok entries =>
        if nextToken = [] then some (.ok entries)
        else listObjectsIAM fuel nextToken entries

end

end Csar.Impl.S3Store
