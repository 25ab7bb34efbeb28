import CsarCore.Impl.ConfigSource.Watcher

/-!
# The HTTP source (`configsource/source_http.go`)

`HTTPSource.Fetch` in two halves: the request and what is done with the reply. A
`Server` answers 304 exactly if the request's validator is the current one.
`watchSystem` is a watcher over such a source: between polls the server may change in
any way, and each poll may fail anywhere.
-/

namespace Csar.Impl.ConfigSource

/-! ## Headers -/

/-- `validHeaderFieldByte`: the characters of a token. -/
def validHeaderFieldByte (c : Char) : Bool := c.isAlphanum || "!#$%&'*+-.^_`|~".toList.contains c

/-- Upper case first and after each hyphen (`upper`), lower case elsewhere. -/
def canonicalChars : Bool → List Char → List Char
  | _, [] => []
  | upper, c :: cs =>
    let c' := if upper then c.toUpper else c.toLower
    c' :: canonicalChars (c' == '-') cs

def canonicalMIMEHeaderKey (s : String) : String :=
  if s.toList.all validHeaderFieldByte then String.ofList (canonicalChars true s.toList) else s

/-- The headers of a request, under canonical keys. -/
abbrev Header := List (String × String)

def Header.set (h : Header) (key value : String) : Header :=
  (canonicalMIMEHeaderKey key, value) :: h.filter fun kv => kv.1 != canonicalMIMEHeaderKey key

def Header.get (h : Header) (key : String) : String :=
  (List.lookup (canonicalMIMEHeaderKey key) h).getD ""

/-! ## The source -/

def maxConfigSize : Nat := 10 * 1024 * 1024

structure HTTPSource where
  url : String
  headers : List (String × String)
  lastETag : String
  lastModified : Bool
  deriving DecidableEq

def newHTTPSource (url : String) (headers : List (String × String)) : HTTPSource := ⟨url, headers, "", false⟩

/-- Its status, its two validator headers and what reading its body gives. -/
structure Response where
  status : Nat
  etag : String
  lastModified : String
  body : Except String Bytes

/-- What becomes of a request: it cannot be made, it fails, or there is a
response. -/
inductive Reply
  | badRequest (e : String)
  | failed (e : String)
  | response (r : Response)

/-- The headers of the request that `Fetch` makes. -/
def HTTPSource.request (s : HTTPSource) : Header :=
  let h : Header := s.headers.foldl (fun h kv => Header.set h kv.1 kv.2) []
  if s.lastETag ≠ "" then
    if s.lastModified then h.set "If-Modified-Since" s.lastETag else h.set "If-None-Match" s.lastETag
  else h

/-- The tag of a response, and whether it is its `Last-Modified`. -/
def Response.validator (r : Response) : String × Bool :=
  if r.etag = "" then (r.lastModified, r.lastModified ≠ "") else (r.etag, false)

/-- `HTTPSource.Fetch`, given the reply to its request. -/
def HTTPSource.fetch (s : HTTPSource) : Reply → HTTPSource × Except String FetchedConfig
  | .badRequest e => (s, .error ("creating request for " ++ s.url ++ ": " ++ e))
  | .failed e => (s, .error ("fetching config from " ++ s.url ++ ": " ++ e))
  | .response r =>
    if r.status = 304 then (s, .ok ⟨none, s.lastETag⟩)
    else if r.status = 200 then
      match r.body with
      | .error e => (s, .error ("reading response body from " ++ s.url ++ ": " ++ e))
      | .ok data =>
        if data.length > maxConfigSize then
          (s, .error ("config from " ++ s.url ++ " exceeds maximum size (" ++ toString maxConfigSize ++ " bytes)"))
        else
          ({ s with lastETag := r.validator.1, lastModified := r.validator.2 },
            .ok ⟨some data, r.validator.1⟩)
    else (s, .error ("unexpected status " ++ toString r.status ++ " from " ++ s.url))

/-! ## A server, and a watcher over the source -/

/-- A content, its `ETag` and its `Last-Modified`, empty where it has none. -/
structure Server where
  content : Bytes
  etag : String
  lastModified : String
  deriving DecidableEq

/-- `If-None-Match` goes before `If-Modified-Since`. -/
def Server.notModified (srv : Server) (req : Header) : Bool :=
  if req.get "If-None-Match" ≠ "" then req.get "If-None-Match" = srv.etag
  else req.get "If-Modified-Since" ≠ "" ∧ req.get "If-Modified-Since" = srv.lastModified

/-- A request is answered, or with a body that cannot be read, or with an error status, or not at all. -/
inductive Net
  | answered
  | broken (e : String)
  | status (n : { n : Nat // n ≠ 200 ∧ n ≠ 304 })
  | badRequest (e : String)
  | failed (e : String)

def Server.reply (srv : Server) (req : Header) : Net → Reply
  | .answered => .response ⟨if srv.notModified req then 304 else 200, srv.etag, srv.lastModified, .ok srv.content⟩
  | .broken e => .response ⟨if srv.notModified req then 304 else 200, srv.etag, srv.lastModified, .error e⟩
  | .status n => .response ⟨n.1, srv.etag, srv.lastModified, .ok srv.content⟩
  | .badRequest e => .badRequest e
  | .failed e => .failed e

structure Watch where
  source : HTTPSource
  watcher : ConfigWatcher
  deriving DecidableEq

/-- One poll: the server at that time, how the request fares and what the
`ApplyFunc` would answer. -/
structure HTTPPoll where
  server : Server
  net : Net
  verdict : Except String Bool

/-- What comes of a poll: what the source returned, and what `Apply` did. -/
structure Polled where
  fetched : Except String FetchedConfig
  applied : Applied

def watchSystem (sum256 : Bytes → Digest) (hashPolicy : HashPolicy) (pinnedHash url : String)
    (headers : List (String × String)) : System Watch HTTPPoll Polled where
  init := ⟨newHTTPSource url headers, newConfigWatcher hashPolicy pinnedHash⟩
  step s p :=
    let r := s.source.fetch (p.server.reply s.source.request p.net)
    let a := s.watcher.apply sum256 r.2 p.verdict
    some (⟨r.1, a.1⟩, ⟨r.2, a.2⟩)

end Csar.Impl.ConfigSource
