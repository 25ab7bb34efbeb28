import Mathlib.Data.List.Basic

/-!
# The redirects of an HTTP client (`http.Client.Do`)

A client sends a request, and one more for each redirect that its `CheckRedirect` lets
it follow. While a request is under way, the transport opens any number of connections
to the host of its URL. What becomes of each request is an `Exchange`.
-/

namespace Csar.Http

variable {υ β δ κ ρ : Type}

/-- A request to a URL. The body can be sent again. -/
structure Request (υ β : Type) where
  method : String
  url : υ
  body : Option β

/-- Its status, its `Location` (empty: none) and the rest of it. -/
structure Response (ρ : Type) where
  status : Int
  location : String
  rest : ρ

/-- What is learned for each connection that is dialled, and the response. -/
structure Exchange (δ ρ : Type) where
  dials : List δ
  outcome : Except String (Response ρ)

/-- Nil, `ErrUseLastResponse` or another error. -/
inductive Redirect
  | follow
  | useLastResponse
  | refuse (err : String)

/-- `http.Client`, with what it has from its transport and from `net/url`. -/
structure Client (υ β δ κ : Type) where
  /-- Dials the host of a URL. -/
  dial : υ → δ → Except String κ
  /-- The next request, and those before it. -/
  checkRedirect : Request υ β → List (Request υ β) → Redirect
  /-- `URL.Parse`. -/
  parse : υ → String → Except String υ
  /-- `URL.String`. -/
  urlText : υ → String

/-- `url.Error`. -/
structure UrlError where
  op : String
  url : String
  err : String

inductive Event (υ β κ : Type)
  | requested (r : Request υ β)
  | opened (u : υ) (k : κ)

def urlErrorOp (method : String) : String :=
  match method.toList with
  | [] => "Get"
  | c :: cs => String.ofList (c :: cs.map Char.toLower)

/-- The method of the next request, and whether it has the body. -/
def redirectBehavior (method : String) (status : Int) : Option (String × Bool) :=
  if status = 301 ∨ status = 302 ∨ status = 303 then
    some (if method ≠ "GET" ∧ method ≠ "HEAD" then "GET" else method, false)
  else if status = 307 ∨ status = 308 then some (method, true)
  else none

namespace Client

variable (c : Client υ β δ κ)

def opened (u : υ) (dials : List δ) : List (Event υ β κ) :=
  dials.filterMap fun d =>
    match c.dial u d with
    | .ok k => some (.opened u k)
    | .error _ => none

/-- The next request, if a response is a redirect. -/
def next (r : Request υ β) (resp : Response ρ) : Option (Except String (Request υ β)) :=
  match redirectBehavior r.method resp.status with
  | none => none
  | some (method, includeBody) =>
    if resp.location = "" then none
    else match c.parse r.url resp.location with
      | .error e => some (.error ("failed to parse Location header: " ++ e))
      | .ok u => some (.ok ⟨method, u, if includeBody then r.body else none⟩)

/-- `Client.Do`, with the requests before this one. Without an exchange the time is over. -/
def run (r : Request υ β) (via : List (Request υ β)) :
    List (Exchange δ ρ) → List (Event υ β κ) × Except UrlError (Response ρ)
  | [] => ([.requested r], .error ⟨op r via, c.urlText r.url, "context deadline exceeded"⟩)
  | x :: later =>
    let events := .requested r :: c.opened r.url x.dials
    match x.outcome with
    | .error e => (events, .error ⟨op r via, c.urlText r.url, e⟩)
    | .ok resp =>
      match c.next r resp with
      | none => (events, .ok resp)
      | some (.error e) => (events, .error ⟨op r via, c.urlText r.url, e⟩)
      | some (.ok r') =>
        match c.checkRedirect r' (via ++ [r]) with
        | .useLastResponse => (events, .ok resp)
        | .refuse e => (events, .error ⟨op r via, resp.location, e⟩)
        | .follow =>
          let rest := run r' (via ++ [r]) later
          (events ++ rest.1, rest.2)
where
  /-- Errors have the method of the first request. -/
  op (r : Request υ β) (via : List (Request υ β)) : String := urlErrorOp ((via.head?.getD r).method)

variable {c}

theorem mem_opened {u : υ} {dials : List δ} {e : Event υ β κ} :
    e ∈ c.opened u dials ↔ ∃ d ∈ dials, ∃ k, c.dial u d = .ok k ∧ e = .opened u k := by
  rw [opened, List.mem_filterMap]
  refine exists_congr fun d => and_congr_right fun _ => ?_
  cases c.dial u d with
  | error err => simp
  | ok k => simp [eq_comm]

theorem events_of_never_follows (h : ∀ r via, c.checkRedirect r via ≠ .follow) (r : Request υ β) (via : List (Request υ β))
    (env : List (Exchange δ ρ)) :
    (c.run r via env).1 = .requested r :: c.opened r.url ((env.head?.map Exchange.dials).getD []) := by
  rcases env with _ | ⟨x, later⟩
  · rfl
  rw [run]
  dsimp only [List.head?_cons, Option.map_some, Option.getD_some]
  split
  · rfl
  split
  · rfl
  · rfl
  split
  · rfl
  · rfl
  · rename_i hfollow
    exact absurd hfollow (h _ _)

end Client

end Csar.Http
