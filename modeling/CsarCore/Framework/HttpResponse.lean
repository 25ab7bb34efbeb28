import CsarCore.Framework.Hex

/-!
# The response of an HTTP server (`http.ResponseWriter`)

What a handler does to its response, and what the server sends of it. A status 1xx is
sent at once and is not the status of the response; that is the first other one, or 200
if something else is sent before (`finalStatus_eq`). Of an empty source nothing is written,
so that the header is not sent either.
-/

namespace Csar.Http

/-- The status codes of a response that stays one of HTTP. -/
def StatusCode : Type := { code : Nat // 100 ≤ code ∧ code ≤ 599 ∧ code ≠ 101 }

instance : DecidableEq StatusCode := inferInstanceAs (DecidableEq (Subtype _))

def StatusCode.ok : StatusCode := ⟨200, by decide⟩

def StatusCode.informational (code : StatusCode) : Bool := code.1 < 200

/-- What `ReadFrom` is given is all that it reads. -/
inductive ResponseCall
  | writeHeader (code : StatusCode)
  | write (data : Bytes)
  | flush
  | readFrom (src : Bytes)
  deriving DecidableEq

structure Sent where
  informational : List StatusCode := []
  status : Option StatusCode := none
  body : Bytes := []

namespace Sent

/-- A second status is left out. -/
def writeHeader (w : Sent) (code : StatusCode) : Sent :=
  if w.status.isSome then w
  else if code.informational then { w with informational := w.informational ++ [code] }
  else { w with status := some code }

/-- The header is sent with status 200 if it was not yet. -/
def commit (w : Sent) : Sent := w.writeHeader .ok

def write (w : Sent) (data : Bytes) : Sent := { w.commit with body := w.body ++ data }

def flush (w : Sent) : Sent := w.commit

/-- `ReadFrom` writes what it has read, if there is something. -/
def readFrom (w : Sent) (src : Bytes) : Sent := if src = [] then w else w.write src

def call (w : Sent) : ResponseCall → Sent
  | .writeHeader code => w.writeHeader code
  | .write data => w.write data
  | .flush => w.flush
  | .readFrom src => w.readFrom src

def final (w : Sent) : StatusCode := w.commit.status.getD .ok

variable {w : Sent} {code : StatusCode}

theorem call_of_status (h : w.status = some code) (c : ResponseCall) :
    (w.call c).status = some code := by
  have hkeep : ∀ code', w.writeHeader code' = w := fun code' => if_pos (by rw [h]; rfl)
  cases c with
  | writeHeader code' => rw [call, hkeep, h]
  | write data => rw [call, write, commit, hkeep, h]
  | flush => rw [call, flush, commit, hkeep, h]
  | readFrom src =>
    rw [call, readFrom]
    split
    · exact h
    · rw [write, commit, hkeep, h]

theorem foldl_of_status (h : w.status = some code) (calls : List ResponseCall) :
    (calls.foldl call w).status = some code := by
  induction calls generalizing w with
  | nil => exact h
  | cons c calls ih => exact ih (call_of_status h c)

theorem final_of_status (h : w.status = some code) : w.final = code := by
  have hkeep : w.commit = w := if_pos (by rw [h]; rfl)
  rw [final, hkeep, h]
  rfl

theorem commit_of_none (h : w.status = none) : w.commit.status = some .ok := by
  rw [commit, writeHeader, h]
  rfl

end Sent

def finalStatus (calls : List ResponseCall) : StatusCode := (calls.foldl Sent.call {}).final

/-- The first status that is not 1xx, if nothing is sent before it but 1xx. -/
def firstStatus : List ResponseCall → Option StatusCode
  | .writeHeader code :: calls => if code.informational then firstStatus calls else some code
  | .readFrom [] :: calls => firstStatus calls
  | _ => none

theorem final_foldl {w : Sent} (h : w.status = none) (calls : List ResponseCall) :
    (calls.foldl Sent.call w).final = (firstStatus calls).getD .ok := by
  have hok : ∀ (w : Sent) (calls : List ResponseCall), w.status = some .ok → (calls.foldl Sent.call w).final = .ok :=
    fun w calls h => Sent.final_of_status (Sent.foldl_of_status h calls)
  induction calls generalizing w with
  | nil =>
    rw [List.foldl_nil, Sent.final, Sent.commit_of_none h]
    rfl
  | cons c calls ih =>
    rw [List.foldl_cons]
    cases c with
    | writeHeader code =>
      rw [Sent.call, Sent.writeHeader, if_neg (by rw [h]; decide), firstStatus]
      cases hinfo : code.informational with
      | true => exact ih (w := { w with informational := w.informational ++ [code] }) h
      | false => exact Sent.final_of_status (Sent.foldl_of_status rfl calls)
    | write data => exact hok (w.write data) calls (Sent.commit_of_none h)
    | flush => exact hok w.flush calls (Sent.commit_of_none h)
    | readFrom src =>
      cases src with
      | nil => exact ih h
      | cons b src => exact hok (w.write (b :: src)) calls (Sent.commit_of_none h)

theorem finalStatus_eq (calls : List ResponseCall) : finalStatus calls = (firstStatus calls).getD .ok :=
  final_foldl rfl calls

/-- A call that sends nothing, or a status 1xx. -/
def ResponseCall.Silent : ResponseCall → Prop
  | .writeHeader code => code.informational
  | .readFrom src => src = []
  | _ => False

theorem firstStatus_append {silent : List ResponseCall} (h : ∀ c ∈ silent, c.Silent) (calls : List ResponseCall) :
    firstStatus (silent ++ calls) = firstStatus calls := by
  induction silent with
  | nil => rfl
  | cons c silent ih =>
    obtain ⟨hc, hsilent⟩ := List.forall_mem_cons.mp h
    rw [← ih hsilent, List.cons_append]
    cases c with
    | writeHeader code => exact if_pos hc
    | readFrom src =>
      obtain rfl : src = [] := hc
      rfl
    | _ => exact absurd hc id

theorem firstStatus_eq_some {calls : List ResponseCall} {code : StatusCode} :
    firstStatus calls = some code ↔ code.informational = false ∧
      ∃ silent rest, calls = silent ++ .writeHeader code :: rest ∧ ∀ c ∈ silent, c.Silent := by
  constructor
  · intro h
    induction calls with
    | nil => cases h
    | cons c calls ih =>
      -- a silent call is passed over
      have hskip : c.Silent → firstStatus calls = some code → code.informational = false ∧
          ∃ silent rest, c :: calls = silent ++ .writeHeader code :: rest ∧ ∀ c ∈ silent, c.Silent := by
        intro hc hcalls
        obtain ⟨hinfo, silent, rest, rfl, hsilent⟩ := ih hcalls
        exact ⟨hinfo, c :: silent, rest, rfl, List.forall_mem_cons.mpr ⟨hc, hsilent⟩⟩
      cases c with
      | writeHeader code' =>
        rw [firstStatus] at h
        split at h
        · rename_i hinfo
          exact hskip hinfo h
        · rename_i hinfo
          cases h
          exact ⟨Bool.eq_false_iff.mpr hinfo, [], calls, rfl, List.forall_mem_nil _⟩
      | readFrom src =>
        cases src with
        | nil => exact hskip rfl h
        | cons b src => cases h
      | write data => cases h
      | flush => cases h
  · rintro ⟨hinfo, silent, rest, rfl, hsilent⟩
    rw [firstStatus_append hsilent]
    exact if_neg (by rw [hinfo]; exact Bool.false_ne_true)

end Csar.Http
