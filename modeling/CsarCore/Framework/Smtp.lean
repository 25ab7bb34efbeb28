import CsarCore.Framework.Base64
import CsarCore.Framework.DotLines
import CsarCore.Framework.Hoare
import CsarCore.Framework.Strings

/-!
# The client side of SMTP (`net/smtp`)

A session with a server that may answer anything at each step, or nothing. What is not
up to the client is a `World`, which knows all that has been done before. A deadline or
the end of a context closes the connection, and is then an answer that cannot be read.

A server takes responsibility for a message when it has got the end of its text; it
then answers 250, or the answer is lost (`Intake`). `Session.Inv` is what every
operation keeps: what the client takes for a TLS connection is one, and secrets have
been sent on TLS connections only.
-/

namespace Csar.Smtp

inductive Err
  | reply (code : Nat) (msg : Bytes)
  | other

/-- A reply, lines that are none, or nothing because the connection is broken. -/
inductive Answer
  | reply (code : Nat) (msg : Bytes)
  | garbled
  | broken

/-- The answer tells that a message is accepted. -/
def Answer.Accepts : Answer → Prop
  | .reply code _ => code = 250
  | _ => False

def Answer.Lost : Answer → Prop
  | .reply _ _ => False
  | _ => True

/-- Its first digit, its first two digits or all of it; zero is any code. -/
def expected (expect code : Nat) : Bool :=
  if 1 ≤ expect ∧ expect < 10 then code / 100 = expect
  else if 10 ≤ expect ∧ expect < 100 then code / 10 = expect
  else if 100 ≤ expect ∧ expect < 1000 then code = expect
  else true

def readResponse (expect : Nat) : Answer → Except Err (Nat × Bytes)
  | .reply code msg => if expected expect code then .ok (code, msg) else .error (.reply code msg)
  | .garbled => .error .other
  | .broken => .error .other

theorem expected_whole (code : Nat) : expected 250 code = decide (code = 250) := by
  simp [expected]

theorem accepts_of_ok {a : Answer} {r : Nat × Bytes} (h : readResponse 250 a = .ok r) : a.Accepts := by
  cases a with
  | reply code msg =>
    by_contra hcode
    change ¬ code = 250 at hcode
    rw [readResponse, expected_whole, decide_eq_false hcode] at h
    cases h
  | garbled => cases h
  | broken => cases h

theorem other_of_error {a : Answer} {e : Err} (h : readResponse 250 a = .error e) (ha : a.Accepts ∨ a.Lost) :
    e = .other := by
  cases a with
  | reply code msg =>
    obtain hcode : code = 250 := ha.resolve_right id
    subst hcode
    cases h
  | garbled | broken =>
    cases h
    rfl

/-- The host name of the client is always `localhost`. -/
inductive Command
  | ehlo
  | helo
  | startTLS
  | auth (mech initial : Bytes)
  | response (resp : Bytes)
  /-- The line `*`. -/
  | abort
  | mail (addr : Bytes) (eightBit utf8 : Bool)
  | rcpt (addr : Bytes)
  | data
  | quit

/-- The line has something of the mechanism's. -/
def Command.Secret : Command → Prop
  | .auth _ initial => initial ≠ []
  | .response _ => True
  | _ => False

/-- The client has opened its connection, begun a handshake, sent a line or some text; the server has
taken responsibility for the text that it got. -/
inductive Event
  | connected
  | handshake
  | sent (secured : Bool) (c : Command)
  | text (secured : Bool) (bs : Bytes)
  | taken (arrived : Bytes)

/-- Some of a text arrives. The server may take responsibility for it if it got its end; it then accepts
it, or its answer is lost. -/
structure Intake (written : Bytes) where
  arrived : Bytes
  le : arrived <+: written
  took : Bool
  answer : Answer
  ended : took → DotLines.Ended arrived
  accepts_or_lost : took → answer.Accepts ∨ answer.Lost
  took_of_accepts : answer.Accepts → took

/-- What is not up to the client. -/
structure World where
  connects : Bool
  setsDeadline : Bool
  handshakes : List Event → Bool
  answers : List Event → Answer
  /-- No write of the text fails before its end. -/
  writes : List Event → Bool
  takes : List Event → (written : Bytes) → Intake written

inductive Conn
  | plain
  | wrapped
  | secured
  deriving DecidableEq

/-- `smtp.Client` with its connection, and all that has happened. -/
structure Session where
  conn : Conn := .plain
  serverName : Bytes := []
  tls : Bool := false
  didHello : Bool := false
  helloError : Option Err := none
  ext : Option (List (Bytes × Bytes)) := none
  log : List Event := []

abbrev Op (α : Type) := EStateM Err Session α

def ignore {α : Type} (x : Op α) : Op Unit := do
  let _ : Except Err α ← attempt x

structure ServerInfo where
  name : Bytes
  tls : Bool

/-- Its name and first response, and its answers to challenges, which come to an end. -/
structure Mechanism (κ : Type) where
  start : κ → ServerInfo → Except Err (Bytes × Bytes)
  next : κ → Bytes → Bool → Except Err (Option Bytes) × κ
  left : κ → Nat
  left_lt : ∀ {k k' : κ} {msg resp : Bytes} {more : Bool}, next k msg more = (.ok (some resp), k') → left k' < left k

section Client

variable (w : World)

/-- `DialContext`. -/
def dial : Op Unit :=
  if w.connects then modify fun s => { s with log := .connected :: s.log } else throw .other

def setDeadline : Op Unit := if w.setsDeadline then pure () else throw .other

/-- `HandshakeContext`. -/
def handshake : Op Unit := do
  modify fun s => { s with log := .handshake :: s.log }
  let s ← get
  if w.handshakes s.log then modify fun s => { s with conn := .secured } else throw .other

/-- `tls.Client`. -/
def wrap : Op Unit := modify fun s => { s with conn := .wrapped }

/-- The first write on a TLS connection makes the handshake. -/
def write (event : Bool → Event) : Op Unit := do
  let s ← get
  onlyIf (s.conn = .wrapped) (handshake w)
  modify fun s => { s with log := event (s.conn = .secured) :: s.log }

def readReply (expect : Nat) : Op (Nat × Bytes) := do
  let s ← get
  ofExcept (readResponse expect (w.answers s.log))

def cmd (expect : Nat) (c : Command) : Op (Nat × Bytes) := do
  write w fun secured => .sent secured c
  readReply w expect

def newClient (host : Bytes) : Op Unit := do
  let _ ← readReply w 220
  modify fun s => { s with serverName := host, tls := s.conn ≠ .plain }

/-- Of two lines with one name, the later one counts. -/
def parseExt (msg : Bytes) : List (Bytes × Bytes) :=
  ((Strings.split msg 0x0A).drop 1).foldl (fun ext line => (Strings.cut line 0x20).getD (line, []) :: ext) []

def helo : Op Unit := do
  modify fun s => { s with ext := none }
  let _ ← cmd w 250 .helo

def ehlo : Op Unit := do
  let (_, msg) ← cmd w 250 .ehlo
  modify fun s => { s with ext := some (parseExt msg) }

def errorOf {α : Type} : Except Err α → Option Err
  | .ok _ => none
  | .error e => some e

/-- `Client.hello`: `EHLO` and, if it fails, `HELO`, the first time. -/
def hello : Op Unit := do
  let s ← get
  if s.didHello then ofExcept (s.helloError.elim (.ok ()) .error)
  else do
    modify fun s => { s with didHello := true }
    match ← attempt (ehlo w) with
    | .ok () => pure ()
    | .error _ =>
      let r ← attempt (helo w)
      modify fun s => { s with helloError := errorOf r }
      ofExcept r

/-- `Client.Extension`, for a name in capitals. -/
def extension {ε : Type} (name : Bytes) : EStateM ε Session (Option Bytes) := do
  match ← attempt (hello w) with
  | .error _ => pure none
  | .ok () =>
    let s ← get
    pure (s.ext.bind fun ext => ext.lookup name)

def startTLS : Op Unit := do
  hello w
  let _ ← cmd w 220 .startTLS
  wrap
  modify fun s => { s with tls := true }
  ehlo w

def quit : Op Unit := do
  ignore (hello w)
  let _ ← cmd w 221 .quit

/-- A challenge, or no more. -/
def challenge (code : Nat) (msg : Bytes) : Except Err (Bytes × Bool) :=
  if code = 334 then
    match Base64.std.decode msg with
    | some m => .ok (m, true)
    | none => .error .other
  else if code = 235 then .ok (msg, false)
  else .error (.reply code msg)

def abandon (e : Err) : Op Unit := do
  ignore (cmd w 501 .abort)
  ignore (quit w)
  throw e

def challenges {κ : Type} (A : Mechanism κ) (k : κ) (code : Nat) (msg : Bytes) : Op Unit :=
  match challenge code msg with
  | .error e => abandon w e
  | .ok (m, more) =>
    match _h : A.next k m more with
    | (.error e, _) => abandon w e
    | (.ok none, _) => pure ()
    | (.ok (some resp), k') => do
      let (code', msg') ← cmd w 0 (.response resp)
      challenges A k' code' msg'
termination_by A.left k
decreasing_by exact A.left_lt (by assumption)

def auth {κ : Type} (A : Mechanism κ) (k : κ) : Op Unit := do
  hello w
  let s ← get
  match A.start k ⟨s.serverName, s.tls⟩ with
  | .error e =>
    ignore (quit w)
    throw e
  | .ok (mech, initial) =>
    let (code, msg) ← cmd w 0 (.auth mech initial)
    challenges w A k code msg

def validateLine (line : Bytes) : Except Err Unit :=
  if DotLines.lf ∈ line ∨ DotLines.cr ∈ line then .error .other else .ok ()

def mail (addr : Bytes) : Op Unit := do
  ofExcept (validateLine addr)
  hello w
  let s ← get
  let has (name : String) := (s.ext.bind fun ext => ext.lookup (utf8 name)).isSome
  let _ ← cmd w 250 (.mail addr (has "8BITMIME") (has "SMTPUTF8"))

def rcpt (addr : Bytes) : Op Unit := do
  ofExcept (validateLine addr)
  let _ ← cmd w 25 (.rcpt addr)

def data : Op DotLines.Writer := do
  let _ ← cmd w 354 .data
  pure {}

def deliver (written : Bytes) : Op Answer := do
  let s ← get
  let intake := w.takes s.log written
  onlyIf intake.took (modify fun s => { s with log := .taken intake.arrived :: s.log })
  pure intake.answer

/-- `dataCloser.Write`. -/
def writeData (d : DotLines.Writer) (body : Bytes) : Op DotLines.Writer := do
  let d' := d.write body
  write w fun secured => .text secured d'.written
  let s ← get
  if w.writes s.log then pure d'
  else do
    let _ ← deliver w d'.written
    throw .other

/-- `dataCloser.Close`. -/
def closeData (d : DotLines.Writer) : Op Unit := do
  write w fun secured => .text secured (DotLines.ending d.state)
  let answer ← deliver w d.close
  let _ ← ofExcept (readResponse 250 answer)

end Client

/-- `B`: it has TLS for sure; `T`: which texts the server has taken. -/
structure Session.Inv (B : Prop) (T : Bytes → Prop) (s : Session) : Prop where
  tls_conn : s.tls = true → s.conn ≠ .plain
  has_tls : B → s.tls = true
  secret : ∀ secured c, .sent secured c ∈ s.log → c.Secret → secured = true
  taken : ∀ arrived, .taken arrived ∈ s.log ↔ T arrived

section Keeps

variable {w : World} {B : Prop} {T : Bytes → Prop} {s : Session} {c : Command} {expect : Nat}

def untaken : Bytes → Prop := fun _ => False

theorem Session.Inv.push {T' : Bytes → Prop} {e : Event} (h : s.Inv B T)
    (hsent : ∀ secured c, e = .sent secured c → c.Secret → secured = true)
    (htaken : ∀ arrived, .taken arrived = e ∨ T arrived ↔ T' arrived) :
    ({ s with log := e :: s.log } : Session).Inv B T' where
  tls_conn := h.tls_conn
  has_tls := h.has_tls
  secret := by
    intro secured c hmem hc
    rcases List.mem_cons.mp hmem with heq | hmem
    · exact hsent secured c heq.symm hc
    · exact h.secret secured c hmem hc
  taken := by
    intro arrived
    rw [List.mem_cons, h.taken]
    exact htaken arrived

theorem keeps_dial : Keeps (Session.Inv B T) (dial w) := by
  unfold dial
  split
  · exact Hoare.modify fun s h => h.push (fun _ _ he => by cases he) fun _ => or_iff_right fun he => by cases he
  · exact Keeps.throw _

theorem keeps_setDeadline : Keeps (Session.Inv B T) (setDeadline w) := by
  unfold setDeadline
  split
  · exact Keeps.pure _
  · exact Keeps.throw _

theorem hoare_handshake : Hoare (Session.Inv B T) (handshake w) (fun _ s => s.Inv B T ∧ s.conn = .secured)
    (fun e s => s.Inv B T ∧ e = .other) := by
  refine Hoare.bind (R := fun _ => Session.Inv B T) (Hoare.modify fun s h => ?_) fun _ => Hoare.get_bind fun s₀ => ?_
  · exact h.push (fun _ _ he => by cases he) fun _ => or_iff_right fun he => by cases he
  split
  · refine Hoare.modify ?_
    rintro s ⟨-, h⟩
    exact ⟨⟨fun _ => Conn.noConfusion, h.has_tls, h.secret, h.taken⟩, rfl⟩
  · exact Hoare.throw fun s h => ⟨h.2, rfl⟩

theorem keeps_handshake : Keeps (Session.Inv B T) (handshake w) :=
  hoare_handshake.weaken (fun _ h => h) (fun _ _ h => h.1) (fun _ _ h => h.1)

/-- A write is not between `tls.Client` and its handshake. -/
theorem hoare_write {event : Bool → Event}
    (hsent : ∀ {secured secured' : Bool} {c : Command}, event secured = .sent secured' c → c.Secret →
      secured' = secured ∧ B)
    (htaken : ∀ {secured : Bool} {arrived : Bytes}, event secured ≠ .taken arrived) :
    Hoare (Session.Inv B T) (write w event) (fun _ => Session.Inv B T) (fun e s => s.Inv B T ∧ e = .other) := by
  refine Hoare.get_bind fun s₀ => ?_
  refine Hoare.bind (R := fun _ s => s.Inv B T ∧ s.conn ≠ .wrapped) ?_ fun _ => Hoare.modify ?_
  · by_cases hconn : s₀.conn = .wrapped
    · rw [decide_eq_true hconn]
      exact hoare_handshake.weaken (fun _ h => h.2) (fun _ _ h => ⟨h.1, by rw [h.2]; decide⟩) (fun _ _ h => h)
    · rw [decide_eq_false hconn]
      refine Hoare.pure ?_
      rintro s ⟨rfl, h⟩
      exact ⟨h, hconn⟩
  · rintro s ⟨h, hconn⟩
    refine h.push (fun secured c he hc => ?_) fun arrived => or_iff_right fun he => htaken he.symm
    obtain ⟨rfl, hB⟩ := hsent he hc
    -- a secret is written by a client that has TLS, so its connection is secured
    have hne := h.tls_conn (h.has_tls hB)
    cases hs : s.conn <;> simp_all

theorem keeps_readReply : Keeps (Session.Inv B T) (readReply w expect) :=
  Keeps.get_bind fun _ => Keeps.ofExcept _

theorem keeps_cmd (hc : c.Secret → B) : Keeps (Session.Inv B T) (cmd w expect c) := by
  have hwrite : Keeps (Session.Inv B T) (write w fun secured => .sent secured c) := by
    refine Hoare.weaken (hoare_write ?_ fun he => by cases he) (fun _ h => h) (fun _ _ h => h) fun _ _ h => h.1
    intro secured secured' c' he hc'
    cases he
    exact ⟨rfl, hc hc'⟩
  exact Keeps.bind hwrite fun _ => keeps_readReply

theorem keeps_cmd_open (hc : ¬ c.Secret) : Keeps (Session.Inv B T) (cmd w expect c) :=
  keeps_cmd fun h => absurd h hc

theorem keeps_fields {f : Session → Session}
    (hf : ∀ s, (f s).conn = s.conn ∧ (f s).tls = s.tls ∧ (f s).log = s.log) :
    Keeps (Session.Inv B T) (modify f : Op Unit) := by
  refine Hoare.modify fun s h => ?_
  obtain ⟨hconn, htls, hlog⟩ := hf s
  refine ⟨?_, ?_, ?_, ?_⟩
  · rw [htls, hconn]
    exact h.tls_conn
  · rw [htls]
    exact h.has_tls
  · rw [hlog]
    exact h.secret
  · rw [hlog]
    exact h.taken

theorem keeps_newClient {host : Bytes} : Keeps (Session.Inv False T) (newClient w host) := by
  refine Keeps.bind keeps_readReply fun _ => Hoare.modify fun s h => ⟨?_, False.elim, h.secret, h.taken⟩
  exact of_decide_eq_true

theorem keeps_helo : Keeps (Session.Inv B T) (helo w) :=
  Keeps.bind (keeps_fields fun _ => ⟨rfl, rfl, rfl⟩) fun _ =>
    Keeps.bind (keeps_cmd_open id) fun _ => Keeps.pure _

theorem keeps_ehlo : Keeps (Session.Inv B T) (ehlo w) :=
  Keeps.bind (keeps_cmd_open id) fun _ => keeps_fields fun _ => ⟨rfl, rfl, rfl⟩

theorem keeps_hello : Keeps (Session.Inv B T) (hello w) := by
  refine Keeps.get_bind fun s₀ => ?_
  split
  · exact Keeps.ofExcept _
  · refine Keeps.bind (keeps_fields fun _ => ⟨rfl, rfl, rfl⟩) fun _ => ?_
    refine Keeps.bind (Keeps.attempt keeps_ehlo) fun r => ?_
    cases r with
    | ok _ => exact Keeps.pure _
    | error _ =>
      refine Keeps.bind (Keeps.attempt keeps_helo) fun r => ?_
      refine Keeps.bind (keeps_fields fun _ => ⟨rfl, rfl, rfl⟩) fun _ => ?_
      exact Keeps.ofExcept _

theorem keeps_extension {ε : Type} {name : Bytes} :
    Keeps (Session.Inv B T) (extension w name : EStateM ε Session (Option Bytes)) := by
  refine Keeps.bind (Keeps.attempt keeps_hello) fun r => ?_
  cases r with
  | error _ => exact Keeps.pure _
  | ok _ => exact Keeps.get_bind fun _ => Keeps.pure _

theorem keeps_startTLS : Keeps (Session.Inv B T) (startTLS w) := by
  refine Keeps.bind keeps_hello fun _ => Keeps.bind (keeps_cmd_open id) fun _ => ?_
  refine Hoare.bind (R := fun _ s => s.Inv B T ∧ s.conn = .wrapped) (Hoare.modify fun s h => ?_) fun _ => ?_
  · exact ⟨⟨fun _ => Conn.noConfusion, h.has_tls, h.secret, h.taken⟩, rfl⟩
  refine Hoare.bind (Hoare.modify ?_) fun _ => keeps_ehlo
  rintro s ⟨h, hconn⟩
  exact ⟨fun _ => by rw [hconn]; decide, fun _ => rfl, h.secret, h.taken⟩

theorem keeps_ignore {α : Type} {x : Op α} (h : Keeps (Session.Inv B T) x) : Keeps (Session.Inv B T) (ignore x) :=
  Keeps.bind (Keeps.attempt h) fun _ => Keeps.pure _

theorem keeps_quit : Keeps (Session.Inv B T) (quit w) :=
  Keeps.bind (keeps_ignore keeps_hello) fun _ => Keeps.bind (keeps_cmd_open id) fun _ => Keeps.pure _

theorem keeps_abandon {e : Err} : Keeps (Session.Inv B T) (abandon w e) :=
  Keeps.bind (keeps_ignore (keeps_cmd_open id)) fun _ => Keeps.bind (keeps_ignore keeps_quit) fun _ => Keeps.throw e

theorem keeps_challenges {κ : Type} {A : Mechanism κ} (hB : B) (k : κ) (code : Nat) (msg : Bytes) :
    Keeps (Session.Inv B T) (challenges w A k code msg) := by
  fun_induction challenges w A k code msg with
  | case1 => exact keeps_abandon
  | case2 => exact keeps_abandon
  | case3 => exact Keeps.pure _
  | case4 k code msg m more hch resp k' hnext ih =>
    exact Keeps.bind (keeps_cmd fun _ => hB) fun r => ih r.1 r.2

theorem keeps_auth {κ : Type} {A : Mechanism κ} {k : κ}
    (hstart : ∀ {info mech initial}, A.start k info = .ok (mech, initial) → info.tls = true) :
    Keeps (Session.Inv False T) (auth w A k) := by
  refine Keeps.bind keeps_hello fun _ => Hoare.get_bind fun s₀ => ?_
  cases hs : A.start k ⟨s₀.serverName, s₀.tls⟩ with
  | error e =>
    refine Hoare.weaken (P := Session.Inv False T) ?_ (fun _ h => h.2) (fun _ _ h => h) (fun _ _ h => h)
    exact Keeps.bind (keeps_ignore keeps_quit) fun _ => Keeps.throw e
  | ok first =>
    obtain ⟨mech, initial⟩ := first
    have htls : s₀.tls = true := hstart hs
    refine Hoare.weaken (P := Session.Inv True T) (Q := fun _ => Session.Inv True T)
      (E := fun _ => Session.Inv True T) ?_ ?_ ?_ ?_
    · exact Keeps.bind (keeps_cmd fun _ => trivial) fun r => keeps_challenges trivial k r.1 r.2
    · rintro s ⟨rfl, h⟩
      exact ⟨h.tls_conn, fun _ => htls, h.secret, h.taken⟩
    · exact fun _ s h => ⟨h.tls_conn, False.elim, h.secret, h.taken⟩
    · exact fun _ s h => ⟨h.tls_conn, False.elim, h.secret, h.taken⟩

theorem keeps_mail {addr : Bytes} : Keeps (Session.Inv B T) (mail w addr) := by
  refine Keeps.bind (Keeps.ofExcept _) fun _ => Keeps.bind keeps_hello fun _ => Keeps.get_bind fun _ => ?_
  exact Keeps.bind (keeps_cmd_open id) fun _ => Keeps.pure _

theorem keeps_rcpt {addr : Bytes} : Keeps (Session.Inv B T) (rcpt w addr) :=
  Keeps.bind (Keeps.ofExcept _) fun _ => Keeps.bind (keeps_cmd_open id) fun _ => Keeps.pure _

theorem hoare_data : Hoare (Session.Inv B T) (data w) (fun d s => d = {} ∧ s.Inv B T) (fun _ => Session.Inv B T) :=
  Hoare.bind (keeps_cmd_open id) fun _ => Hoare.pure fun _ h => ⟨rfl, h⟩

def TextsOf (written : Bytes) (T : Bytes → Prop) : Prop := ∀ a, T a → DotLines.Ended a ∧ a <+: written

theorem textsOf_untaken (written : Bytes) : TextsOf written untaken := fun _ h => h.elim

def Intake.Taken {written : Bytes} (i : Intake written) (a : Bytes) : Prop := i.took = true ∧ a = i.arrived

theorem Intake.textsOf {written : Bytes} (i : Intake written) : TextsOf written i.Taken := by
  rintro a ⟨htook, rfl⟩
  exact ⟨i.ended htook, i.le⟩

theorem hoare_deliver {E : Err → Session → Prop} (written : Bytes) : Hoare (Session.Inv B untaken) (deliver w written)
    (fun answer s => ∃ i : Intake written, i.answer = answer ∧ s.Inv B i.Taken) E := by
  refine Hoare.get_bind fun s₀ => ?_
  set i := w.takes s₀.log written with hi
  refine Hoare.bind (R := fun _ s => s.Inv B i.Taken) ?_ fun _ => Hoare.pure fun s h => ⟨i, rfl, h⟩
  cases htook : i.took with
  | true =>
    refine Hoare.modify fun s h => ?_
    exact h.2.push (fun _ _ he => by cases he) fun a => by simp [Intake.Taken, htook, untaken]
  | false =>
    refine Hoare.pure fun s h => ?_
    have htaken : i.Taken = untaken := by
      funext a
      exact propext (iff_false_intro fun h => by rw [h.1] at htook; cases htook)
    rw [htaken]
    exact h.2

/-- A text is not taken before its end; an error is none of the server's. -/
theorem hoare_writeData {d : DotLines.Writer} {body : Bytes} : Hoare (Session.Inv B untaken) (writeData w d body)
    (fun d' s => d' = d.write body ∧ s.Inv B untaken)
    (fun e s => e = .other ∧ ∃ T, TextsOf (d.write body).written T ∧ s.Inv B T) := by
  refine Hoare.bind (R := fun _ => Session.Inv B untaken) ?_ fun _ => Hoare.get_bind fun s₀ => ?_
  · exact Hoare.weaken (hoare_write (fun he => by cases he) fun he => by cases he) (fun _ h => h) (fun _ _ h => h)
      fun _ _ h => ⟨h.2, untaken, textsOf_untaken _, h.1⟩
  split
  · exact Hoare.pure fun _ h => ⟨rfl, h.2⟩
  · refine Hoare.bind (Hoare.weaken (hoare_deliver _) (fun _ h => h.2) (fun _ _ h => h) fun _ _ h => h) fun _ => ?_
    refine Hoare.throw ?_
    rintro s ⟨i, -, h⟩
    exact ⟨rfl, i.Taken, i.textsOf, h⟩

/-- The server has taken a text if it is told so, and has not if it is told that it is refused. -/
theorem hoare_closeData {d : DotLines.Writer} : Hoare (Session.Inv B untaken) (closeData w d)
    (fun _ s => ∃ T, TextsOf d.close T ∧ (∃ a, T a) ∧ s.Inv B T)
    (fun e s => ∃ T, TextsOf d.close T ∧ (∀ a, T a → e = .other) ∧ s.Inv B T) := by
  refine Hoare.bind (R := fun _ => Session.Inv B untaken) ?_ fun _ => ?_
  · exact Hoare.weaken (hoare_write (fun he => by cases he) fun he => by cases he) (fun _ h => h) (fun _ _ h => h)
      fun _ _ h => ⟨untaken, textsOf_untaken _, fun _ ha => ha.elim, h.1⟩
  refine Hoare.bind (hoare_deliver d.close) fun answer => ?_
  refine Hoare.bind (R := fun _ s => ∃ i : Intake d.close, i.answer.Accepts ∧ s.Inv B i.Taken) ?_ fun _ => Hoare.pure ?_
  · refine Hoare.ofExcept ?_ ?_
    · rintro r s ⟨i, rfl, h⟩ hr
      exact ⟨i, accepts_of_ok hr, h⟩
    · rintro e s ⟨i, rfl, h⟩ hr
      refine ⟨i.Taken, i.textsOf, fun a ha => ?_, h⟩
      exact other_of_error hr (i.accepts_or_lost ha.1)
  · rintro s ⟨i, hacc, h⟩
    exact ⟨i.Taken, i.textsOf, ⟨i.arrived, i.took_of_accepts hacc, rfl⟩, h⟩

end Keeps

end Csar.Smtp
