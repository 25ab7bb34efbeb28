import CsarCore.Framework.Smtp
import CsarCore.Impl.Email.Message

/-!
# `email/smtp.go`

`Send` as one session with a server. The deadline of the context and its end are among
the ways in which the server's answers can be lost.
-/

namespace Csar.Impl.Email

open Csar.Smtp

/-- The modes of `SMTPConfig.TLSMode`. -/
def tlsImplicit : String := "tls"

@[inherit_doc tlsImplicit] def tlsStartTLS : String := "starttls"

def providerSelectel : String := "selectel"

/-- `SMTPConfig`, without the port and the timeout. -/
structure SMTPConfig where
  host : Bytes
  tlsMode : String
  username : Bytes
  password : Bytes

def smtpFailure (stage : String) (mayHaveAccepted : Bool) : Err → SendError
  | .reply code _ => failure stage (if 400 ≤ code ∧ code < 500 then .retryable else .rejected) code
  | .other => failure stage (if mayHaveAccepted then .unknown else .retryable) 0

def hasLOGIN (methods : Bytes) : Bool :=
  (Strings.fields methods).any fun method => Strings.equalFold method (utf8 "LOGIN")

structure LoginAuth where
  username : Bytes
  password : Bytes
  host : Bytes
  step : Nat := 0

namespace LoginAuth

def start (a : LoginAuth) (server : ServerInfo) : Except Err (Bytes × Bytes) :=
  if !server.tls || server.name ≠ a.host then .error .other else .ok (utf8 "LOGIN", [])

def next (a : LoginAuth) (_ : Bytes) (more : Bool) : Except Err (Option Bytes) × LoginAuth :=
  if more then
    let a' := { a with step := a.step + 1 }
    match a'.step with
    | 1 => (.ok (some a.username), a')
    | 2 => (.ok (some a.password), a')
    | _ => (.error .other, a')
  else (.ok none, a)

theorem next_some {a a' : LoginAuth} {msg resp : Bytes} {more : Bool} (h : a.next msg more = (.ok (some resp), a')) :
    a'.step = a.step + 1 ∧ a.step < 2 := by
  unfold next at h
  split at h
  · dsimp only at h
    split at h <;> cases h
    · rename_i hstep
      exact ⟨rfl, by omega⟩
    · rename_i hstep
      exact ⟨rfl, by omega⟩
  · cases h

end LoginAuth

/-- The mechanism `LOGIN`, which answers two challenges. -/
def loginAuth : Mechanism LoginAuth where
  start := LoginAuth.start
  next := LoginAuth.next
  left a := 2 - a.step
  left_lt h := by
    obtain ⟨hstep, hlt⟩ := LoginAuth.next_some h
    omega

def stage {α : Type} (name : String) (mayHaveAccepted : Bool) (x : Op α) : EStateM SendError Session α :=
  rewriteError (smtpFailure name mayHaveAccepted) x

def send (lib : Lib) (w : World) (cfg : SMTPConfig) (msg : Option Message) : EStateM SendError Session Receipt := do
  let (m, sender, recipient) ← ofExcept (prepare lib msg)
  require (ascii sender.address && ascii recipient.address) (failure "smtp_address" .rejected 0)
  let body := mimeMessage lib m
  stage "connect" false (dial w)
  stage "deadline" false (setDeadline w)
  onlyIf (cfg.tlsMode = tlsImplicit) (stage "tls" false (do wrap; handshake w))
  stage "greeting" false (newClient w cfg.host)
  onlyIf (cfg.tlsMode = tlsStartTLS) (do
    let ok ← extension w (utf8 "STARTTLS")
    require ok.isSome (failure "starttls_required" .rejected 0)
    stage "starttls" false (startTLS w))
  let methods ← extension w (utf8 "AUTH")
  require (methods.any hasLOGIN) (failure "auth_login_required" .rejected 0)
  stage "auth" false (auth w loginAuth ⟨cfg.username, cfg.password, cfg.host, 0⟩)
  stage "mail" false (mail w sender.address)
  stage "recipient" false (rcpt w recipient.address)
  let d ← stage "data" false (data w)
  let d ← stage "body" true (writeData w d body)
  stage "acceptance" true (closeData w d)
  -- the reply to the end of the text has accepted the message: QUIT cannot revoke it
  let _ : Except Err Unit ← attempt (quit w)
  pure ⟨providerSelectel, m.id⟩

end Csar.Impl.Email
