import CsarCore.Impl.Email.Smtp

/-!
# The outcome of a submission
-/

namespace Csar.Spec.Email

open Csar.Smtp Impl.Email

/-- The server has taken responsibility for a message. -/
def Took (s : Session) : Prop := ∃ arrived, .taken arrived ∈ s.log

/-- Credentials have been sent on TLS connections only. -/
def CredentialsSecured (s : Session) : Prop := ∀ secured c, .sent secured c ∈ s.log → c.Secret → secured = true

def sessionOf : EStateM.Result SendError Session Receipt → Session
  | .ok _ s => s
  | .error _ s => s

/-- A message that is taken is reported as taken or unknown, and one that is reported as taken is. -/
structure SoundOutcome (r : EStateM.Result SendError Session Receipt) : Prop where
  of_took : Took (sessionOf r) → (∃ receipt s, r = .ok receipt s) ∨ ∃ e s, r = .error e s ∧ e.outcome = .unknown
  took : ∀ receipt s, r = .ok receipt s → Took s
  secured : CredentialsSecured (sessionOf r)

/-- The whole text that is sent for a message. -/
def IsTextOf (lib : Lib) (msg : Option Message) (a : Bytes) : Prop :=
  ∃ m sender recipient, prepare lib msg = .ok (m, sender, recipient) ∧
    a = (({} : DotLines.Writer).write (mimeMessage lib m)).close

/-- Whatever the server takes responsibility for is the whole text of the message. -/
def TakenWhole (lib : Lib) (msg : Option Message) (s : Session) : Prop :=
  ∀ arrived, .taken arrived ∈ s.log → IsTextOf lib msg arrived

end Csar.Spec.Email
