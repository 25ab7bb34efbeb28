import CsarCore.Spec.Email.Smtp

/-!
# Submissions tell what the server has done

`send_sound` is by the rules for the operations of the client: before the text of the
message nothing can have been taken, and then every error that is no reply is `unknown`.
A message is taken as a whole or not at all (`taken_whole`).
-/

namespace Csar.Proof.Email

open Csar.Smtp Impl.Email Spec.Email

variable {lib : Lib} {w : World} {cfg : SMTPConfig} {msg : Option Message} {b : Bool}

theorem tls_of_start {a : LoginAuth} {info : ServerInfo} {mech initial : Bytes}
    (h : loginAuth.start a info = .ok (mech, initial)) : info.tls = true := by
  simp only [loginAuth, LoginAuth.start] at h
  split at h
  · cases h
  · rename_i hno
    simp_all

/-- What has been taken is the text of the message, and then the error is `unknown`. -/
def Failed (lib : Lib) (msg : Option Message) (e : SendError) (s : Session) : Prop :=
  ∃ T, s.Inv False T ∧ ∀ a, T a → e.outcome = .unknown ∧ IsTextOf lib msg a

def Done (lib : Lib) (msg : Option Message) (s : Session) : Prop :=
  ∃ T, s.Inv False T ∧ (∃ a, T a) ∧ ∀ a, T a → IsTextOf lib msg a

theorem failed_of_untaken {e : SendError} {s : Session} (h : s.Inv False untaken) : Failed lib msg e s :=
  ⟨untaken, h, fun _ ha => ha.elim⟩

theorem hoare_stage {α : Type} {name : String} {may : Bool} {x : Op α} (h : Keeps (Session.Inv False untaken) x) :
    Hoare (Session.Inv False untaken) (stage name may x) (fun _ => Session.Inv False untaken) (Failed lib msg) :=
  Hoare.rewriteError h fun _ _ => failed_of_untaken

theorem hoare_require {e : SendError} :
    Hoare (Session.Inv False untaken) (require b e) (fun _ => Session.Inv False untaken) (Failed lib msg) :=
  Hoare.require (fun _ h _ => h) fun _ h _ => failed_of_untaken h

theorem hoare_extension {name : Bytes} :
    Hoare (Session.Inv False untaken) (extension w name : EStateM SendError Session (Option Bytes))
      (fun _ => Session.Inv False untaken) (Failed lib msg) :=
  keeps_extension.weaken (fun _ h => h) (fun _ _ h => h) fun _ _ => failed_of_untaken

theorem hoare_implicit : Hoare (Session.Inv False untaken)
    (onlyIf b (stage "tls" false (do wrap; handshake w))) (fun _ => Session.Inv False untaken) (Failed lib msg) := by
  cases b with
  | false => exact Hoare.pure fun _ h => h
  | true =>
    refine hoare_stage (Keeps.bind (Hoare.modify fun s h => ?_) fun _ => keeps_handshake)
    exact ⟨fun _ => Conn.noConfusion, h.has_tls, h.secret, h.taken⟩

theorem hoare_startTLS : Hoare (Session.Inv False untaken) (onlyIf b (do
      let ok ← extension w (utf8 "STARTTLS")
      require ok.isSome (failure "starttls_required" .rejected 0)
      stage "starttls" false (startTLS w)))
    (fun _ => Session.Inv False untaken) (Failed lib msg) := by
  cases b with
  | false => exact Hoare.pure fun _ h => h
  | true =>
    refine Hoare.bind hoare_extension fun _ => ?_
    exact Hoare.bind hoare_require fun _ => hoare_stage keeps_startTLS

/-- A text that breaks off before `closeData` is not taken. -/
theorem hoare_body {body : Bytes} : Hoare (Session.Inv False untaken) (stage "body" true (writeData w {} body))
    (fun d s => d = ({} : DotLines.Writer).write body ∧ s.Inv False untaken) (Failed lib msg) := by
  refine Hoare.rewriteError hoare_writeData ?_
  rintro e s ⟨rfl, T, htexts, h⟩
  refine ⟨T, h, fun a ha => ?_⟩
  obtain ⟨hend, hle⟩ := htexts a ha
  exact absurd (hend.of_isPrefix hle) (DotLines.not_ended_written body)

/-- Only a reply other than 250 to the end of the text is a refusal. -/
theorem hoare_acceptance {m : Message} {sender recipient : Address}
    (hm : prepare lib msg = .ok (m, sender, recipient)) :
    Hoare (Session.Inv False untaken)
      (stage "acceptance" true (closeData w (({} : DotLines.Writer).write (mimeMessage lib m))))
      (fun _ => Done lib msg) (Failed lib msg) := by
  have htext {T : Bytes → Prop} {a : Bytes}
      (h : TextsOf (({} : DotLines.Writer).write (mimeMessage lib m)).close T) (ha : T a) : IsTextOf lib msg a :=
    ⟨m, sender, recipient, hm, DotLines.eq_of_ended (h a ha).1 (h a ha).2⟩
  refine Hoare.rewriteError (hoare_closeData.weaken (fun _ h => h) ?_ fun _ _ h => h) ?_
  · rintro _ s ⟨T, htexts, hsome, h⟩
    exact ⟨T, h, hsome, fun a ha => htext htexts ha⟩
  · rintro e s ⟨T, htexts, hother, h⟩
    refine ⟨T, h, fun a ha => ⟨?_, htext htexts ha⟩⟩
    obtain rfl := hother a ha
    rfl

theorem hoare_quit {E : SendError → Session → Prop} :
    Hoare (Done lib msg) (attempt (quit w)) (fun _ : Except Err Unit => Done lib msg) E := by
  rintro s ⟨T, hs, htexts⟩
  have hkept (s' : Session) (hs' : s'.Inv False T) : Done lib msg s' := ⟨T, hs', htexts⟩
  exact Hoare.attempt keeps_quit (fun _ => hkept) (fun _ => hkept) s hs

/-- `Send`, stage by stage. -/
theorem hoare_send (lib : Lib) (w : World) (cfg : SMTPConfig) (msg : Option Message) :
    Hoare (Session.Inv False untaken) (send lib w cfg msg) (fun _ => Done lib msg) (Failed lib msg) := by
  refine Hoare.bind (R := fun r s => prepare lib msg = .ok r ∧ s.Inv False untaken)
    (Hoare.ofExcept (fun _ _ h hr => ⟨hr, h⟩) fun _ _ h _ => failed_of_untaken h) ?_
  intro r
  refine Hoare.of_and fun hm => Hoare.bind hoare_require fun _ => ?_
  refine Hoare.bind (hoare_stage keeps_dial) fun _ => Hoare.bind (hoare_stage keeps_setDeadline) fun _ => ?_
  refine Hoare.bind hoare_implicit fun _ => Hoare.bind (hoare_stage keeps_newClient) fun _ => ?_
  refine Hoare.bind hoare_startTLS fun _ => ?_
  refine Hoare.bind hoare_extension fun methods => Hoare.bind hoare_require fun _ => ?_
  refine Hoare.bind (hoare_stage (keeps_auth tls_of_start)) fun _ => ?_
  refine Hoare.bind (hoare_stage keeps_mail) fun _ => Hoare.bind (hoare_stage keeps_rcpt) fun _ => ?_
  refine Hoare.bind (Hoare.rewriteError hoare_data fun _ _ => failed_of_untaken) ?_
  refine fun d => Hoare.of_and fun hd => ?_
  rw [hd]
  refine Hoare.bind hoare_body fun d => Hoare.of_and fun hd => ?_
  rw [hd]
  refine Hoare.bind (hoare_acceptance hm) fun _ => ?_
  exact Hoare.bind hoare_quit fun _ => Hoare.pure fun _ h => h

theorem inv_init : ({} : Session).Inv False untaken where
  tls_conn h := by cases h
  has_tls := False.elim
  secret _ _ h := by cases h
  taken _ := ⟨fun h => (by cases h), False.elim⟩

theorem took_iff {s : Session} {T : Bytes → Prop} (h : s.Inv False T) : Took s ↔ ∃ a, T a :=
  exists_congr h.taken

theorem send_sound (lib : Lib) (w : World) (cfg : SMTPConfig) (msg : Option Message) :
    SoundOutcome (send lib w cfg msg {}) := by
  have hsend := hoare_send lib w cfg msg {} inv_init
  cases hr : send lib w cfg msg {} with
  | ok receipt s =>
    rw [hr] at hsend
    obtain ⟨T, h, hsome, -⟩ := hsend
    refine ⟨fun _ => .inl ⟨receipt, s, rfl⟩, ?_, h.secret⟩
    intro receipt' s' heq
    cases heq
    exact (took_iff h).mpr hsome
  | error e s =>
    rw [hr] at hsend
    obtain ⟨T, h, hunknown⟩ := hsend
    refine ⟨fun htook => .inr ⟨e, s, rfl, ?_⟩, ?_, h.secret⟩
    · obtain ⟨a, ha⟩ := (took_iff h).mp htook
      exact (hunknown a ha).1
    · intro receipt' s' heq
      cases heq

/-- Against every server and network, no part of a message, and no message with another text in it, is taken. -/
theorem taken_whole (lib : Lib) (w : World) (cfg : SMTPConfig) (msg : Option Message) :
    TakenWhole lib msg (sessionOf (send lib w cfg msg {})) := by
  intro arrived h
  have hsend := hoare_send lib w cfg msg {} inv_init
  cases hr : send lib w cfg msg {} with
  | ok receipt s =>
    rw [hr] at hsend h
    obtain ⟨T, hinv, -, htext⟩ := hsend
    exact htext arrived ((hinv.taken arrived).mp h)
  | error e s =>
    rw [hr] at hsend h
    obtain ⟨T, hinv, hunknown⟩ := hsend
    exact (hunknown arrived ((hinv.taken arrived).mp h)).2

end Csar.Proof.Email
