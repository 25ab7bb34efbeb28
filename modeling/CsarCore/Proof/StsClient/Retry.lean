import CsarCore.Spec.StsClient

/-!
# Attempts send the request again

`attempts_cases` is one turn of the loop. Each attempt after the first sends `replay`:
with a new body if there is `GetBody`, and else with what is left in the stream, which
is nothing. There is such an attempt if the first is `Retried`. So `round_trip_faithful`.
-/

namespace Csar.Proof.StsClient

open Impl.StsClient Spec.StsClient

variable {req : Request} {turns : Nat → Turn} {left attempt : Nat} {stream : Option Bytes}

def dropped (sent : Sent) (turn : Turn) : Try := ⟨sent, turn.resp, turn.resp.any fun resp => resp.body.isSome, false⟩

/-- There is no body to send, or the attempt is the last one and returned, or its response is dropped,
and the context ends or there is another turn. -/
theorem attempts_cases (req : Request) (turns : Nat → Turn) (left attempt : Nat) (stream : Option Bytes) :
    (attempt ≠ 0 ∧ ∃ err, attempts req turns left attempt stream = ⟨[], [], none, some err⟩) ∨
    ∃ body, cloneRequestForAttempt req attempt stream (turns attempt) = .ok body ∧
      (attempts req turns left attempt stream = .last (req.send body) (turns attempt) ∨
      (∃ delay err, attempts req turns left attempt stream =
        ⟨[dropped (req.send body) (turns attempt)], [delay], none, some err⟩) ∨
      ∃ rest more delay, left = more + 1 ∧ rest = attempts req turns more (attempt + 1) (stream.map fun _ => []) ∧
        attempts req turns left attempt stream =
          { rest with
            tries := dropped (req.send body) (turns attempt) :: rest.tries
            delays := delay :: rest.delays }) := by
  rw [attempts]
  dsimp only
  split
  · rename_i err herr
    refine .inl ⟨fun h0 => ?_, err, rfl⟩
    rw [cloneRequestForAttempt, if_pos h0] at herr
    cases herr
  · rename_i body hbody
    refine .inr ⟨body, hbody, ?_⟩
    split <;> [exact .inl rfl; skip]
    split <;> [exact .inl rfl; skip]
    rename_i more
    split <;> [exact .inl rfl; skip]
    split
    · rename_i err _
      exact .inr (.inl ⟨_, err, rfl⟩)
    · exact .inr (.inr ⟨_, more, _, rfl, rfl, rfl⟩)

theorem attempts_induct {P : Nat → Nat → Option Bytes → Trip → Prop}
    (refused : ∀ {left attempt stream err}, attempt ≠ 0 → P left attempt stream ⟨[], [], none, some err⟩)
    (last : ∀ {left attempt stream body}, cloneRequestForAttempt req attempt stream (turns attempt) = .ok body →
      P left attempt stream (.last (req.send body) (turns attempt)))
    (ended : ∀ {left attempt stream body delay err},
      cloneRequestForAttempt req attempt stream (turns attempt) = .ok body →
      P left attempt stream ⟨[dropped (req.send body) (turns attempt)], [delay], none, some err⟩)
    (again : ∀ {left attempt stream body delay rest},
      cloneRequestForAttempt req attempt stream (turns attempt) = .ok body →
      P left (attempt + 1) (stream.map fun _ => []) rest →
      P (left + 1) attempt stream
        { rest with
          tries := dropped (req.send body) (turns attempt) :: rest.tries
          delays := delay :: rest.delays }) :
    P left attempt stream (attempts req turns left attempt stream) := by
  induction left generalizing attempt stream with
  | zero =>
    obtain ⟨h0, err, h⟩ | ⟨body, hbody, h | ⟨delay, err, h⟩ | ⟨rest, more, delay, hleft, -⟩⟩ :=
      attempts_cases req turns 0 attempt stream
    · exact h ▸ refused h0
    · exact h ▸ last hbody
    · exact h ▸ ended hbody
    · cases hleft
  | succ left ih =>
    obtain ⟨h0, err, h⟩ | ⟨body, hbody, h | ⟨delay, err, h⟩ | ⟨rest, more, delay, hleft, hrest, h⟩⟩ :=
      attempts_cases req turns (left + 1) attempt stream
    · exact h ▸ refused h0
    · exact h ▸ last hbody
    · exact h ▸ ended hbody
    · cases hleft
      exact h ▸ again hbody (hrest ▸ ih)

/-! ## How many attempts, and their responses -/

theorem length_attempts_le : (attempts req turns left attempt stream).tries.length ≤ left + 1 := by
  refine attempts_induct (P := fun left _ _ trip => trip.tries.length ≤ left + 1)
    (fun _ => ?_) (fun _ => ?_) (fun _ => ?_) (fun _ ih => ?_)
  · simp
  · simp [Trip.last]
  · simp
  · simpa using ih

theorem handled_last (sent : Sent) (turn : Turn) : ∀ t ∈ (Trip.last sent turn).tries, Handled (.last sent turn) t := by
  intro t ht resp body _ _
  obtain rfl := List.mem_singleton.mp ht
  exact .inr ⟨rfl, rfl⟩

theorem handled_dropped (trip : Trip) (sent : Sent) (turn : Turn) : Handled trip (dropped sent turn) := by
  intro resp body hresp hbody
  have hturn : turn.resp = some resp := hresp
  exact .inl (by simp [dropped, hturn, hbody])

theorem handled_attempts :
    ∀ t ∈ (attempts req turns left attempt stream).tries, Handled (attempts req turns left attempt stream) t := by
  refine attempts_induct (P := fun _ _ _ trip => ∀ t ∈ trip.tries, Handled trip t)
    (fun _ => ?_) (fun _ => ?_) (fun _ => ?_) (fun _ ih => ?_)
  · exact fun t ht => absurd ht List.not_mem_nil
  · exact handled_last _ _
  · intro t ht
    obtain rfl := List.mem_singleton.mp ht
    exact handled_dropped _ _ _
  · exact List.forall_mem_cons.mpr ⟨handled_dropped _ _ _, ih⟩

/-! ## What the attempts send -/

def replay (req : Request) : Sent := req.send (if req.getBody then req.body else req.body.map fun _ => [])

theorem sent_later : attempt ≠ 0 → stream = (req.body.map fun _ => []) →
    ∀ t ∈ (attempts req turns left attempt stream).tries, t.sent = replay req := by
  -- a body that is sent after the first attempt is a new one, or what is left of the stream
  have hbody : ∀ {attempt stream body}, cloneRequestForAttempt req attempt stream (turns attempt) = .ok body →
      attempt ≠ 0 → stream = (req.body.map fun _ => []) → req.send body = replay req := by
    intro attempt stream body hclone h0 hstream
    rw [cloneRequestForAttempt, if_neg h0] at hclone
    rw [replay]
    split at hclone
    · rename_i hget
      split at hclone <;> cases hclone
      rw [if_pos hget]
    · rename_i hget
      cases hclone
      rw [if_neg hget, hstream]
  refine attempts_induct (P := fun _ attempt stream trip => attempt ≠ 0 → stream = (req.body.map fun _ => []) →
    ∀ t ∈ trip.tries, t.sent = replay req) (fun _ => ?_) (fun hclone => ?_) (fun hclone => ?_) (fun hclone ih => ?_)
  · exact fun _ _ t ht => absurd ht List.not_mem_nil
  · intro h0 hstream t ht
    obtain rfl := List.mem_singleton.mp ht
    exact hbody hclone h0 hstream
  · intro h0 hstream t ht
    obtain rfl := List.mem_singleton.mp ht
    exact hbody hclone h0 hstream
  · intro h0 hstream
    refine List.forall_mem_cons.mpr ⟨hbody hclone h0 hstream, ih (Nat.succ_ne_zero _) ?_⟩
    rw [hstream, Option.map_map]
    rfl

theorem roundTrip_tries (req : Request) (turns : Nat → Turn) :
    ∃ first rest, (roundTrip req turns).tries = first :: rest ∧ first.sent = original req ∧
      ∀ t ∈ rest, t.sent = replay req := by
  rw [roundTrip]
  split
  · exact ⟨_, [], rfl, rfl, fun t ht => absurd ht List.not_mem_nil⟩
  · obtain ⟨h0, -⟩ | ⟨body, hbody, h⟩ := attempts_cases req turns routerRetryMaxRetries 0 req.body
    · exact absurd rfl h0
    · rw [cloneRequestForAttempt, if_pos rfl] at hbody
      cases hbody
      obtain h | ⟨delay, err, h⟩ | ⟨rest, more, delay, -, hrest, h⟩ := h
      · exact ⟨_, [], by rw [h]; rfl, rfl, fun t ht => absurd ht List.not_mem_nil⟩
      · exact ⟨_, [], by rw [h], rfl, fun t ht => absurd ht List.not_mem_nil⟩
      · exact ⟨_, rest.tries, by rw [h], rfl, hrest ▸ sent_later (Nat.succ_ne_zero 0) rfl⟩

theorem replay_eq_original_iff : replay req = original req ↔ req.body.getD [] = [] ∨ req.getBody := by
  rw [replay, original, Request.send, Request.send]
  rcases req.body with _ | body
  · simp
  · by_cases hget : req.getBody
    · simp [hget]
    · simp [hget, eq_comm]

/-! ## Round trips -/

theorem length_roundTrip_le (req : Request) (turns : Nat → Turn) : (roundTrip req turns).tries.length ≤ 3 := by
  rw [roundTrip]
  split
  · exact Nat.le_add_left 1 2
  · exact length_attempts_le

theorem roundTrip_once (h : SendOnce req) (turns : Nat → Turn) : (roundTrip req turns).tries.length = 1 := by
  have hnot : isRetryableRequest req = false := by
    rw [isRetryableRequest, if_neg fun hsafe => h.1 (List.contains_iff_mem.mp hsafe)]
    split
    · rename_i hkeyed
      simp [h.2 (List.contains_iff_mem.mp hkeyed)]
    · rfl
  rw [roundTrip, hnot]
  rfl

theorem handled_roundTrip (req : Request) (turns : Nat → Turn) :
    ∀ t ∈ (roundTrip req turns).tries, Handled (roundTrip req turns) t := by
  rw [roundTrip]
  split
  · exact handled_last _ _
  · exact handled_attempts

theorem roundTrip_of_not_retried (h : ¬ Retried req (turns 0)) : (roundTrip req turns).tries.length = 1 := by
  rw [roundTrip]
  split
  · rfl
  rename_i hreq
  rw [attempts, routerRetryMaxRetries]
  dsimp only [cloneRequestForAttempt]
  rw [if_pos rfl]
  dsimp only
  split <;> [rfl; skip]
  rename_i hresp
  split <;> [rfl; skip]
  rename_i hbudget
  split
  · rfl
  · rename_i hdone
    exact absurd ⟨by simpa using hreq, by simpa using hresp, by simpa using hbudget, hdone⟩ h

theorem attempts_ne_nil (hget : req.getBody = false) : (attempts req turns left attempt stream).tries ≠ [] := by
  have hclone : cloneRequestForAttempt req attempt stream (turns attempt) = .ok stream := by
    simp [cloneRequestForAttempt, hget]
  rw [attempts]
  simp only [hclone]
  split <;> [exact List.cons_ne_nil _ _; skip]
  split <;> [exact List.cons_ne_nil _ _; skip]
  split <;> [exact List.cons_ne_nil _ _; skip]
  split <;> exact List.cons_ne_nil _ _

theorem roundTrip_of_retried (h : Retried req (turns 0)) (hget : req.getBody = false) :
    (roundTrip req turns).tries.length ≠ 1 := by
  obtain ⟨hreq, hresp, hbudget, hdone⟩ := h
  have hrest : 0 < (attempts req turns 1 1 (req.body.map fun _ => [])).tries.length :=
    List.length_pos_of_ne_nil (attempts_ne_nil hget)
  rw [roundTrip, hreq, attempts, routerRetryMaxRetries]
  simp only [cloneRequestForAttempt, ↓reduceIte, hresp, hbudget, hdone, Bool.not_true, Bool.false_eq_true,
    List.length_cons]
  exact Nat.succ_ne_succ_iff.mpr (Nat.ne_of_gt hrest)

/-- A request is sent at most three times, once if it must not be sent twice, and no response is left
open. The attempts send all of it exactly if the first is the only one, its body is empty or it has
`GetBody`. -/
theorem round_trip_faithful (req : Request) (turns : Nat → Turn) :
    (roundTrip req turns).tries.length ≤ 3 ∧ (SendOnce req → (roundTrip req turns).tries.length = 1) ∧
    (∀ t ∈ (roundTrip req turns).tries, Handled (roundTrip req turns) t) ∧
    ((∀ t ∈ (roundTrip req turns).tries, t.sent = original req) ↔
      ¬ Retried req (turns 0) ∨ req.body.getD [] = [] ∨ req.getBody) := by
  refine ⟨length_roundTrip_le req turns, fun h => roundTrip_once h turns, handled_roundTrip req turns, ?_⟩
  obtain ⟨first, rest, htries, hfirst, hrest⟩ := roundTrip_tries req turns
  constructor
  · intro h
    by_cases hre : Retried req (turns 0)
    · refine .inr ?_
      by_cases hget : req.getBody
      · exact .inr hget
      have hlen := roundTrip_of_retried hre (Bool.not_eq_true _ ▸ hget)
      rw [htries] at h hlen
      rcases rest with _ | ⟨second, rest⟩
      · exact absurd rfl hlen
      · rw [← replay_eq_original_iff, ← hrest second List.mem_cons_self]
        exact h second (List.mem_cons_of_mem _ List.mem_cons_self)
    · exact .inl hre
  · rintro (hnot | hreplay)
    · have hlen := roundTrip_of_not_retried hnot
      rw [htries] at hlen ⊢
      obtain rfl : rest = [] := List.eq_nil_of_length_eq_zero (Nat.succ.inj hlen)
      exact List.forall_mem_cons.mpr ⟨hfirst, fun t ht => absurd ht List.not_mem_nil⟩
    · rw [htries]
      exact List.forall_mem_cons.mpr ⟨hfirst, fun t ht => (hrest t ht).trans (replay_eq_original_iff.mpr hreplay)⟩

def search : Request where
  method := utf8 "GET"
  url := utf8 "/search"
  header := []
  body := some (utf8 "q")
  getBody := false

def unavailableOnce : Nat → Turn
  | 0 => ⟨none, some ⟨503, some []⟩, none, newBudget 0, 0, 0, none⟩
  | _ => ⟨none, some ⟨200, some []⟩, none, newBudget 0, 0, 0, none⟩

theorem body_lost :
    (roundTrip search unavailableOnce).tries.map (·.sent.body) = [utf8 "q", []] ∧
      (∃ t ∈ (roundTrip search unavailableOnce).tries, t.sent ≠ original search) ∧
      (roundTrip search unavailableOnce).resp = some ⟨200, some []⟩ := by
  decide +kernel

end Csar.Proof.StsClient
