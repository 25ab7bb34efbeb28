import CsarCore.Impl.HTTPMiddleware.Recorder
import CsarCore.Spec.HTTP

/-!
# The status in the access log

The recorder sends what the handler sends (`record_sends`). Its own status is the first
that is written, unless a body comes before it: it takes a 1xx for one and an empty source
for a body, and does not see that a flush sends the header (`status_logged_iff`).
-/

namespace Csar.Proof.HTTPMiddleware

open Http Impl.HTTPMiddleware Spec.HTTPMiddleware

variable {r : ResponseRecorder}

theorem call_sends (r : ResponseRecorder) (c : ResponseCall) : (r.call c).responseWriter = r.responseWriter.call c := by
  cases c with
  | writeHeader code =>
    simp only [ResponseRecorder.call, ResponseRecorder.writeHeader, Sent.call]
    split <;> rfl
  | write data => rfl
  | flush => rfl
  | readFrom src => rfl

theorem foldl_sends (r : ResponseRecorder) (calls : List ResponseCall) :
    (calls.foldl ResponseRecorder.call r).responseWriter = calls.foldl Sent.call r.responseWriter := by
  induction calls generalizing r with
  | nil => rfl
  | cons c calls ih => rw [List.foldl_cons, List.foldl_cons, ih, call_sends]

theorem call_written (h : r.written = true) (c : ResponseCall) :
    (r.call c).written = true ∧ (r.call c).statusCode = r.statusCode := by
  cases c with
  | writeHeader code =>
    simp only [ResponseRecorder.call, ResponseRecorder.writeHeader, if_pos h]
    exact ⟨h, trivial⟩
  | write data | readFrom src => exact ⟨rfl, rfl⟩
  | flush => exact ⟨h, rfl⟩

theorem foldl_written (h : r.written = true) (calls : List ResponseCall) :
    (calls.foldl ResponseRecorder.call r).statusCode = r.statusCode := by
  induction calls generalizing r with
  | nil => rfl
  | cons c calls ih =>
    obtain ⟨hw, hs⟩ := call_written h c
    rw [List.foldl_cons, ih hw, hs]

def recorded : List ResponseCall → StatusCode
  | .flush :: calls => recorded calls
  | .writeHeader code :: _ => code
  | _ => .ok

theorem foldl_recorded (h : r.written = false) (hs : r.statusCode = .ok) (calls : List ResponseCall) :
    (calls.foldl ResponseRecorder.call r).statusCode = recorded calls := by
  induction calls generalizing r with
  | nil => exact hs
  | cons c calls ih =>
    rw [List.foldl_cons]
    cases c with
    | writeHeader code =>
      have hcall : (r.call (.writeHeader code)).written = true ∧ (r.call (.writeHeader code)).statusCode = code := by
        simp [ResponseRecorder.call, ResponseRecorder.writeHeader, h]
      rw [foldl_written hcall.1, hcall.2]
      rfl
    | write data | readFrom src =>
      rw [foldl_written rfl]
      exact hs
    | flush => exact ih h hs

theorem record_sends (handler : List ResponseCall) :
    (record handler).responseWriter = handler.foldl Sent.call {} := foldl_sends _ handler

theorem record_statusCode (handler : List ResponseCall) : (record handler).statusCode = recorded handler :=
  foldl_recorded rfl rfl handler

/-! ## Agreement -/

theorem not_writeHeader_first {c : ResponseCall} {calls flushes rest : List ResponseCall} {code : StatusCode}
    (hc : ∀ code, c ≠ .writeHeader code) (h : c :: calls = flushes ++ .writeHeader code :: rest)
    (hf : ∀ c ∈ flushes, c = .flush) : c = .flush ∧ ∃ flushes', flushes = .flush :: flushes' ∧
      calls = flushes' ++ .writeHeader code :: rest := by
  cases flushes with
  | nil => exact absurd (List.cons.inj h).1 (hc code)
  | cons x flushes =>
    obtain ⟨rfl, hcalls⟩ := List.cons.inj h
    obtain rfl := hf c List.mem_cons_self
    exact ⟨rfl, flushes, rfl, hcalls⟩

theorem not_after_flushes {c : ResponseCall} {calls flushes rest : List ResponseCall} {code : StatusCode}
    (hc : ∀ code, c ≠ .writeHeader code) (hflush : c ≠ .flush) (h : c :: calls = flushes ++ .writeHeader code :: rest) :
    ¬ ∀ c ∈ flushes, c = .flush :=
  fun hf => hflush (not_writeHeader_first hc h hf).1

theorem recorded_eq_ok (calls : List ResponseCall) : recorded calls = .ok ↔
    ∀ flushes code rest, calls = flushes ++ .writeHeader code :: rest → (∀ c ∈ flushes, c = .flush) → code = .ok := by
  induction calls with
  | nil => exact iff_of_true rfl fun flushes code rest h => by simp at h
  | cons c calls ih =>
    cases c with
    | writeHeader code =>
      constructor
      · intro hok flushes code' rest h hf
        cases flushes with
        | nil =>
          cases h
          exact hok
        | cons x flushes =>
          obtain rfl := hf x List.mem_cons_self
          cases h
      · intro h
        exact h [] code calls rfl (List.forall_mem_nil _)
    | flush =>
      rw [recorded, ih]
      constructor
      · intro h flushes code rest heq hf
        obtain ⟨-, flushes', rfl, hcalls⟩ := not_writeHeader_first (by simp) heq hf
        exact h flushes' code rest hcalls fun c hc => hf c (List.mem_cons_of_mem _ hc)
      · intro h flushes code rest heq hf
        exact h (.flush :: flushes) code rest (by rw [heq]; rfl) (List.forall_mem_cons.mpr ⟨rfl, hf⟩)
    | write data | readFrom src =>
      refine iff_of_true rfl fun flushes code rest h hf => ?_
      exact absurd hf (not_after_flushes (by simp) (by simp) h)

theorem informational_getD_firstStatus (calls : List ResponseCall) :
    ((firstStatus calls).getD .ok).informational = false := by
  cases hfirst : firstStatus calls with
  | none => rfl
  | some code => exact (firstStatus_eq_some.mp hfirst).1

theorem getD_firstStatus_eq_ok (calls : List ResponseCall) :
    StatusCode.ok = (firstStatus calls).getD .ok ↔
      ∀ silent code rest, calls = silent ++ .writeHeader code :: rest → (∀ c ∈ silent, c.Silent) →
        code.informational = false → code = .ok := by
  constructor
  · intro h silent code rest heq hsilent hinfo
    rw [firstStatus_eq_some.mpr ⟨hinfo, silent, rest, heq, hsilent⟩] at h
    exact h.symm
  · intro h
    cases hfirst : firstStatus calls with
    | none => rfl
    | some code =>
      obtain ⟨hinfo, silent, rest, heq, hsilent⟩ := firstStatus_eq_some.mp hfirst
      exact (h silent code rest heq hsilent hinfo).symm

/-- The recorded status is the right one exactly if that is easy to see. -/
theorem recorded_eq_iff (handler : List ResponseCall) :
    recorded handler = (firstStatus handler).getD .ok ↔ StatusFirst handler := by
  cases handler with
  | nil => exact iff_of_true rfl ⟨fun flushes code rest h => by simp at h, fun _ _ _ h => by cases h⟩
  | cons c calls =>
    cases c with
    | writeHeader code =>
      rw [recorded, firstStatus]
      cases hinfo : code.informational with
      | false =>
        refine iff_of_true rfl ⟨fun flushes code' rest h hf => ?_, fun _ _ _ h => by cases h⟩
        cases flushes with
        | nil =>
          cases h
          exact ⟨hinfo, .inl rfl⟩
        | cons x flushes =>
          obtain rfl := hf x List.mem_cons_self
          cases h
      | true =>
        -- the status that is sent is no 1xx
        refine iff_of_false (fun heq => ?_) fun h => ?_
        · have hsent := informational_getD_firstStatus calls
          rw [← show code = (firstStatus calls).getD .ok from heq, hinfo] at hsent
          cases hsent
        · have hfirst := (h.written [] code calls rfl (List.forall_mem_nil _)).1
          rw [hinfo] at hfirst
          cases hfirst
    | flush =>
      rw [recorded]
      refine (recorded_eq_ok calls).trans
        ⟨fun h => ⟨fun flushes code rest heq hf => ?_, fun _ _ _ h => by cases h⟩, fun h flushes code rest heq hf => ?_⟩
      · obtain ⟨-, flushes', rfl, hcalls⟩ := not_writeHeader_first (by simp) heq hf
        obtain rfl := h flushes' code rest hcalls fun c hc => hf c (List.mem_cons_of_mem _ hc)
        exact ⟨rfl, .inr rfl⟩
      · have hfirst := h.written (.flush :: flushes) code rest (by rw [heq]; rfl) (List.forall_mem_cons.mpr ⟨rfl, hf⟩)
        exact hfirst.2.resolve_left (List.cons_ne_nil _ _)
    | write data =>
      refine iff_of_true rfl ⟨fun flushes code rest h hf => ?_, fun _ _ _ h => by cases h⟩
      exact absurd hf (not_after_flushes (by simp) (by simp) h)
    | readFrom src =>
      have hwritten : ∀ flushes code rest, .readFrom src :: calls = flushes ++ .writeHeader code :: rest →
          (∀ c ∈ flushes, c = .flush) → code.informational = false ∧ (flushes = [] ∨ code = .ok) :=
        fun flushes code rest h hf => absurd hf (not_after_flushes (by simp) (by simp) h)
      cases src with
      | nil =>
        refine (getD_firstStatus_eq_ok calls).trans ⟨fun h => ⟨hwritten, ?_⟩, fun h silent code rest heq => ?_⟩
        · rintro silent code rest ⟨⟩
          exact h silent code rest rfl
        · exact h.read silent code rest (by rw [heq])
      | cons b src => exact iff_of_true rfl ⟨hwritten, fun _ _ _ h => by cases h⟩

/-- For every sequence of calls: what is sent has the first status that is not 1xx, if that is before any
call that sends something else, and else 200; and this is logged exactly if it is easy to see. -/
theorem status_logged_iff (req : LoggedRequest) (start stop : Int) (handler : List ResponseCall) :
    (accessLog req start stop handler).1.final = (firstStatus handler).getD .ok ∧
      ((accessLog req start stop handler).2.status = (accessLog req start stop handler).1.final ↔
        StatusFirst handler) := by
  have hsent : (accessLog req start stop handler).1.final = (firstStatus handler).getD .ok := by
    show (record handler).responseWriter.final = _
    rw [record_sends]
    exact finalStatus_eq handler
  have hlogged : (accessLog req start stop handler).2.status = recorded handler := record_statusCode handler
  exact ⟨hsent, by rw [hlogged, hsent, recorded_eq_iff]⟩

def notFound : StatusCode := ⟨404, by decide⟩

def earlyHints : StatusCode := ⟨103, by decide⟩

/-- Early hints are logged as the status, and so is one after a flush; one after an empty source is not. -/
theorem hints_logged :
    (accessLog ⟨[], [], []⟩ 0 1 [.writeHeader earlyHints, .writeHeader notFound]).2.status = earlyHints ∧
      (accessLog ⟨[], [], []⟩ 0 1 [.writeHeader earlyHints, .writeHeader notFound]).1.final = notFound ∧
      (accessLog ⟨[], [], []⟩ 0 1 [.flush, .writeHeader notFound]).2.status = notFound ∧
      (accessLog ⟨[], [], []⟩ 0 1 [.flush, .writeHeader notFound]).1.final = .ok ∧
      (accessLog ⟨[], [], []⟩ 0 1 [.readFrom [], .writeHeader notFound]).2.status = .ok ∧
      (accessLog ⟨[], [], []⟩ 0 1 [.readFrom [], .writeHeader notFound]).1.final = notFound := by
  decide

end Csar.Proof.HTTPMiddleware
