import CsarCore.Framework.Utf8
import CsarCore.Spec.HTTP

/-!
# What `ReadJSON` accepts

`readJSON_ok_iff` is what it accepts: a value that decodes, behind which `More` sees nothing
in the first MiB. `More` looks for another element of an array or object, and so takes a
closing bracket for the end of the body, and it takes the error behind the first MiB for
one. But for these, a body that is accepted is one JSON value (`single_iff`).
-/

namespace Csar.Proof.Httpx

open Impl.Httpx Spec.Httpx Csar.Json

variable {τ ε : Type} {unmarshal : Bytes → Except String τ} {text : Stream ε → String} {tooLarge : ε} {body : Stream ε}
  {ws v rest data : Bytes}

theorem read_value {eof : Bool} (hws : Spaces ws) (hv : IsValue v) (hrest : ∀ c ∈ rest.head?, Scanner.ends c = true)
    (heof : rest ≠ [] ∨ eof = true) : Scanner.read eof .start (ws ++ (v ++ rest)) = some rest := by
  rw [Scanner.read_spaces hws, Scanner.read_append hv.1 hrest heof]

theorem exists_value {eof : Bool} (h : Scanner.read eof .start data = some rest) :
    ∃ ws v, data = ws ++ (v ++ rest) ∧ Spaces ws ∧ IsValue v := by
  obtain ⟨w, rfl, hw⟩ := Scanner.read_split h
  have hws : Spaces (w.takeWhile isSpaceByte) := List.all_eq_true.mp List.all_takeWhile
  refine ⟨w.takeWhile isSpaceByte, w.dropWhile isSpaceByte, ?_, hws, ?_, fun c hc => ?_⟩
  · rw [← List.append_assoc, List.takeWhile_append_dropWhile]
  · rw [← Scanner.read_spaces hws, List.takeWhile_append_dropWhile, hw]
  · have hnot := List.head?_dropWhile_not isSpaceByte w
    rw [Option.mem_def.mp hc] at hnot
    exact hnot

theorem readJSON_ok_iff {x : τ} :
    readJSON unmarshal text tooLarge body = .ok x ↔
      ∃ rest, Scanner.read (body.maxBytes maxReadJSONBytes tooLarge).err.isNone .start
          (body.data.take maxReadJSONBytes) = some rest ∧
        unmarshal ((body.data.take maxReadJSONBytes).take
          ((body.data.take maxReadJSONBytes).length - rest.length)) = .ok x ∧ more rest = false := by
  rw [readJSON, Impl.Httpx.decode, Stream.data_maxBytes]
  cases Scanner.read (body.maxBytes maxReadJSONBytes tooLarge).err.isNone .start
    (body.data.take maxReadJSONBytes) with
  | none => exact iff_of_false nofun nofun
  | some rest =>
    dsimp only
    cases hvalue : unmarshal ((body.data.take maxReadJSONBytes).take
      ((body.data.take maxReadJSONBytes).length - rest.length)) with
    | error e =>
      refine iff_of_false nofun ?_
      rintro ⟨rest', ⟨⟩, hok, -⟩
      rw [hvalue] at hok
      cases hok
    | ok v =>
      simp only [Option.some.injEq, exists_eq_left', hvalue]
      change (if more rest = true then Except.error _ else Except.ok v) = Except.ok x ↔ _
      cases more rest <;> simp

theorem head_ends (hws : Spaces ws) (hrest : ∀ c ∈ rest.head?, Scanner.ends c = true) :
    ∀ c ∈ (ws ++ rest).head?, Scanner.ends c = true := by
  cases ws with
  | nil => exact hrest
  | cons d ws =>
    rintro c ⟨⟩
    rw [Scanner.ends, hws d List.mem_cons_self, Bool.true_or]

theorem read_single (h : Single data) : ∃ ws, Scanner.read true .start data = some ws ∧ Spaces ws := by
  obtain ⟨ws, v, ws', rfl, hws, hv, hws'⟩ := h
  refine ⟨ws', read_value hws hv ?_ (.inr rfl), hws'⟩
  rw [← List.append_nil ws']
  exact head_ends hws' fun c hc => by cases hc

/-- What begins with a closing bracket is the end for `More`. -/
theorem bracket_ends {tail : Bytes} {c : UInt8} (hc : c ∈ tail.head?) (hclose : c ∈ [0x5D, 0x7D]) :
    ∀ d ∈ tail.head?, Scanner.ends d = true := by
  intro d hd
  cases Option.mem_unique hc hd
  rw [Scanner.ends, decide_eq_true hclose, Bool.or_true]

theorem not_single_of_bracket {ws' tail : Bytes} {c : UInt8} (hws : Spaces ws) (hv : IsValue v) (hws' : Spaces ws')
    (hc : c ∈ tail.head?) (hclose : c ∈ [0x5D, 0x7D]) : ¬ Single (ws ++ (v ++ (ws' ++ tail))) := by
  intro hsingle
  obtain ⟨spaces, hread, hspaces⟩ := read_single hsingle
  rw [read_value hws hv (head_ends hws' (bracket_ends hc hclose)) (.inr rfl)] at hread
  cases hread
  have hspace := hspaces c (List.mem_append_right _ (List.mem_of_mem_head? hc))
  rcases List.mem_cons.mp hclose with rfl | hclose
  · cases hspace
  · rw [List.mem_singleton.mp hclose] at hspace
    cases hspace

/-- Behind spaces `More` is false at the end, and before a closing bracket. -/
theorem more_eq_false_iff {ws' tail : Bytes} (hws' : Spaces ws') (htail : ∀ c ∈ tail.head?, isSpaceByte c = false) :
    more (ws' ++ tail) = false ↔ tail = [] ∨ ∃ c ∈ tail.head?, c ∈ [0x5D, 0x7D] := by
  have hdrop : (ws' ++ tail).dropWhile isSpaceByte = tail := by
    rw [List.dropWhile_append_of_pos hws']
    cases tail with
    | nil => rfl
    | cons c tail => rw [List.dropWhile_cons_of_neg (by simp [htail c rfl])]
  rw [more, hdrop]
  cases tail with
  | nil => simp
  | cons c tail => simp [or_iff_not_imp_left]

/-- A body that has more than is seen is accepted. -/
theorem accepted_of_overlooked (text : Stream ε → String) (tooLarge : ε) (h : Overlooked unmarshal body.data) :
    ∃ x, readJSON unmarshal text tooLarge body = .ok x := by
  obtain ⟨ws, v, ws', tail, x, hdata, hws, hv, hws', hx, htail⟩ := h
  refine ⟨x, readJSON_ok_iff.mpr ⟨ws' ++ tail, ?_, ?_, ?_⟩⟩
  · rw [hdata]
    rcases htail with ⟨c, hc, hclose⟩ | ⟨rfl, hlong, hend⟩
    · refine read_value hws hv (head_ends hws' (bracket_ends hc hclose)) (.inl ?_)
      exact List.append_ne_nil_of_right_ne_nil _ (List.ne_nil_of_mem (List.mem_of_mem_head? hc))
    · rw [Stream.err_maxBytes body hlong, Option.isNone_some, List.append_nil]
      by_cases hnil : ws' = []
      · rw [hnil, List.append_nil, Scanner.read_spaces hws]
        exact hend.resolve_left (· hnil)
      · have hends := head_ends hws' (nofun : ∀ c ∈ ([] : Bytes).head?, Scanner.ends c = true)
        rw [List.append_nil] at hends
        exact read_value hws hv hends (.inl hnil)
  · rw [hdata, ← hx]
    congr 1
    rw [← List.append_assoc, List.length_append, Nat.add_sub_cancel, List.take_left]
  · rcases htail with ⟨c, hc, hclose⟩ | ⟨rfl, -⟩
    · refine (more_eq_false_iff hws' fun d hd => ?_).mpr (.inr ⟨c, hc, hclose⟩)
      cases Option.mem_unique hc hd
      rcases List.mem_cons.mp hclose with rfl | hclose
      · rfl
      · rw [List.mem_singleton.mp hclose]
        rfl
    · exact (more_eq_false_iff hws' (by simp)).mpr (.inl rfl)

theorem not_single_of_overlooked (h : Overlooked unmarshal data) :
    ¬ (data.length ≤ maxReadJSONBytes ∧ Single data) := by
  rintro ⟨hle, hsingle⟩
  obtain ⟨ws, v, ws', tail, x, hdata, hws, hv, hws', -, ⟨c, hc, hclose⟩ | ⟨-, hlong, -⟩⟩ := h
  · rw [List.take_of_length_le hle] at hdata
    exact not_single_of_bracket hws hv hws' hc hclose (hdata ▸ hsingle)
  · exact Nat.not_le.mpr hlong hle

/-- An accepted body is one JSON value and not too long, or has more than is seen. -/
theorem single_or_overlooked {x : τ} (h : readJSON unmarshal text tooLarge body = .ok x) :
    body.data.length ≤ maxReadJSONBytes ∧ Single body.data ∨ Overlooked unmarshal body.data := by
  obtain ⟨rest, hread, hvalue, hmore⟩ := readJSON_ok_iff.mp h
  obtain ⟨ws, v, hdata, hws, hv⟩ := exists_value hread
  have hws' : Spaces (rest.takeWhile isSpaceByte) := List.all_eq_true.mp List.all_takeWhile
  have htail : ∀ c ∈ (rest.dropWhile isSpaceByte).head?, isSpaceByte c = false := fun c hc => by
    have hnot := List.head?_dropWhile_not isSpaceByte rest
    rwa [Option.mem_def.mp hc] at hnot
  have hrest : rest = rest.takeWhile isSpaceByte ++ rest.dropWhile isSpaceByte :=
    List.takeWhile_append_dropWhile.symm
  have hx : unmarshal (ws ++ v) = .ok x := by
    rw [← hvalue, hdata]
    congr 1
    rw [← List.append_assoc, List.length_append, Nat.add_sub_cancel, List.take_left]
  rw [hrest, more_eq_false_iff hws' htail] at hmore
  rw [hrest] at hdata
  rcases hmore with hnil | hclose
  · by_cases hle : body.data.length ≤ maxReadJSONBytes
    · rw [hnil, List.append_nil, List.take_of_length_le hle] at hdata
      exact .inl ⟨hle, ws, v, _, hdata, hws, hv, hws'⟩
    · -- the value is the whole of what was read, or a space follows it
      refine .inr ⟨ws, v, _, _, x, hdata, hws, hv, hws', hx, .inr ⟨hnil, Nat.not_le.mp hle, ?_⟩⟩
      by_cases hspaces : rest.takeWhile isSpaceByte = []
      · refine .inr ?_
        rw [hdata, hnil, hspaces, Stream.err_maxBytes body (Nat.not_le.mp hle), hrest, hnil, hspaces,
          List.append_nil, List.append_nil, Scanner.read_spaces hws] at hread
        exact hread
      · exact .inl hspaces
  · exact .inr ⟨ws, v, _, _, x, hdata, hws, hv, hws', hx, .inl hclose⟩

/-- Acceptance means that a body is one JSON value and at most 1 MiB long, exactly if it has nothing that
is overlooked. -/
theorem single_iff (unmarshal : Bytes → Except String τ) (text : Stream ε → String) (tooLarge : ε) (body : Stream ε) :
    (∀ x, readJSON unmarshal text tooLarge body = .ok x →
      body.data.length ≤ maxReadJSONBytes ∧ Single body.data) ↔ ¬ Overlooked unmarshal body.data := by
  constructor
  · intro h hmore
    obtain ⟨x, hx⟩ := accepted_of_overlooked text tooLarge hmore
    exact not_single_of_overlooked hmore (h x hx)
  · intro h x hx
    exact (single_or_overlooked hx).resolve_right h

/-- An object, and spaces up to 1 MiB and one more. -/
def longBody : Bytes := [0x7B, 0x7D] ++ List.replicate (maxReadJSONBytes - 1) 0x20

theorem longBody_overlooked : Overlooked (fun _ => .ok ()) longBody := by
  refine ⟨[], [0x7B, 0x7D], List.replicate (maxReadJSONBytes - 2) 0x20, [], (), ?_, nofun, ?_, ?_, rfl,
    .inr ⟨rfl, ?_, .inr rfl⟩⟩
  · have hle : maxReadJSONBytes - 2 ≤ maxReadJSONBytes - 1 := Nat.sub_le_sub_left (by decide) _
    rw [longBody, List.take_append, List.take_of_length_le (by decide), List.take_replicate, List.append_nil]
    exact congrArg (fun n => [0x7B, 0x7D] ++ List.replicate n 0x20) (Nat.min_eq_left hle)
  · exact ⟨rfl, by rintro c ⟨⟩; rfl⟩
  · intro c hc
    rw [List.eq_of_mem_replicate hc]
    rfl
  · rw [longBody, List.length_append, List.length_replicate]
    decide

/-- A bracket behind the value is accepted, and so is a body that goes on behind the first MiB. -/
theorem bracket_accepted :
    (readJSON (fun _ => .ok ()) (fun _ => "") () ⟨utf8 "\x7b\x7d]", none⟩ = .ok () ∧
      ¬ Single (utf8 "\x7b\x7d]")) ∧
    readJSON (fun _ => .ok ()) (fun _ => "") () ⟨longBody, none⟩ = .ok () ∧
      maxReadJSONBytes < longBody.length := by
  have hoverlooked : Overlooked (fun _ => .ok ()) (⟨longBody, none⟩ : Stream Unit).data := longBody_overlooked
  obtain ⟨⟨⟩, hlong⟩ := accepted_of_overlooked (fun _ => "") () hoverlooked
  refine ⟨?_, hlong, ?_⟩
  · rw [utf8_eq_encodeRunes]
    refine ⟨rfl, fun hsingle => ?_⟩
    obtain ⟨ws, hread, hws⟩ := read_single hsingle
    cases hread
    exact absurd (hws 0x5D List.mem_cons_self) (by decide)
  · rw [longBody, List.length_append, List.length_replicate]
    decide

end Csar.Proof.Httpx
