import CsarCore.Framework.Except
import CsarCore.Spec.Storage

/-!
# Joined keys

A key is accepted if its segments, without the spaces around it, are names without
control characters (`validateObjectKey_eq_ok`), and then those of a joined key are
names too (`names_of_join`). But a space may be a control character, which joining
puts into the middle of the result, where it is refused: `joined_valid_iff`.
-/

namespace Csar.Proof.Storage

open Impl.Storage Spec.Storage Csar.Path Strings

variable {pre key k : Bytes}

/-! ## Validation -/

theorem segmentError_eq_none {s : Bytes} (hs : slash ∉ s) : segmentError s = none ↔ Name s ∧ NoControl s := by
  have hcontrol : (runes s).any isControl = true ↔ ¬ NoControl s := by
    simp [NoControl, List.any_eq_true]
  unfold segmentError
  split
  · rename_i hnil
    exact iff_of_false nofun fun h => h.1.1 hnil
  · rename_i hne
    split
    · rename_i hdots
      exact iff_of_false nofun fun h => hdots.elim h.1.2.1 h.1.2.2.1
    · rename_i hdots
      have hname : Name s := ⟨hne, (not_or.mp hdots).1, (not_or.mp hdots).2, hs⟩
      split
      · rename_i hbad
        exact iff_of_false nofun fun h => hcontrol.mp hbad h.2
      · rename_i hgood
        exact iff_of_true rfl ⟨hname, not_not.mp (mt hcontrol.mpr hgood)⟩

/-- A key is valid UTF-8, and names without control characters between the spaces around it. -/
theorem validateObjectKey_eq_ok : validateObjectKey key = .ok () ↔
    validUtf8 key ∧ (∀ s ∈ segments (trimSpace key), Name s) ∧ NoControl (trimSpace key) := by
  have hsegs : (split (trimSpace key) slash).findSome? segmentError = none ↔
      (∀ s ∈ segments (trimSpace key), Name s) ∧ NoControl (trimSpace key) := by
    rw [List.findSome?_eq_none_iff, NoControl, ← forall_runes_segments (by decide), ← forall₂_and]
    exact forall₂_congr fun s hs => segmentError_eq_none (slash_not_mem_segments hs)
  unfold validateObjectKey
  split
  · rename_i hbad
    exact iff_of_false nofun fun h => hbad h.1
  · rename_i hvalid
    dsimp only
    split
    · rename_i hnil
      refine iff_of_false nofun fun h => not_names_nil ?_
      rw [← hnil]
      exact h.2.1
    · split
      · rename_i hends
        exact iff_of_false nofun fun h => hends.elim (ends_of_names h.2.1).1 (ends_of_names h.2.1).2
      · rw [← hsegs]
        split
        · rename_i msg hmsg
          rw [hmsg]
          exact iff_of_false nofun fun h => nomatch h.2
        · rename_i hnone
          exact iff_of_true rfl ⟨not_not.mp hvalid, hnone⟩

/-! ## Spaces -/

theorem spaces_plain {w : List Char} (hw : ∀ c ∈ w, spaceChar c = true) : ∀ b ∈ encodeRunes w, b ≠ slash ∧ b ≠ 0x2E := by
  have hno : ∀ b : UInt8, b.toNat < 128 → spaceChar (Char.ofNat b.toNat) = false → b ∉ encodeRunes w := by
    intro b hb hspace hmem
    have := hw _ ((mem_encodeRunes_ascii hb).mp hmem)
    rw [hspace] at this
    cases this
  refine fun b hb => ⟨?_, ?_⟩
  · rintro rfl
    exact hno slash (by decide) (by decide) hb
  · rintro rfl
    exact hno 0x2E (by decide) (by decide) hb

theorem names_of_validate (h : validateObjectKey key = .ok ()) : ∀ s ∈ segments key, Name s := by
  obtain ⟨hvalid, hnames, -⟩ := validateObjectKey_eq_ok.mp h
  obtain ⟨cs, rfl⟩ := validUtf8_iff.mp hvalid
  rw [trimSpace_encodeRunes] at hnames
  have hsplit : encodeRunes cs = encodeRunes ((cs.rdropWhile spaceChar).takeWhile spaceChar) ++
      encodeRunes ((cs.rdropWhile spaceChar).dropWhile spaceChar) ++ encodeRunes (cs.rtakeWhile spaceChar) := by
    rw [← encodeRunes_append, List.takeWhile_append_dropWhile, ← encodeRunes_append, List.rdropWhile_append_rtakeWhile]
  rw [hsplit]
  exact names_wrap hnames (spaces_plain fun c hc => List.mem_takeWhile_imp hc)
    (spaces_plain fun c hc => List.mem_rtakeWhile_imp hc)

/-! ## Joining -/

theorem joinObjectKey_eq_ok (h : joinObjectKey pre key = .ok k) :
    validateObjectKey key = .ok () ∧
      ((trim pre slash = [] ∧ k = key) ∨
        (trim pre slash ≠ [] ∧ validateObjectKey (trim pre slash) = .ok () ∧ k = trim pre slash ++ slash :: key)) := by
  unfold joinObjectKey at h
  obtain ⟨⟨⟩, hkey, h⟩ := bind_eq_ok h
  refine ⟨hkey, ?_⟩
  dsimp only at h
  split at h
  · rename_i hnil
    cases h
    exact .inl ⟨hnil, rfl⟩
  · rename_i hne
    obtain ⟨⟨⟩, hpre, h⟩ := bind_eq_ok h
    cases h
    exact .inr ⟨hne, mapError_eq_ok hpre, rfl⟩

theorem names_of_join (h : joinObjectKey pre key = .ok k) : ∀ s ∈ segments k, Name s := by
  obtain ⟨hkey, ⟨-, rfl⟩ | ⟨-, hpre, rfl⟩⟩ := joinObjectKey_eq_ok h
  · exact names_of_validate hkey
  · exact names_append_iff.mpr ⟨names_of_validate hpre, names_of_validate hkey⟩

theorem noControl_append {p q : Bytes} : NoControl (p ++ slash :: q) ↔ NoControl p ∧ NoControl q := by
  have hrunes : runes (p ++ slash :: q) = runes p ++ some '/' :: runes q := by
    rw [runes_append (startsRune_ascii (by decide) q), runes_ascii (by decide)]
    rfl
  rw [NoControl, hrunes, List.forall_mem_append, List.forall_mem_cons]
  exact and_congr_right fun _ => and_iff_right (by decide)

theorem names_half_trimmed {cs : List Char} (h : ∀ s ∈ segments (trimSpace (encodeRunes cs)), Name s) :
    (∀ s ∈ segments (encodeRunes (cs.dropWhile spaceChar)), Name s) ∧
      ∀ s ∈ segments (encodeRunes (cs.rdropWhile spaceChar)), Name s := by
  rw [trimSpace_encodeRunes] at h
  have hne : ¬ ((cs.rdropWhile spaceChar).dropWhile spaceChar).isEmpty := by
    intro hnil
    rw [List.isEmpty_iff.mp hnil] at h
    exact not_names_nil h
  have hleft : cs.dropWhile spaceChar = (cs.rdropWhile spaceChar).dropWhile spaceChar ++ cs.rtakeWhile spaceChar := by
    conv_lhs => rw [← List.rdropWhile_append_rtakeWhile (p := spaceChar) (l := cs)]
    rw [List.dropWhile_append, if_neg hne]
  constructor
  · rw [hleft, encodeRunes_append]
    exact names_wrap (w := []) h (by simp) (spaces_plain fun c hc => List.mem_rtakeWhile_imp hc)
  · rw [← List.takeWhile_append_dropWhile (p := spaceChar) (l := cs.rdropWhile spaceChar), encodeRunes_append]
    have hspaces := spaces_plain fun c hc => List.mem_takeWhile_imp (l := cs.rdropWhile spaceChar) (p := spaceChar) hc
    have hwrap := names_wrap (v := []) h hspaces (by simp)
    rwa [List.append_nil] at hwrap

theorem noControl_encodeRunes {cs : List Char} : NoControl (encodeRunes cs) ↔ ∀ c ∈ cs, isControl (some c) = false := by
  rw [NoControl, runes_encodeRunes, List.forall_mem_map]

theorem validate_append {p q : Bytes} (hp : validateObjectKey p = .ok ()) (hq : validateObjectKey q = .ok ())
    (hcp : NoControl p) (hcq : NoControl q) : validateObjectKey (p ++ slash :: q) = .ok () := by
  obtain ⟨hvp, hnp, -⟩ := validateObjectKey_eq_ok.mp hp
  obtain ⟨hvq, hnq, -⟩ := validateObjectKey_eq_ok.mp hq
  obtain ⟨ps, rfl⟩ := validUtf8_iff.mp hvp
  obtain ⟨qs, rfl⟩ := validUtf8_iff.mp hvq
  have hjoin : ∀ xs ys : List Char, encodeRunes xs ++ slash :: encodeRunes ys = encodeRunes (xs ++ '/' :: ys) := by
    intro xs ys
    rw [encodeRunes_append, encodeRunes_cons]
    rfl
  have htrim : trimSpace (encodeRunes ps ++ slash :: encodeRunes qs) =
      encodeRunes (ps.dropWhile spaceChar) ++ slash :: encodeRunes (qs.rdropWhile spaceChar) := by
    rw [hjoin, hjoin, trimSpace_append (by decide)]
  rw [validateObjectKey_eq_ok, htrim, names_append_iff, noControl_append]
  refine ⟨?_, ⟨(names_half_trimmed hnp).1, (names_half_trimmed hnq).2⟩, ?_, ?_⟩
  · rw [hjoin]
    exact validUtf8_encodeRunes _
  · rw [noControl_encodeRunes] at hcp ⊢
    exact fun c hc => hcp c ((List.dropWhile_suffix spaceChar).subset hc)
  · rw [noControl_encodeRunes] at hcq ⊢
    exact fun c hc => hcq c ((List.rdropWhile_prefix spaceChar qs).subset hc)

/-- The result of joining is accepted, without a control character, exactly if neither the key nor the
prefix without its slashes has one. -/
theorem joined_valid_iff (h : joinObjectKey pre key = .ok k) :
    (validateObjectKey k = .ok () ∧ NoControl k) ↔ NoControl key ∧ NoControl (trim pre slash) := by
  obtain ⟨hkey, ⟨hnil, rfl⟩ | ⟨-, hpre, rfl⟩⟩ := joinObjectKey_eq_ok h
  · rw [hnil]
    exact ⟨fun hk => ⟨hk.2, nofun⟩, fun hk => ⟨hkey, hk.1⟩⟩
  · rw [noControl_append]
    exact ⟨fun hk => hk.2.symm, fun hk => ⟨validate_append hpre hkey hk.2 hk.1, hk.symm⟩⟩

theorem joined_valid_spaced :
    joinObjectKey (utf8 "/a") (utf8 " b") = .ok (utf8 "a/ b") ∧
      validateObjectKey (utf8 "a/ b") = .ok () ∧ NoControl (utf8 "a/ b") := by
  have hjoin : joinObjectKey (utf8 "/a") (utf8 " b") = .ok (utf8 "a/ b") := by decide +kernel
  exact ⟨hjoin, (joined_valid_iff hjoin).mpr (by decide +kernel)⟩

/-- A tab before a key is left out of the validation, until it is in the middle. -/
theorem tab_joined :
    joinObjectKey (utf8 "a") (utf8 "\tb") = .ok (utf8 "a/\tb") ∧
      validateObjectKey (utf8 "a/\tb") = .error (.invalid "must not contain control characters") ∧
      ¬ NoControl (utf8 "a/\tb") := by
  decide +kernel

end Csar.Proof.Storage
