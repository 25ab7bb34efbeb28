import CsarCore.Impl.Email.Message

/-!
# Normalising a normalised address

`Normalize` returns an address in lower case, without the quotes, names and comments that were around it,
and without white space at its ends. A second call reads that address as the same one just if it needs no
quotes (`normalize_fixed_iff`): a parser that takes anything off returns a shorter text.
-/

namespace Csar.Proof.Emailnorm

open Impl.Emailnorm Strings

variable {refusal : Bytes → String} {value email : Bytes} {l d : List Char}

/-- An address without white space at its ends, in lower case. -/
def returned (l d : List Char) : List Char := (l.dropWhile spaceChar ++ '@' :: d.rdropWhile spaceChar).map lowerChar

theorem returned_eq (l d : List Char) :
    returned l d = (l.dropWhile spaceChar).map lowerChar ++ '@' :: (d.rdropWhile spaceChar).map lowerChar := by
  rw [returned, List.map_append, List.map_cons]
  rfl

theorem length_returned (l d : List Char) : (returned l d).length ≤ (Mail.addrSpec (l, d)).length := by
  have hl := (List.dropWhile_sublist (l := l) spaceChar).length_le
  have hd := (List.rdropWhile_prefix spaceChar (l := d)).length_le
  simp only [returned, Mail.addrSpec, List.length_map, List.length_append, List.length_cons]
  omega

theorem toLower_trimSpace_addrSpec (l d : List Char) :
    toLower (trimSpace (encodeRunes (Mail.addrSpec (l, d)))) = encodeRunes (returned l d) := by
  rw [Mail.addrSpec, trimSpace_append (by decide), toLower, text_encodeRunes, returned]

/-- Whatever is read is accepted: it has an `@`. -/
theorem normalize_of_parse (h : Mail.parseSingleAddress (runes (trimSpace value)) = some (l, d)) :
    normalize refusal value = .ok (encodeRunes (returned l d)) := by
  have hat : 0x40 ∈ encodeRunes (returned l d) := by
    rw [mem_encodeRunes_ascii (by decide), returned_eq]
    exact List.mem_append_right _ List.mem_cons_self
  have hne : encodeRunes (returned l d) ≠ [] := List.ne_nil_of_mem hat
  simp only [Impl.Emailnorm.normalize, h, toLower_trimSpace_addrSpec]
  rw [if_neg (by rw [not_or, not_not]; exact ⟨hne, hat⟩)]

theorem parse_of_normalize (h : normalize refusal value = .ok email) :
    ∃ l d, Mail.parseSingleAddress (runes (trimSpace value)) = some (l, d) ∧ encodeRunes (returned l d) = email := by
  rcases hparse : Mail.parseSingleAddress (runes (trimSpace value)) with _ | ⟨l, d⟩
  · simp [Impl.Emailnorm.normalize, hparse] at h
  · rw [normalize_of_parse hparse] at h
    exact ⟨l, d, rfl, Except.ok.inj h⟩

theorem at_notMem (h : Mail.IsDotAtom l) : '@' ∉ l := fun hat =>
  absurd (List.all_eq_true.mp h.2.1 _ hat) (by decide)

theorem at_notMem_domain (h : Mail.IsDomain d) : '@' ∉ d := by
  rcases h with h | ⟨ip, rfl, hip⟩
  · exact at_notMem h
  · simpa using (Mail.of_isIP hip).2

theorem isDomain_lower : Mail.IsDomain (d.map lowerChar) ↔ Mail.IsDomain d :=
  or_congr Mail.isDotAtom_lower Mail.isLiteral_lower

/-- A normalised address is a fixed point just if what `ParseAddress` reads in the value, without white
space at its ends, has a local part that needs no quotes and a domain. -/
theorem normalize_fixed_iff (h : normalize refusal value = .ok email) :
    normalize refusal email = .ok email ↔
      ∃ l d, Mail.parseSingleAddress (runes (trimSpace value)) = some (l, d) ∧
        Mail.IsDotAtom (l.dropWhile spaceChar) ∧ Mail.IsDomain (d.rdropWhile spaceChar) := by
  obtain ⟨l, d, hparse, hemail⟩ := parse_of_normalize h
  have htrim : trimSpace email = email := by
    rw [← hemail, ← toLower_trimSpace_addrSpec]
    exact trimSpace_toLower_trimSpace _
  have hrunes : runes (trimSpace email) = (returned l d).map some := by
    rw [htrim, ← hemail, runes_encodeRunes]
  constructor
  · intro hfix
    obtain ⟨l', d', hparse', hemail'⟩ := parse_of_normalize hfix
    rw [hrunes] at hparse'
    -- what is returned again is as long as what is read again, so nothing has been taken off
    have hlen : (returned l d).length ≤ (Mail.addrSpec (l', d')).length := by
      rw [← encodeRunes_injective (hemail'.trans hemail.symm)]
      exact length_returned l' d'
    obtain ⟨hdomain, hread⟩ := Mail.of_parseSingleAddress hparse'
    obtain ⟨hatom, htext⟩ := hread.resolve_left (by rw [List.length_map]; omega)
    have hsame : returned l d = l' ++ '@' :: d' := List.map_injective_iff.mpr (Option.some_injective Char) htext
    rw [returned_eq] at hsame
    obtain ⟨rfl, -, rfl⟩ :=
      (List.append_cons_inj_of_notMem (at_notMem hatom) (at_notMem_domain hdomain)).mp hsame.symm
    exact ⟨l, d, hparse, Mail.isDotAtom_lower.mp hatom, isDomain_lower.mp hdomain⟩
  · rintro ⟨l', d', hparse', hatom, hdomain⟩
    obtain ⟨rfl, rfl⟩ := Prod.mk.inj (Option.some.inj (hparse.symm.trans hparse'))
    have hbare := Mail.parseSingleAddress_of_bare (Mail.isDotAtom_lower.mpr hatom) (isDomain_lower.mpr hdomain)
    rw [← returned_eq, ← hrunes] at hbare
    have hagain : encodeRunes (returned ((l.dropWhile spaceChar).map lowerChar)
        ((d.rdropWhile spaceChar).map lowerChar)) = email := by
      rw [← toLower_trimSpace_addrSpec, Mail.addrSpec, ← returned_eq, hemail, htrim, ← hemail,
        ← toLower_trimSpace_addrSpec, toLower_toLower]
    rw [normalize_of_parse hbare, hagain]

theorem normalize_fixed_user : normalize (fun _ => "") (utf8 " User@Example.COM ") = .ok (utf8 "user@example.com") ∧
    normalize (fun _ => "") (utf8 "user@example.com") = .ok (utf8 "user@example.com") := by
  have h : normalize (fun _ => "") (utf8 " User@Example.COM ") = .ok (utf8 "user@example.com") := by
    rw [utf8_eq_encodeRunes, utf8_eq_encodeRunes]
    rfl
  refine ⟨h, (normalize_fixed_iff h).mpr ⟨"User".toList, "Example.COM".toList, ?_, by decide, .inl (by decide)⟩⟩
  rw [utf8_eq_encodeRunes]
  rfl

/-- The local part was quoted for its space; without the quotes the address is refused. -/
theorem normalize_unquoted :
    normalize (fun _ => "mail: no angle-addr") (utf8 "\"a b\"@x.com") = .ok (utf8 "a b@x.com") ∧
      normalize (fun _ => "mail: no angle-addr") (utf8 "a b@x.com") = .error "mail: no angle-addr" := by
  rw [utf8_eq_encodeRunes, utf8_eq_encodeRunes]
  exact ⟨rfl, rfl⟩

end Csar.Proof.Emailnorm
