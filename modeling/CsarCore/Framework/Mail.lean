import CsarCore.Framework.Base64
import CsarCore.Framework.NetIP
import CsarCore.Framework.Strings
import Mathlib.Data.Bool.AllAny
import Mathlib.Data.List.ReduceOption

/-!
# Addresses of `net/mail`

`ParseAddress`, for the address and not for the display name: an addr-spec, a name with an addr-spec in
angle brackets, or a group of one address, with comments. What is returned is never longer than what was
read, and as long only if it is just what was read (`parseSingleAddress_bare`).
-/

namespace Csar.Mail

/-- Characters, and `none` for bytes that belong to no character. -/
abbrev Text := List (Option Char)

/-- A local part, without its quotes, and a domain. -/
abbrev Address := List Char × List Char

/-- `Address.Address`. -/
def addrSpec (a : Address) : List Char := a.1 ++ '@' :: a.2

def isVchar (c : Char) : Bool := ('!' ≤ c && c ≤ '~') || 128 ≤ c.toNat

def isWSP (c : Char) : Bool := c = ' ' || c = '\t'

/-- `isAtext`, with dots. -/
def isAtext (c : Char) : Bool := c ∉ ['(', ')', '<', '>', '[', ']', ':', ';', '@', '\\', ',', '"'] && isVchar c

def isQtext (c : Char) : Bool := c ∉ ['\\', '"'] && isVchar c

def isDtext (c : Char) : Bool := c ∉ ['[', ']', '\\'] && isVchar c

def skipSpace (p : Text) : Text := p.dropWhile (·.any isWSP)

/-- No dot at the start or end, and no two in a row. -/
def dotsOk (atom : List Char) : Bool :=
  atom.head? ≠ some '.' && !(['.', '.'] <:+: atom) && atom.getLast? ≠ some '.'

/-- `consumeAtom`, with dots. -/
def consumeAtom (permissive : Bool) (p : Text) : Option (List Char × Text) :=
  let atom := (p.takeWhile (·.any isAtext)).reduceOption
  let rest := p.dropWhile (·.any isAtext)
  if rest.head? ≠ some none ∧ atom ≠ [] ∧ (permissive || dotsOk atom) then some (atom, rest) else none

/-- `consumeQuotedString`, behind the first quote. -/
def consumeQuotedString : Text → Option (List Char × Text)
  | some '"' :: p => some ([], p)
  | some '\\' :: some c :: p =>
    if isVchar c || isWSP c then (consumeQuotedString p).map fun (qs, rest) => (c :: qs, rest) else none
  | some c :: p => if isQtext c || isWSP c then (consumeQuotedString p).map fun (qs, rest) => (c :: qs, rest) else none
  | _ => none

/-! ## Comments and encoded words -/

/-- `consumeComment`, in so many comments: the text of the outermost, and what is behind it. -/
def consumeComment : Nat → Text → Option (Text × Text)
  | 0, p => some ([], p)
  | _ + 1, [] => none
  | n + 1, some '\\' :: r :: p => (consumeComment (n + 1) p).map fun (comment, rest) => (r :: comment, rest)
  | n + 1, some '(' :: p => (consumeComment (n + 2) p).map fun (comment, rest) => (some '(' :: comment, rest)
  | n + 1, some ')' :: p =>
    (consumeComment n p).map fun (comment, rest) => (if n = 0 then [] else some ')' :: comment, rest)
  | n + 1, r :: p => (consumeComment (n + 1) p).map fun (comment, rest) => (r :: comment, rest)

/-- `skipCFWS`, in so many comments. -/
def skipCFWS : Nat → Text → Option Text
  | 0, some c :: p =>
    if isWSP c then skipCFWS 0 p else if c = '(' then skipCFWS 1 p else some (some c :: p)
  | 0, p => some p
  | _ + 1, [] => none
  | n + 1, some '\\' :: _ :: p => skipCFWS (n + 1) p
  | n + 1, some '(' :: p => skipCFWS (n + 2) p
  | n + 1, some ')' :: p => skipCFWS n p
  | n + 1, _ :: p => skipCFWS (n + 1) p

/-- `qDecode` has no error. -/
def qDecodes : Bytes → Bool
  | [] => true
  | 0x3D :: a :: b :: s => [a, b].all (fun d => Net.isHex (Net.sign (Char.ofNat d.toNat))) && qDecodes s
  | c :: s => c ≠ 0x3D && ((0x20 ≤ c && c ≤ 0x7E) || [0x09, 0x0A, 0x0D].contains c) && qDecodes s

/-- The text of an encoded word can be decoded. -/
def decodes (encoding : Option Char) (content : Text) : Bool :=
  match content.mapM fun r => r.bind fun c => if c.toNat < 128 then some (UInt8.ofNat c.toNat) else none with
  | none => false
  | some s =>
    if encoding ∈ [some 'b', some 'B'] then (Base64.std.decode s).isSome
    else encoding ∈ [some 'q', some 'Q'] && qDecodes s

/-- The character sets that `WordDecoder.convert` knows. -/
def knownCharsets : List String := ["UTF-8", "ISO-8859-1", "US-ASCII"]

/-- `decodeRFC2047Word` has an error: an encoded word that can be decoded, in a character set that is not
known. Its parts are between question marks. -/
def unknownCharset (word : Text) : Bool :=
  match word.splitOn (some '?') with
  | [[some '='], charset, [encoding], content, [some '=']] =>
    charset ≠ [] && decodes encoding content &&
      knownCharsets.all fun known => charset.map (·.map Strings.foldChar) ≠ known.toList.map some
  | _ => false

/-- `consumeDisplayNameComment`, where there is a comment. -/
def consumeDisplayNameComment (p : Text) : Option Text :=
  match p with
  | some '(' :: p =>
    match consumeComment 1 p with
    | some (comment, rest) => if (comment.splitOnP (·.any isWSP)).any unknownCharset then none else some rest
    | none => none
  | p => some p

/-- `consumePhrase`: what is behind it. Each word takes a character at least, so that the length of the
text bounds the number of turns. -/
def consumePhrase : Nat → Bool → Text → Option Text
  | 0, _, _ => none
  | turns + 1, hasWord, p =>
    match if hasWord then skipCFWS 0 p else some (skipSpace p) with
    | none => none
    | some [] => some []
    | some (some '"' :: p) =>
      match consumeQuotedString p with
      | some (_, rest) => consumePhrase turns true rest
      | none => if hasWord then some (some '"' :: p) else none
    | some p =>
      match consumeAtom true p with
      | some (word, rest) =>
        -- a word that is refused ends the phrase, but is behind it
        if unknownCharset (word.map some) then if hasWord then some rest else none
        else consumePhrase turns true rest
      | none => if hasWord then some p else none

/-! ## Addresses -/

/-- `consumeDomainLiteral`, behind the bracket. -/
def consumeDomainLiteral (p : Text) : Option (List Char × Text) :=
  let dtext := (p.takeWhile (·.any isDtext)).reduceOption
  match p.dropWhile (·.any isDtext) with
  | some ']' :: rest => if Net.isIP dtext then some ('[' :: (dtext ++ [']']), rest) else none
  | _ => none

def consumeLocalPart (p : Text) : Option (List Char × Text) :=
  match p with
  | some '"' :: p => (consumeQuotedString p).filter (·.1 ≠ [])
  | p => consumeAtom false p

def consumeDomain (p : Text) : Option (List Char × Text) :=
  match p with
  | some '[' :: p => consumeDomainLiteral p
  | p => consumeAtom false p

def consumeAddrSpec (p : Text) : Option (Address × Text) := do
  let (localPart, rest) ← consumeLocalPart (skipSpace p)
  match rest with
  | some '@' :: rest => (consumeDomain (skipSpace rest)).map fun (domain, rest) => ((localPart, domain), rest)
  | _ => none

/-- An addr-spec and the closing angle bracket. -/
def consumeAngleAddr (p : Text) : Option (Address × Text) :=
  match consumeAddrSpec p with
  | some (a, some '>' :: rest) => some (a, rest)
  | _ => none

/-- The display name of `parseAddress`: what is behind it. -/
def skipName (p : Text) : Option Text :=
  if p.head? = some (some '<') then some p else consumePhrase (p.length + 1) false p

/-- `parseAddress`; what is behind a display name and a colon is left to `group`. -/
def parseAddress (group : Text → Option (List Address × Text)) (p : Text) : Option (List Address × Text) :=
  let p := skipSpace p
  if p = [] then none
  else
    match consumeAddrSpec p with
    | some (a, rest) => (consumeDisplayNameComment (skipSpace rest)).map ([a], ·)
    | none =>
      match (skipName p).map skipSpace with
      | some (some ':' :: rest) => group rest
      | some (some '<' :: rest) => (consumeAngleAddr rest).map fun (a, rest) => ([a], rest)
      | _ => none

/-- The loop of `consumeGroupList`; each address takes a character at least. -/
def consumeMembers : Nat → Text → Option (List Address × Text)
  | 0, _ => none
  | turns + 1, p => do
    let (addrs, rest) ← parseAddress (fun _ => none) p
    match ← skipCFWS 0 rest with
    | some ';' :: rest => (skipCFWS 0 rest).map (addrs, ·)
    | some ',' :: rest => (consumeMembers turns rest).map fun (more, rest) => (addrs ++ more, rest)
    | _ => none

def consumeGroupList (p : Text) : Option (List Address × Text) :=
  match skipSpace p with
  | some ';' :: rest => (skipCFWS 0 rest).map ([], ·)
  | p => consumeMembers (p.length + 1) p

def parseSingleAddress (p : Text) : Option Address :=
  match parseAddress consumeGroupList p with
  | some ([a], rest) => if skipCFWS 0 rest = some [] then some a else none
  | _ => none

/-! ## Bare addresses -/

def IsDotAtom (s : List Char) : Prop := s ≠ [] ∧ s.all isAtext = true ∧ dotsOk s = true

instance (s : List Char) : Decidable (IsDotAtom s) := inferInstanceAs (Decidable (_ ∧ _ ∧ _))

/-- An IP address in brackets. -/
def IsLiteral (s : List Char) : Prop := ∃ ip, s = '[' :: (ip ++ [']']) ∧ Net.isIP ip = true

def IsDomain (s : List Char) : Prop := IsDotAtom s ∨ IsLiteral s

variable {c : Char} {l d s : List Char} {p rest : Text} {a : Address} {addrs : List Address}

theorem span_map {q : Char → Bool} (h : ∀ c ∈ l, q c = true) (hrest : ∀ r ∈ rest.head?, r.any q = false) :
    (l.map some ++ rest).takeWhile (·.any q) = l.map some ∧ (l.map some ++ rest).dropWhile (·.any q) = rest := by
  have hall : ∀ r ∈ l.map some, r.any q = true := List.forall_mem_map.mpr h
  rw [List.takeWhile_append_of_pos hall, List.dropWhile_append_of_pos hall]
  cases rest with
  | nil => simp
  | cons r rest => simp [hrest r rfl]

@[simp] theorem reduceOption_map_some (l : List Char) : (l.map some).reduceOption = l := by
  simp [List.reduceOption, List.filterMap_map]

theorem skipSpace_eq (h : ∀ r ∈ p.head?, r.any isWSP = false) : skipSpace p = p := by
  cases p with
  | nil => rfl
  | cons r p => simp [skipSpace, h r rfl]

theorem of_isAtext (h : isAtext c = true) : isWSP c = false ∧ c ≠ '"' ∧ c ≠ '[' := by
  simp only [isAtext, Bool.and_eq_true, decide_eq_true_eq] at h
  refine ⟨?_, fun hc => h.1 (by simp [hc]), fun hc => h.1 (by simp [hc])⟩
  rw [isWSP, Bool.or_eq_false_iff, decide_eq_false_iff_not, decide_eq_false_iff_not]
  constructor <;> rintro rfl <;> exact absurd h.2 (by decide)

theorem consumeAtom_eq (h : IsDotAtom l) (hrest : ∀ r ∈ rest.head?, r = some '@') :
    consumeAtom false (l.map some ++ rest) = some (l, rest) := by
  obtain ⟨hne, hatext, hdots⟩ := h
  rw [List.all_eq_true] at hatext
  have hstop : ∀ r ∈ rest.head?, r.any isAtext = false := fun r hr => by rw [hrest r hr]; decide
  obtain ⟨htake, hdrop⟩ := span_map hatext hstop
  have hvalid : rest.head? ≠ some none := fun hr => by simpa using hrest none hr
  simp [consumeAtom, htake, hdrop, hne, hdots, hvalid]

/-- A dot-atom is read as one, whatever else may stand there. -/
theorem IsDotAtom.read (h : IsDotAtom l) (rest : Text) (hrest : ∀ r ∈ rest.head?, r = some '@') :
    skipSpace (l.map some ++ rest) = l.map some ++ rest ∧ consumeLocalPart (l.map some ++ rest) = some (l, rest) ∧
      consumeDomain (l.map some ++ rest) = some (l, rest) := by
  have hatom := consumeAtom_eq h hrest
  obtain ⟨hne, hatext, -⟩ := h
  obtain ⟨c, l, rfl⟩ := List.exists_cons_of_ne_nil hne
  obtain ⟨hspace, hquote, hbracket⟩ := of_isAtext (List.all_eq_true.mp hatext c List.mem_cons_self)
  refine ⟨skipSpace_eq (by simpa using hspace), ?_, ?_⟩
  · rw [consumeLocalPart]
    · exact hatom
    · simp [hquote]
  · rw [consumeDomain]
    · exact hatom
    · simp [hbracket]

/-- Beyond ASCII everything is visible and nothing is special. -/
theorem isAtext_high (h : 128 ≤ c.toNat) : isAtext c = true ∧ isDtext c = true := by
  have hnot : ∀ l : List Char, l.all (fun d => d.toNat < 128) → c ∉ l := fun l hl hc =>
    absurd (List.all_iff_forall_prop.mp hl c hc) (by omega)
  have hv : isVchar c = true := by simp [isVchar, h]
  exact ⟨by rw [isAtext, hv, decide_eq_true (hnot _ (by decide))]; rfl,
    by rw [isDtext, hv, decide_eq_true (hnot _ (by decide))]; rfl⟩

/-- The characters of an IP address may stand in brackets, and `@` is none of them. -/
theorem of_isIP (h : Net.isIP s = true) : (∀ c ∈ s, isDtext c = true) ∧ '@' ∉ s := by
  have hsign : ∀ c ∈ s, Net.sign c ≠ .other := fun c hc he =>
    Net.other_notMem_of_isIP h (he ▸ List.mem_map_of_mem hc)
  have hascii : ∀ n < 128, Net.sign (Char.ofNat n) ≠ .other → isDtext (Char.ofNat n) = true := by decide
  refine ⟨fun c hc => ?_, fun hat => hsign '@' hat (by decide)⟩
  by_cases hlow : c.toNat < 128
  · rw [← Char.ofNat_toNat c]
    exact hascii c.toNat hlow (by rw [Char.ofNat_toNat]; exact hsign c hc)
  · exact (isAtext_high (by omega)).2

theorem IsLiteral.read (h : IsLiteral d) :
    skipSpace (d.map some) = d.map some ∧ consumeDomain (d.map some) = some (d, []) := by
  obtain ⟨ip, rfl, hip⟩ := h
  have hstop : ∀ r ∈ [some ']'].head?, r.any isDtext = false := by decide
  obtain ⟨htake, hdrop⟩ := span_map (of_isIP hip).1 hstop
  refine ⟨skipSpace_eq (by simp [isWSP]), ?_⟩
  simp [consumeDomain, consumeDomainLiteral, htake, hdrop, hip]

theorem consumeAddrSpec_bare (hl : IsDotAtom l) (hd : IsDomain d) :
    consumeAddrSpec ((l ++ '@' :: d).map some) = some ((l, d), []) := by
  have hdomain : skipSpace (d.map some) = d.map some ∧ consumeDomain (d.map some) = some (d, []) := by
    rcases hd with hd | hd
    · obtain ⟨hskip, -, hread⟩ := hd.read [] (by simp)
      rw [List.append_nil] at hskip hread
      exact ⟨hskip, hread⟩
    · exact hd.read
  obtain ⟨hskip, hread, -⟩ := hl.read (some '@' :: d.map some) (by simp)
  simp [consumeAddrSpec, hskip, hread, hdomain]

/-- A bare address is read as itself. -/
theorem parseSingleAddress_of_bare (hl : IsDotAtom l) (hd : IsDomain d) :
    parseSingleAddress ((l ++ '@' :: d).map some) = some (l, d) := by
  have hspec := consumeAddrSpec_bare hl hd
  obtain ⟨hskip, -, -⟩ := hl.read (some '@' :: d.map some) (by simp)
  rw [List.map_append, List.map_cons] at hspec ⊢
  have hname : consumeDisplayNameComment (skipSpace []) = some [] := rfl
  have hend : skipCFWS 0 [] = some [] := rfl
  simp [parseSingleAddress, parseAddress, hskip, hspec, hname, hend]

/-! ## What is read is as long as what is returned -/

def size (addrs : List Address) : Nat := (addrs.map fun a => (addrSpec a).length).sum

theorem size_nil : size [] = 0 := rfl

theorem size_singleton (a : Address) : size [a] = (addrSpec a).length := List.sum_singleton

theorem size_append (addrs more : List Address) : size (addrs ++ more) = size addrs + size more := by
  simp [size]

theorem skipSpace_eq_or_lt (p : Text) : skipSpace p = p ∨ (skipSpace p).length < p.length := by
  have hsuffix : skipSpace p <:+ p := List.dropWhile_suffix _
  exact (Nat.eq_or_lt_of_le hsuffix.length_le).imp_left hsuffix.eq_of_length

theorem skipSpace_length (p : Text) : (skipSpace p).length ≤ p.length := (List.dropWhile_sublist _).length_le

theorem map_some_takeWhile (q : Char → Bool) (p : Text) :
    (p.takeWhile (·.any q)).reduceOption.map some = p.takeWhile (·.any q) := by
  induction p with
  | nil => rfl
  | cons r p ih =>
    cases r with
    | none => rfl
    | some c =>
      rw [List.takeWhile_cons]
      split
      · rw [List.reduceOption_cons_of_some, List.map_cons, ih]
      · rfl

theorem all_takeWhile (q : Char → Bool) (p : Text) : ∀ c ∈ (p.takeWhile (·.any q)).reduceOption, q c = true := by
  intro c hc
  have hmem : some c ∈ p.takeWhile (·.any q) := by
    rw [← map_some_takeWhile q p]
    exact List.mem_map_of_mem hc
  exact (List.mem_takeWhile_imp hmem : (some c).any q = true)

theorem of_consumeAtom {permissive : Bool} (h : consumeAtom permissive p = some (s, rest)) :
    p = s.map some ++ rest ∧ (permissive = false → IsDotAtom s) := by
  simp only [consumeAtom, Option.ite_none_right_eq_some, Option.some.injEq, Prod.mk.injEq] at h
  obtain ⟨⟨-, hne, hdots⟩, rfl, rfl⟩ := h
  refine ⟨?_, ?_⟩
  · rw [map_some_takeWhile, List.takeWhile_append_dropWhile]
  · rintro rfl
    exact ⟨hne, List.all_eq_true.mpr (all_takeWhile _ p), hdots⟩

theorem of_consumeQuotedString : ∀ {p : Text} {s : List Char} {rest : Text},
    consumeQuotedString p = some (s, rest) → s.length + rest.length < p.length := by
  intro p
  fun_induction consumeQuotedString p with
  | case1 p =>
    rintro s rest ⟨⟩
    simp
  | case2 c p hc ih | case4 c p _ _ hc ih =>
    intro s rest h
    obtain ⟨⟨qs, rest⟩, hq, hs⟩ := Option.map_eq_some_iff.mp h
    cases hs
    have := ih hq
    simp only [List.length_cons]
    omega
  | case3 | case5 | case6 => nofun

theorem of_consumeDomain (h : consumeDomain p = some (d, rest)) : p = d.map some ++ rest ∧ IsDomain d := by
  unfold consumeDomain at h
  split at h
  · rename_i p
    simp only [consumeDomainLiteral] at h
    split at h
    · rename_i rest' hdrop
      simp only [Option.ite_none_right_eq_some, Option.some.injEq, Prod.mk.injEq] at h
      obtain ⟨hip, rfl, rfl⟩ := h
      refine ⟨?_, .inr ⟨_, rfl, hip⟩⟩
      have hp := List.takeWhile_append_dropWhile (p := fun r : Option Char => r.any isDtext) (l := p)
      rw [hdrop] at hp
      simp [map_some_takeWhile, hp]
    · cases h
  · obtain ⟨hp, hatom⟩ := of_consumeAtom h
    exact ⟨hp, .inl (hatom rfl)⟩

/-- With quotes more is read than returned. -/
theorem of_consumeLocalPart (h : consumeLocalPart p = some (l, rest)) :
    l.length + rest.length < p.length ∨ (IsDotAtom l ∧ p = l.map some ++ rest) := by
  unfold consumeLocalPart at h
  split at h
  · have := of_consumeQuotedString (Option.eq_some_of_filter_eq_some h)
    exact .inl (by rw [List.length_cons]; omega)
  · obtain ⟨hp, hatom⟩ := of_consumeAtom h
    exact .inr ⟨hatom rfl, hp⟩

/-- An addr-spec is shorter than what was read, or just that. -/
theorem of_consumeAddrSpec (h : consumeAddrSpec p = some (a, rest)) : IsDomain a.2 ∧
    ((addrSpec a).length + rest.length < p.length ∨ (IsDotAtom a.1 ∧ p = (addrSpec a).map some ++ rest)) := by
  simp only [consumeAddrSpec, Option.bind_eq_bind, Option.bind_eq_some_iff] at h
  obtain ⟨⟨l, r⟩, hlocal, h⟩ := h
  split at h
  · rename_i r hat
    obtain rfl : _ = some '@' :: r := hat
    obtain ⟨⟨d, r'⟩, hdomain, hd⟩ := Option.map_eq_some_iff.mp h
    cases hd
    obtain ⟨hr', hdomain⟩ := of_consumeDomain hdomain
    refine ⟨hdomain, ?_⟩
    have hlen := congrArg List.length hr'
    simp only [addrSpec, List.length_append, List.length_map, List.length_cons] at hlen ⊢
    have hp := skipSpace_length p
    have hr := skipSpace_length r
    rcases of_consumeLocalPart hlocal with hlt | ⟨hatom, hl⟩
    · rw [List.length_cons] at hlt
      exact .inl (by omega)
    · have hlen' := congrArg List.length hl
      simp only [List.length_append, List.length_map, List.length_cons] at hlen'
      rcases skipSpace_eq_or_lt p with hsame | hlt
      · rcases skipSpace_eq_or_lt r with hsame' | hlt
        · exact .inr ⟨hatom, by rw [← hsame, hl, ← hsame', hr']; simp⟩
        · exact .inl (by omega)
      · exact .inl (by omega)
  · cases h

theorem consumeComment_length : ∀ {n : Nat} {p : Text} {r : Text × Text},
    consumeComment n p = some r → r.2.length ≤ p.length := by
  intro n p
  fun_induction consumeComment n p with
  | case1 p => rintro r ⟨⟩; rfl
  | case2 => nofun
  | case3 n c p ih | case4 n p ih | case5 n p ih | case6 n c p _ _ _ ih =>
    intro r h
    obtain ⟨r', hr', rfl⟩ := Option.map_eq_some_iff.mp h
    have := ih hr'
    simp only [List.length_cons]
    omega

theorem skipCFWS_length : ∀ {n : Nat} {p rest : Text}, skipCFWS n p = some rest → rest.length ≤ p.length := by
  intro n p
  fun_induction skipCFWS n p <;> intro rest h
  case case3 | case4 => cases h; rfl
  case case5 => cases h
  all_goals
    rename_i ih
    have := ih h
    simp only [List.length_cons]
    omega

theorem consumeDisplayNameComment_length (h : consumeDisplayNameComment p = some rest) :
    rest.length ≤ p.length := by
  unfold consumeDisplayNameComment at h
  split at h
  · split at h
    · rename_i hcomment
      rw [Option.ite_none_left_eq_some] at h
      cases h.2
      exact Nat.le_succ_of_le (consumeComment_length hcomment)
    · cases h
  · cases h
    rfl

theorem consumePhrase_length {n : Nat} : ∀ {hasWord : Bool} {p rest : Text},
    consumePhrase n hasWord p = some rest → rest.length ≤ p.length := by
  induction n with
  | zero => nofun
  | succ n ih =>
    intro hasWord p rest h
    have hskip : ∀ q, (if hasWord then skipCFWS 0 p else some (skipSpace p)) = some q → q.length ≤ p.length := by
      intro q hq
      split at hq
      · exact skipCFWS_length hq
      · cases hq
        exact skipSpace_length p
    rw [consumePhrase] at h
    split at h
    · cases h
    · cases h
      exact Nat.zero_le _
    · rename_i q hq
      refine Nat.le_trans ?_ (hskip _ hq)
      split at h
      · rename_i hquoted
        have := of_consumeQuotedString hquoted
        have := ih h
        rw [List.length_cons]
        omega
      · cases (Option.ite_none_right_eq_some.mp h).2
        rfl
    · rename_i q _ _ hq
      refine Nat.le_trans ?_ (hskip _ hq)
      split at h
      · rename_i word r hatom
        have hr : r.length ≤ q.length := by
          rw [(of_consumeAtom hatom).1, List.length_append]
          exact Nat.le_add_left ..
        split at h
        · cases (Option.ite_none_right_eq_some.mp h).2
          exact hr
        · exact Nat.le_trans (ih h) hr
      · cases (Option.ite_none_right_eq_some.mp h).2
        rfl

theorem skipName_length (h : skipName p = some rest) : rest.length ≤ p.length := by
  unfold skipName at h
  split at h
  · cases h
    rfl
  · exact consumePhrase_length h

theorem of_consumeAngleAddr (h : consumeAngleAddr p = some (a, rest)) :
    IsDomain a.2 ∧ (addrSpec a).length + rest.length < p.length := by
  unfold consumeAngleAddr at h
  split at h
  · rename_i q hspec
    cases h
    obtain ⟨hdomain, hlt | ⟨-, rfl⟩⟩ := of_consumeAddrSpec hspec
    · rw [List.length_cons] at hlt
      exact ⟨hdomain, by omega⟩
    · exact ⟨hdomain, by simp⟩
  · cases h

/-- What a parser of some addresses returns is no longer than what it reads. -/
def Bounded (parse : Text → Option (List Address × Text)) : Prop :=
  ∀ {p addrs rest}, parse p = some (addrs, rest) →
    (∀ a ∈ addrs, IsDomain a.2) ∧ size addrs + rest.length ≤ p.length

/-- Something is read beside what is returned, if that is not a bare address. -/
theorem of_parseAddress {group : Text → Option (List Address × Text)} (hgroup : Bounded group)
    (h : parseAddress group p = some (addrs, rest)) : (∀ a ∈ addrs, IsDomain a.2) ∧
      (size addrs + rest.length < p.length ∨
        ∃ a r, addrs = [a] ∧ IsDotAtom a.1 ∧ p = (addrSpec a).map some ++ r ∧ rest.length ≤ r.length) := by
  have hskip := skipSpace_length p
  unfold parseAddress at h
  dsimp only at h
  split at h
  · cases h
  split at h
  · rename_i a r hspec
    obtain ⟨rest, hrest, h⟩ := Option.map_eq_some_iff.mp h
    cases h
    have hle := Nat.le_trans (consumeDisplayNameComment_length hrest) (skipSpace_length r)
    obtain ⟨hdomain, hread⟩ := of_consumeAddrSpec hspec
    refine ⟨List.forall_mem_singleton.mpr hdomain, ?_⟩
    rw [size_singleton]
    rcases hread with hlt | ⟨hatom, hp⟩
    · exact .inl (by omega)
    · rcases skipSpace_eq_or_lt p with hsame | hlt
      · exact .inr ⟨a, r, rfl, hatom, by rw [← hsame, hp], hle⟩
      · have hlen := congrArg List.length hp
        rw [List.length_append, List.length_map] at hlen
        exact .inl (by omega)
  · have hname : ∀ q, (skipName (skipSpace p)).map skipSpace = some q → q.length ≤ p.length := by
      intro q hq
      obtain ⟨r, hr, rfl⟩ := Option.map_eq_some_iff.mp hq
      exact Nat.le_trans (skipSpace_length r) (Nat.le_trans (skipName_length hr) hskip)
    split at h
    · rename_i q hq
      have hlt := hname _ hq
      rw [List.length_cons] at hlt
      obtain ⟨hdomain, hle⟩ := hgroup h
      exact ⟨hdomain, .inl (by omega)⟩
    · rename_i q hq
      have hlt := hname _ hq
      rw [List.length_cons] at hlt
      obtain ⟨⟨a, r⟩, hangle, h⟩ := Option.map_eq_some_iff.mp h
      cases h
      obtain ⟨hdomain, hshort⟩ := of_consumeAngleAddr hangle
      refine ⟨List.forall_mem_singleton.mpr hdomain, .inl ?_⟩
      rw [size_singleton]
      dsimp only
      omega
    · cases h

theorem bounded_parseAddress {g : Text → Option (List Address × Text)} (hgroup : Bounded g) :
    Bounded (parseAddress g) := by
  intro p addrs rest h
  obtain ⟨hdomain, hlt | ⟨a, r, rfl, -, rfl, hle⟩⟩ := of_parseAddress hgroup h
  · exact ⟨hdomain, Nat.le_of_lt hlt⟩
  · rw [size_singleton, List.length_append, List.length_map]
    exact ⟨hdomain, by omega⟩

theorem bounded_consumeMembers (n : Nat) : Bounded (consumeMembers n) := by
  induction n with
  | zero => nofun
  | succ n ih =>
    intro p addrs rest h
    simp only [consumeMembers, Option.bind_eq_bind, Option.bind_eq_some_iff, Prod.exists] at h
    obtain ⟨first, r, hfirst, q, hq, h⟩ := h
    obtain ⟨hdomain, hle⟩ := bounded_parseAddress (g := fun _ => none) nofun hfirst
    have hq := skipCFWS_length hq
    split at h
    · obtain ⟨rest, hrest, h⟩ := Option.map_eq_some_iff.mp h
      cases h
      have hrest := skipCFWS_length hrest
      rw [List.length_cons] at hq
      exact ⟨hdomain, by omega⟩
    · obtain ⟨⟨more, rest⟩, hmore, h⟩ := Option.map_eq_some_iff.mp h
      cases h
      obtain ⟨hdomain', hle'⟩ := ih hmore
      rw [List.length_cons] at hq
      refine ⟨List.forall_mem_append.mpr ⟨hdomain, hdomain'⟩, ?_⟩
      rw [size_append]
      dsimp only
      omega
    · cases h

theorem bounded_consumeGroupList : Bounded consumeGroupList := by
  intro p addrs rest h
  have hskip := skipSpace_length p
  unfold consumeGroupList at h
  split at h
  · rename_i r hr
    obtain ⟨rest, hrest, h⟩ := Option.map_eq_some_iff.mp h
    cases h
    have hrest := skipCFWS_length hrest
    rw [hr, List.length_cons] at hskip
    exact ⟨nofun, by rw [size_nil]; omega⟩
  · obtain ⟨hdomain, hle⟩ := bounded_consumeMembers _ h
    exact ⟨hdomain, Nat.le_trans hle hskip⟩

/-- What is returned is shorter than what is read, or a bare address that is read. -/
theorem of_parseSingleAddress (h : parseSingleAddress p = some a) : IsDomain a.2 ∧
    ((addrSpec a).length < p.length ∨ (IsDotAtom a.1 ∧ p = (addrSpec a).map some)) := by
  unfold parseSingleAddress at h
  split at h
  · rename_i b rest hparse
    obtain ⟨-, rfl⟩ : _ ∧ b = a := by simpa using h
    obtain ⟨hdomain, hread⟩ := of_parseAddress bounded_consumeGroupList hparse
    refine ⟨hdomain b List.mem_cons_self, ?_⟩
    rcases hread with hlt | ⟨a, r, ha, hatom, rfl, -⟩
    · rw [size_singleton] at hlt
      exact .inl (by omega)
    · cases ha
      cases r with
      | nil => exact .inr ⟨hatom, List.append_nil _⟩
      | cons x r => exact .inl (by simp)
  · cases h

/-! ## Lower case -/

theorem isAtext_lowerChar (c : Char) : isAtext (Strings.lowerChar c) = isAtext c :=
  Strings.lowerChar_congr isAtext true (by decide) (by decide) (fun _ h => (isAtext_high h).1) c

/-- No other character becomes a mark. -/
theorem lowerChar_eq {m : Char} (hm : m ∈ ['.', '@', '[', ']']) : Strings.lowerChar c = m ↔ c = m := by
  have hmark : ∀ m ∈ ['.', '@', '[', ']'], m.toNat < 128 ∧ (∀ n < 26, Char.ofNat (97 + n) ≠ m ∧ Char.ofNat (65 + n) ≠ m) ∧
      ∀ n < 20, Char.ofNat (103 + n) ≠ m := List.all_iff_forall_prop.mp (by decide)
  obtain ⟨hlow, hcase, hletter⟩ := hmark m hm
  have h := Strings.lowerChar_congr (fun c => decide (c = m)) false
    (fun n hn => by rw [decide_eq_false (hcase n hn).1, decide_eq_false (hcase n hn).2])
    (fun n hn => decide_eq_false (hletter n hn)) (fun d hd => decide_eq_false fun he => by rw [he] at hd; omega) c
  exact decide_eq_decide.mp h

theorem isIP_lower (s : List Char) : Net.isIP (s.map Strings.lowerChar) = Net.isIP s := by
  have hsign : Net.sign ∘ Strings.lowerChar = Net.sign := by
    exact funext (Strings.lowerChar_congr Net.sign .other (by decide) (by decide) fun _ => Net.sign_high)
  rw [Net.isIP, List.map_map, hsign, Net.isIP]

theorem dotsOk_lower (s : List Char) : dotsOk (s.map Strings.lowerChar) = dotsOk s := by
  have hdot : ∀ r : Option Char, r.map Strings.lowerChar = some '.' ↔ r = some '.' := by
    rintro (_ | c)
    · simp
    · simp [lowerChar_eq (c := c) (m := '.') (by simp)]
  have hdots : ['.', '.'] <:+: s.map Strings.lowerChar ↔ ['.', '.'] <:+: s := by
    rw [List.infix_map_iff]
    refine ⟨?_, fun h => ⟨_, h, by decide⟩⟩
    rintro ⟨l, hl, hmap⟩
    obtain ⟨a, b, rfl⟩ : ∃ a b, l = [a, b] := List.length_eq_two.mp (by simpa using (congrArg List.length hmap).symm)
    simp only [List.map_cons, List.map_nil, List.cons.injEq, and_true, eq_comm (a := '.')] at hmap
    rw [(lowerChar_eq (by simp)).mp hmap.1, (lowerChar_eq (by simp)).mp hmap.2] at hl
    exact hl
  simp [dotsOk, hdot, hdots]

theorem isDotAtom_lower : IsDotAtom (s.map Strings.lowerChar) ↔ IsDotAtom s := by
  have hatext : (s.map Strings.lowerChar).all isAtext = s.all isAtext := by
    rw [List.all_map]
    exact congrArg s.all (funext isAtext_lowerChar)
  rw [IsDotAtom, IsDotAtom, hatext, dotsOk_lower, ne_eq, List.map_eq_nil_iff]

theorem isLiteral_lower : IsLiteral (s.map Strings.lowerChar) ↔ IsLiteral s := by
  constructor
  · rintro ⟨ip, hs, hip⟩
    obtain ⟨a, t, rfl, ha, ht⟩ := List.map_eq_cons_iff.mp hs
    obtain ⟨ip, e, rfl, rfl, he⟩ := List.map_eq_append_iff.mp ht
    obtain ⟨b, rfl, hb⟩ := List.map_eq_singleton_iff.mp he
    rw [isIP_lower] at hip
    exact ⟨ip, by rw [(lowerChar_eq (by simp)).mp ha, (lowerChar_eq (by simp)).mp hb], hip⟩
  · rintro ⟨ip, rfl, hip⟩
    exact ⟨ip.map Strings.lowerChar, by simp; decide, by rw [isIP_lower]; exact hip⟩

end Csar.Mail
