import CsarCore.Framework.Json.Codec
import Mathlib.Data.List.Forall2

/-!
# Indented texts that start alike

Two values that differ only in that strings of the one go on behind the first `n` bytes
of those of the other have more than `n` bytes in common on several lines
(`agree_printIndent`).
-/

namespace Csar.Json

/-! ## Lists that start alike -/

def Agree {α : Type} (n : Nat) (xs ys : List α) : Prop :=
  xs = ys ∨ ∃ p, p <+: xs ∧ p <+: ys ∧ n ≤ p.length

variable {α : Type} {xs ys : List α}

theorem Agree.append_left {n : Nat} (h : Agree n xs ys) (zs : List α) :
    Agree (zs.length + n) (zs ++ xs) (zs ++ ys) := by
  rcases h with rfl | ⟨p, hxs, hys, hp⟩
  · exact .inl rfl
  · refine .inr ⟨zs ++ p, List.prefix_append_right_inj zs |>.mpr hxs, List.prefix_append_right_inj zs |>.mpr hys, ?_⟩
    rw [List.length_append]
    omega

theorem Agree.mono {m n : Nat} (h : Agree n xs ys) (hmn : m ≤ n) : Agree m xs ys := by
  rcases h with rfl | ⟨p, hxs, hys, hp⟩
  · exact .inl rfl
  · exact .inr ⟨p, hxs, hys, Nat.le_trans hmn hp⟩

theorem Agree.eq_of_length_lt {n : Nat} (h : Agree n xs ys) (hlen : xs.length < n) : xs = ys := by
  rcases h with heq | ⟨p, hxs, -, hp⟩
  · exact heq
  · have hle := hxs.length_le
    omega

theorem Agree.prefix_of_le {n : Nat} {zs : List α} (h : Agree n xs ys) (hzs : zs <+: xs)
    (hlen : zs.length ≤ n) : zs <+: ys := by
  rcases h with rfl | ⟨p, hxs, hys, hp⟩
  · exact hzs
  · exact (List.prefix_of_prefix_length_le hzs hxs (Nat.le_trans hlen hp)).trans hys

/-! ## Tokens -/

/-- Equal, or strings of which the second goes on behind the `n` or more bytes of the first. -/
def Token.Close (n : Nat) (t t' : Token) : Prop :=
  t = t' ∨ ∃ s u, t = .string s ∧ t' = .string (s ++ u) ∧ n ≤ s.length

theorem indentFrom_cons (depth : Nat) (needIndent : Bool) (t : Token) :
    ∃ s depth' needIndent', ∀ ts, indentFrom depth needIndent (t :: ts) = s ++ indentFrom depth' needIndent' ts := by
  cases needIndent with
  | false =>
    cases t with
    | closeObject | closeArray => exact ⟨newline (depth - 1) ++ _, depth - 1, false, fun ts => rfl⟩
    | openObject | openArray => exact ⟨_, depth, true, fun ts => rfl⟩
    | comma => exact ⟨Token.bytes .comma ++ newline depth, depth, false, fun ts => rfl⟩
    | colon => exact ⟨[0x3A, 0x20], depth, false, fun ts => rfl⟩
    | string _ | atom _ => exact ⟨_, depth, false, fun ts => rfl⟩
  | true =>
    cases t with
    | closeObject | closeArray => exact ⟨_, depth, false, fun ts => rfl⟩
    | openObject | openArray => exact ⟨newline (depth + 1) ++ _, depth + 1, true, fun ts => rfl⟩
    | comma => exact ⟨Token.bytes .comma ++ newline depth, depth, false, fun ts => rfl⟩
    | colon => exact ⟨[0x3A, 0x20], depth, false, fun ts => rfl⟩
    | string _ | atom _ => exact ⟨newline (depth + 1) ++ _, depth + 1, false, fun ts => rfl⟩

theorem indentFrom_string (depth : Nat) (needIndent : Bool) (s : Bytes) (ts : List Token) :
    indentFrom depth needIndent (.string s :: ts) = (if needIndent then newline (depth + 1) else []) ++
      (0x22 :: s ++ 0x22 :: indentFrom (if needIndent then depth + 1 else depth) false ts) := by
  cases needIndent with
  | false =>
    show 0x22 :: (s ++ [0x22]) ++ indentFrom depth false ts = _
    simp
  | true =>
    show newline (depth + 1) ++ 0x22 :: (s ++ [0x22]) ++ indentFrom (depth + 1) false ts = _
    simp

theorem agree_indentFrom {n : Nat} {ts ts' : List Token} (h : List.Forall₂ (Token.Close n) ts ts') :
    ∀ depth needIndent, Agree n (indentFrom depth needIndent ts) (indentFrom depth needIndent ts') := by
  induction h with
  | nil => exact fun _ _ => .inl rfl
  | @cons _ _ ts ts' hclose hrest ih =>
    intro depth needIndent
    rcases hclose with rfl | ⟨s, u, rfl, rfl, hn⟩
    · obtain ⟨pre, depth', needIndent', hcons⟩ := indentFrom_cons depth needIndent _
      rw [hcons, hcons]
      exact ((ih depth' needIndent').append_left _).mono (Nat.le_add_left n _)
    · -- what is written up to the end of the shorter string
      have hstart : ∀ u' ts, (if needIndent then newline (depth + 1) else []) ++ 0x22 :: s <+:
          indentFrom depth needIndent (.string (s ++ u') :: ts) := by
        intro u' ts
        rw [indentFrom_string]
        refine ⟨u' ++ 0x22 :: indentFrom (if needIndent then depth + 1 else depth) false ts, ?_⟩
        simp
      have hshort := hstart [] ts
      rw [List.append_nil] at hshort
      refine .inr ⟨_, hshort, hstart u ts', ?_⟩
      rw [List.length_append, List.length_cons]
      omega

/-! ## Values -/

theorem forall₂_commaJoin {R : Token → Token → Prop} (hcomma : R .comma .comma) {tss tss' : List (List Token)}
    (h : List.Forall₂ (List.Forall₂ R) tss tss') : List.Forall₂ R (commaJoin tss) (commaJoin tss') := by
  cases h with
  | nil => exact .nil
  | cons hfirst hrest =>
    refine List.rel_append hfirst ?_
    exact List.rel_flatMap hrest fun _ _ hts => .cons hcomma hts

variable {ν σ : Type} {n : Nat} {q : σ → Bool}

theorem close_tokens {f : ν → Bytes} {g g' : σ → Bytes}
    (hg : ∀ s, q s → Token.Close n (.string (g s)) (.string (g' s))) {r : Json ν σ} (h : r.all (fun _ => true) q) :
    List.Forall₂ (Token.Close n) (tokens (r.map f g)) (tokens (r.map f g')) := by
  induction r using ind with
  | null | bool | number => exact .cons (.inl rfl) .nil
  | string s => exact .cons (hg s h) .nil
  | array vs ih =>
    rw [all_array] at h
    rw [map_array, map_array, tokens_array, tokens_array, List.map_map, List.map_map]
    refine .cons (.inl rfl) (List.rel_append (forall₂_commaJoin (.inl rfl) ?_) (.cons (.inl rfl) .nil))
    rw [List.forall₂_map_left_iff, List.forall₂_map_right_iff, List.forall₂_same]
    exact fun v hv => ih v hv (h v hv)
  | object ms ih =>
    rw [all_object] at h
    rw [map_object, map_object, tokens_object, tokens_object, List.map_map, List.map_map]
    refine .cons (.inl rfl) (List.rel_append (forall₂_commaJoin (.inl rfl) ?_) (.cons (.inl rfl) .nil))
    rw [List.forall₂_map_left_iff, List.forall₂_map_right_iff, List.forall₂_same]
    exact fun m hm => .cons (hg m.1 (h m hm).1) (.cons (.inl rfl) (ih m hm (h m hm).2))

/-- What the two texts have in common are the bytes of a string, and those of the first line and its
indentation. -/
theorem agree_printIndent {f : ν → Bytes} {g g' : σ → Bytes}
    (hg : ∀ s, q s → Token.Close n (.string (g s)) (.string (g' s))) {ms : List (σ × Json ν σ)} (hne : ms ≠ [])
    (h : (Json.object ms).all (fun _ => true) q) :
    Agree (4 + n) (printIndent ((Json.object ms).map f g)) (printIndent ((Json.object ms).map f g')) := by
  have hopen : ∀ g : σ → Bytes, ∃ ts, tokens ((Json.object ms).map f g) = .openObject :: ts ∧
      printIndent ((Json.object ms).map f g) = 0x7B :: newline 1 ++ indentFrom 1 false ts := by
    intro g
    obtain ⟨m, ms', rfl⟩ := List.exists_cons_of_ne_nil hne
    rw [printIndent, map_object, tokens_object]
    exact ⟨_, rfl, rfl⟩
  obtain ⟨ts, htokens, hprint⟩ := hopen g
  obtain ⟨ts', htokens', hprint'⟩ := hopen g'
  have hclose := close_tokens (f := f) hg h
  rw [htokens, htokens'] at hclose
  have hlen : (0x7B :: newline 1).length = 4 := rfl
  rw [hprint, hprint', ← hlen]
  exact (agree_indentFrom (List.forall₂_cons.mp hclose).2 1 false).append_left _

/-! ## Valid texts -/

theorem mem_commaJoin {t : Token} {tss : List (List Token)} (h : t ∈ commaJoin tss) :
    t = .comma ∨ ∃ ts ∈ tss, t ∈ ts := by
  cases tss with
  | nil => cases h
  | cons ts tss =>
    simp only [commaJoin, List.mem_append, List.mem_flatMap, List.mem_cons] at h ⊢
    grind

theorem validUtf8_tokens {r : Raw} (h : r.all validUtf8 validUtf8) : ∀ t ∈ tokens r, validUtf8 t.bytes := by
  have hstring : ∀ {s}, validUtf8 s → validUtf8 (Token.string s).bytes := fun hs =>
    validUtf8_append (s := [0x22]) (by decide) (validUtf8_append hs (by decide))
  induction r using ind with
  | null => simp [tokens, fold, Token.bytes, nullWord, validUtf8_encodeRunes]
  | bool b => cases b <;> simp [tokens, fold, Token.bytes, trueWord, falseWord, validUtf8_encodeRunes]
  | number n => exact List.forall_mem_cons.mpr ⟨h, by simp⟩
  | string s => exact List.forall_mem_cons.mpr ⟨hstring h, by simp⟩
  | array vs ih =>
    rw [tokens_array]
    refine List.forall_mem_cons.mpr ⟨by decide, List.forall_mem_append.mpr ⟨fun t ht => ?_, by decide⟩⟩
    rcases mem_commaJoin ht with rfl | ⟨ts, hts, ht⟩
    · decide
    · obtain ⟨v, hv, rfl⟩ := List.mem_map.mp hts
      exact ih v hv (all_array.mp h v hv) t ht
  | object ms ih =>
    rw [tokens_object]
    refine List.forall_mem_cons.mpr ⟨by decide, List.forall_mem_append.mpr ⟨fun t ht => ?_, by decide⟩⟩
    rcases mem_commaJoin ht with rfl | ⟨ts, hts, ht⟩
    · decide
    · obtain ⟨m, hm, rfl⟩ := List.mem_map.mp hts
      obtain ⟨hk, hv⟩ := all_object.mp h m hm
      rcases List.mem_cons.mp ht with rfl | ht
      · exact hstring hk
      · rcases List.mem_cons.mp ht with rfl | ht
        · decide
        · exact ih m hm hv t ht

theorem validUtf8_printIndent {r : Raw} (h : r.all validUtf8 validUtf8) : validUtf8 (printIndent r) := by
  have hline : ∀ depth, validUtf8 (newline depth) := fun depth =>
    validUtf8_of_ascii (List.forall_mem_cons.mpr ⟨by decide, fun b hb => by rw [List.eq_of_mem_replicate hb]; decide⟩)
  have hfrom : ∀ ts : List Token, (∀ t ∈ ts, validUtf8 t.bytes) → ∀ depth needIndent,
      validUtf8 (indentFrom depth needIndent ts) := by
    intro ts hts
    induction ts with
    | nil => exact fun _ _ => rfl
    | cons t ts ih =>
      obtain ⟨ht, hts⟩ := List.forall_mem_cons.mp hts
      intro depth needIndent
      have hrest := ih hts
      have hspace : ∀ {s}, validUtf8 s → validUtf8 (0x20 :: s) := validUtf8_append (s := [0x20]) (by decide)
      cases t <;> cases needIndent <;> simp only [indentFrom, Bool.false_eq_true, if_true, if_false] <;>
        first
        | exact validUtf8_append ht (hspace (hrest _ _))
        | exact validUtf8_append ht (hrest _ _)
        | exact validUtf8_append (validUtf8_append ht (hline _)) (hrest _ _)
        | exact validUtf8_append (validUtf8_append (hline _) ht) (hrest _ _)
  exact hfrom _ (validUtf8_tokens h) 0 false

/-! ## Strings -/

theorem quoteBytes_append {s : Bytes} (h : validUtf8 s) (t : Bytes) :
    quoteBytes (s ++ t) = quoteBytes s ++ quoteBytes t := by
  rw [quoteBytes, quote, runes_valid_append h, List.flatMap_append, encodeRunes_append]
  rfl

theorem utf8Size_le_escape (c : Char) : c.utf8Size ≤ (encodeRunes (escape (some c))).length := by
  rw [escape]
  cases hs : shortEscape c with
  | some e =>
    obtain ⟨l₁, l₂, hl, -⟩ := List.lookup_eq_some_iff.mp hs
    have hall : ∀ p ∈ writtenShort, p.1.utf8Size ≤ 2 := by decide
    have hsize : c.utf8Size ≤ 2 := hall (c, e) (hl ▸ List.mem_append_right l₁ List.mem_cons_self)
    exact Nat.le_trans hsize (length_le_encodeRunes ['\\', e])
  | none =>
    dsimp only
    split
    · have hunit := length_le_encodeRunes (escapeUnit c.toNat)
      exact Nat.le_trans c.utf8Size_le_four (Nat.le_trans (by decide : 4 ≤ 6) hunit)
    · rw [encodeRunes_cons, List.length_append, String.length_utf8EncodeChar]
      exact Nat.le_add_right _ _

theorem length_le_quoteBytes (s : Bytes) : s.length ≤ (quoteBytes s).length := by
  induction s using runes_ind with
  | nil => exact Nat.zero_le _
  | char c bs ih =>
    rw [quoteBytes, quote, runes_char, List.flatMap_cons, encodeRunes_append, List.length_append, List.length_append,
      String.length_utf8EncodeChar]
    exact Nat.add_le_add (utf8Size_le_escape c) ih
  | stray b bs hb ih =>
    have hunit := length_le_encodeRunes (escapeUnit 0xFFFD)
    have hone : 1 ≤ (encodeRunes (escape none)).length := Nat.le_trans (by decide : 1 ≤ 6) hunit
    rw [quoteBytes, quote, runes_stray hb, List.flatMap_cons, encodeRunes_append, List.length_append, List.length_cons,
      Nat.add_comm]
    exact Nat.add_le_add hone ih

end Csar.Json
