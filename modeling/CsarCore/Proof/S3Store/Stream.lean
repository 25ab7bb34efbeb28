import CsarCore.Proof.S3Store.Object
import CsarCore.Proof.Storage.Key

/-!
# Streams stay where they belong, and end where they should

A joined key consists of names, so cleaning leaves it alone (`joined_key_inside`).
`boundedRead_spec` is what a call of the bounded reader does, and `Within` what calls
keep: what was delivered is the start of the object, and the budget is what is left.
`bounded_download_exact` follows for every reader and all buffers, and `opened_download`
for what `OpenVersion` returns.
-/

namespace Csar.Proof.S3Store

open Impl.S3Store Impl.Storage Spec.S3Store Csar.Path

/-! ## Where a key leads -/

theorem urlPath_name {s : Bytes} (hs : Name s) : urlPath s = slash :: s := by
  obtain ⟨b, bs, rfl⟩ := List.exists_cons_of_ne_nil hs.1
  have hb : b ≠ slash := by
    rintro rfl
    exact hs.2.2.2 List.mem_cons_self
  rw [urlPath, if_neg hb]

theorem urlPath_append {p q : Bytes} (hp : p ≠ []) : urlPath (p ++ q) = urlPath p ++ q := by
  obtain ⟨b, bs, rfl⟩ := List.exists_cons_of_ne_nil hp
  rw [List.cons_append, urlPath, urlPath]
  split <;> rfl

variable {c : Config} {maxBytes : Int}

theorem bucketURL_eq (hb : Name c.bucket) : bucketURL c = endpointBase c ++ slash :: c.bucket := by
  rw [bucketURL, join_bucket hb.1, rawBucket, endpointBase]
  by_cases he : c.endpointPath = []
  · rw [if_pos he, clean_name hb, he, urlPath_name hb]
    rfl
  · rw [if_neg he, clean_append_name he hb]
    split
    · rename_i hroot
      rw [if_pos (.inl hroot), urlPath, if_pos rfl]
      rfl
    · rename_i hroot
      split
      · rename_i hdot
        rw [if_pos (.inr hdot), urlPath_name hb]
        rfl
      · rename_i hdot
        rw [if_neg (not_or.mpr ⟨hroot, hdot⟩), urlPath_append (clean_ne_nil _)]

/-- For every endpoint, every bucket that is one segment and all joined keys: the path is that of the
endpoint, the bucket and the key as it is, and the key starts with the prefix. -/
theorem joined_key_inside (c : Config) {pre key k : Bytes} (hb : Name c.bucket) (h : joinObjectKey pre key = .ok k) :
    objectURL c k = endpointBase c ++ slash :: (c.bucket ++ slash :: k) ∧
      (Strings.trim pre slash ≠ [] → (Strings.trim pre slash ++ [slash]) <+: k) := by
  constructor
  · rw [(objectURL_iff hb).mpr (Storage.names_of_join h), bucketURL_eq hb, List.append_assoc, List.cons_append]
  · intro hne
    obtain ⟨-, ⟨hnil, -⟩ | ⟨-, -, rfl⟩⟩ := Storage.joinObjectKey_eq_ok h
    · exact absurd hnil hne
    · exact ⟨key, by rw [List.append_assoc]; rfl⟩

theorem joined_key_inside_prefixed :
    joinObjectKey (utf8 "/p/") (utf8 "a/b") = .ok (utf8 "p/a/b") ∧
      objectURL ⟨utf8 "/s3/", utf8 "b", [], true⟩ (utf8 "p/a/b") = utf8 "/s3/b/p/a/b" ∧
      (utf8 "p/") <+: (utf8 "p/a/b") := by
  have hjoin : joinObjectKey (utf8 "/p/") (utf8 "a/b") = .ok (utf8 "p/a/b") := by decide +kernel
  have hinside := joined_key_inside ⟨utf8 "/s3/", utf8 "b", [], true⟩ (by decide +kernel) hjoin
  refine ⟨hjoin, ?_, ?_⟩
  · rw [hinside.1]
    decide +kernel
  · have hpre : Strings.trim (utf8 "/p/") slash ++ [slash] = utf8 "p/" := by decide +kernel
    rw [← hpre]
    exact hinside.2 (by decide +kernel)

theorem streamCall_touches {ε : Type} {method : Method} {key : Bytes} {call : Call} (hb : Name c.bucket)
    (h : streamCall (ε := ε) method c key = .ok call) :
    ∃ k, joinObjectKey c.keyPrefix key = .ok k ∧ Touches c method c.bucket k call := by
  obtain ⟨k, hk, hcall⟩ := bind_eq_ok h
  have hjoin := mapError_eq_ok hk
  refine ⟨k, hjoin, ?_⟩
  cases hcall
  split
  · exact ⟨rfl, (objectURL_iff hb).mpr (Storage.names_of_join hjoin)⟩
  · exact ⟨rfl, rfl, rfl⟩

/-! ## A byte budget -/

variable {σ ε : Type} {body : Reader σ ε} {rest : σ → Bytes}

/-- A call gives the next bytes, as many as remain at most, or takes one more to see whether there is one. -/
structure BoundedRead (rest : σ → Bytes) (s : σ) (remaining : Int) (s' : σ) (remaining' : Int)
    (res : ReadResult (BoundedError ε)) : Prop where
  count : remaining' = remaining - res.data.length
  fits : (res.data.length : Int) ≤ remaining
  next : ∃ probe, rest s = res.data ++ probe ++ rest s' ∧ (probe ≠ [] ↔ res.err = some (.other .exceedsBudget)) ∧
    (probe ≠ [] → remaining = 0)
  atEnd : res.err = some .eof → rest s' = []

theorem passOn_ne (err : Option (ReadError ε)) : err.map passOn ≠ some (.other .exceedsBudget) := by
  rcases err with _ | _ | err <;> simp [passOn]

theorem passOn_eof {err : Option (ReadError ε)} : err.map passOn = some .eof ↔ err = some .eof := by
  rcases err with _ | _ | err <;> simp [passOn]

theorem boundedRead_spec (h : body.Delivers rest) (s : σ) {remaining : Int} (h0 : 0 ≤ remaining) (p : Nat) :
    BoundedRead rest s remaining ((boundedObjectReader body).read (s, remaining) p).1.1
      ((boundedObjectReader body).read (s, remaining) p).1.2 ((boundedObjectReader body).read (s, remaining) p).2 := by
  unfold boundedObjectReader
  dsimp only
  split
  · exact ⟨by simp, h0, ⟨[], by simp, by simp, by simp⟩, nofun⟩
  split
  · rename_i hzero
    have hnext := h.next s 1
    split
    · rename_i hmore
      refine ⟨by simp, h0, ⟨(body.read s 1).2.data, hnext, ?_, fun _ => hzero⟩, nofun⟩
      exact iff_of_true (List.ne_nil_of_length_pos hmore) rfl
    · rename_i hnone
      have hnil : (body.read s 1).2.data = [] := List.eq_nil_of_length_eq_zero (Nat.eq_zero_of_not_pos hnone)
      rw [hnil] at hnext
      refine ⟨by simp, h0, ⟨[], hnext, ?_, fun _ => hzero⟩, fun he => h.atEnd s 1 (passOn_eof.mp he)⟩
      exact iff_of_false (fun hne => hne rfl) (passOn_ne _)
  · rename_i hne
    have hbuffer : ((if (p : Int) > remaining then remaining.toNat else p : Nat) : Int) ≤ remaining := by
      split <;> omega
    generalize (if (p : Int) > remaining then remaining.toNat else p) = n at hbuffer ⊢
    have hsize := h.fits s n
    refine ⟨rfl, ?_, ⟨[], ?_, ?_, fun hnil => absurd rfl hnil⟩, fun he => h.atEnd s n (passOn_eof.mp he)⟩
    · show ((body.read s n).2.data.length : Int) ≤ remaining
      omega
    · rw [List.append_nil]
      exact h.next s _
    · exact iff_of_false (fun hnil => hnil rfl) (passOn_ne _)

/-- What calls keep, for the object that the body had at first. -/
structure Within (rest : σ → Bytes) (object : Bytes) (maxBytes : Int) (out : List (ReadResult (BoundedError ε)))
    (st : σ × Int) : Prop where
  nonneg : 0 ≤ st.2
  count : st.2 + (Reader.delivered out).length = maxBytes
  next : ∃ probes, object = Reader.delivered out ++ probes ++ rest st.1 ∧ (probes ≠ [] → st.2 = 0) ∧
    ((∀ x ∈ out, x.err = none) → probes = [])

theorem Within.step {object : Bytes} {out : List (ReadResult (BoundedError ε))} {st : σ × Int}
    (h : body.Delivers rest) (p : Nat) (hw : Within rest object maxBytes out st) :
    Within rest object maxBytes (out ++ [((boundedObjectReader body).read st p).2])
      ((boundedObjectReader body).read st p).1 := by
  obtain ⟨s, remaining⟩ := st
  have hread := boundedRead_spec h s hw.nonneg p
  generalize (boundedObjectReader body).read (s, remaining) p = r at hread ⊢
  obtain ⟨⟨s', remaining'⟩, res⟩ := r
  obtain ⟨hnonneg, hcount, probes, hobject, hzero, hclean⟩ := hw
  obtain ⟨hcount', hfits, ⟨probe, hnext, herr, hprobe⟩, -⟩ := hread
  have hout := Reader.delivered_concat out res
  dsimp only at hnonneg hcount hobject hzero hcount' hfits hprobe hnext ⊢
  refine ⟨by dsimp only; omega, ?_, probes ++ probe, ?_, ?_, ?_⟩
  · rw [hout, List.length_append]
    push_cast
    omega
  · -- once a byte was taken to see whether there is one, nothing is delivered
    have hone : probes = [] ∨ res.data = [] := by
      by_cases hp : probes = []
      · exact .inl hp
      · have := hzero hp
        exact .inr (List.eq_nil_of_length_eq_zero (by omega))
    rw [hobject, hnext, hout]
    rcases hone with hnil | hnil <;> simp [hnil]
  · intro hne
    have hgone : remaining = 0 := by
      by_cases hp : probes = []
      · rw [hp, List.nil_append] at hne
        exact hprobe hne
      · exact hzero hp
    omega
  · intro hquiet
    rw [hclean fun x hx => hquiet x (List.mem_append_left _ hx), List.nil_append]
    by_contra hne
    have herr' := herr.mp hne
    rw [hquiet res (List.mem_append_right _ (List.mem_singleton_self res))] at herr'
    cases herr'

theorem calls_within (h : body.Delivers rest) (s : σ) (hmax : 1 ≤ maxBytes) (sizes : List Nat) :
    Within rest (rest s) maxBytes ((boundedObjectReader body).calls (s, maxBytes) sizes).1
      ((boundedObjectReader body).calls (s, maxBytes) sizes).2 := by
  refine Reader.calls_inv (I := Within rest (rest s) maxBytes) (fun p hw => hw.step h p) ?_ sizes
  exact ⟨by dsimp only; omega, by simp [Reader.delivered], [], rfl, fun hne => absurd rfl hne, fun _ => rfl⟩

/-- An error that is not one of the body is right, after calls that delivered `done` and took no more. -/
theorem firstErrorRight_of_read {s s' : σ} {remaining remaining' : Int} {object done : Bytes}
    {res : ReadResult (BoundedError ε)} {err : ReadError (BoundedError ε)} (hobject : object = done ++ rest s)
    (hcount : remaining + done.length = maxBytes) (hread : BoundedRead rest s remaining s' remaining' res)
    (herr : res.err = some err) (hown : ∀ own, err ≠ .other (.body own)) :
    FirstErrorRight object maxBytes (done ++ res.data) err := by
  obtain ⟨-, hfits, ⟨probe, hnext, hexceeds, hprobe⟩, hend⟩ := hread
  rw [hnext] at hobject
  rw [herr] at hexceeds hend
  have hlen : ((done ++ res.data).length : Int) = maxBytes - remaining + res.data.length := by
    rw [List.length_append]
    push_cast
    omega
  cases err with
  | eof =>
    have hnoprobe : probe = [] := by
      by_contra hne
      cases hexceeds.mp hne
    have hall : done ++ res.data = object := by
      rw [hobject, hnoprobe, hend rfl]
      simp
    exact ⟨iff_of_true rfl ⟨by rw [← hall]; omega, hall⟩, fun hne => absurd rfl hne⟩
  | other e =>
    cases e with
    | body own => exact absurd rfl (hown own)
    | exceedsBudget =>
      -- a byte was there to be taken, so not all was delivered
      have hprobed : probe ≠ [] := hexceeds.mpr rfl
      have hgone := hprobe hprobed
      refine ⟨iff_of_false nofun fun hall => hprobed ?_, fun _ => ⟨rfl, by omega⟩⟩
      have hsame := hall.2.trans hobject
      rw [List.append_assoc res.data, ← List.append_assoc done, List.self_eq_append_right] at hsame
      exact (List.append_eq_nil_iff.mp hsame).1

/-- For every body that keeps the contract of readers, every budget and all buffers: what is delivered is
the start of the object, within the budget, and the first error, if it is not one of the body, is the
right one. -/
theorem bounded_download_exact (h : body.Delivers rest) (s : σ) {maxBytes : Int} (hmax : 1 ≤ maxBytes) (sizes : List Nat) :
    Reader.delivered ((boundedObjectReader body).calls (s, maxBytes) sizes).1 <+: rest s ∧
      ((Reader.delivered ((boundedObjectReader body).calls (s, maxBytes) sizes).1).length : Int) ≤ maxBytes ∧
      ∀ pre res post err, ((boundedObjectReader body).calls (s, maxBytes) sizes).1 = pre ++ res :: post →
        (∀ x ∈ pre, x.err = none) → res.err = some err → (∀ own, err ≠ .other (.body own)) →
        FirstErrorRight (rest s) maxBytes (Reader.delivered (pre ++ [res])) err := by
  obtain ⟨hnonneg, hcount, probes, hobject, -, -⟩ := calls_within h s hmax sizes
  refine ⟨⟨_, by rw [hobject, List.append_assoc]⟩, by omega, fun pre res post err hsplit hquiet herr hown => ?_⟩
  obtain ⟨before, p, hbefore, hres⟩ := Reader.calls_split hsplit
  have hw := calls_within h s hmax before
  rw [hbefore] at hw
  generalize ((boundedObjectReader body).calls (s, maxBytes) before).2 = st at hw hres
  obtain ⟨s₁, remaining⟩ := st
  obtain ⟨hnonneg, hcount, probes, hobject, -, hclean⟩ := hw
  have hread := boundedRead_spec h s₁ hnonneg p
  rw [hres] at hread
  rw [hclean hquiet, List.append_nil] at hobject
  rw [Reader.delivered_concat]
  exact firstErrorRight_of_read hobject hcount hread herr hown

/-- A version that is opened is the one asked for, and within its budget, as far as its length is known. -/
theorem openVersion_eq_ok {key version : Bytes}
    {respond : Call → Bytes → Except ε (Download σ)} {opened : σ × Int}
    (h : openVersion c key version maxBytes respond = .ok opened) :
    (1 ≤ maxBytes ∧ maxBytes ≤ maxStreamObjectBytes) ∧ ∃ call download, streamCall (ε := ε) .get c key = .ok call ∧
      respond call version = .ok download ∧ download.received = version ∧ download.length ≤ maxBytes ∧
      opened = (download.body, maxBytes) := by
  unfold openVersion at h
  split at h
  · cases h
  rename_i hargs
  simp only [not_or, Int.not_lt] at hargs
  obtain ⟨call, hcall, h⟩ := bind_eq_ok h
  obtain ⟨download, hdownload, h⟩ := bind_eq_ok h
  split at h
  · cases h
  rename_i hanswer
  simp only [not_or, not_not, Int.not_gt_eq] at hanswer
  cases h
  exact ⟨hargs.2.2, call, download, hcall, mapError_eq_ok hdownload, hanswer.1, hanswer.2, rfl⟩

/-- For every storage: what is read through `OpenVersion`, with all buffers, is the start of the body that
the storage gave for the version, within the budget; it was asked for the object of the joined key. -/
theorem opened_download (h : body.Delivers rest) {c : Config} (hb : Name c.bucket) {key version : Bytes} {maxBytes : Int}
    {respond : Call → Bytes → Except ε (Download σ)} {opened : σ × Int}
    (hopen : openVersion c key version maxBytes respond = .ok opened) (sizes : List Nat) :
    ∃ k call download, joinObjectKey c.keyPrefix key = .ok k ∧ Touches c .get c.bucket k call ∧
      respond call version = .ok download ∧ download.received = version ∧
      Reader.delivered ((boundedObjectReader body).calls opened sizes).1 <+: rest download.body ∧
      ((Reader.delivered ((boundedObjectReader body).calls opened sizes).1).length : Int) ≤ maxBytes ∧
      maxBytes ≤ maxStreamObjectBytes := by
  obtain ⟨⟨hmin, hmax⟩, call, download, hcall, hrespond, hversion, -, rfl⟩ := openVersion_eq_ok hopen
  obtain ⟨k, hjoin, htouches⟩ := streamCall_touches hb hcall
  obtain ⟨hnonneg, hcount, probes, hobject, -, -⟩ := calls_within h download.body hmin sizes
  exact ⟨k, call, download, hjoin, htouches, hrespond, hversion, ⟨_, by rw [hobject, List.append_assoc]⟩, by omega, hmax⟩

def inPairs : Reader Bytes Unit where
  read := fun s n => (s.drop (min n 2), ⟨s.take (min n 2), if s.length ≤ min n 2 then some .eof else none⟩)

theorem inPairs_delivers : inPairs.Delivers id := by
  refine ⟨fun s n => ?_, fun s n => (List.take_append_drop _ s).symm, fun s n h => ?_⟩
  · have hle := List.length_take_le (min n 2) s
    show (s.take (min n 2)).length ≤ n
    omega
  · have hend : (if s.length ≤ min n 2 then some (ReadError.eof (ε := Unit)) else none) = some .eof := h
    split at hend
    · rename_i hlen
      exact List.drop_eq_nil_of_le hlen
    · cases hend

/-- Three bytes fit into three, and do not into two. -/
theorem bounded_download_exact_pairs :
    FirstErrorRight (ε := Unit) [1, 2, 3] 3 [1, 2, 3] .eof ∧
      FirstErrorRight (ε := Unit) [1, 2, 3] 2 [1, 2] (.other .exceedsBudget) :=
  ⟨(bounded_download_exact inPairs_delivers [1, 2, 3] (show 1 ≤ 3 by decide) [5, 5]).2.2 [⟨[1, 2], none⟩]
      ⟨[3], some .eof⟩ [] .eof (by decide) (by decide) rfl nofun,
    (bounded_download_exact inPairs_delivers [1, 2, 3] (show 1 ≤ 2 by decide) [5, 5]).2.2 [⟨[1, 2], none⟩]
      ⟨[], some (.other .exceedsBudget)⟩ [] (.other .exceedsBudget) (by decide) (by decide) rfl nofun⟩

def onlyVersion (version object : Bytes) : Call → Bytes → Except Unit (Download Bytes) :=
  fun _ _ => .ok ⟨object, -1, version⟩

theorem opened_download_pairs :
    ∃ k call, joinObjectKey (utf8 "p") (utf8 "a") = .ok k ∧ Touches ⟨[], utf8 "b", utf8 "p", true⟩ .get (utf8 "b") k call ∧
      Reader.delivered ((boundedObjectReader inPairs).calls ([1, 2, 3], 2) [5, 5]).1 <+: [1, 2, 3] := by
  have hjoin : joinObjectKey (utf8 "p") (utf8 "a") = .ok (utf8 "p/a") := by decide +kernel
  have hopen : openVersion ⟨[], utf8 "b", utf8 "p", true⟩ (utf8 "a") [7] 2 (onlyVersion [7] [1, 2, 3]) =
      .ok ([1, 2, 3], 2) := by
    rw [openVersion, if_neg (by decide +kernel), streamCall, hjoin]
    rfl
  obtain ⟨k, call, download, hjoin, htouches, hrespond, -, hstart, -⟩ :=
    opened_download inPairs_delivers (by decide +kernel) hopen [5, 5]
  cases hrespond
  exact ⟨k, call, hjoin, htouches, hstart⟩

end Csar.Proof.S3Store
