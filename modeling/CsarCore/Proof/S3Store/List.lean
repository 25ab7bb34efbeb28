import CsarCore.Spec.S3Store

/-!
# Two listings that agree

Both loops are `Pager.collect`: `listObjectsIAM` on the pages of `chain`,
`listObjectsSDK` on those of `verbatim` (`sdk_eq`, `iam_eq`). The pages are the same up
to the end of the chain (`leads_verbatim`), where `verbatim` may go on, to the first
page or the empty token. `listings_agree_iff` is when that makes no difference.
-/

namespace Csar.Proof.S3Store

open Impl.S3Store Spec.S3Store Pager

variable {η ε : Type} {server : Option Bytes → ListPage} {keyPrefix : Bytes} {fetch : Bytes → Bytes → Except ε η}
  {ps : List ListPage} {entries : List η} {t : Option Bytes} {fuel : Nat}

/-! ## The loops -/

theorem listed_none (contents : List (Option Bytes)) : listed keyPrefix (none :: contents) = listed keyPrefix contents :=
  rfl

theorem gather_listed (key : Bytes) (contents : List (Option Bytes)) :
    gather (fetchKey keyPrefix fetch) (listed keyPrefix (some key :: contents)) entries =
      if Strings.trimPrefix key keyPrefix = [] then gather (fetchKey keyPrefix fetch) (listed keyPrefix contents) entries
      else match fetch key (Strings.trimPrefix key keyPrefix) with
      | .error err => .error ⟨key, err⟩
      | .ok entry => gather (fetchKey keyPrefix fetch) (listed keyPrefix contents) (entries ++ [entry]) := by
  have hcons : listed keyPrefix (some key :: contents) =
      if Strings.trimPrefix key keyPrefix = [] then listed keyPrefix contents else key :: listed keyPrefix contents := by
    have hkey : (key ≠ [] ∧ key ≠ keyPrefix) ↔ ¬ Strings.trimPrefix key keyPrefix = [] := by
      rw [Strings.trimPrefix_eq_nil, not_or]
    simp only [listed, List.filterMap_cons, Option.filter, hkey]
    by_cases h : Strings.trimPrefix key keyPrefix = [] <;> simp [h]
  rw [hcons]
  split
  · rfl
  · rw [gather, fetchKey]
    cases fetch key (Strings.trimPrefix key keyPrefix) <;> rfl

theorem fetchContentsSDK_eq (contents : List (Option Bytes)) :
    fetchContentsSDK keyPrefix fetch contents entries =
      gather (fetchKey keyPrefix fetch) (listed keyPrefix contents) entries := by
  induction contents generalizing entries with
  | nil => rfl
  | cons key contents ih =>
    rcases key with _ | key
    · rw [fetchContentsSDK, listed_none]
      exact ih
    · rw [fetchContentsSDK, gather_listed]
      split <;> [exact ih; skip]
      cases fetch key _ <;> [rfl; exact ih]

theorem fetchObjectsIAM_eq (contents : List (Option Bytes)) :
    fetchObjectsIAM keyPrefix fetch (contents.map fun key => key.getD []) entries =
      gather (fetchKey keyPrefix fetch) (listed keyPrefix contents) entries := by
  induction contents generalizing entries with
  | nil => rfl
  | cons key contents ih =>
    rw [List.map_cons, fetchObjectsIAM]
    rcases key with _ | key
    · -- an object without a key has the empty one
      have hempty : Strings.trimPrefix [] keyPrefix = [] := Strings.trimPrefix_eq_nil.mpr (.inl rfl)
      dsimp only [Option.getD_none]
      rw [if_pos hempty, listed_none]
      exact ih
    · rw [Option.getD_some, gather_listed]
      split <;> [exact ih; skip]
      cases fetch key _ <;> [rfl; exact ih]

theorem sdk_eq :
    listObjectsSDK server keyPrefix fetch fuel t entries =
      (verbatim server).collect (objects keyPrefix) (fetchKey keyPrefix fetch) fuel t entries := by
  induction fuel generalizing t entries with
  | zero => rfl
  | succ fuel ih =>
    have hpage : fetchContentsSDK keyPrefix fetch (server t).contents entries =
        gather (fetchKey keyPrefix fetch) (objects keyPrefix ((verbatim server).page t)) entries := fetchContentsSDK_eq _
    have hnext : (verbatim server).next ((verbatim server).page t) =
        if (server t).isTruncated = some true then some (server t).nextContinuationToken else none := rfl
    rw [listObjectsSDK, collect, hnext, hpage]
    cases gather (fetchKey keyPrefix fetch) (objects keyPrefix ((verbatim server).page t)) entries with
    | error err => rfl
    | ok entries =>
      by_cases htr : (server t).isTruncated = some true
      · rw [if_pos htr, htr]
        exact ih
      · rw [if_neg htr]
        dsimp only
        split
        · exact absurd ‹_› htr
        · rfl

def asked (token : Bytes) : Option Bytes := if token = [] then none else some token

theorem chain_next (p : ListPage) :
    (chain server).next p =
      if (if p.isTruncated.getD false then p.nextContinuationToken.getD [] else []) = [] then none
      else some (asked (if p.isTruncated.getD false then p.nextContinuationToken.getD [] else [])) := by
  rcases p with ⟨contents, _ | _ | _, _ | _ | ⟨b, bs⟩⟩ <;> rfl

theorem iam_eq {token : Bytes} :
    listObjectsIAM server keyPrefix fetch fuel token entries =
      (chain server).collect (objects keyPrefix) (fetchKey keyPrefix fetch) fuel (asked token) entries := by
  induction fuel generalizing token entries with
  | zero => rfl
  | succ fuel ih =>
    have hpage : fetchObjectsIAM keyPrefix fetch ((server (asked token)).contents.map fun key => key.getD []) entries =
        gather (fetchKey keyPrefix fetch) (objects keyPrefix ((chain server).page (asked token))) entries :=
      fetchObjectsIAM_eq _
    rw [listObjectsIAM, collect, listPageIAM, ← asked, chain_next]
    dsimp only
    rw [hpage]
    cases gather (fetchKey keyPrefix fetch) (objects keyPrefix ((chain server).page (asked token))) entries with
    | error err => rfl
    | ok entries =>
      -- the token of the page, as `listPageIAM` returns it
      have hpage' : (chain server).page (asked token) = server (asked token) := rfl
      rw [hpage']
      generalize (if (server (asked token)).isTruncated.getD false = true then
        (server (asked token)).nextContinuationToken.getD [] else []) = nextToken
      by_cases hnil : nextToken = []
      · simp only [if_pos hnil]
      · simp only [if_neg hnil]
        exact ih

/-! ## The pages -/

theorem leads_verbatim {o : Option (Option Bytes)} (h : (chain server).Leads t ps o) :
    ∃ last, ps.getLast? = some last ∧ (chain server).next last = o ∧
      (verbatim server).Leads t ps ((verbatim server).next last) := by
  induction h with
  | here t => exact ⟨server t, rfl, rfl, .here t⟩
  | @on t t' ps o hnext hps ih =>
    obtain ⟨last, hlast, ho, hleads⟩ := ih
    have hnext' : (verbatim server).next (server t) = some t' := by
      revert hnext
      show (chain server).next (server t) = some t' → _
      rcases server t with ⟨contents, _ | _ | _, _ | _ | ⟨b, bs⟩⟩ <;> intro h <;> cases h
      rfl
    exact ⟨last, by rw [List.getLast?_cons, hlast]; rfl, ho, .on hnext' hleads⟩

/-- Where the last page of a chain leads verbatim. -/
inductive Last (server : Option Bytes → ListPage) (last : ListPage) : Option (Option Bytes) → Prop
  | ends (h : last.isTruncated ≠ some true) : Last server last none
  | restarts (h : last.isTruncated = some true) (hnext : last.nextContinuationToken = none) :
    Last server last (some none)
  | goesOn (h : last.isTruncated = some true) (hnext : last.nextContinuationToken = some []) :
    Last server last (some (some []))

theorem last_of_chain {last : ListPage} (h : (chain server).next last = none) :
    Last server last ((verbatim server).next last) := by
  rcases last with ⟨contents, _ | _ | _, token⟩
  · exact .ends nofun
  · exact .ends nofun
  · rcases token with _ | _ | ⟨b, bs⟩
    · exact .restarts rfl rfl
    · exact .goesOn rfl rfl
    · cases h

theorem gather_same {keys : List Bytes} (h : gather (fetchKey keyPrefix fetch) keys entries = .ok entries) : keys = [] := by
  obtain ⟨es, hes, hall⟩ := gather_ok_iff.mp h
  rw [List.append_right_eq_self.mp hes.symm] at hall
  cases hall
  rfl

/-! ## Agreement -/

/-- If all objects can be listed, the loops agree just if that of the SDK ends with them. -/
theorem agree_iff_sdk (h : (chain server).Pages none ps)
    (hg : gather (fetchKey keyPrefix fetch) (ps.flatMap (objects keyPrefix)) [] = .ok entries) :
    Agree server keyPrefix fetch ps ↔
      ∃ fuel, (verbatim server).collect (objects keyPrefix) (fetchKey keyPrefix fetch) fuel none [] = some (.ok entries) := by
  have hiam : ∀ {fuel}, ps.length ≤ fuel → listObjectsIAM server keyPrefix fetch fuel [] [] = some (.ok entries) := by
    intro fuel hfuel
    rw [iam_eq]
    exact collect_mono (collect_leads (n := 0) h hg) hfuel
  obtain ⟨es, hes, hall⟩ := gather_ok_iff.mp hg
  rw [List.nil_append] at hes
  subst hes
  constructor
  · rintro ⟨fuel, r, r', hsdk, hr', hsame⟩
    have hok : r' = .ok entries := by
      rw [iam_eq] at hr'
      exact collect_unique hr' (collect_leads (n := 0) h hg)
    rw [sdk_eq] at hsdk
    rcases hsame with ⟨es', rfl, hes', -⟩ | ⟨-, err, herr⟩
    · rw [hok] at hes'
      cases hes'
      exact ⟨fuel, hsdk⟩
    · rw [hok] at herr
      cases herr
  · rintro ⟨fuel, hsdk⟩
    refine ⟨max fuel ps.length, _, _, ?_, hiam (Nat.le_max_right ..), .inl ⟨entries, rfl, rfl, hall⟩⟩
    rw [sdk_eq]
    exact collect_mono hsdk (Nat.le_max_left ..)

/-- For every storage with a finite chain of pages: the two loops both stop, with the entries of the
chain or both with an error, exactly when the pages are consistent. -/
theorem listings_agree_iff (h : (chain server).Pages none ps) :
    Agree server keyPrefix fetch ps ↔ Consistent server keyPrefix fetch ps := by
  obtain ⟨last, hlast, hend, hleads⟩ := leads_verbatim h
  cases hg : gather (fetchKey keyPrefix fetch) (ps.flatMap (objects keyPrefix)) [] with
  | error err =>
    refine iff_of_true ⟨ps.length, .error err, .error err, ?_, ?_, .inr ⟨⟨err, rfl⟩, err, rfl⟩⟩ (.inl ?_)
    · rw [sdk_eq]
      exact collect_error (n := 0) hleads hg
    · rw [iam_eq]
      exact collect_error (n := 0) h hg
    · exact gather_error_iff.mp ⟨err, hg⟩
  | ok entries =>
    have hfetched : ¬ ∃ key ∈ ps.flatMap (objects keyPrefix), ∃ err, fetchKey keyPrefix fetch key = .error err := by
      intro hkey
      obtain ⟨err, herr⟩ := gather_error_iff.mpr hkey
      rw [hg] at herr
      cases herr
    have hcons : Consistent server keyPrefix fetch ps ↔
        last.isTruncated ≠ some true ∨ last.nextContinuationToken = some [] ∧
          ∃ more, (verbatim server).Pages (some []) more ∧ more.flatMap (objects keyPrefix) = [] := by
      rw [Consistent, or_iff_right hfetched, hlast]
      simp only [Option.some.injEq, exists_eq_left']
    rw [agree_iff_sdk h hg, hcons]
    generalize ho : (verbatim server).next last = o at hleads
    cases ho ▸ last_of_chain hend with
    | ends hnot => exact iff_of_true ⟨ps.length, collect_leads (n := 0) hleads hg⟩ (.inl hnot)
    | restarts htrunc hnext =>
      refine iff_of_false ?_ ?_
      · rintro ⟨fuel, hsdk⟩
        rw [collect_cycle hleads] at hsdk
        · cases hsdk
        · intro key hkey
          cases hf : fetchKey keyPrefix fetch key with
          | ok entry => exact ⟨entry, rfl⟩
          | error err => exact absurd ⟨key, hkey, err, hf⟩ hfetched
      · rintro (hnot | ⟨hempty, -⟩)
        · exact hnot htrunc
        · rw [hnext] at hempty
          cases hempty
    | goesOn htrunc hnext =>
      constructor
      · rintro ⟨fuel, hsdk⟩
        have hmore := collect_mono hsdk (Nat.le_add_left fuel ps.length)
        rw [collect_leads hleads hg] at hmore
        obtain ⟨more, hpages, hsame⟩ := collect_ok hmore
        exact .inr ⟨hnext, more, hpages, gather_same hsame⟩
      · rintro (hnot | ⟨-, more, hpages, hnone⟩)
        · exact absurd htrunc hnot
        · refine ⟨ps.length + more.length, ?_⟩
          rw [collect_leads hleads hg]
          exact collect_leads (n := 0) hpages (by rw [hnone]; rfl)

def twoPages : Option Bytes → ListPage
  | none => ⟨[some [1], some [1, 2], none], some true, some [7]⟩
  | some _ => ⟨[some [1, 3]], none, some [8]⟩

theorem listings_agree_two :
    (chain twoPages).Pages none [twoPages none, twoPages (some [7])] ∧
      Agree twoPages [1] (fun _ ref => .ok (ε := Unit) ref) [twoPages none, twoPages (some [7])] := by
  have h : (chain twoPages).Pages none [twoPages none, twoPages (some [7])] := .on rfl (.here (some [7]))
  exact ⟨h, (listings_agree_iff h).mpr (.inr ⟨_, rfl, .inl nofun⟩)⟩

def noToken : Option Bytes → ListPage := fun _ => ⟨[some [1, 2]], some true, none⟩

/-- A truncated page without a token: one loop asks for the first page again and again, the other ends. -/
theorem listing_restarts :
    (chain noToken).Pages none [noToken none] ∧
      (∀ fuel, listObjectsSDK noToken [1] (fun _ ref => .ok (ε := Unit) ref) fuel none [] = none) ∧
      listObjectsIAM noToken [1] (fun _ ref => .ok (ε := Unit) ref) 1 [] [] = some (.ok [[2]]) ∧
      ¬ Agree noToken [1] (fun _ ref => .ok (ε := Unit) ref) [noToken none] := by
  have hsdk : ∀ fuel, listObjectsSDK noToken [1] (fun _ ref => .ok (ε := Unit) ref) fuel none [] = none := by
    intro fuel
    rw [sdk_eq]
    have hleads : (verbatim noToken).Leads none [noToken none] (some none) := .here none
    refine collect_cycle hleads ?_
    intro key _
    exact ⟨_, rfl⟩
  refine ⟨.here none, hsdk, rfl, ?_⟩
  rintro ⟨fuel, r, -, hr, -⟩
  rw [hsdk fuel] at hr
  cases hr

end Csar.Proof.S3Store
