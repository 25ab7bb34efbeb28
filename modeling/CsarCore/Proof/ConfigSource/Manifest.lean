import CsarCore.Proof.ConfigSource.Watcher
import CsarCore.Spec.ConfigSource

/-!
# The manifest source: "unchanged" means delivered

`fetch_cases` is how a `Fetch` can end. The invariant (`MInv`) ties the kept version,
checksum and source to what was returned last. If no retry is swallowed (`Faithful`),
the entry of the last manifest was delivered unless its `Fetch` failed:
`manifest_unchanged_delivered`.
-/

namespace Csar.Proof.ConfigSource

open Impl.ConfigSource Spec.ConfigSource

variable {quote : String → String} {decode : Bytes → Except String Manifest} {sum256 : Bytes → Digest}
  {authErr : Option String}

/-! ## Parsing -/

theorem checkServices_spec {rows : List (String × ServiceManifest)}
    (h : checkServices quote rows = .ok ()) :
    ∀ x ∈ rows, x.2.version ≠ "" ∧ x.2.config.validate quote = .ok () := by
  induction rows with
  | nil => simp
  | cons r rows ih =>
    obtain ⟨name, svc⟩ := r
    simp only [checkServices] at h
    split at h <;> [cases h; skip]
    rename_i hv
    split at h <;> [cases h; skip]
    rename_i hc
    intro x hx
    rcases List.mem_cons.mp hx with rfl | hx
    · exact ⟨hv, hc⟩
    · exact ih h x hx

variable {cr : ConfigResource} {ms : ManifestSource} {svc : ServiceManifest} {a b : ConfigResource}
    {src : Source}

theorem validate_checksum (h : cr.validate quote = .ok ()) {c : ChecksumInfo}
    (hc : cr.checksum = some c) : c.value ≠ "" := by
  simp only [ConfigResource.validate, hc] at h
  split at h <;> [cases h; skip]
  intro he
  simp only [ChecksumInfo.validate, he] at h
  split at h <;> cases h

structure Valid (svc : ServiceManifest) : Prop where
  version : svc.version ≠ ""
  checksum : ∀ c, svc.config.checksum = some c → c.value ≠ ""

theorem lookup_valid {data : Bytes} (h : ms.lookup quote decode data = .ok svc) : Valid svc := by
  simp only [ManifestSource.lookup] at h
  split at h <;> [cases h; skip]
  rename_i m hm
  split at h <;> [cases h; skip]
  rename_i s hs
  cases h
  simp only [parseManifest] at hm
  split at hm <;> [cases hm; skip]
  split at hm <;> [cases hm; skip]
  split at hm <;> [cases hm; skip]
  split at hm <;> [cases hm; skip]
  rename_i hcheck
  cases hm
  simp only [Manifest.lookupService] at hs
  split at hs <;> [cases hs; skip]
  rename_i name s' hf
  split at hs <;> [skip; cases hs]
  cases hs
  have := checkServices_spec hcheck _ (Table.find?_eq_some.mp hf).1
  exact ⟨this.1, fun c hc => validate_checksum this.2 hc⟩

/-! ## Resolving -/

/-- The fields that `configResourceEqual` compares. -/
structure SameAsset (a b : ConfigResource) : Prop where
  provider : a.provider = b.provider
  path : a.path = b.path
  bucket : a.bucket = b.bucket
  region : a.region = b.region
  endpoint : a.endpoint = b.endpoint

theorem sameAsset_of_equal (h : configResourceEqual a b = true) : SameAsset a b := by
  simp only [configResourceEqual] at h
  split at h <;> [cases h; skip]
  rename_i h₁
  split at h <;> [cases h; skip]
  rename_i h₂
  simp only [not_or, not_not] at h₁ h₂
  exact ⟨h₁.1, h₁.2, h₂.1, h₂.2.1, h₂.2.2⟩

def withHeaders (headers : List (String × String)) : Source → Source
  | .http s => .http { s with headers := headers }
  | src => src

theorem build_of_sameAsset (h : SameAsset a b) (hs : buildSourceFromResource quote authErr a = .ok src) :
    buildSourceFromResource quote authErr b = .ok (withHeaders b.headers src) := by
  simp only [buildSourceFromResource, h.provider, h.path, h.bucket, h.region, h.endpoint] at hs
  simp only [buildSourceFromResource]
  by_cases hf : b.provider = "file"
  · rw [if_pos hf] at hs ⊢
    cases hs
    rfl
  by_cases h3 : b.provider = "s3"
  · rw [if_neg hf, if_pos h3] at hs ⊢
    split at hs <;> [cases hs; skip]
    rename_i hb
    rw [if_neg hb]
    cases authErr with
    | some e => cases hs
    | none =>
      cases hs
      rfl
  by_cases hh : b.provider = "http"
  · rw [if_neg hf, if_neg h3, if_pos hh] at hs ⊢
    cases hs
    rfl
  · rw [if_neg hf, if_neg h3, if_neg hh] at hs
    cases hs

theorem withHeaders_location (headers : List (String × String)) (src : Source) :
    (withHeaders headers src).location = src.location := by
  cases src <;> rfl

theorem readsAt_of_equal {loc : Location} (he : configResourceEqual a b = true)
    (h : ReadsAt quote authErr a loc) : ReadsAt quote authErr b loc := by
  obtain ⟨src, hs, hl⟩ := h
  exact ⟨_, build_of_sameAsset (sameAsset_of_equal he) hs, (withHeaders_location _ _).trans hl⟩

theorem httpFetch_source (s : HTTPSource) (reply : Reply) :
    (s.fetch reply).1.url = s.url ∧ (s.fetch reply).1.headers = s.headers := by
  cases reply with
  | badRequest e | failed e => exact ⟨rfl, rfl⟩
  | response r =>
    simp only [HTTPSource.fetch]
    split
    · exact ⟨rfl, rfl⟩
    · split
      · split
        · exact ⟨rfl, rfl⟩
        · split <;> exact ⟨rfl, rfl⟩
      · exact ⟨rfl, rfl⟩

theorem fetch_location (src : Source) (world : World) : (src.fetch world).1.location = src.location := by
  cases src with
  | file path => rfl
  | s3 bucket endpoint region key => rfl
  | http s => exact congrArg Location.http (httpFetch_source s world.reply).1

theorem fetch_data {world : World} {etag : String}
    (h : (src.fetch world).2 = .ok ⟨none, etag⟩) : ∃ r, world.reply = .response r ∧ r.status = 304 := by
  cases src with
  | file path =>
    simp only [Source.fetch, fileFetch] at h
    split at h <;> [cases h; skip]
    split at h <;> cases h
  | s3 bucket endpoint region key =>
    simp only [Source.fetch, s3Fetch] at h
    split at h <;> cases h
  | http s =>
    simp only [Source.fetch] at h
    cases hr : world.reply with
    | badRequest e | failed e => rw [hr] at h; cases h
    | response r =>
      refine ⟨r, rfl, ?_⟩
      rw [hr] at h
      simp only [HTTPSource.fetch] at h
      split at h
      · assumption
      · split at h <;> [skip; cases h]
        split at h <;> [cases h; skip]
        split at h <;> cases h

/-- The kept source reads where its resource says. -/
def Kept (quote : String → String) (authErr : Option String) (ms : ManifestSource) : Prop :=
  ∀ src cr, ms.resolved = some (src, cr) → ReadsAt quote authErr cr src.location

theorem resolve_readsAt {cr' : ConfigResource}
    (hk : Kept quote ms.authErr ms) (h : ms.resolveSource quote cr = .ok (src, cr')) :
    ReadsAt quote ms.authErr cr' src.location ∧ ReadsAt quote ms.authErr cr src.location := by
  have hbuild : ∀ src₁, buildSourceFromResource quote ms.authErr cr = .ok src₁ →
      ReadsAt quote ms.authErr cr src₁.location := fun src₁ hb => ⟨src₁, hb, rfl⟩
  simp only [ManifestSource.resolveSource] at h
  split at h
  · rename_i src₀ old hr
    split at h
    · rename_i he
      cases h
      exact ⟨hk _ _ hr, readsAt_of_equal he (hk _ _ hr)⟩
    · rcases hb : buildSourceFromResource quote ms.authErr cr with e | src₁ <;> rw [hb] at h <;> cases h
      exact ⟨hbuild src hb, hbuild src hb⟩
  · rcases hb : buildSourceFromResource quote ms.authErr cr with e | src₁ <;> rw [hb] at h <;> cases h
    exact ⟨hbuild src hb, hbuild src hb⟩

/-! ## One `Fetch` -/

/-- The entry is unchanged; there is an error; the provider said "not modified"; or data is returned. All
but the first keep the source they resolved. -/
theorem fetchService_cases (sum256 : Bytes → Digest) (hk : Kept quote ms.authErr ms)
    (svc : ServiceManifest) (etag : String) (world : World) :
    (svc.version = ms.lastVersion ∧ svc.config.cksum = ms.lastCksum ∧ ms.lastVersion ≠ "" ∧
      ∃ tag, ms.fetchService quote sum256 svc etag world = (ms, ⟨some svc, none, .ok ⟨none, tag⟩⟩)) ∨
    (∃ res loc e, Kept quote ms.authErr { ms with resolved := res } ∧
      ms.fetchService quote sum256 svc etag world =
        ({ ms with resolved := res }, ⟨some svc, loc, .error e⟩)) ∨
    ((∃ r, world.reply = .response r ∧ r.status = 304) ∧ ∃ res loc tag,
      Kept quote ms.authErr { ms with resolved := res } ∧ ms.fetchService quote sum256 svc etag world =
        ({ ms with resolved := res }, ⟨some svc, loc, .ok ⟨none, tag⟩⟩)) ∨
    ∃ res loc data tag, Kept quote ms.authErr { ms with resolved := res } ∧
      ReadsAt quote ms.authErr svc.config loc ∧
      (∀ c, svc.config.checksum = some c → computeSHA256 sum256 data = c.value) ∧
      ms.fetchService quote sum256 svc etag world =
        ({ ms with resolved := res, lastVersion := svc.version, lastCksum := svc.config.cksum },
          ⟨some svc, some loc, .ok ⟨some data, tag⟩⟩) := by
  simp only [ManifestSource.fetchService]
  by_cases hun : svc.version = ms.lastVersion ∧ svc.config.cksum = ms.lastCksum ∧ ms.lastVersion ≠ ""
  · exact .inl ⟨hun.1, hun.2.1, hun.2.2, _, if_pos hun⟩
  · rw [if_neg hun]
    right
    rcases hres : ms.resolveSource quote svc.config with e | ⟨src, cr⟩ <;> dsimp only
    · exact .inl ⟨ms.resolved, none, _, hk, rfl⟩
    · obtain ⟨hcr, hat⟩ := resolve_readsAt hk hres
      have hk' : Kept quote ms.authErr { ms with resolved := some ((src.fetch world).1, cr) } := by
        intro src' cr' he
        cases he
        rw [fetch_location]
        exact hcr
      rcases hf : (src.fetch world).2 with e | ⟨_ | data, tag⟩ <;> dsimp only
      · exact .inl ⟨_, _, _, hk', rfl⟩
      · exact .inr (.inl ⟨fetch_data hf, _, _, _, hk', rfl⟩)
      · rcases hv : verifyChecksum sum256 ms.serviceName svc.config.checksum data with e | ⟨⟩ <;> dsimp only
        · exact .inl ⟨_, _, _, hk', rfl⟩
        · refine .inr (.inr ⟨_, _, _, _, hk', hat, fun c hc => ?_, rfl⟩)
          simp only [verifyChecksum, hc] at hv
          split at hv
          · cases hv
          · rename_i he; exact not_not.mp he

/-! ## Runs -/

/-- The bootstrap source says "not modified" only if the last manifest led to no error; an entry with the
version and checksum of the data returned last is read where that was; and no provider says "not
modified". -/
structure Faithful (quote : String → String) (decode : Bytes → Except String Manifest)
    (tr : ManifestHistory) (ms : ManifestSource) (p : ManifestPoll) : Prop where
  bootstrap : ∀ etag, p.bootstrap = .ok ⟨none, etag⟩ → manifestFailed tr = false
  entry : ∀ data etag svc d, p.bootstrap = .ok ⟨some data, etag⟩ → ms.lookup quote decode data = .ok svc →
    delivered tr = some d → svc.version = d.version → svc.config.cksum = d.cksum →
    ReadsAt quote ms.authErr svc.config d.location
  provider : ∀ r, p.world.reply = .response r → r.status ≠ 304

/-- What is kept is what was returned last, and so is the entry of the last manifest unless its `Fetch`
failed. -/
structure MInv (quote : String → String) (sum256 : Bytes → Digest) (authErr : Option String)
    (tr : ManifestHistory) (ms : ManifestSource) : Prop where
  auth : ms.authErr = authErr
  kept : Kept quote ms.authErr ms
  version : ms.lastVersion = (delivered tr).elim "" Delivery.version
  cksum : ms.lastCksum = (delivered tr).elim "" Delivery.cksum
  verified : ∀ d, delivered tr = some d → d.cksum ≠ "" → computeSHA256 sum256 d.data = d.cksum
  current : manifestFailed tr = false → ∀ svc, current tr = some svc →
    ∃ d, delivered tr = some d ∧ Delivers quote authErr sum256 svc d

variable {tr : ManifestHistory} {ms ms' : ManifestSource} {p : ManifestPoll} {o : Fetched}

theorem cksum_of_checksum {c : ChecksumInfo} (h : cr.checksum = some c) : cr.cksum = c.value := by
  simp [ConfigResource.cksum, h]

theorem MInv.unchanged (h : MInv quote sum256 authErr tr ms) (hvalid : Valid svc)
    (hv : svc.version = ms.lastVersion) (hc : svc.config.cksum = ms.lastCksum) (hne : ms.lastVersion ≠ "")
    (hat : ∀ d, delivered tr = some d → svc.version = d.version → svc.config.cksum = d.cksum →
      ReadsAt quote authErr svc.config d.location) :
    ∃ d, delivered tr = some d ∧ Delivers quote authErr sum256 svc d := by
  have hversion := h.version
  have hcksum := h.cksum
  rcases hd : delivered tr with _ | d <;> rw [hd] at hversion hcksum
  · exact absurd hversion hne
  · have hcd : svc.config.cksum = d.cksum := hc.trans hcksum
    refine ⟨d, rfl, hat d hd (hv.trans hversion) hcd, (hv.trans hversion).symm, fun c hch => ?_⟩
    rw [cksum_of_checksum hch] at hcd
    rw [hcd]
    exact h.verified d hd (hcd ▸ hvalid.checksum c hch)

theorem delivered_of_no_data (h : ∀ data etag, o.result ≠ .ok ⟨some data, etag⟩) :
    delivered ((p, o) :: tr) = delivered tr := by
  obtain ⟨entry, loc, result⟩ := o
  rcases result with e | ⟨_ | data, etag⟩
  · rcases entry with _ | svc <;> rcases loc with _ | loc <;> rfl
  · rcases entry with _ | svc <;> rcases loc with _ | loc <;> rfl
  · exact absurd rfl (h data etag)

/-- A `Fetch` without data that keeps the version and the checksum, if the entry is accounted for. -/
theorem MInv.no_data (h : MInv quote sum256 authErr tr ms) {res : Option (Source × ConfigResource)}
    (hk : Kept quote ms.authErr { ms with resolved := res })
    (ho : ∀ data etag, o.result ≠ .ok ⟨some data, etag⟩)
    (hcur : manifestFailed ((p, o) :: tr) = false → ∀ svc, Spec.ConfigSource.current ((p, o) :: tr) = some svc →
      ∃ d, delivered tr = some d ∧ Delivers quote authErr sum256 svc d) :
    MInv quote sum256 authErr ((p, o) :: tr) { ms with resolved := res } := by
  have hd : delivered ((p, o) :: tr) = delivered tr := delivered_of_no_data ho
  constructor <;> try rw [hd]
  exacts [h.auth, hk, h.version, h.cksum, h.verified, hcur]

theorem minv_step (h : MInv quote sum256 authErr tr ms) (hc : Faithful quote decode tr ms p)
    (hs : ms.fetch quote decode sum256 p.bootstrap p.world = (ms', o)) :
    MInv quote sum256 authErr ((p, o) :: tr) ms' := by
  obtain ⟨boot, world⟩ := p
  rcases boot with e | ⟨_ | data, etag⟩
  · cases hs
    exact h.no_data h.kept (by simp) h.current
  · cases hs
    exact h.no_data h.kept (by simp) h.current
  · simp only [ManifestSource.fetch] at hs
    rcases hl : ms.lookup quote decode data with e | svc <;> rw [hl] at hs <;> dsimp only at hs
    · cases hs
      exact h.no_data h.kept (by simp) (by simp [current, ManifestPoll.hasManifest])
    · rcases fetchService_cases sum256 h.kept svc etag world with
        ⟨hv, hck, hne, tag, e⟩ | ⟨res, loc, err, hk, e⟩ | ⟨⟨r, hr, h304⟩, -⟩ |
        ⟨res, loc, d, tag, hk, hat, hsum, e⟩
      · cases e.symm.trans hs
        refine h.no_data h.kept (by simp) fun _ svc' hsvc => ?_
        simp only [current, ManifestPoll.hasManifest, if_true, Option.some.injEq] at hsvc
        subst hsvc
        exact h.unchanged (lookup_valid hl) hv hck hne fun d hd hv' hc' =>
          h.auth ▸ hc.entry data etag svc d rfl hl hd hv' hc'
      · cases e.symm.trans hs
        exact h.no_data hk (by simp) (by simp [manifestFailed, ManifestPoll.hasManifest, Except.isOk, Except.toBool])
      · exact absurd h304 (hc.provider r hr)
      · cases e.symm.trans hs
        refine ⟨h.auth, hk, rfl, rfl, ?_, fun _ svc' hsvc => ?_⟩
        · rintro _ ⟨⟩ hne
          rcases hch : svc.config.checksum with _ | c
          · simp [ConfigResource.cksum, hch] at hne
          · rw [hsum c hch]
            exact (cksum_of_checksum hch).symm
        · simp only [current, ManifestPoll.hasManifest, if_true, Option.some.injEq] at hsvc
          subst hsvc
          exact ⟨_, rfl, h.auth ▸ hat, rfl, hsum⟩

theorem minv_init (serviceName : String) :
    MInv quote sum256 authErr [] (newManifestSource serviceName authErr) := by
  refine ⟨rfl, ?_, rfl, rfl, ?_, ?_⟩
  · rintro src cr ⟨⟩
  · rintro d ⟨⟩
  · rintro - svc ⟨⟩

theorem minv_run {serviceName : String}
    (h : (manifestSystem quote decode sum256 serviceName authErr).RunIf (Faithful quote decode) tr ms) :
    MInv quote sum256 authErr tr ms :=
  System.RunIf.inv (minv_init serviceName) (fun hi hc hs => minv_step hi hc (Option.some.inj hs)) h

/-- In every run that meets the condition: if a `Fetch` returns no data and no error, then what was
returned last is the configuration that the entry in the last delivered manifest asks for. -/
theorem manifest_unchanged_delivered (quote : String → String) (decode : Bytes → Except String Manifest)
    (sum256 : Bytes → Digest) (serviceName : String) (authErr : Option String) (tr : ManifestHistory)
    (ms : ManifestSource)
    (h : (manifestSystem quote decode sum256 serviceName authErr).RunIf (Faithful quote decode) tr ms)
    (post pre : ManifestHistory) (p : ManifestPoll) (o : Fetched) (htr : tr = post ++ (p, o) :: pre)
    (etag : String) (hres : o.result = .ok ⟨none, etag⟩) (svc : ServiceManifest)
    (hcur : current ((p, o) :: pre) = some svc) :
    ∃ d, delivered pre = some d ∧ Delivers quote authErr sum256 svc d := by
  obtain ⟨ms₀, ms₁, hrun, hc, hs⟩ := h.split htr
  have hi := minv_run (hrun.step hc hs)
  have hd : delivered ((p, o) :: pre) = delivered pre := delivered_of_no_data (by simp [hres])
  rw [← hd]
  refine hi.current ?_ svc hcur
  simp only [manifestFailed, hres]
  split
  · rfl
  · rename_i hm
    -- without a manifest only "not modified" has no error
    obtain ⟨boot, world⟩ := p
    rcases boot with e | ⟨_ | data, tag⟩
    · simp only [manifestSystem, ManifestSource.fetch, Option.some.injEq, Prod.mk.injEq] at hs
      rw [← hs.2] at hres
      cases hres
    · exact hc.bootstrap tag rfl
    · simp [ManifestPoll.hasManifest] at hm

theorem manifest_unchanged_delivered_file :
    let svc : ServiceManifest := ⟨"v1", none, ⟨"file", "/svc.yaml", "", "", "", none, []⟩⟩
    let decode : Bytes → Except String Manifest := fun _ => .ok ⟨"1", ⟨[("svc", svc)], by simp⟩⟩
    let sum256 : Bytes → Digest := fun _ => Vector.replicate 32 0
    let p : ManifestPoll := ⟨.ok ⟨some [1], "m1"⟩, ⟨.ok (1, 1), .ok [7], .error "", .failed ""⟩⟩
    ∃ (tr : ManifestHistory) (ms : ManifestSource) (o : Fetched),
      (manifestSystem id decode sum256 "svc" none).RunIf (Faithful id decode) ((p, o) :: tr) ms ∧
      o.result = .ok ⟨none, "manifest:m1:svc:v1:cksum:"⟩ ∧
      ∃ d, delivered tr = some d ∧ Delivers id none sum256 svc d := by
  intro svc decode sum256 p
  have hc : ∀ tr ms, (∀ d, delivered tr = some d → d.location = .file "/svc.yaml") →
      ms.authErr = none → ms.serviceName = "svc" → Faithful id decode tr ms p := by
    intro tr ms hd ha hn
    refine ⟨by simp [p], ?_, by simp [p]⟩
    rintro data etag svc' d ⟨⟩ hl hdel - -
    have : ms.lookup id decode [1] = .ok svc := by simp [ManifestSource.lookup, hn]; rfl
    cases this.symm.trans hl
    rw [hd d hdel, ha]
    exact ⟨_, rfl, rfl⟩
  have h₁ : (manifestSystem id decode sum256 "svc" none).RunIf (Faithful id decode) _ _ :=
    .step (a := p) .init (hc _ _ (by simp [delivered]) rfl rfl) rfl
  have h₂ := System.RunIf.step (a := p) h₁ (hc _ _ (by rintro d ⟨⟩; rfl) rfl rfl) rfl
  refine ⟨_, _, _, h₂, rfl, ?_⟩
  exact manifest_unchanged_delivered id decode sum256 "svc" none _ _ h₂ [] _ p _ rfl _ rfl svc rfl

/-- "Unchanged" is reported although the entry was never delivered: the bootstrap source says "not
modified" after a `Fetch` that failed; an entry changes its path only; the provider says "not modified"
after a checksum mismatch. -/
theorem manifest_retry_swallowed :
    let entry (provider path : String) (sum : Option ChecksumInfo) : ServiceManifest :=
      ⟨"v1", none, ⟨provider, path, "", "", "", sum, []⟩⟩
    let source (svc : Bytes → ServiceManifest) :=
      manifestSystem id (fun b => .ok ⟨"1", ⟨[("svc", svc b)], by simp⟩⟩) (fun _ => Vector.replicate 32 0) "svc" none
    let poll (manifest : Option Bytes) (etag : String) (data : Except String Bytes) (status : Nat) : ManifestPoll :=
      ⟨.ok ⟨manifest, etag⟩, ⟨.ok (1, 1), data, .error "", .response ⟨status, "c1", "", data⟩⟩⟩
    (∃ ms o₁ o₂ tr, tr = [(poll none "m1" (.ok [7]) 200, o₂), (poll (some [1]) "m1" (.error "io") 200, o₁)] ∧
      (source fun _ => entry "file" "/a" none).Run tr ms ∧ o₂.result = .ok ⟨none, "m1"⟩ ∧ delivered tr = none) ∧
    (∃ ms o₁ o₂ tag tr, tr = [(poll (some [2]) "m2" (.ok [8]) 200, o₂), (poll (some [1]) "m1" (.ok [7]) 200, o₁)] ∧
      (source fun b => entry "file" (if b = [1] then "/a" else "/b") none).Run tr ms ∧
      o₂.entry = some (entry "file" "/b" none) ∧ o₂.result = .ok ⟨none, tag⟩ ∧
      delivered tr = some ⟨"v1", "", .file "/a", [7]⟩) ∧
    ∃ ms o₁ o₂ tag tr, tr = [(poll (some [1]) "m1" (.ok [7]) 304, o₂), (poll (some [1]) "m1" (.ok [7]) 200, o₁)] ∧
      (source fun _ => entry "http" "http://c" (some ⟨"sha256", "ab"⟩)).Run tr ms ∧
      o₂.result = .ok ⟨none, tag⟩ ∧ delivered tr = none := by
  intro entry source poll
  refine ⟨?_, ?_, ?_⟩
  · have h := System.run_of_exec (source fun _ => entry "file" "/a" none)
      [poll (some [1]) "m1" (.error "io") 200, poll none "m1" (.ok [7]) 200] rfl
    exact ⟨_, _, _, _, rfl, h, rfl, rfl⟩
  · have h := System.run_of_exec (source fun b => entry "file" (if b = [1] then "/a" else "/b") none)
      [poll (some [1]) "m1" (.ok [7]) 200, poll (some [2]) "m2" (.ok [8]) 200] rfl
    exact ⟨_, _, _, _, _, rfl, h, rfl, rfl, rfl⟩
  · have h := System.run_of_exec (source fun _ => entry "http" "http://c" (some ⟨"sha256", "ab"⟩))
      [poll (some [1]) "m1" (.ok [7]) 200, poll (some [1]) "m1" (.ok [7]) 304] rfl
    exact ⟨_, _, _, _, _, rfl, h, rfl, rfl⟩

end Csar.Proof.ConfigSource
