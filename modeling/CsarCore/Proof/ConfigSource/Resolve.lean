import CsarCore.Proof.ConfigSource.HTTP
import CsarCore.Proof.ConfigSource.Manifest

/-!
# The kept source: what it sends

`configResourceEqual` compares all that a source is built from but the headers
(`build_of_sameAsset`). So a kept source sends what a new one would just if those are
the same (`resolve_transparent_iff`), since it is the one that its resource gives but
for the validator (`KeptFrom`).
-/

namespace Csar.Proof.ConfigSource

open Impl.ConfigSource Spec.ConfigSource

variable {quote : String → String} {authErr : Option String} {serviceName : String}
  {ms : ManifestSource} {cr cr' : ConfigResource} {src fresh : Source}

/-! ## Requests -/

theorem sameRequest_rfl {a : Source} : SameRequest a a := ⟨Eq.refl _, fun _ => Eq.refl _⟩

theorem sameRequest_trans {a b c : Source} (h : SameRequest a b) (h' : SameRequest b c) : SameRequest a c :=
  ⟨h.1.trans h'.1, fun key => (h.2 key).trans (h'.2 key)⟩

theorem sameRequest_symm {a b : Source} (h : SameRequest a b) : SameRequest b a :=
  ⟨h.1.symm, fun key => (h.2 key).symm⟩

theorem fetch_sameRequest (src : Source) (world : World) : SameRequest (src.fetch world).1 src := by
  refine ⟨fetch_location src world, fun key => ?_⟩
  cases src with
  | file path => rfl
  | s3 bucket endpoint region key => rfl
  | http s =>
    have hh := (httpFetch_source s world.reply).2
    simp only [Source.fetch, sentHeaders, HTTPSource.request, hh, ne_eq, not_true, if_false]

/-- A source of the provider `http` sends the headers of its resource; others send none. -/
theorem build_sentHeaders (h : buildSourceFromResource quote authErr cr = .ok src) :
    sentHeaders src = if cr.provider = "http" then (newHTTPSource "" cr.headers).request else [] := by
  simp only [buildSourceFromResource] at h
  by_cases hf : cr.provider = "file"
  · rw [if_pos hf] at h
    cases h
    rw [hf]
    rfl
  by_cases h3 : cr.provider = "s3"
  · rw [if_neg hf, if_pos h3] at h
    split at h <;> [cases h; skip]
    cases authErr with
    | some e => cases h
    | none =>
      cases h
      rw [h3]
      rfl
  by_cases hh : cr.provider = "http"
  · rw [if_neg hf, if_neg h3, if_pos hh] at h
    cases h
    rw [if_pos hh]
    rfl
  · rw [if_neg hf, if_neg h3, if_neg hh] at h
    cases h

theorem sameRequest_build_iff {old : ConfigResource} (he : SameAsset old cr)
    (hold : buildSourceFromResource quote authErr old = .ok src)
    (hnew : buildSourceFromResource quote authErr cr = .ok fresh) :
    SameRequest src fresh ↔ (cr.provider = "http" → ∀ key, (newHTTPSource "" old.headers).request.lookup key =
      (newHTTPSource "" cr.headers).request.lookup key) := by
  have hloc : src.location = fresh.location := by
    have := (build_of_sameAsset he hold).symm.trans hnew
    cases this
    exact (withHeaders_location _ _).symm
  rw [SameRequest, build_sentHeaders hold, build_sentHeaders hnew, he.provider]
  by_cases hh : cr.provider = "http"
  · simp only [hloc, true_and, hh, if_true, forall_const]
  · simp only [hloc, true_and, hh, if_false, false_imp_iff, implies_true]

/-! ## The invariant -/

/-- The kept source sends what the resource that it is kept with asks for. -/
structure KeptFrom (quote : String → String) (authErr : Option String) (ms : ManifestSource) : Prop where
  auth : ms.authErr = authErr
  kept : ∀ src old, ms.resolved = some (src, old) →
    ∃ built, buildSourceFromResource quote authErr old = .ok built ∧ SameRequest src built

theorem resolveSource_cases (h : ms.resolveSource quote cr = .ok (src, cr')) :
    (ms.resolved = some (src, cr') ∧ configResourceEqual cr' cr = true) ∨
      (cr' = cr ∧ buildSourceFromResource quote ms.authErr cr = .ok src ∧
        ∀ src₀ old, ms.resolved = some (src₀, old) → configResourceEqual old cr = false) := by
  simp only [ManifestSource.resolveSource] at h
  cases hr : ms.resolved with
  | none =>
    rw [hr] at h
    dsimp only at h
    split at h <;> [cases h; skip]
    rename_i hb
    cases h
    exact .inr ⟨rfl, hb, fun _ _ h => by cases h⟩
  | some kept =>
    rw [hr] at h
    dsimp only at h
    split at h
    · rename_i he
      cases h
      exact .inl ⟨rfl, he⟩
    · rename_i he
      split at h <;> [cases h; skip]
      rename_i hb
      cases h
      refine .inr ⟨rfl, hb, fun src₀ old h' => ?_⟩
      cases h'
      exact Bool.eq_false_iff.mpr he

theorem KeptFrom.resolveAndFetch (hk : KeptFrom quote authErr ms) (cr : ConfigResource) (world : World) :
    KeptFrom quote authErr (ms.resolveAndFetch quote cr world).1 := by
  simp only [ManifestSource.resolveAndFetch]
  split
  · exact hk
  · rename_i src₀ cr₀ h
    refine ⟨hk.auth, fun src old hres => ?_⟩
    cases hres
    rcases resolveSource_cases h with ⟨hr, -⟩ | ⟨rfl, hb, -⟩
    · obtain ⟨built, hb, hs⟩ := hk.kept _ _ hr
      exact ⟨built, hb, sameRequest_trans (fetch_sameRequest _ _) hs⟩
    · exact ⟨_, hk.auth ▸ hb, fetch_sameRequest _ _⟩

theorem run_keptFrom {tr : List ((ConfigResource × World) × Except String Source)}
    (h : (resolveSystem quote serviceName authErr).Run tr ms) : KeptFrom quote authErr ms := by
  have hinit : KeptFrom quote authErr (newManifestSource serviceName authErr) :=
    ⟨rfl, fun src old h => by cases h⟩
  refine System.RunIf.inv (I := fun _ ms => KeptFrom quote authErr ms) hinit ?_ h
  intro tr s a s' o hk _ hs
  have hs' : (s.resolveAndFetch quote a.1 a.2).1 = s' := congrArg Prod.fst (Option.some.inj hs)
  rw [← hs']
  exact hk.resolveAndFetch a.1 a.2

/-! ## Transparency -/

/-- After any resources and fetches, the source that `resolveSource` returns sends the request of the
source that its resource gives exactly if a kept source has the headers of the resource. -/
theorem resolve_transparent_iff (quote : String → String) (serviceName : String) (authErr : Option String)
    {tr : List ((ConfigResource × World) × Except String Source)} {ms : ManifestSource}
    (h : (resolveSystem quote serviceName authErr).Run tr ms) {cr cr' : ConfigResource} {src : Source}
    (hr : ms.resolveSource quote cr = .ok (src, cr')) :
    (∃ fresh, buildSourceFromResource quote authErr cr = .ok fresh ∧ SameRequest src fresh) ↔
      HeadersKept ms cr := by
  have hk := run_keptFrom h
  rcases resolveSource_cases hr with ⟨hres, he⟩ | ⟨rfl, hb, hne⟩
  · -- the kept source is as the old resource gives it
    obtain ⟨built, hold, hs⟩ := hk.kept _ _ hres
    have hasset := sameAsset_of_equal he
    have hnew := build_of_sameAsset hasset hold
    have key := sameRequest_build_iff hasset hold hnew
    constructor
    · intro ⟨fresh, hfresh, hsame⟩ src₀ old₀ hres₀ _ hp
      cases hres.symm.trans hres₀
      cases hnew.symm.trans hfresh
      exact key.mp (sameRequest_trans (sameRequest_symm hs) hsame) hp
    · intro hkept
      exact ⟨_, hnew, sameRequest_trans hs (key.mpr fun hp => hkept _ _ hres he hp)⟩
  · constructor
    · intro _ src₀ old hres he
      rw [hne _ _ hres] at he
      cases he
    · intro _
      exact ⟨src, hk.auth ▸ hb, sameRequest_rfl⟩

/-- A resource of the provider `http` with a bearer token. -/
def withToken (token : String) : ConfigResource :=
  ⟨"http", "https://config/app.yaml", "", "", "", none, [("Authorization", token)]⟩

theorem token_kept :
    ∃ src cr', ManifestSource.resolveSource id ⟨"app", none, "", "", some (.http (newHTTPSource "https://config/app.yaml"
        [("Authorization", "a")]), withToken "a")⟩ (withToken "a") = .ok (src, cr') ∧
      ∃ fresh, buildSourceFromResource id none (withToken "a") = .ok fresh ∧ SameRequest src fresh := by
  have hrun : (resolveSystem id "app" none).Run _ _ :=
    System.RunIf.init.step (C := fun _ _ _ => True) trivial
      (a := (withToken "a", ⟨.error "", .error "", .error "", .failed ""⟩)) rfl
  exact ⟨_, _, rfl, (resolve_transparent_iff id "app" none hrun rfl).mpr
    fun _ _ hres _ _ _ => by cases hres; rfl⟩

/-- The token was replaced in the manifest: the kept source sends the old one. -/
theorem token_forgotten :
    ∃ tr ms, (resolveSystem id "app" none).Run tr ms ∧
      ∃ src cr', ms.resolveSource id (withToken "b") = .ok (src, cr') ∧
        ∃ fresh, buildSourceFromResource id none (withToken "b") = .ok fresh ∧ ¬SameRequest src fresh ∧
          (sentHeaders src).get "Authorization" = "a" ∧ (sentHeaders fresh).get "Authorization" = "b" := by
  have hrun : (resolveSystem id "app" none).Run _ _ :=
    System.RunIf.init.step (C := fun _ _ _ => True) trivial
      (a := (withToken "a", ⟨.error "", .error "", .error "", .failed ""⟩)) rfl
  have sent : ∀ token, ((newHTTPSource "https://config/app.yaml" [("Authorization", token)]).request).get
      "Authorization" = token := fun token => (get_set [] "Authorization" token "Authorization").trans (if_pos rfl)
  refine ⟨_, _, hrun, _, _, rfl, _, rfl, fun hsame => ?_, sent "a", sent "b"⟩
  have hget := congrArg (fun v => v.getD "") (hsame.2 (canonicalMIMEHeaderKey "Authorization"))
  exact absurd ((sent "a").symm.trans (hget.trans (sent "b"))) (by decide)

end Csar.Proof.ConfigSource
