import CsarCore.Impl.ConfigSource.HTTP
import CsarCore.Proof.ConfigSource.Watcher

/-!
# The configuration watcher over an HTTP source

A run over an HTTP source is a run of the watcher (`run_polls`). `fetch_cases` is what
`Fetch` can do. If no application is forgotten (`Steady`), each validator in the two
caches names the content that was applied: `http_convergence`.
-/

namespace Csar.Proof.ConfigSource

open Impl.ConfigSource Spec.ConfigSource

/-! ## Headers -/

theorem lookup_filter_ne {k k' : String} (h : Header) (hk : k' ≠ k) :
    List.lookup k' (h.filter fun kv => kv.1 != k) = List.lookup k' h := by
  induction h with
  | nil => rfl
  | cons kv h ih =>
    obtain ⟨a, v⟩ := kv
    by_cases ha : a = k
    · have hne : (k' == a) = false := by rw [ha]; exact beq_false_of_ne hk
      simp [ha ▸ hne, ha, ih, List.lookup_cons]
    · simp [ha, ih, List.lookup_cons]

theorem get_set (h : Header) (k v k' : String) :
    (h.set k v).get k' =
      if canonicalMIMEHeaderKey k' = canonicalMIMEHeaderKey k then v else h.get k' := by
  unfold Header.set Header.get
  by_cases e : canonicalMIMEHeaderKey k' = canonicalMIMEHeaderKey k
  · simp [e]
  · rw [if_neg e, List.lookup_cons, beq_false_of_ne e]
    dsimp only
    rw [lookup_filter_ne h e]

/-- The extra headers say nothing of validators. -/
def Unconditional (headers : List (String × String)) : Prop :=
  ∀ kv ∈ headers, canonicalMIMEHeaderKey kv.1 ≠ "If-None-Match" ∧
    canonicalMIMEHeaderKey kv.1 ≠ "If-Modified-Since"

theorem get_foldl_set {k : String} {headers : List (String × String)}
    (hk : ∀ kv ∈ headers, canonicalMIMEHeaderKey kv.1 ≠ canonicalMIMEHeaderKey k) {h : Header} (hh : h.get k = "") :
    (headers.foldl (fun h kv => Header.set h kv.1 kv.2) h).get k = "" := by
  induction headers generalizing h with
  | nil => exact hh
  | cons kv headers ih =>
    obtain ⟨hkv, hk⟩ := List.forall_mem_cons.mp hk
    exact ih hk (by rw [get_set, if_neg hkv.symm, hh])

theorem request_get {s : HTTPSource} (hu : Unconditional s.headers) :
    s.request.get "If-None-Match" = (if s.lastModified then "" else s.lastETag) ∧
      s.request.get "If-Modified-Since" = if s.lastModified then s.lastETag else "" := by
  have h₁ := get_foldl_set (k := "If-None-Match") (fun kv hm => (hu kv hm).1) (h := []) rfl
  have h₂ := get_foldl_set (k := "If-Modified-Since") (fun kv hm => (hu kv hm).2) (h := []) rfl
  unfold HTTPSource.request
  by_cases he : s.lastETag = ""
  · simp only [he, ne_eq, not_true, if_false, h₁, h₂, ite_self, and_self]
  · have hne : canonicalMIMEHeaderKey "If-None-Match" ≠ canonicalMIMEHeaderKey "If-Modified-Since" := by
      decide
    cases s.lastModified with
    | true =>
      simp only [ne_eq, he, not_false_eq_true, if_true, get_set, if_neg hne, h₁, and_self]
    | false =>
      simp only [ne_eq, he, not_false_eq_true, if_true, Bool.false_eq_true, if_false, get_set,
        if_neg hne.symm, h₂, and_self]

/-! ## One poll -/

variable {srv : Server} {b : Bool}

theorem notModified_validator {s : HTTPSource} (hu : Unconditional s.headers)
    (h : srv.notModified s.request = true) :
    s.lastETag ≠ "" ∧ (s.lastETag = srv.etag ∨ s.lastETag = srv.lastModified) := by
  obtain ⟨h₁, h₂⟩ := request_get hu
  simp only [Server.notModified, h₁, h₂] at h
  cases hm : s.lastModified with
  | true => simp [hm] at h; exact ⟨h.1, .inr h.2⟩
  | false =>
    by_cases he : s.lastETag = ""
    · simp [hm, he] at h
    · simp [hm, he] at h; exact ⟨he, .inl h⟩

/-- Fail, be told that nothing changed, or get the content with a tag. -/
theorem fetch_cases (s : HTTPSource) (srv : Server) (net : Net) :
    (∃ e, s.fetch (srv.reply s.request net) = (s, .error e)) ∨
    (srv.notModified s.request = true ∧
      s.fetch (srv.reply s.request net) = (s, .ok ⟨none, s.lastETag⟩)) ∨
    ∃ v b, s.fetch (srv.reply s.request net) =
        ({ s with lastETag := v, lastModified := b }, .ok ⟨some srv.content, v⟩) ∧
      (v = srv.etag ∨ v = srv.lastModified) := by
  cases net with
  | answered =>
    simp only [Server.reply]
    by_cases hn : srv.notModified s.request = true
    · exact .inr (.inl ⟨hn, by simp [HTTPSource.fetch, hn]⟩)
    · by_cases hl : srv.content.length > maxConfigSize
      · exact .inl ⟨_, by simp [HTTPSource.fetch, hn, hl]; rfl⟩
      · refine .inr (.inr ⟨_, _, by simp [HTTPSource.fetch, hn, hl]; exact ⟨⟨rfl, rfl⟩, rfl⟩, ?_⟩)
        simp only [Response.validator]
        split
        · exact .inr rfl
        · exact .inl rfl
  | broken e =>
    simp only [Server.reply]
    by_cases hn : srv.notModified s.request = true
    · exact .inr (.inl ⟨hn, by simp [HTTPSource.fetch, hn]⟩)
    · exact .inl ⟨_, by simp [HTTPSource.fetch, hn]; rfl⟩
  | status n => exact .inl ⟨_, by simp [Server.reply, HTTPSource.fetch, n.2]; rfl⟩
  | badRequest e | failed e => exact .inl ⟨_, rfl⟩

variable {sum256 : Bytes → Digest}

/-- There was nothing to apply, or what was fetched was applied, or skipped for the tag of the last
application. -/
theorem apply_ok {w : ConfigWatcher} {fetched : Except String FetchedConfig}
    {verdict : Except String Bool} (h : (w.apply sum256 fetched verdict).2.result = .ok b) :
    (∃ etag, fetched = .ok ⟨none, etag⟩ ∧ (w.apply sum256 fetched verdict).2.call = none) ∨
    ∃ data etag, fetched = .ok ⟨some data, etag⟩ ∧
      ((w.apply sum256 fetched verdict).2.call = some (data, etag) ∨
        (etag ≠ "" ∧ etag = w.lastETag ∧ (w.apply sum256 fetched verdict).2.call = none)) := by
  rcases fetched with e | ⟨_ | data, etag⟩
  · cases h
  · exact .inl ⟨etag, rfl, rfl⟩
  · refine .inr ⟨data, etag, rfl, ?_⟩
    simp only [ConfigWatcher.apply] at h ⊢
    rcases hv : validateHash w.hashPolicy w.pinnedHash (computeSHA256 sum256 data) w.lastHash etag
      w.lastETag with e | ⟨⟩ <;> simp only [hv] at h ⊢
    · cases h
    · by_cases he : etag ≠ "" ∧ etag = w.lastETag ∧ computeSHA256 sum256 data = w.lastHash
      · exact .inr ⟨he.1, he.2.1, by rw [if_pos he]⟩
      · rw [if_neg he] at h
        rcases verdict with e | c
        · cases h
        · exact .inl (by rw [if_neg he])

/-! ## Runs -/

/-- The calls of `Apply` in a history over an HTTP source. -/
def polls (tr : List (HTTPPoll × Polled)) : History :=
  tr.map fun e => (⟨e.2.fetched, e.1.verdict⟩, e.2.applied)

/-- Each validator that the server sends is the name of one content. -/
def Server.Names (contentOf : String → Bytes) (srv : Server) : Prop :=
  (srv.etag ≠ "" → contentOf srv.etag = srv.content) ∧
    (srv.lastModified ≠ "" → contentOf srv.lastModified = srv.content)

/-- Validators name contents, and where the server will answer 304 the watcher's tag is the one that is
asked with. -/
def Steady (contentOf : String → Bytes) (_ : List (HTTPPoll × Polled)) (s : Watch) (p : HTTPPoll) : Prop :=
  Server.Names contentOf p.server ∧
    (p.server.notModified s.source.request = true → s.watcher.lastETag = s.source.lastETag)

variable {hashPolicy : HashPolicy} {pinnedHash url : String} {headers : List (String × String)}
  {tr : List (HTTPPoll × Polled)} {s s' : Watch} {contentOf : String → Bytes}

theorem run_polls {C : List (HTTPPoll × Polled) → Watch → HTTPPoll → Prop}
    (h : (watchSystem sum256 hashPolicy pinnedHash url headers).RunIf C tr s) :
    (watcherSystem sum256 hashPolicy pinnedHash).Run (polls tr) s.watcher := by
  have := System.RunIf.view (watcherSystem sum256 hashPolicy pinnedHash) Watch.watcher
    (fun e => some (⟨e.2.fetched, e.1.verdict⟩, e.2.applied)) rfl (by simp)
    (fun {s p s' o b r} hs hv => by
      simp only [watchSystem, Option.some.injEq, Prod.mk.injEq] at hs hv
      obtain ⟨rfl, rfl⟩ := hs
      obtain ⟨rfl, rfl⟩ := hv
      rfl) h
  rwa [List.filterMap_eq_map'] at this

/-- The tag of the last applied content names it. -/
structure HInv (contentOf : String → Bytes) (headers : List (String × String))
    (tr : List (HTTPPoll × Polled)) (s : Watch) : Prop where
  headers : s.source.headers = headers
  named : ∀ d e, lastApplied (polls tr) = some (d, e) → e ≠ "" → contentOf e = d

theorem Server.Names.eq (hn : Server.Names contentOf srv) {v : String} (hv : v ≠ "")
    (h : v = srv.etag ∨ v = srv.lastModified) : contentOf v = srv.content := by
  rcases h with rfl | rfl
  · exact hn.1 hv
  · exact hn.2 hv

theorem lastApplied_of_no_call {a : Applied} (h : a.call = none) (p : Poll) (tr : History) :
    lastApplied ((p, a) :: tr) = lastApplied tr := by
  obtain ⟨r, call⟩ := a
  cases h
  cases r <;> rfl

theorem lastApplied_of_call {a : Applied} {call : Bytes × String} (hr : a.result = .ok b)
    (hc : a.call = some call) (p : Poll) (tr : History) : lastApplied ((p, a) :: tr) = some call := by
  obtain ⟨r, c⟩ := a
  cases hr
  cases hc
  rfl

theorem hinv_step {p : HTTPPoll} {o : Polled} (h : HInv contentOf headers tr s)
    (hc : Steady contentOf tr s p)
    (hs : (watchSystem sum256 hashPolicy pinnedHash url headers).step s p = some (s', o)) :
    HInv contentOf headers ((p, o) :: tr) s' := by
  simp only [watchSystem, Option.some.injEq, Prod.mk.injEq] at hs
  obtain ⟨rfl, rfl⟩ := hs
  refine ⟨?_, fun d e hd he => ?_⟩
  · rcases fetch_cases s.source p.server p.net with ⟨_, hf⟩ | ⟨-, hf⟩ | ⟨v, b, hf, -⟩ <;> rw [hf] <;>
      exact h.headers
  · simp only [polls, List.map_cons] at hd
    rcases apply_cases s.watcher (s.source.fetch (p.server.reply s.source.request p.net)).2 p.verdict with
      ⟨r, ha⟩ | ⟨data, etag, hfetch, ⟨_, -, ha⟩ | ⟨c, -, ha⟩⟩ <;> rw [ha] at hd
    · rw [lastApplied_of_no_call rfl] at hd
      exact h.named d e hd he
    · exact h.named d e hd he
    · cases hd
      rcases fetch_cases s.source p.server p.net with ⟨_, hf⟩ | ⟨-, hf⟩ | ⟨v, b, hf, hv⟩ <;>
        rw [hf] at hfetch <;> cases hfetch
      exact Server.Names.eq hc.1 he hv

theorem hinv_run (h : (watchSystem sum256 hashPolicy pinnedHash url headers).RunIf (Steady contentOf) tr s) :
    HInv contentOf headers tr s :=
  System.RunIf.inv ⟨rfl, by simp [polls, lastApplied]⟩ (fun hi hc hs => hinv_step hi hc hs) h

theorem HInv.lastETag (h : HInv contentOf headers tr s)
    (hw : Inv sum256 hashPolicy pinnedHash (polls tr) s.watcher) (he : s.watcher.lastETag ≠ "") :
    failedSince (polls tr) = false ∧
      ∃ d, lastApplied (polls tr) = some (d, s.watcher.lastETag) ∧ contentOf s.watcher.lastETag = d := by
  have hetag := hw.etag
  cases hf : failedSince (polls tr) with
  | true => rw [hf] at hetag; exact absurd hetag he
  | false =>
    rw [hf, if_neg Bool.false_ne_true] at hetag
    rcases hl : lastApplied (polls tr) with _ | ⟨d, e⟩ <;> rw [hl] at hetag
    · exact absurd hetag he
    · have hetag : s.watcher.lastETag = e := hetag
      exact ⟨rfl, d, by rw [hetag], by rw [hetag]; exact h.named d e hl (hetag ▸ he)⟩

theorem HInv.skip (h : HInv contentOf headers tr s)
    (hw : Inv sum256 hashPolicy pinnedHash (polls tr) s.watcher)
    (hn : Server.Names contentOf srv) (he : s.watcher.lastETag ≠ "")
    (hv : s.watcher.lastETag = srv.etag ∨ s.watcher.lastETag = srv.lastModified) :
    (lastApplied (polls tr)).map Prod.fst = some srv.content ∧ failedSince (polls tr) = false := by
  obtain ⟨hf, d, hl, hd⟩ := h.lastETag hw he
  rw [Server.Names.eq hn he hv] at hd
  rw [hl, ← hd]
  exact ⟨rfl, hf⟩

theorem converges {p : HTTPPoll} {o : Polled} (hu : Unconditional headers)
    (hi : HInv contentOf headers tr s) (hw : Inv sum256 hashPolicy pinnedHash (polls tr) s.watcher)
    (hc : Steady contentOf tr s p)
    (hs : (watchSystem sum256 hashPolicy pinnedHash url headers).step s p = some (s', o))
    (hok : o.applied.result = .ok b) :
    (lastApplied (polls ((p, o) :: tr))).map Prod.fst = some p.server.content ∧
      (failedSince (polls tr) = true → o.applied.call.map Prod.fst = some p.server.content) := by
  simp only [watchSystem, Option.some.injEq, Prod.mk.injEq] at hs
  obtain ⟨-, ho⟩ := hs
  have ha : o.applied = (s.watcher.apply sum256 o.fetched p.verdict).2 := by rw [← ho]
  have hfetched : o.fetched = (s.source.fetch (p.server.reply s.source.request p.net)).2 := by rw [← ho]
  -- without a call the content is the one applied last
  have hskip : o.applied.call = none → s.watcher.lastETag ≠ "" →
      (s.watcher.lastETag = p.server.etag ∨ s.watcher.lastETag = p.server.lastModified) →
      (lastApplied (polls ((p, o) :: tr))).map Prod.fst = some p.server.content ∧
        (failedSince (polls tr) = true → o.applied.call.map Prod.fst = some p.server.content) := by
    intro hcall he hv
    obtain ⟨hl, hf⟩ := hi.skip hw hc.1 he hv
    refine ⟨?_, fun ht => absurd (hf.symm.trans ht) (by simp)⟩
    exact (congrArg (Option.map Prod.fst) (lastApplied_of_no_call hcall _ _)).trans hl
  rw [ha] at hok
  rcases fetch_cases s.source p.server p.net with ⟨e, hf⟩ | ⟨hn, hf⟩ | ⟨v, x, hf, hv⟩ <;>
    rw [hf] at hfetched <;> rcases apply_ok hok with ⟨etag, he, hcall⟩ | ⟨data, etag, he, hcall⟩ <;>
    cases hfetched.symm.trans he
  · obtain ⟨he, hv⟩ := notModified_validator (hi.headers.symm ▸ hu) hn
    rw [← hc.2 hn] at he hv
    exact hskip (ha ▸ hcall) he hv
  · rcases hcall with hcall | ⟨he, hw', hcall⟩
    · rw [← ha] at hok hcall
      refine ⟨?_, fun _ => by rw [hcall]; rfl⟩
      exact congrArg (Option.map Prod.fst) (lastApplied_of_call hok hcall _ _)
    · exact hskip (ha ▸ hcall) (hw' ▸ he) (hw' ▸ hv)

/-- In every run whose polls are steady: whenever `Apply` returns without error, the last successful call
of the `ApplyFunc` was with the content of the server; and after a failed call every `Apply` without
error has called it again, with that content. -/
theorem http_convergence (sum256 : Bytes → Digest) (hashPolicy : HashPolicy) (pinnedHash url : String)
    (headers : List (String × String)) (hu : Unconditional headers) (contentOf : String → Bytes)
    (tr : List (HTTPPoll × Polled)) (s : Watch)
    (h : (watchSystem sum256 hashPolicy pinnedHash url headers).RunIf (Steady contentOf) tr s)
    (post pre : List (HTTPPoll × Polled)) (p : HTTPPoll) (o : Polled) (htr : tr = post ++ (p, o) :: pre)
    (b : Bool) (hok : o.applied.result = .ok b) :
    (lastApplied (polls ((p, o) :: pre))).map Prod.fst = some p.server.content ∧
      (failedSince (polls pre) = true → o.applied.call.map Prod.fst = some p.server.content) := by
  obtain ⟨s₀, s₁, hrun, hc, hs⟩ := h.split htr
  exact converges hu (hinv_run hrun) (inv_run (run_polls hrun)) hc hs hok

theorem http_convergence_not_modified :
    let sum256 : Bytes → Digest := fun _ => Vector.replicate 32 0
    let p : HTTPPoll := ⟨⟨[1], "v1", ""⟩, .answered, .ok true⟩
    ∃ (tr : List (HTTPPoll × Polled)) (s : Watch) (o : Polled),
      (watchSystem sum256 .tofu "" "http://config" []).RunIf (Steady fun _ => [1]) ((p, o) :: tr) s ∧
      o.fetched = .ok ⟨none, "v1"⟩ ∧
      (lastApplied (polls ((p, o) :: tr))).map Prod.fst = some [1] := by
  intro sum256 p
  have hn : Server.Names (fun _ => [1]) p.server := ⟨fun _ => rfl, fun _ => rfl⟩
  have h₁ : (watchSystem sum256 .tofu "" "http://config" []).RunIf (Steady fun _ => [1]) _ _ :=
    .step (a := p) .init ⟨hn, fun _ => rfl⟩ rfl
  have h₂ := System.RunIf.step (a := p) h₁ ⟨hn, fun _ => rfl⟩ rfl
  refine ⟨_, _, _, h₂, rfl, ?_⟩
  exact (http_convergence sum256 .tofu "" "http://config" [] (by simp [Unconditional]) (fun _ => [1]) _ _ h₂
    [] _ p _ rfl false rfl).1

/-- A content whose application failed is not offered again: the source asks with its validator, and the
304 passes for success. -/
theorem http_failed_apply_forgotten :
    let sum256 : Bytes → Digest := fun _ => Vector.replicate 32 0
    let srv : Server := ⟨[1], "v1", ""⟩
    ∃ (s : Watch) (o₁ o₂ : Polled), (watchSystem sum256 .tofu "" "http://config" []).Run
        [(⟨srv, .answered, .ok true⟩, o₂), (⟨srv, .answered, .error "not ready"⟩, o₁)] s ∧
      o₁.applied = ⟨.error (.applying "not ready"), some ([1], "v1")⟩ ∧
      o₂.applied = ⟨.ok false, none⟩ ∧
      lastApplied (polls [(⟨srv, .answered, .ok true⟩, o₂), (⟨srv, .answered, .error "not ready"⟩, o₁)]) = none := by
  intro sum256 srv
  have h := System.run_of_exec (watchSystem sum256 .tofu "" "http://config" [])
    [⟨srv, .answered, .error "not ready"⟩, ⟨srv, .answered, .ok true⟩] rfl
  exact ⟨_, _, _, h, rfl, rfl, rfl⟩

end Csar.Proof.ConfigSource
