import CsarCore.Spec.ConfigSource

/-!
# The configuration watcher: tamper detection

`apply_cases` is what `Apply` can do. The invariant (`Inv`): `lastHash` is the hash of
the last applied content, and `lastETag` its tag unless an application has failed since.
So under `HashTOFU` a fetch is rejected exactly if its tag is `lastETag` and its hash is
not `lastHash`: `tofu_exact_iff`.
-/

namespace Csar.Proof.ConfigSource

open Impl.ConfigSource Spec.ConfigSource

theorem computeSHA256_ne_empty (sum256 : Bytes → Digest) (data : Bytes) :
    computeSHA256 sum256 data ≠ "" :=
  hexEncode_ne_empty fun h => by simpa using congrArg List.length h

variable {sum256 : Bytes → Digest}

/-- Leave the watcher and the `ApplyFunc` alone, or call that with the fetched bytes. -/
theorem apply_cases (w : ConfigWatcher) (fetched : Except String FetchedConfig)
    (verdict : Except String Bool) :
    (∃ r, w.apply sum256 fetched verdict = (w, ⟨r, none⟩)) ∨
    ∃ data etag, fetched = .ok ⟨some data, etag⟩ ∧
      ((∃ e, verdict = .error e ∧ w.apply sum256 fetched verdict =
          ({ w with lastETag := "" }, ⟨.error (.applying e), some (data, etag)⟩)) ∨
        ∃ c, verdict = .ok c ∧ w.apply sum256 fetched verdict =
          ({ w with lastETag := etag, lastHash := computeSHA256 sum256 data },
            ⟨.ok c, some (data, etag)⟩)) := by
  rcases fetched with e | ⟨_ | data, etag⟩
  · exact .inl ⟨_, rfl⟩
  · exact .inl ⟨_, rfl⟩
  · simp only [ConfigWatcher.apply]
    split
    · exact .inl ⟨_, rfl⟩
    · split
      · exact .inl ⟨_, rfl⟩
      · rcases verdict with e | c
        · exact .inr ⟨data, etag, rfl, .inl ⟨e, rfl, rfl⟩⟩
        · exact .inr ⟨data, etag, rfl, .inr ⟨c, rfl, rfl⟩⟩

/-- `lastHash` and `lastETag` are those of the last applied content; a failure empties `lastETag`. -/
structure Inv (sum256 : Bytes → Digest) (hashPolicy : HashPolicy) (pinnedHash : String) (tr : History)
    (w : ConfigWatcher) : Prop where
  policy : w.hashPolicy = hashPolicy ∧ w.pinnedHash = pinnedHash
  hash : w.lastHash = (lastApplied tr).elim "" fun c => computeSHA256 sum256 c.1
  etag : w.lastETag = if failedSince tr then "" else (lastApplied tr).elim "" Prod.snd

variable {hashPolicy : HashPolicy} {pinnedHash : String} {tr : History} {w w' : ConfigWatcher}

theorem inv_apply (h : Inv sum256 hashPolicy pinnedHash tr w) (p : Poll) :
    Inv sum256 hashPolicy pinnedHash ((p, (w.apply sum256 p.fetched p.verdict).2) :: tr)
      (w.apply sum256 p.fetched p.verdict).1 := by
  rcases apply_cases w p.fetched p.verdict with
    ⟨r, e⟩ | ⟨data, etag, -, ⟨err, -, e⟩ | ⟨c, -, e⟩⟩ <;> rw [e]
  · have ha : lastApplied ((p, ⟨r, none⟩) :: tr) = lastApplied tr := by cases r <;> rfl
    have hf : failedSince ((p, ⟨r, none⟩) :: tr) = failedSince tr := by cases r <;> rfl
    exact ⟨h.policy, by rw [ha]; exact h.hash, by rw [ha, hf]; exact h.etag⟩
  · exact ⟨h.policy, h.hash, rfl⟩
  · exact ⟨h.policy, rfl, rfl⟩

theorem inv_run (h : (watcherSystem sum256 hashPolicy pinnedHash).Run tr w) :
    Inv sum256 hashPolicy pinnedHash tr w := by
  refine System.RunIf.inv ⟨⟨rfl, rfl⟩, rfl, rfl⟩ (fun {tr w p w' o} hi _ hs => ?_) h
  have := inv_apply hi p
  simp only [watcherSystem, Option.some.injEq] at hs
  rwa [hs] at this

/-! ## Tamper detection -/

/-- A fetch is rejected exactly if something was applied and its tag is `lastETag` but its hash is not
`lastHash`. -/
theorem rejected_iff (ht : w.hashPolicy = .tofu) (data : Bytes) (etag : String)
    (verdict : Except String Bool) :
    Rejected (w.apply sum256 (.ok ⟨some data, etag⟩) verdict).2.result ↔
      w.lastHash ≠ "" ∧ etag = w.lastETag ∧ computeSHA256 sum256 data ≠ w.lastHash := by
  simp only [ConfigWatcher.apply, validateHash, ht]
  by_cases h₀ : w.lastHash = ""
  · simp only [h₀, if_true]
    split
    · simp [Rejected]
    · cases verdict <;> simp [Rejected]
  · by_cases h₁ : etag = w.lastETag ∧ computeSHA256 sum256 data ≠ w.lastHash
    · simp [h₀, h₁, Rejected]
    · simp only [h₀, h₁, if_false, ne_eq, not_false_eq_true, true_and, iff_false]
      split
      · simp [Rejected]
      · cases verdict <;> simp [Rejected]

/-- In every state that a watcher under `HashTOFU` can reach, the verdict on a fetch with data is right
exactly if nothing has been applied yet, or the hash is that of the last applied content, or no
application has failed since and that content's tag is not empty, or the fetch has another tag. -/
theorem tofu_exact_iff (sum256 : Bytes → Digest) (pinnedHash : String) (tr : History) (w : ConfigWatcher)
    (h : (watcherSystem sum256 .tofu pinnedHash).Run tr w) (data : Bytes) (etag : String)
    (verdict : Except String Bool) :
    (Rejected (w.apply sum256 (.ok ⟨some data, etag⟩) verdict).2.result ↔ Tampered sum256 tr data etag) ↔
      (lastApplied tr = none ∨ ∃ d e, lastApplied tr = some (d, e) ∧
        (computeSHA256 sum256 data = computeSHA256 sum256 d ∨ (failedSince tr = false ∧ e ≠ "") ∨
          (etag ≠ "" ∧ etag ≠ e))) := by
  have hi := inv_run h
  rw [rejected_iff hi.policy.1, hi.hash, hi.etag, Tampered]
  rcases lastApplied tr with _ | ⟨d, e⟩
  · simp
  · have hd := computeSHA256_ne_empty sum256 d
    by_cases hh : computeSHA256 sum256 data = computeSHA256 sum256 d
    · simp [hh]
    · by_cases hf : failedSince tr = true
      · simp only [hf]
        by_cases he : etag = "" <;> simp [hd, hh, he, eq_comm]
      · simp only [hf]
        by_cases he : etag = "" <;> by_cases he' : e = "" <;> simp [hd, hh, he, he', eq_comm]

theorem tofu_exact_tampered :
    let sum256 : Bytes → Digest := fun b => Vector.replicate 32 (b.headD 0)
    ∃ (tr : History) (w : ConfigWatcher), (watcherSystem sum256 .tofu "").Run tr w ∧
      Tampered sum256 tr [2] "v1" ∧
      (Rejected (w.apply sum256 (.ok ⟨some [2], "v1"⟩) (.ok true)).2.result ↔ Tampered sum256 tr [2] "v1") := by
  intro sum256
  have h := System.run_of_exec (watcherSystem sum256 .tofu "") [⟨.ok ⟨some [1], "v1"⟩, .ok true⟩] rfl
  refine ⟨_, _, h, ⟨by decide, [1], rfl, by decide⟩, ?_⟩
  exact (tofu_exact_iff sum256 "" _ _ h [2] "v1" (.ok true)).mpr
    (.inr ⟨[1], "v1", rfl, .inr (.inl ⟨rfl, by decide⟩)⟩)

/-- After a failed application another content under the tag of the last applied one is taken; a source
without tags is rejected when its content changes. -/
theorem tofu_verdicts_wrong :
    let sum256 : Bytes → Digest := fun b => Vector.replicate 32 (b.headD 0)
    (∃ (tr : History) (w : ConfigWatcher), (watcherSystem sum256 .tofu "").Run tr w ∧
      Tampered sum256 tr [3] "v1" ∧ ∃ w', w.apply sum256 (.ok ⟨some [3], "v1"⟩) (.ok true) =
        (w', ⟨.ok true, some ([3], "v1")⟩)) ∧
    ∃ (tr : History) (w : ConfigWatcher), (watcherSystem sum256 .tofu "").Run tr w ∧
      ¬ Tampered sum256 tr [2] "" ∧ Rejected (w.apply sum256 (.ok ⟨some [2], ""⟩) (.ok true)).2.result := by
  intro sum256
  constructor
  · have h := System.run_of_exec (watcherSystem sum256 .tofu "")
      [⟨.ok ⟨some [1], "v1"⟩, .ok true⟩, ⟨.ok ⟨some [2], "v2"⟩, .error "bad config"⟩] rfl
    exact ⟨_, _, h, ⟨by decide, [1], rfl, by decide⟩, _, rfl⟩
  · have h := System.run_of_exec (watcherSystem sum256 .tofu "") [⟨.ok ⟨some [1], ""⟩, .ok true⟩] rfl
    exact ⟨_, _, h, fun ht => ht.1 rfl, _, _, _, rfl⟩

end Csar.Proof.ConfigSource
