import CsarCore.Spec.S3Store

/-!
# The object that a request touches

The path of an object is that of its bucket, cleaned again with the key behind it
(`join_object`); so it is the path of the bucket with the key behind it just if
the key has nothing to clean. `same_object_iff` is that for the four operations.
-/

namespace Csar.Proof.S3Store

open Impl.S3Store Spec.S3Store Csar.Path

variable {c : Config} {key p : Bytes}

def rawBucket (c : Config) : Bytes := if c.endpointPath = [] then c.bucket else c.endpointPath ++ slash :: c.bucket

theorem unsegment_pair (x y : Bytes) : unsegment [x, y] = x ++ slash :: y := by
  show [slash].intercalate [x, y] = _
  rw [List.intercalate_cons_cons, List.intercalate_singleton, List.append_assoc]
  rfl

theorem unsegment_triple (x y z : Bytes) : unsegment [x, y, z] = (x ++ slash :: y) ++ slash :: z := by
  have h : unsegment ([x, y] ++ [z]) = unsegment [x, y] ++ slash :: unsegment [z] :=
    unsegment_append (List.cons_ne_nil x [y]) (List.cons_ne_nil z [])
  rwa [unsegment_pair, unsegment_singleton] at h

theorem join_bucket (hb : c.bucket ≠ []) : join [c.endpointPath, c.bucket] = clean (rawBucket c) := by
  unfold join rawBucket
  by_cases he : c.endpointPath = []
  · rw [if_pos he, List.dropWhile_cons_of_pos (by simp [he]), List.dropWhile_cons_of_neg (by simp [hb])]
    simp only [unsegment_singleton]
  · rw [if_neg he, List.dropWhile_cons_of_neg (by simp [he])]
    simp only [unsegment_pair]

theorem join_object (hb : c.bucket ≠ []) :
    join [c.endpointPath, c.bucket, key] = clean (rawBucket c ++ slash :: key) := by
  unfold join rawBucket
  by_cases he : c.endpointPath = []
  · rw [if_pos he, List.dropWhile_cons_of_pos (by simp [he]), List.dropWhile_cons_of_neg (by simp [hb])]
    simp only [unsegment_pair]
  · rw [if_neg he, List.dropWhile_cons_of_neg (by simp [he])]
    simp only [unsegment_triple]

theorem rawBucket_top (hb : Name c.bucket) :
    ∃ stack, (segments (rawBucket c)).foldl (push ((rawBucket c).head? == some slash)) [] = c.bucket :: stack := by
  have hseg : segments c.bucket = [c.bucket] := segments_of_not_mem hb.2.2.2
  unfold rawBucket
  split
  · rw [hseg]
    exact ⟨[], push_name hb⟩
  · rw [segments_append, hseg, List.foldl_append]
    exact ⟨_, push_name hb⟩

theorem urlPath_clean (p : Bytes) : urlPath (clean p) = (if p.head? = some slash then [] else [slash]) ++ clean p := by
  obtain ⟨b, bs, hclean⟩ := List.exists_cons_of_ne_nil (clean_ne_nil p)
  have hhead := head?_clean p
  rw [hclean, List.head?_cons, Option.some.injEq] at hhead
  rw [hclean, urlPath]
  by_cases hb : b = slash
  · rw [if_pos hb, if_pos (hhead.mp hb)]
    rfl
  · rw [if_neg hb, if_neg (mt hhead.mpr hb)]
    rfl

theorem objectURL_iff (hb : Name c.bucket) :
    objectURL c key = bucketURL c ++ slash :: key ↔ ∀ s ∈ segments key, Name s := by
  obtain ⟨stack, hstack⟩ := rawBucket_top hb
  have hne : rawBucket c ≠ [] := by
    intro hnil
    rw [hnil] at hstack
    cases hstack
  have hhead : (rawBucket c ++ slash :: key).head? = (rawBucket c).head? := by
    rw [List.head?_append_of_ne_nil _ hne]
  rw [objectURL, bucketURL, join_object hb.1, join_bucket hb.1, urlPath_clean, urlPath_clean, hhead, List.append_assoc,
    List.append_cancel_left_eq]
  exact clean_append_iff hstack hb

/-- If the bucket is one segment: both modes of each operation touch the object of the prefix and the
reference, exactly when all segments of this key are names. -/
theorem same_object_iff {method : Method} {op : Config → Bytes → Call} {tokenRef : Bytes}
    (hop : (method, op) ∈ operations) (hb : Name c.bucket) :
    SameObject method op c tokenRef ↔ ∀ s ∈ segments (c.keyPrefix ++ tokenRef), Name s := by
  obtain rfl : op = objectCall method := by
    simp only [operations, List.mem_cons, List.not_mem_nil, or_false, Prod.mk.injEq] at hop
    rcases hop with ⟨rfl, rfl⟩ | ⟨rfl, rfl⟩ | ⟨rfl, rfl⟩ | ⟨rfl, rfl⟩ <;> rfl
  rw [← objectURL_iff hb]
  constructor
  · intro h
    exact (h true).2
  · intro h iamAuth
    cases iamAuth with
    | true => exact ⟨rfl, h⟩
    | false => exact ⟨rfl, rfl, rfl⟩

theorem same_object_plain :
    SameObject .put putObject ⟨utf8 "/s3", utf8 "b", utf8 "tokens/", true⟩ (utf8 "api") := by
  have hop : (.put, putObject) ∈ operations := by simp [operations]
  exact (same_object_iff hop (by decide +kernel)).mpr (by decide +kernel)

/-- With `..` in a token reference, an object of another bucket is deleted, where the SDK deletes none. -/
theorem other_bucket :
    ¬ SameObject .delete deleteObject ⟨[], utf8 "b", utf8 "tokens/", true⟩ (utf8 "../../other/key") ∧
      Touches ⟨[], utf8 "b", utf8 "tokens/", true⟩ .delete (utf8 "other") (utf8 "key")
        (deleteObject ⟨[], utf8 "b", utf8 "tokens/", true⟩ (utf8 "../../other/key")) := by
  refine ⟨fun h => absurd (h true) (by decide +kernel), by decide +kernel⟩

end Csar.Proof.S3Store
