import CsarCore.Spec.Storage

/-!
# Canonical metadata

The result is a map of canonical entries (`canonicalEntry`), in the order of the loop.
These are their own canonical entries, so it is a fixed point. Where two keys have one
canonical key the order decides, unless their values agree (`canonical_iff`).
-/

namespace Csar.Proof.Storage

open Impl.Storage Spec.Storage

theorem entries_returned (m : SortedMap Bytes Bytes) : (returned m).entries = m.entries := by
  unfold returned
  split
  · rename_i h
    rw [List.isEmpty_iff.mp h]
    rfl
  · rfl

theorem returned_injective {m m' : SortedMap Bytes Bytes} (h : returned m = returned m') : m = m' := by
  have hentries : m.entries = m'.entries := by rw [← entries_returned m, h, entries_returned m']
  refine SortedMap.ext_get fun k => ?_
  rw [SortedMap.get, hentries]
  rfl

theorem canonicalMetadata_eq (es : List (Bytes × Bytes)) :
    canonicalMetadata es = returned (SortedMap.ofList (es.filterMap canonicalEntry)) := by
  have hfold : ∀ acc : SortedMap Bytes Bytes,
      es.foldl (fun out e => if canonicalKey e.1 = [] then out else out.set (canonicalKey e.1) (Strings.trimSpace e.2)) acc =
        (es.filterMap canonicalEntry).foldl (fun acc e => acc.set e.1 e.2) acc := by
    induction es with
    | nil => exact fun acc => rfl
    | cons e es ih =>
      intro acc
      rw [List.foldl_cons, ih, List.filterMap_cons, canonicalEntry]
      by_cases hkey : canonicalKey e.1 = []
      · rw [if_pos hkey, if_pos hkey]
      · rw [if_neg hkey, if_neg hkey]
        rfl
  cases es with
  | nil => rfl
  | cons e es => exact congrArg returned (hfold SortedMap.empty)

/-! ## Once more -/

theorem canonicalKey_canonicalKey (k : Bytes) : canonicalKey (canonicalKey k) = canonicalKey k := by
  rw [canonicalKey, canonicalKey, Strings.trimSpace_toLower_trimSpace, Strings.toLower_toLower]

theorem canonicalEntry_canonicalEntry {e e' : Bytes × Bytes} (h : canonicalEntry e = some e') :
    canonicalEntry e' = some e' := by
  unfold canonicalEntry at h
  split at h <;> cases h
  rename_i hkey
  rw [canonicalEntry, canonicalKey_canonicalKey, if_neg hkey, Strings.trimSpace_trimSpace]

theorem mem_of_entries_ofList {es : List (Bytes × Bytes)} {e : Bytes × Bytes}
    (h : e ∈ (SortedMap.ofList es).entries) : e ∈ es := by
  have hget := SortedMap.mem_entries.mp h
  rw [SortedMap.get_ofList] at hget
  exact List.mem_reverse.mp (Json.mem_of_lookup hget)

theorem canonicalMetadata_again {es es' : List (Bytes × Bytes)} (h : es'.Perm (canonicalMetadata es).entries) :
    canonicalMetadata es' = canonicalMetadata es := by
  rw [canonicalMetadata_eq es, entries_returned] at h
  have hself : es'.filterMap canonicalEntry = es' := by
    have hall : ∀ e ∈ es', canonicalEntry e = some e := by
      intro e he
      obtain ⟨e₀, -, he₀⟩ := List.mem_filterMap.mp (mem_of_entries_ofList (h.mem_iff.mp he))
      exact canonicalEntry_canonicalEntry he₀
    rw [List.filterMap_congr hall, List.filterMap_some]
  rw [canonicalMetadata_eq, canonicalMetadata_eq, hself, SortedMap.ofList_entries h]

/-! ## Orders -/

theorem orderIndependent_of_agreeing {metadata : Metadata} (h : Agreeing metadata) : OrderIndependent metadata := by
  have hagree : ∀ e ∈ metadata.entries.filterMap canonicalEntry, ∀ e' ∈ metadata.entries.filterMap canonicalEntry,
      e.1 = e'.1 → e.2 = e'.2 := by
    intro e he e' he' hkey
    obtain ⟨a, ha, hae⟩ := List.mem_filterMap.mp he
    obtain ⟨b, hb, hbe⟩ := List.mem_filterMap.mp he'
    unfold canonicalEntry at hae hbe
    split at hae <;> cases hae
    rename_i hne
    split at hbe <;> cases hbe
    exact h a ha b hb hne hkey
  intro es es' hes hes'
  rw [canonicalMetadata_eq, canonicalMetadata_eq, SortedMap.ofList_perm hagree (hes.filterMap _),
    SortedMap.ofList_perm hagree (hes'.filterMap _)]

theorem get_last (es : List (Bytes × Bytes)) {e : Bytes × Bytes} (hne : canonicalKey e.1 ≠ []) :
    (SortedMap.ofList ((es ++ [e]).filterMap canonicalEntry)).get (canonicalKey e.1) = some (Strings.trimSpace e.2) := by
  have hentry : canonicalEntry e = some (canonicalKey e.1, Strings.trimSpace e.2) := if_neg hne
  rw [List.filterMap_append, List.filterMap_cons_some hentry, List.filterMap_nil]
  exact SortedMap.get_ofList_concat _ _

theorem agreeing_of_orderIndependent {metadata : Metadata} (h : OrderIndependent metadata) : Agreeing metadata := by
  intro e he e' he' hne hkey
  by_contra hvalue
  -- one order ends with both entries, another one with both the other way round
  have hdiff : e' ≠ e := by
    rintro rfl
    exact hvalue rfl
  obtain ⟨es, hes⟩ : ∃ es, metadata.entries.Perm (e :: e' :: es) := by
    refine ⟨(metadata.entries.erase e).erase e', (List.perm_cons_erase he).trans (.cons e ?_)⟩
    exact List.perm_cons_erase ((List.mem_erase_of_ne hdiff).mpr he')
  have hfirst : (es ++ [e'] ++ [e]).Perm metadata.entries := by
    refine List.Perm.trans ?_ hes.symm
    rw [List.append_assoc]
    exact List.perm_append_comm.trans (.swap e e' es)
  have hsecond : (es ++ [e] ++ [e']).Perm metadata.entries := by
    refine List.Perm.trans ?_ hes.symm
    rw [List.append_assoc]
    exact List.perm_append_comm
  have hsame := h _ _ hfirst hsecond
  rw [canonicalMetadata_eq, canonicalMetadata_eq] at hsame
  have hget := get_last (es ++ [e']) hne
  rw [returned_injective hsame, hkey, get_last _ (hkey ▸ hne)] at hget
  exact hvalue (Option.some.inj hget).symm

/-- `CanonicalMetadata` changes nothing in its own result, in whatever order; and gives the same for
every order of a map just if keys with one canonical key have one value. -/
theorem canonical_iff (metadata : Metadata) :
    (∀ es es' : List (Bytes × Bytes), es.Perm metadata.entries → es'.Perm (canonicalMetadata es).entries →
        canonicalMetadata es' = canonicalMetadata es) ∧
      (OrderIndependent metadata ↔ Agreeing metadata) :=
  ⟨fun _ _ _ h => canonicalMetadata_again h, agreeing_of_orderIndependent, orderIndependent_of_agreeing⟩

/-- `A` and `a`: the value of the one that comes last is kept. -/
theorem canonicalMetadata_collision :
    (canonicalMetadata [([0x41], [0x31]), ([0x61], [0x32])]).entries = [([0x61], [0x32])] ∧
      (canonicalMetadata [([0x61], [0x32]), ([0x41], [0x31])]).entries = [([0x61], [0x31])] := by decide +kernel

end Csar.Proof.Storage
