import CsarCore.Proof.JsonRedact.Redact

/-!
# Redaction depends on the set of paths, and is done once

`hide` reads its paths as a set (`hide_of_same_paths`), and a second `hide` puts its
mask where the first did (`hide_again`). The output is read again as the redacted value
with a mask that is valid UTF-8 (`reread_redact`): `redaction_stable`.
-/

namespace Csar.Proof.JsonRedact

open Csar.Json Impl.JsonRedact Csar.Impl Spec.JsonRedact

variable {mask mask' : Bytes} {s : Bytes → Bool}

/-! ## Paths as a set -/

theorem hide_of_same_paths (v : Value) : ∀ {paths paths' : List (List Bytes)}, (∀ path, path ∈ paths ↔ path ∈ paths') →
    hide mask s v paths = hide mask s v paths' := by
  induction v using ind with
  | null | bool | number | string => intros; rfl
  | array vs ih =>
    intro paths paths' h
    rw [hide_array, hide_array]
    refine congrArg _ (List.map_congr_left fun v hv => ih v hv fun path => ?_)
    simp only [List.mem_map, h]
  | object ms ih =>
    intro paths paths' h
    rw [hide_object, hide_object]
    refine congrArg _ (List.map_congr_left fun m hm => congrArg (Prod.mk m.1) ?_)
    have hmasked : Masked s paths m.1 ↔ Masked s paths' m.1 := or_congr_right (h _)
    have hnext : hide mask s m.2 (paths.filterMap (behindKey m.1)) = hide mask s m.2 (paths'.filterMap (behindKey m.1)) :=
      ih m hm fun path => by simp only [List.mem_filterMap, h]
    simp only [hmasked, hnext]

theorem redact_of_same_paths (cfg : Config) {fields : List Bytes} (h : ∀ f, f ∈ fields ↔ f ∈ cfg.pathFields) (v : Value) :
    redact { cfg with pathFields := fields } v = redact cfg v := by
  rw [redact_eq, redact_eq]
  refine hide_of_same_paths v fun path => ?_
  simp only [Config.paths, List.mem_map, h]

/-! ## A second time -/

theorem hide_again (v : Value) : ∀ paths, hide mask s (hide mask' s v paths) paths = hide mask s v paths := by
  induction v using ind with
  | null | bool | number | string => intros; rfl
  | array vs ih =>
    intro paths
    rw [hide_array, hide_array, hide_array, List.map_map]
    exact congrArg _ (List.map_congr_left fun v hv => ih v hv _)
  | object ms ih =>
    intro paths
    rw [hide_object, hide_object, hide_object, List.map_map]
    refine congrArg _ (List.map_congr_left fun m hm => congrArg (Prod.mk m.1) ?_)
    dsimp only [Function.comp_apply]
    by_cases h : Masked s paths m.1
    · rw [if_pos h, if_pos h]
    · rw [if_neg h, if_neg h, if_neg h, ih m hm]

theorem hide_normalize (v : Value) : ∀ paths, hide mask s v.normalize paths = (hide mask s v paths).normalize := by
  induction v using ind with
  | null | bool | number | string => intros; rfl
  | array vs ih =>
    intro paths
    rw [normalize_array, hide_array, hide_array, normalize_array, List.map_map, List.map_map]
    exact congrArg _ (List.map_congr_left fun v hv => ih v hv _)
  | object ms ih =>
    intro paths
    rw [normalize_object, hide_object, hide_object, normalize_object,
      map_setAll fun k v => if Masked s paths k then .string mask else hide mask s v (paths.filterMap (behindKey k)),
      List.map_map, List.map_map]
    refine congrArg (fun ms => Json.object (setAll ms)) (List.map_congr_left fun m hm => congrArg (Prod.mk m.1) ?_)
    dsimp only [Function.comp_apply]
    rw [ih m hm]
    split <;> rfl

theorem hide_sanitize (v : Value) (h : v.all (fun _ => true) validUtf8) : ∀ paths,
    (hide mask s v paths).map id sanitize = hide (sanitize mask) s v paths := by
  induction v using ind with
  | null | bool | number => intros; rfl
  | string t =>
    intro _
    exact congrArg Json.string (sanitize_of_valid h)
  | array vs ih =>
    intro paths
    rw [hide_array, hide_array, map_array, List.map_map]
    exact congrArg _ (List.map_congr_left fun v hv => ih v hv (all_array.mp h v hv) _)
  | object ms ih =>
    intro paths
    rw [hide_object, hide_object, map_object, List.map_map]
    refine congrArg _ (List.map_congr_left fun m hm => ?_)
    obtain ⟨hkey, hvalue⟩ := all_object.mp h m hm
    dsimp only [Function.comp_apply]
    rw [sanitize_of_valid hkey]
    refine congrArg (Prod.mk m.1) ?_
    split
    · rfl
    · exact ih m hm hvalue _

theorem reread_redact (cfg : Config) {raw : Bytes} {v : Value} (h : unmarshal raw = .ok v) :
    ∃ w, unmarshal (marshal (redact cfg v)) = .ok w ∧ redact cfg w = redact cfg v := by
  have hdepth : (redact cfg v).depth ≤ maxNestingDepth := by
    rw [redact_eq]
    exact Nat.le_trans (depth_hide_le v _) (depth_unmarshal h)
  refine ⟨_, unmarshal_marshal hdepth, ?_⟩
  have hread : ((redact cfg v).map id sanitize).normalize =
      hide (sanitize cfg.maskOrDefault) (sensitive cfg) v cfg.paths := by
    rw [redact_eq, hide_sanitize v (valid_unmarshal h), ← hide_normalize, normalize_unmarshal h]
  rw [hread, redact_eq, redact_eq, hide_again]

/-- The output for a document that is decoded does not depend on the order and repetitions of path
fields, and a second redaction does not change it. -/
theorem redaction_stable (cfg : Config) {raw : Bytes} (h : (unmarshal raw).isOk) {fields : List Bytes}
    (hf : ∀ f, f ∈ fields ↔ f ∈ cfg.pathFields) :
    ∃ out, parseAndRedactJSON raw cfg = .ok out ∧
      parseAndRedactJSON raw { cfg with pathFields := fields } = .ok out ∧ parseAndRedactJSON out cfg = .ok out := by
  obtain ⟨d, -, hv⟩ := decoded_of_isOk h
  obtain ⟨w, hw, hsame⟩ := reread_redact cfg hv
  refine ⟨_, parseAndRedactJSON_ok cfg hv, ?_, ?_⟩
  · rw [parseAndRedactJSON_ok _ hv, redact_of_same_paths cfg hf]
  · rw [parseAndRedactJSON_ok cfg hw, hsame]

def nested : Config := ⟨[utf8 "user", utf8 "user.*.name"], [], []⟩

theorem redaction_stable_nested : ∃ out, parseAndRedactJSON tokenString nested = .ok out ∧
    parseAndRedactJSON tokenString { nested with pathFields := [utf8 "user.*.name", utf8 "user", utf8 "user"] } = .ok out ∧
    parseAndRedactJSON out nested = .ok out :=
  redaction_stable nested (by decide +kernel) fun f => by
    rw [nested]
    simp only [List.mem_cons, List.not_mem_nil, or_false, or_self]
    exact or_comm

end Csar.Proof.JsonRedact
