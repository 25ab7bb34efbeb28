import Mathlib.Data.List.Basic
import Mathlib.Data.List.Perm.Basic

/-!
# JSON values

A JSON value over any type of numbers and of strings. Functions on values are written
with `fold`, and what is proved about them is proved with `Json.ind`. `normalize` makes
objects what they are in a Go map: one member for each key, the last one, in the order
of the keys.
-/

namespace Csar

inductive Json (ν σ : Type)
  | null
  | bool (b : Bool)
  | number (n : ν)
  | string (s : σ)
  | array (vs : List (Json ν σ))
  | object (ms : List (σ × Json ν σ))

namespace Json

variable {ν σ ν' σ' ν'' σ'' β : Type}

theorem ind {motive : Json ν σ → Prop} (null : motive .null) (bool : ∀ b, motive (.bool b))
    (number : ∀ n, motive (.number n)) (string : ∀ s, motive (.string s))
    (array : ∀ vs, (∀ v ∈ vs, motive v) → motive (.array vs))
    (object : ∀ ms, (∀ m ∈ ms, motive m.2) → motive (.object ms)) (j : Json ν σ) : motive j :=
  @Json.rec ν σ motive (fun vs => ∀ v ∈ vs, motive v) (fun ms => ∀ m ∈ ms, motive m.2) (fun m => motive m.2)
    null bool number string array object
    (fun _ h => absurd h List.not_mem_nil) (fun _ _ h hs => List.forall_mem_cons.mpr ⟨h, hs⟩)
    (fun _ h => absurd h List.not_mem_nil) (fun _ _ h hs => List.forall_mem_cons.mpr ⟨h, hs⟩)
    (fun _ _ h => h) j

/-! ## Equality -/

section Equality
variable [DecidableEq ν] [DecidableEq σ]

mutual

def same : Json ν σ → Json ν σ → Bool
  | .null, .null => true
  | .bool b, .bool b' => b = b'
  | .number n, .number n' => n = n'
  | .string s, .string s' => s = s'
  | .array vs, .array vs' => sameElements vs vs'
  | .object ms, .object ms' => sameMembers ms ms'
  | _, _ => false

def sameElements : List (Json ν σ) → List (Json ν σ) → Bool
  | [], [] => true
  | v :: vs, v' :: vs' => same v v' && sameElements vs vs'
  | _, _ => false

def sameMembers : List (σ × Json ν σ) → List (σ × Json ν σ) → Bool
  | [], [] => true
  | (k, v) :: ms, (k', v') :: ms' => k = k' && same v v' && sameMembers ms ms'
  | _, _ => false

end

theorem sameElements_iff {vs : List (Json ν σ)} (h : ∀ v ∈ vs, ∀ v', same v v' ↔ v = v') :
    ∀ vs', sameElements vs vs' ↔ vs = vs' := by
  induction vs with
  | nil => intro vs'; cases vs' <;> simp [sameElements]
  | cons v vs ih =>
    obtain ⟨hv, hvs⟩ := List.forall_mem_cons.mp h
    intro vs'
    cases vs' with
    | nil => simp [sameElements]
    | cons v' vs' => simp [sameElements, hv, ih hvs]

theorem sameMembers_iff {ms : List (σ × Json ν σ)} (h : ∀ m ∈ ms, ∀ v', same m.2 v' ↔ m.2 = v') :
    ∀ ms', sameMembers ms ms' ↔ ms = ms' := by
  induction ms with
  | nil => intro ms'; cases ms' <;> simp [sameMembers]
  | cons m ms ih =>
    obtain ⟨hm, hms⟩ := List.forall_mem_cons.mp h
    intro ms'
    cases ms' with
    | nil => simp [sameMembers]
    | cons m' ms' => simp [sameMembers, hm, ih hms, Prod.ext_iff]

theorem same_iff (j : Json ν σ) : ∀ j', same j j' ↔ j = j' := by
  induction j using ind with
  | null | bool | number | string => intro j'; cases j' <;> simp [same]
  | array vs ih => intro j'; cases j' <;> simp [same, sameElements_iff ih]
  | object ms ih => intro j'; cases j' <;> simp [same, sameMembers_iff ih]

instance : DecidableEq (Json ν σ) := fun j j' => decidable_of_iff _ (same_iff j j')

end Equality

/-! ## Folding -/

structure Algebra (ν σ β : Type) where
  null : β
  bool : Bool → β
  number : ν → β
  string : σ → β
  array : List β → β
  object : List (σ × β) → β

mutual

def fold (a : Algebra ν σ β) : Json ν σ → β
  | .null => a.null
  | .bool b => a.bool b
  | .number n => a.number n
  | .string s => a.string s
  | .array vs => a.array (foldElements a vs)
  | .object ms => a.object (foldMembers a ms)

def foldElements (a : Algebra ν σ β) : List (Json ν σ) → List β
  | [] => []
  | v :: vs => fold a v :: foldElements a vs

def foldMembers (a : Algebra ν σ β) : List (σ × Json ν σ) → List (σ × β)
  | [] => []
  | (k, v) :: ms => (k, fold a v) :: foldMembers a ms

end

theorem foldElements_eq (a : Algebra ν σ β) (vs : List (Json ν σ)) : foldElements a vs = vs.map (fold a) := by
  induction vs with
  | nil => rfl
  | cons v vs ih => rw [foldElements, ih, List.map_cons]

theorem foldMembers_eq (a : Algebra ν σ β) (ms : List (σ × Json ν σ)) :
    foldMembers a ms = ms.map fun m => (m.1, fold a m.2) := by
  induction ms with
  | nil => rfl
  | cons m ms ih => rw [foldMembers, ih, List.map_cons]

section Equations
variable (a : Algebra ν σ β)

@[simp] theorem fold_array (vs : List (Json ν σ)) : fold a (.array vs) = a.array (vs.map (fold a)) := by
  rw [fold, foldElements_eq]

@[simp] theorem fold_object (ms : List (σ × Json ν σ)) :
    fold a (.object ms) = a.object (ms.map fun m => (m.1, fold a m.2)) := by
  rw [fold, foldMembers_eq]

end Equations

/-! ## Changing numbers and strings -/

def map (f : ν → ν') (g : σ → σ') : Json ν σ → Json ν' σ' :=
  fold ⟨.null, .bool, fun n => .number (f n), fun s => .string (g s), .array,
    fun ms => .object (ms.map fun m => (g m.1, m.2))⟩

section Map
variable (f : ν → ν') (g : σ → σ')

@[simp] theorem map_array (vs : List (Json ν σ)) : map f g (.array vs) = .array (vs.map (map f g)) := fold_array _ vs

@[simp] theorem map_object (ms : List (σ × Json ν σ)) :
    map f g (.object ms) = .object (ms.map fun m => (g m.1, map f g m.2)) := by
  rw [map, fold_object]
  exact congrArg _ List.map_map

theorem map_map (f' : ν' → ν'') (g' : σ' → σ'') (j : Json ν σ) :
    map f' g' (map f g j) = map (fun n => f' (f n)) (fun s => g' (g s)) j := by
  induction j using ind with
  | null | bool | number | string => rfl
  | array vs ih =>
    simp only [map_array, List.map_map]
    exact congrArg _ (List.map_congr_left ih)
  | object ms ih =>
    simp only [map_object, List.map_map]
    exact congrArg _ (List.map_congr_left fun m hm => congrArg (Prod.mk _) (ih m hm))

end Map

/-- Every number and every string, keys among them, is as asked. -/
def all (p : ν → Bool) (q : σ → Bool) : Json ν σ → Bool :=
  fold ⟨true, fun _ => true, p, q, fun bs => bs.all id, fun ms => ms.all fun m => q m.1 && m.2⟩

section All
variable {p : ν → Bool} {q : σ → Bool}

@[simp] theorem all_string {s : σ} : all p q (.string s) = q s := rfl

@[simp] theorem all_array {vs : List (Json ν σ)} : all p q (.array vs) ↔ ∀ v ∈ vs, all p q v := by
  simp [all]

@[simp] theorem all_object {ms : List (σ × Json ν σ)} :
    all p q (.object ms) ↔ ∀ m ∈ ms, q m.1 ∧ all p q m.2 := by
  simp [all]

theorem all_map {f : ν' → ν} {g : σ' → σ} {j : Json ν' σ'} :
    all p q (map f g j) = all (fun n => p (f n)) (fun s => q (g s)) j := by
  induction j using ind with
  | null | bool | number | string => rfl
  | array vs ih =>
    rw [Bool.eq_iff_iff, map_array, all_array, all_array, List.forall_mem_map]
    exact forall₂_congr fun v hv => Bool.eq_iff_iff.mp (ih v hv)
  | object ms ih =>
    rw [Bool.eq_iff_iff, map_object, all_object, all_object, List.forall_mem_map]
    exact forall₂_congr fun m hm => and_congr_right fun _ => Bool.eq_iff_iff.mp (ih m hm)

theorem all_of_forall (hp : ∀ n, p n) (hq : ∀ s, q s) (j : Json ν σ) : all p q j := by
  induction j using ind with
  | null | bool => rfl
  | number n => exact hp n
  | string s => exact hq s
  | array vs ih => exact all_array.mpr ih
  | object ms ih => exact all_object.mpr fun m hm => ⟨hq m.1, ih m hm⟩

theorem all_imp {p' : ν → Bool} {q' : σ → Bool} (hp : ∀ n, p n → p' n) (hq : ∀ s, q s → q' s) {j : Json ν σ}
    (h : all p q j) : all p' q' j := by
  induction j using ind with
  | null | bool => rfl
  | number n => exact hp n h
  | string s => exact hq s h
  | array vs ih => exact all_array.mpr fun v hv => ih v hv (all_array.mp h v hv)
  | object ms ih =>
    refine all_object.mpr fun m hm => ?_
    obtain ⟨hk, hv⟩ := all_object.mp h m hm
    exact ⟨hq m.1 hk, ih m hm hv⟩

theorem map_congr_all {f f' : ν → ν'} {g g' : σ → σ'} (hf : ∀ n, p n → f n = f' n) (hg : ∀ s, q s → g s = g' s)
    {j : Json ν σ} (h : all p q j) : map f g j = map f' g' j := by
  induction j using ind with
  | null | bool => rfl
  | number n => exact congrArg _ (hf n h)
  | string s => exact congrArg _ (hg s h)
  | array vs ih =>
    rw [map_array, map_array, List.map_congr_left fun v hv => ih v hv (all_array.mp h v hv)]
  | object ms ih =>
    rw [map_object, map_object]
    refine congrArg _ (List.map_congr_left fun m hm => ?_)
    obtain ⟨hk, hv⟩ := all_object.mp h m hm
    rw [hg m.1 hk, ih m hm hv]

end All

def depth : Json ν σ → Nat :=
  fold ⟨0, fun _ => 0, fun _ => 0, fun _ => 0, fun ns => ns.foldr max 0 + 1,
    fun ms => (ms.map Prod.snd).foldr max 0 + 1⟩

@[simp] theorem depth_array (vs : List (Json ν σ)) : depth (.array vs) = (vs.map depth).foldr max 0 + 1 :=
  fold_array _ vs

@[simp] theorem depth_object (ms : List (σ × Json ν σ)) :
    depth (.object ms) = (ms.map fun m => depth m.2).foldr max 0 + 1 := by
  rw [depth, fold_object]
  exact congrArg (fun ns => ns.foldr max 0 + 1) List.map_map

theorem foldr_max_le {ns : List Nat} {d : Nat} (h : ∀ n ∈ ns, n ≤ d) : ns.foldr max 0 ≤ d := by
  induction ns with
  | nil => exact Nat.zero_le d
  | cons n ns ih =>
    obtain ⟨hn, hns⟩ := List.forall_mem_cons.mp h
    exact Nat.max_le.mpr ⟨hn, ih hns⟩

theorem depth_object_le {ms : List (σ × Json ν σ)} {d : Nat} (h : ∀ m ∈ ms, depth m.2 ≤ d) :
    depth (.object ms) ≤ d + 1 := by
  rw [depth_object]
  exact Nat.succ_le_succ (foldr_max_le (List.forall_mem_map.mpr h))

theorem depth_map (f : ν → ν') (g : σ → σ') (j : Json ν σ) : depth (map f g j) = depth j := by
  induction j using ind with
  | null | bool | number | string => rfl
  | array vs ih =>
    rw [map_array, depth_array, depth_array, List.map_map]
    exact congrArg (fun ns => ns.foldr max 0 + 1) (List.map_congr_left ih)
  | object ms ih =>
    rw [map_object, depth_object, depth_object, List.map_map]
    exact congrArg (fun ns => ns.foldr max 0 + 1) (List.map_congr_left ih)

/-! ## Members -/

def keys (ms : List (σ × β)) : List σ := ms.map Prod.fst

theorem lookup_eq_none_iff_keys [BEq σ] [LawfulBEq σ] {ms : List (σ × β)} {k : σ} :
    ms.lookup k = none ↔ k ∉ keys ms := by
  simp only [List.lookup_eq_none_iff, keys, List.mem_map, bne_iff_ne, ne_eq, not_exists, not_and]
  exact forall₂_congr fun m _ => not_congr eq_comm

theorem lookup_eq_some_iff_mem [BEq σ] [LawfulBEq σ] {ms : List (σ × β)} (h : (keys ms).Nodup) {k : σ} {v : β} :
    ms.lookup k = some v ↔ (k, v) ∈ ms := by
  rw [List.lookup_eq_some_iff]
  constructor
  · rintro ⟨l₁, l₂, rfl, -⟩
    exact List.mem_append_right l₁ List.mem_cons_self
  · intro hmem
    obtain ⟨l₁, l₂, rfl⟩ := List.append_of_mem hmem
    refine ⟨l₁, l₂, rfl, fun m hm => bne_iff_ne.mpr ?_⟩
    rw [keys, List.map_append, List.map_cons] at h
    exact fun hk => (List.nodup_append.mp h).2.2 _ (List.mem_map_of_mem hm) _ List.mem_cons_self hk.symm

section Members
variable [Ord σ]

/-- Members are in the order of their keys. -/
def set (k : σ) (v : β) : List (σ × β) → List (σ × β)
  | [] => [(k, v)]
  | (k', v') :: ms =>
    match compare k k' with
    | .lt => (k, v) :: (k', v') :: ms
    | .eq => (k, v) :: ms
    | .gt => (k', v') :: set k v ms

def setAll (ms : List (σ × β)) : List (σ × β) := ms.foldl (fun acc m => set m.1 m.2 acc) []

def normalize : Json ν σ → Json ν σ := fold ⟨.null, .bool, .number, .string, .array, fun ms => .object (setAll ms)⟩

@[simp] theorem normalize_array (vs : List (Json ν σ)) : normalize (.array vs) = .array (vs.map normalize) :=
  fold_array _ vs

@[simp] theorem normalize_object (ms : List (σ × Json ν σ)) :
    normalize (.object ms) = .object (setAll (ms.map fun m => (m.1, normalize m.2))) := fold_object _ ms

theorem map_set (f : σ → β → β) (k : σ) (v : β) (ms : List (σ × β)) :
    ((set k v ms).map fun m => (m.1, f m.1 m.2)) = set k (f k v) (ms.map fun m => (m.1, f m.1 m.2)) := by
  induction ms with
  | nil => rfl
  | cons m ms ih =>
    simp only [set, List.map_cons]
    cases compare k m.1 with
    | lt => rfl
    | eq => rfl
    | gt => rw [List.map_cons, ih]

theorem map_setAll (f : σ → β → β) (ms : List (σ × β)) :
    ((setAll ms).map fun m => (m.1, f m.1 m.2)) = setAll (ms.map fun m => (m.1, f m.1 m.2)) := by
  have hacc : ∀ acc : List (σ × β), ((ms.foldl (fun acc m => set m.1 m.2 acc) acc).map fun m => (m.1, f m.1 m.2)) =
      (ms.map fun m => (m.1, f m.1 m.2)).foldl (fun acc m => set m.1 m.2 acc)
        (acc.map fun m => (m.1, f m.1 m.2)) := by
    induction ms with
    | nil => intro acc; rfl
    | cons m ms ih =>
      intro acc
      rw [List.foldl_cons, ih, map_set]
      rfl
  exact hacc []

variable [Std.LawfulEqOrd σ]

theorem set_perm {k : σ} {v : β} {ms : List (σ × β)} (hk : k ∉ keys ms) : (set k v ms).Perm ((k, v) :: ms) := by
  induction ms with
  | nil => exact .refl _
  | cons m ms ih =>
    rw [keys, List.map_cons, List.mem_cons, not_or] at hk
    rw [set]
    cases hc : compare k m.1 with
    | lt => exact .refl _
    | eq => exact absurd (Std.LawfulEqOrd.eq_of_compare hc) hk.1
    | gt => exact ((ih hk.2).cons m).trans (.swap _ _ _)

theorem setAll_perm {ms : List (σ × β)} (hms : (keys ms).Nodup) : (setAll ms).Perm ms := by
  have hacc : ∀ acc : List (σ × β), (keys (acc ++ ms)).Nodup →
      (ms.foldl (fun acc m => set m.1 m.2 acc) acc).Perm (acc ++ ms) := by
    clear hms
    induction ms with
    | nil => intro acc _; simp
    | cons m ms ih =>
      intro acc hn
      have hmid : (acc ++ m :: ms).Perm (m :: acc ++ ms) := List.perm_middle
      have hn' : (keys (m :: acc ++ ms)).Nodup := (hmid.map Prod.fst).nodup_iff.mp hn
      have hm : m.1 ∉ keys acc := by
        intro hmem
        have hmem' : m.1 ∈ (acc ++ ms).map Prod.fst := by
          rw [List.map_append]
          exact List.mem_append_left _ hmem
        exact (List.nodup_cons.mp hn').1 hmem'
      have hset : (set m.1 m.2 acc).Perm (m :: acc) := set_perm hm
      have hsets : (set m.1 m.2 acc ++ ms).Perm (m :: acc ++ ms) := hset.append_right ms
      exact (ih _ ((hsets.map Prod.fst).nodup_iff.mpr hn')).trans (hsets.trans hmid.symm)
  exact hacc [] hms

end Members

def distinct [DecidableEq σ] : Json ν σ → Bool :=
  fold ⟨true, fun _ => true, fun _ => true, fun _ => true, fun bs => bs.all id,
    fun ms => decide (keys ms).Nodup && ms.all Prod.snd⟩

@[simp] theorem distinct_array [DecidableEq σ] {vs : List (Json ν σ)} :
    distinct (.array vs) ↔ ∀ v ∈ vs, distinct v := by
  simp [distinct]

@[simp] theorem distinct_object [DecidableEq σ] {ms : List (σ × Json ν σ)} :
    distinct (.object ms) ↔ (keys ms).Nodup ∧ ∀ m ∈ ms, distinct m.2 := by
  rw [distinct, fold_object]
  simp [keys, Function.comp_def]

/-! ## Positions -/

inductive Step (σ : Type)
  | key (k : σ)
  | index (i : Nat)
  deriving DecidableEq

section Positions
variable [BEq σ]

/-- The value one step below. -/
def child? : Json ν σ → Step σ → Option (Json ν σ)
  | .object ms, .key k => ms.lookup k
  | .array vs, .index i => vs[i]?
  | _, _ => none

/-- The value at a position. -/
def get? (p : List (Step σ)) (j : Json ν σ) : Option (Json ν σ) := p.foldlM child? j

@[simp] theorem get?_nil (j : Json ν σ) : get? [] j = some j := rfl

theorem get?_cons (st : Step σ) (p : List (Step σ)) (j : Json ν σ) : get? (st :: p) j = (j.child? st).bind (get? p) := rfl

theorem get?_append (p q : List (Step σ)) (j : Json ν σ) : get? (p ++ q) j = (get? p j).bind (get? q) :=
  List.foldlM_append

@[simp] theorem get?_key_object (k : σ) (p : List (Step σ)) (ms : List (σ × Json ν σ)) :
    get? (.key k :: p) (.object ms) = (ms.lookup k).bind (get? p) := rfl

@[simp] theorem get?_index_array (i : Nat) (p : List (Step σ)) (vs : List (Json ν σ)) :
    get? (.index i :: p) (.array vs) = vs[i]?.bind (get? p) := rfl

end Positions

end Json

end Csar
