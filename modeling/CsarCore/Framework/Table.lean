import Mathlib.Algebra.Ring.Int.Defs
import Mathlib.Data.List.Nodup
import Mathlib.Data.List.Lemmas

/-!
# Tables with a primary key

A table is a list of rows in which no two rows have one key. The operations are the
effects of single SQL statements: `insert` (of a row whose key is new), `deleteWhere`,
`updateWhere` and the `firstBy` of a `SELECT`, with `count` the rows that a `WHERE`
selects. With pairs as rows and the first component as the key it is a finite map.
-/

namespace Csar

/-- Rows `ρ` with the primary key `key`. -/
structure Table (ρ : Type) {κ : Type} (key : ρ → κ) where
  rows : List ρ
  pk : (rows.map key).Nodup

namespace Table

variable {ρ κ : Type} {key : ρ → κ}

instance : Membership ρ (Table ρ key) := ⟨fun t r => r ∈ t.rows⟩

variable {t : Table ρ key} {r q : ρ} {p : ρ → Bool}

theorem mem_def : r ∈ t ↔ r ∈ t.rows := Iff.rfl

def empty : Table ρ key := ⟨[], List.nodup_nil⟩

@[simp] theorem not_mem_empty (r : ρ) : r ∉ (empty : Table ρ key) := by simp [mem_def, empty]

theorem ext {u : Table ρ key} (h : t.rows = u.rows) : t = u := by
  cases t; cases u; cases h; rfl

theorem eq_of_key (hr : r ∈ t) (hq : q ∈ t) (h : key r = key q) : r = q :=
  List.inj_on_of_nodup_map t.pk hr hq h

def find? [DecidableEq κ] (t : Table ρ key) (k : κ) : Option ρ := t.rows.find? fun r => key r == k

theorem find?_eq_some [DecidableEq κ] {k : κ} : t.find? k = some r ↔ r ∈ t ∧ key r = k := by
  constructor
  · intro h
    exact ⟨List.mem_of_find?_eq_some h, by simpa using List.find?_some h⟩
  · rintro ⟨hr, hk⟩
    rcases hf : t.find? k with _ | q
    · exact absurd hk (by simpa using List.find?_eq_none.mp hf r hr)
    · have hq : key q = k := by simpa using List.find?_some hf
      rw [eq_of_key (List.mem_of_find?_eq_some hf) hr (hq.trans hk.symm)]

theorem find?_eq_none [DecidableEq κ] {k : κ} : t.find? k = none ↔ ∀ r ∈ t, key r ≠ k := by
  simp [find?, List.find?_eq_none, mem_def]

def count (t : Table ρ key) (p : ρ → Bool) : Nat := t.rows.countP p

/-- `ORDER BY … LIMIT 1`: the row that comes first in the order `before`. -/
def firstBy (before : ρ → ρ → Bool) : List ρ → Option ρ
  | [] => none
  | r :: rest =>
    match firstBy before rest with
    | none => some r
    | some q => if before q r then some q else some r

theorem firstBy_mem {before : ρ → ρ → Bool} {rows : List ρ} (h : firstBy before rows = some r) : r ∈ rows := by
  induction rows generalizing r with
  | nil => cases h
  | cons q rest ih =>
    simp only [firstBy] at h
    split at h
    · cases h; exact List.mem_cons_self
    · rename_i q' hq'
      split at h <;> cases h
      · exact List.mem_cons_of_mem _ (ih hq')
      · exact List.mem_cons_self

theorem firstBy_eq_some {before : ρ → ρ → Bool} {rows : List ρ} (hr : r ∈ rows)
    (hfirst : ∀ q ∈ rows, q ≠ r → before r q = true ∧ before q r = false) : firstBy before rows = some r := by
  induction rows with
  | nil => cases hr
  | cons p rest ih =>
    have hrest : ∀ q ∈ rest, q ≠ r → before r q = true ∧ before q r = false :=
      fun q hq => hfirst q (List.mem_cons_of_mem p hq)
    simp only [firstBy]
    by_cases hmem : r ∈ rest
    · rw [ih hmem hrest]
      by_cases hp : p = r
      · rw [hp]
        simp
      · simp [(hfirst p List.mem_cons_self hp).1]
    · obtain rfl : r = p := (List.mem_cons.mp hr).resolve_right hmem
      cases hf : firstBy before rest with
      | none => rfl
      | some q =>
        have hq := firstBy_mem hf
        simp [(hrest q hq fun he => hmem (he ▸ hq)).2]

/-- `DELETE … WHERE p`. -/
def deleteWhere (t : Table ρ key) (p : ρ → Bool) : Table ρ key :=
  ⟨t.rows.filter fun r => !p r, t.pk.sublist (List.filter_sublist.map key)⟩

/-- `UPDATE … SET f WHERE p`, where `f` keeps the key. -/
def updateWhere (t : Table ρ key) (p : ρ → Bool) (f : ρ → ρ) (hf : ∀ r, key (f r) = key r) :
    Table ρ key :=
  ⟨t.rows.map fun r => if p r then f r else r, by
    have h : (key ∘ fun r => if p r then f r else r) = key := by
      funext r; simp only [Function.comp_apply]; split <;> simp [hf]
    rw [List.map_map, h]; exact t.pk⟩

/-- `INSERT` of a row with a new key. -/
def insert (t : Table ρ key) (r : ρ) (h : ∀ q ∈ t.rows, key q ≠ key r) : Table ρ key :=
  ⟨r :: t.rows, List.nodup_cons.mpr ⟨by simpa using h, t.pk⟩⟩

def upsert [DecidableEq κ] (t : Table ρ key) (r : ρ) : Table ρ key :=
  (t.deleteWhere fun q => key q == key r).insert r fun q hq => by
    simpa [deleteWhere] using (List.mem_filter.mp hq).2

theorem mem_deleteWhere : r ∈ t.deleteWhere p ↔ r ∈ t ∧ p r = false := by
  simp [mem_def, deleteWhere]

theorem mem_updateWhere {f : ρ → ρ} {hf : ∀ r, key (f r) = key r} :
    r ∈ t.updateWhere p f hf ↔ ∃ q ∈ t, (if p q then f q else q) = r :=
  List.mem_map

theorem mem_insert (h : ∀ q ∈ t.rows, key q ≠ key r) : q ∈ t.insert r h ↔ q = r ∨ q ∈ t := by
  simp [mem_def, insert]

theorem mem_upsert [DecidableEq κ] : q ∈ t.upsert r ↔ q = r ∨ q ∈ t ∧ key q ≠ key r := by
  rw [upsert, mem_insert, mem_deleteWhere, beq_eq_false_iff_ne]

theorem length_deleteWhere_le (t : Table ρ key) (p : ρ → Bool) : (t.deleteWhere p).rows.length ≤ t.rows.length :=
  List.length_filter_le _ _

theorem length_upsert_le [DecidableEq κ] (t : Table ρ key) (r : ρ) :
    (t.upsert r).rows.length ≤ t.rows.length + 1 :=
  Nat.succ_le_succ (t.length_deleteWhere_le _)

theorem count_key [DecidableEq κ] (hq : q ∈ t) : t.count (fun p => key p == key q) = 1 := by
  have h := List.count_eq_one_of_mem t.pk (List.mem_map_of_mem hq)
  rw [List.count, List.countP_map] at h
  exact h

theorem count_key_and [DecidableEq κ] (hq : q ∈ t) (f : ρ → Bool) :
    t.count (fun p => key p == key q && f p) = if f q then 1 else 0 := by
  have hsame : ∀ p ∈ t.rows, (key p == key q && f p) = true ↔ (key p == key q && f q) = true := by
    intro p hp
    by_cases hk : key p = key q
    · rw [eq_of_key hp hq hk]
    · simp [hk]
  have hcount : t.count (fun p => key p == key q && f p) = t.count fun p => key p == key q && f q :=
    List.countP_congr hsame
  rw [hcount]
  cases f q with
  | true => simpa using count_key hq
  | false => simp [count]

theorem length_upsert_of_mem [DecidableEq κ] (hq : q ∈ t) (hk : key q = key r) :
    (t.upsert r).rows.length = t.rows.length := by
  have hone : t.rows.countP (fun p => key p == key r) = 1 := hk ▸ count_key hq
  have hlen : t.rows.length = t.rows.countP (fun p => key p == key r) +
      t.rows.countP (fun p => !(key p == key r)) := by
    have h := t.rows.length_eq_countP_add_countP (fun p => key p == key r)
    simpa only [Bool.not_eq_true, Bool.decide_eq_false] using h
  rw [hone, List.countP_eq_length_filter] at hlen
  rw [hlen, Nat.add_comm]
  rfl

theorem sum_deleteWhere {f : ρ → Int} (h : ∀ r ∈ t, p r = true → f r = 0) :
    ((t.deleteWhere p).rows.map f).sum = (t.rows.map f).sum := by
  have key : ∀ rows : List ρ, (∀ r ∈ rows, p r = true → f r = 0) →
      ((rows.filter fun r => !p r).map f).sum = (rows.map f).sum := by
    intro rows
    induction rows with
    | nil => intro _; rfl
    | cons r rest ih =>
      intro h
      have hrest := ih fun q hq => h q (List.mem_cons_of_mem r hq)
      by_cases hp : p r = true
      · rw [List.filter_cons_of_neg (by simp [hp]), hrest, List.map_cons, List.sum_cons,
          h r List.mem_cons_self hp, Int.zero_add]
      · rw [List.filter_cons_of_pos (by simp [hp]), List.map_cons, List.sum_cons, hrest, List.map_cons,
          List.sum_cons]
  exact key t.rows h

theorem deleteWhere_of_none (h : ∀ r ∈ t, p r = false) : t.deleteWhere p = t :=
  ext (List.filter_eq_self.mpr fun r hr => by simp [h r hr])

theorem updateWhere_of_none {f : ρ → ρ}
    {hf : ∀ r, key (f r) = key r} (h : ∀ r ∈ t, p r = false) : t.updateWhere p f hf = t := by
  refine ext ?_
  simp only [updateWhere]
  conv_rhs => rw [← List.map_id t.rows]
  exact List.map_congr_left fun r hr => by simp [h r hr]

theorem count_of_none (h : ∀ r ∈ t, p r = false) : t.count p = 0 :=
  List.countP_eq_zero.mpr fun r hr => by simp [h r hr]

end Table

end Csar
