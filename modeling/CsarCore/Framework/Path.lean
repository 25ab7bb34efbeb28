import CsarCore.Framework.Strings

/-!
# Slash-separated paths

`clean` and `join` of the package `path`. A path is cut at its slashes; `clean` drops
empty segments and `.`, and lets `..` take away the segment before it.
`clean_append_iff` says when what is added to a path is left alone: when all its
segments are names.
-/

namespace Csar.Path

def slash : UInt8 := 0x2F

def dot : Bytes := [0x2E]

def dotdot : Bytes := [0x2E, 0x2E]

def segments (p : Bytes) : List Bytes := Strings.split p slash

def unsegment (segs : List Bytes) : Bytes := [slash].intercalate segs

/-- Not empty, `.` or `..`, and without a slash. -/
def Name (s : Bytes) : Prop := s ≠ [] ∧ s ≠ dot ∧ s ≠ dotdot ∧ slash ∉ s

instance : DecidablePred Name := fun _ => inferInstanceAs (Decidable (_ ∧ _))

/-- One more segment, after those in `stack`, the last of them first. -/
def push (rooted : Bool) (stack : List Bytes) (seg : Bytes) : List Bytes :=
  if seg = [] ∨ seg = dot then stack
  else if seg = dotdot then
    match stack with
    | [] => if rooted then [] else [dotdot]
    | top :: rest => if top = dotdot then dotdot :: top :: rest else rest
  else seg :: stack

def clean (p : Bytes) : Bytes :=
  let rooted := p.head? == some slash
  let out := unsegment ((segments p).foldl (push rooted) []).reverse
  if rooted then slash :: out
  else if out = [] then dot
  else out

def join (elems : List Bytes) : Bytes :=
  match elems.dropWhile fun e => e = [] with
  | [] => []
  | e :: es => clean (unsegment (e :: es))

variable {rooted : Bool} {p q s : Bytes} {stack segs : List Bytes}

/-! ## Segments -/

theorem segments_append (p q : Bytes) : segments (p ++ slash :: q) = segments p ++ segments q :=
  List.splitOn_append_cons_self ..

theorem unsegment_segments (p : Bytes) : unsegment (segments p) = p := List.intercalate_splitOn slash

theorem segments_ne_nil (p : Bytes) : segments p ≠ [] := List.splitOn_ne_nil slash p

theorem segments_unsegment (segs : List Bytes) (h : ∀ s ∈ segs, slash ∉ s) (hne : segs ≠ []) :
    segments (unsegment segs) = segs :=
  List.splitOn_intercalate slash h hne

@[simp] theorem unsegment_singleton (s : Bytes) : unsegment [s] = s := List.intercalate_singleton ..

theorem segments_of_not_mem (h : slash ∉ s) : segments s = [s] := by
  have hone := segments_unsegment [s] (by simpa using h) (List.cons_ne_nil s [])
  rwa [unsegment_singleton] at hone

theorem slash_not_mem_segments (h : s ∈ segments p) : slash ∉ s := by
  induction hn : p.length using Nat.strong_induction_on generalizing p with
  | _ n ih =>
    by_cases hp : slash ∈ p
    · obtain ⟨a, b, rfl⟩ := List.append_of_mem hp
      rw [List.length_append, List.length_cons] at hn
      rw [segments_append, List.mem_append] at h
      rcases h with h | h
      · exact ih a.length (by omega) h rfl
      · exact ih b.length (by omega) h rfl
    · rw [segments_of_not_mem hp, List.mem_singleton] at h
      rw [h]
      exact hp

theorem unsegment_append {xs ys : List Bytes} (hx : xs ≠ []) (hy : ys ≠ []) :
    unsegment (xs ++ ys) = unsegment xs ++ slash :: unsegment ys := by
  induction xs with
  | nil => exact absurd rfl hx
  | cons x xs ih =>
    rcases xs with _ | ⟨x', xs⟩
    · rcases ys with _ | ⟨y, ys⟩
      · exact absurd rfl hy
      · show [slash].intercalate (x :: y :: ys) = [slash].intercalate [x] ++ slash :: [slash].intercalate (y :: ys)
        rw [List.intercalate_cons_cons, List.intercalate_singleton, List.append_assoc]
        rfl
    · have htail := ih (List.cons_ne_nil x' xs)
      show [slash].intercalate (x :: x' :: (xs ++ ys)) = _
      rw [List.intercalate_cons_cons, unsegment, List.intercalate_cons_cons, List.append_assoc, List.append_assoc,
        List.append_assoc]
      exact congrArg (x ++ ·) (congrArg ([slash] ++ ·) htail)

/-! ## Cleaning -/

/-- Names, after some `..` if it is not rooted. -/
def Cleaned (rooted : Bool) (stack : List Bytes) : Prop :=
  ∃ names k, stack = names ++ List.replicate k dotdot ∧ (∀ s ∈ names, Name s) ∧ (rooted = true → k = 0)

theorem cleaned_push (h : Cleaned rooted stack) (hs : slash ∉ s) : Cleaned rooted (push rooted stack s) := by
  unfold push
  split
  · exact h
  · rename_i hplain
    obtain ⟨names, k, rfl, hnames, hk⟩ := h
    split
    · rcases names with _ | ⟨n, names⟩
      · rcases k with _ | k
        · show Cleaned rooted (if rooted then [] else [dotdot])
          split
          · exact ⟨[], 0, rfl, nofun, fun _ => rfl⟩
          · rename_i hr
            exact ⟨[], 1, rfl, nofun, fun h => absurd h hr⟩
        · -- a rooted path has no `..` left
          refine ⟨[], k + 2, ?_, nofun, fun h => absurd (hk h) (Nat.succ_ne_zero k)⟩
          show (if dotdot = dotdot then _ else _) = _
          rw [if_pos rfl]
          rfl
      · show Cleaned rooted (if n = dotdot then _ else names ++ List.replicate k dotdot)
        rw [if_neg (hnames n List.mem_cons_self).2.2.1]
        exact ⟨names, k, rfl, fun s hs => hnames s (List.mem_cons_of_mem n hs), hk⟩
    · rename_i hdd
      have hname : Name s := ⟨fun h => hplain (.inl h), fun h => hplain (.inr h), hdd, hs⟩
      exact ⟨s :: names, k, rfl, List.forall_mem_cons.mpr ⟨hname, hnames⟩, hk⟩

theorem cleaned_foldl (h : Cleaned rooted stack) (hs : ∀ s ∈ segs, slash ∉ s) :
    Cleaned rooted (segs.foldl (push rooted) stack) := by
  induction segs generalizing stack with
  | nil => exact h
  | cons s segs ih =>
    exact ih (cleaned_push h (hs s List.mem_cons_self)) fun s' hs' => hs s' (List.mem_cons_of_mem s hs')

theorem slash_not_mem_cleaned (h : Cleaned rooted stack) : ∀ s ∈ stack, slash ∉ s := by
  obtain ⟨names, k, rfl, hnames, -⟩ := h
  intro s hs
  rcases List.mem_append.mp hs with hs | hs
  · exact (hnames s hs).2.2.2
  · rw [List.eq_of_mem_replicate hs]
    decide

theorem push_name (h : Name s) : push rooted stack s = s :: stack := by
  unfold push
  rw [if_neg (not_or.mpr ⟨h.1, h.2.1⟩), if_neg h.2.2.1]

theorem foldl_push_names (h : ∀ s ∈ segs, Name s) : segs.foldl (push rooted) stack = segs.reverse ++ stack := by
  induction segs generalizing stack with
  | nil => rfl
  | cons s segs ih =>
    rw [List.foldl_cons, push_name (h s List.mem_cons_self), ih fun s' hs' => h s' (List.mem_cons_of_mem s hs'),
      List.reverse_cons, List.append_assoc]
    rfl

theorem Cleaned.names_above {top : Bytes} (h : Cleaned rooted (segs ++ top :: stack)) (ht : Name top) :
    ∀ s ∈ segs, Name s := by
  obtain ⟨names, k, heq, hnames, -⟩ := h
  rcases List.append_eq_append_iff.mp heq with ⟨mid, rfl, -⟩ | ⟨mid, rfl, hmid⟩
  · exact fun s hs => hnames s (List.mem_append_left mid hs)
  · -- `top` would be one of the `..`
    rcases mid with _ | ⟨m, mid⟩
    · exact fun s hs => hnames s (by simpa using hs)
    · have hmem : top ∈ List.replicate k dotdot := by
        rw [hmid]
        exact List.mem_append_right _ List.mem_cons_self
      exact absurd (List.eq_of_mem_replicate hmem) ht.2.2.1

theorem cleaned_segments (p : Bytes) : Cleaned rooted ((segments p).foldl (push rooted) []) :=
  cleaned_foldl ⟨[], 0, rfl, nofun, fun _ => rfl⟩ fun _ hs => slash_not_mem_segments hs

theorem nil_not_mem_cleaned (h : Cleaned rooted stack) : [] ∉ stack := by
  obtain ⟨names, k, rfl, hnames, -⟩ := h
  intro hmem
  rcases List.mem_append.mp hmem with hmem | hmem
  · exact (hnames [] hmem).1 rfl
  · exact absurd (List.eq_of_mem_replicate hmem) (by decide)

theorem segments_cleaned (h : Cleaned rooted stack) (hne : stack ≠ []) : segments (unsegment stack.reverse) = stack.reverse :=
  segments_unsegment stack.reverse (fun s hs => slash_not_mem_cleaned h s (List.mem_reverse.mp hs))
    (mt List.reverse_eq_nil_iff.mp hne)

theorem unsegment_cleaned_ne (h : Cleaned rooted stack) (hne : stack ≠ []) :
    unsegment stack.reverse ≠ [] ∧ unsegment stack.reverse ≠ dot := by
  have hsegs := segments_cleaned h hne
  have hmem : ∀ {t}, slash ∉ t → unsegment stack.reverse = t → t ∈ stack := by
    intro t ht heq
    rw [heq, segments_of_not_mem ht] at hsegs
    exact List.mem_reverse.mp (hsegs ▸ List.mem_singleton_self t)
  refine ⟨fun hnil => nil_not_mem_cleaned h (hmem List.not_mem_nil hnil), fun hdot => ?_⟩
  obtain ⟨names, k, rfl, hnames, -⟩ := h
  rcases List.mem_append.mp (hmem (by decide) hdot) with hdot | hdot
  · exact (hnames dot hdot).2.1 rfl
  · exact absurd (List.eq_of_mem_replicate hdot) (by decide)

theorem head?_unsegment (h : Cleaned rooted stack) : (unsegment stack.reverse).head? ≠ some slash := by
  intro hhead
  obtain ⟨rest, hrest⟩ := List.head?_eq_some_iff.mp hhead
  have hne : stack ≠ [] := by
    rintro rfl
    cases hrest
  have hsegs := segments_cleaned h hne
  rw [hrest, ← List.nil_append (slash :: rest), segments_append, segments_of_not_mem List.not_mem_nil] at hsegs
  refine nil_not_mem_cleaned h (List.mem_reverse.mp ?_)
  rw [← hsegs]
  exact List.mem_append_left _ (List.mem_singleton_self [])

theorem clean_ne_nil (p : Bytes) : clean p ≠ [] := by
  unfold clean
  dsimp only
  split
  · exact List.cons_ne_nil _ _
  · split
    · decide
    · assumption

theorem head?_clean (p : Bytes) : (clean p).head? = some slash ↔ p.head? = some slash := by
  unfold clean
  dsimp only
  split
  · rename_i h
    exact iff_of_true rfl (by simpa using h)
  · rename_i h
    refine iff_of_false ?_ (by simpa using h)
    split
    · decide
    · exact head?_unsegment (cleaned_segments p)

theorem clean_eq (hp : (segments p).foldl (push (p.head? == some slash)) [] = stack)
    (hout : unsegment stack.reverse ≠ []) :
    clean p = (if p.head? == some slash then [slash] else []) ++ unsegment stack.reverse := by
  unfold clean
  dsimp only
  rw [hp]
  rw [if_neg hout]
  split <;> rfl

/-- After a path that ends in a name, cleaning leaves what is added as it is just if all its segments are
names. -/
theorem clean_append_iff {top : Bytes} (hp : (segments p).foldl (push (p.head? == some slash)) [] = top :: stack)
    (ht : Name top) : clean (p ++ slash :: q) = clean p ++ slash :: q ↔ ∀ s ∈ segments q, Name s := by
  have hne : p ≠ [] := by
    rintro rfl
    cases hp
  obtain ⟨b, bs, rfl⟩ := List.exists_cons_of_ne_nil hne
  have hhead : ((b :: bs) ++ slash :: q).head? = (b :: bs).head? := rfl
  have hcleaned : Cleaned ((b :: bs).head? == some slash) (top :: stack) := by
    rw [← hp]
    exact cleaned_segments _
  have hstack : (top :: stack).reverse ≠ [] := by simp
  have hout : unsegment (top :: stack).reverse ≠ [] := (unsegment_cleaned_ne hcleaned (List.cons_ne_nil top stack)).1
  rw [clean_eq hp hout, List.append_assoc]
  generalize hr : ((b :: bs).head? == some slash) = rooted at hp hcleaned
  have hfold : (segments ((b :: bs) ++ slash :: q)).foldl (push rooted) [] =
      (segments q).foldl (push rooted) (top :: stack) := by
    rw [segments_append, List.foldl_append, hp]
  have hjoin : unsegment (top :: stack).reverse ++ slash :: q = unsegment ((top :: stack).reverse ++ segments q) := by
    rw [unsegment_append hstack (segments_ne_nil q), unsegment_segments]
  have hfree : ∀ s ∈ (top :: stack).reverse ++ segments q, slash ∉ s := by
    intro s hs
    rcases List.mem_append.mp hs with hs | hs
    · exact slash_not_mem_cleaned hcleaned s (List.mem_reverse.mp hs)
    · exact slash_not_mem_segments hs
  have hcleaned' : Cleaned rooted ((segments q).foldl (push rooted) (top :: stack)) :=
    cleaned_foldl hcleaned fun s hs => slash_not_mem_segments hs
  constructor
  · intro heq
    generalize hfinal : (segments q).foldl (push rooted) (top :: stack) = final at hfold hcleaned'
    have hsame : unsegment final.reverse = unsegment (top :: stack).reverse ++ slash :: q := by
      unfold clean at heq
      dsimp only at heq
      rw [hhead, hr, hfold] at heq
      cases rooted with
      | true => exact List.cons.inj heq |>.2
      | false =>
        simp only [Bool.false_eq_true, if_false, List.nil_append] at heq
        split at heq
        · have hmem : slash ∈ dot := by rw [heq]; simp
          exact absurd hmem (by decide)
        · exact heq
    have hne : final ≠ [] := by
      rintro rfl
      have := congrArg List.length hsame
      simp [unsegment] at this
    have hsegs : final.reverse = (top :: stack).reverse ++ segments q := by
      rw [← segments_cleaned hcleaned' hne, hsame, hjoin, segments_unsegment _ hfree (by simp)]
    have hsplit : final = (segments q).reverse ++ top :: stack := by
      rw [← List.reverse_reverse final, hsegs, List.reverse_append, List.reverse_reverse]
    rw [hsplit] at hcleaned'
    exact fun s hs => hcleaned'.names_above ht s (List.mem_reverse.mpr hs)
  · intro hnames
    rw [foldl_push_names hnames] at hfold
    have hrev : ((segments q).reverse ++ top :: stack).reverse = (top :: stack).reverse ++ segments q := by
      rw [List.reverse_append, List.reverse_reverse]
    have hout' : unsegment ((segments q).reverse ++ top :: stack).reverse ≠ [] := by
      rw [hrev, ← hjoin]
      simp
    rw [clean_eq (by rw [hhead, hr]; exact hfold) hout', hhead, hr, hrev, hjoin]

/-! ## Names -/

theorem names_append_iff :
    (∀ s ∈ segments (p ++ slash :: q), Name s) ↔ (∀ s ∈ segments p, Name s) ∧ ∀ s ∈ segments q, Name s := by
  rw [segments_append, List.forall_mem_append]

theorem Name.wrap {w v : Bytes} (h : Name s) (hw : ∀ b ∈ w, b ≠ slash ∧ b ≠ 0x2E) (hv : ∀ b ∈ v, b ≠ slash ∧ b ≠ 0x2E) :
    Name (w ++ s ++ v) := by
  have hdots : ∀ t : Bytes, (∀ b ∈ t, b = 0x2E) → w ++ s ++ v = t → s = t := by
    rintro t ht rfl
    have hw' : w = [] := List.eq_nil_iff_forall_not_mem.mpr fun b hb => (hw b hb).2 (ht b (by simp [hb]))
    have hv' : v = [] := List.eq_nil_iff_forall_not_mem.mpr fun b hb => (hv b hb).2 (ht b (by simp [hb]))
    rw [hw', hv', List.nil_append, List.append_nil]
  refine ⟨?_, fun he => h.2.1 (hdots dot (by simp [dot]) he), fun he => h.2.2.1 (hdots dotdot (by simp [dotdot]) he),
    fun hmem => ?_⟩
  · simp [h.1]
  · rw [List.mem_append, List.mem_append] at hmem
    rcases hmem with (hmem | hmem) | hmem
    · exact (hw _ hmem).1 rfl
    · exact h.2.2.2 hmem
    · exact (hv _ hmem).1 rfl

theorem exists_last_slash (h : slash ∈ p) : ∃ a b, p = a ++ slash :: b ∧ slash ∉ b := by
  obtain ⟨x, y, hp, hx⟩ := List.eq_append_cons_of_mem (List.mem_reverse.mpr h)
  refine ⟨y.reverse, x.reverse, ?_, fun hmem => hx (List.mem_reverse.mp hmem)⟩
  rw [← List.reverse_reverse p, hp]
  simp

theorem names_wrap {w v : Bytes} (h : ∀ s ∈ segments p, Name s) (hw : ∀ b ∈ w, b ≠ slash ∧ b ≠ 0x2E)
    (hv : ∀ b ∈ v, b ≠ slash ∧ b ≠ 0x2E) : ∀ s ∈ segments (w ++ p ++ v), Name s := by
  have hone : ∀ {x y z : Bytes}, slash ∉ y → (∀ s ∈ segments y, Name s) → (∀ b ∈ x, b ≠ slash ∧ b ≠ 0x2E) →
      (∀ b ∈ z, b ≠ slash ∧ b ≠ 0x2E) → ∀ s ∈ segments (x ++ y ++ z), Name s := by
    intro x y z hy hname hx hz s hs
    have hall := Name.wrap (hname y (by rw [segments_of_not_mem hy]; exact List.mem_singleton_self y)) hx hz
    rw [segments_of_not_mem hall.2.2.2, List.mem_singleton] at hs
    rw [hs]
    exact hall
  by_cases hp : slash ∈ p
  · -- the first segment gets what is before the path, the last one what is behind it
    obtain ⟨a, b, rfl, ha⟩ := List.eq_append_cons_of_mem hp
    obtain ⟨hna, hnb⟩ := names_append_iff.mp h
    have hleft : ∀ s ∈ segments (w ++ a), Name s := by
      have := hone ha hna hw (z := []) (by simp)
      rwa [List.append_nil] at this
    have hright : ∀ s ∈ segments (b ++ v), Name s := by
      by_cases hb : slash ∈ b
      · obtain ⟨c, d, rfl, hd⟩ := exists_last_slash hb
        obtain ⟨hnc, hnd⟩ := names_append_iff.mp hnb
        rw [List.append_assoc, List.cons_append]
        exact names_append_iff.mpr ⟨hnc, hone hd hnd (x := []) (by simp) hv⟩
      · exact hone hb hnb (x := []) (by simp) hv
    have hshape : w ++ (a ++ slash :: b) ++ v = (w ++ a) ++ slash :: (b ++ v) := by simp
    rw [hshape]
    exact names_append_iff.mpr ⟨hleft, hright⟩
  · exact hone hp h hw hv

theorem forall_runes_segments {P : Option Char → Prop} (hslash : P (some '/')) :
    (∀ s ∈ segments p, ∀ r ∈ runes s, P r) ↔ ∀ r ∈ runes p, P r := by
  induction hn : p.length using Nat.strong_induction_on generalizing p with
  | _ n ih =>
    by_cases hp : slash ∈ p
    · obtain ⟨a, b, rfl⟩ := List.append_of_mem hp
      rw [List.length_append, List.length_cons] at hn
      have hrunes : runes (a ++ slash :: b) = runes a ++ some '/' :: runes b := by
        rw [runes_append (startsRune_ascii (by decide) b), runes_ascii (by decide)]
        rfl
      rw [segments_append, hrunes, List.forall_mem_append, List.forall_mem_append, List.forall_mem_cons,
        ih a.length (by omega) rfl, ih b.length (by omega) rfl]
      exact and_congr_right fun _ => (and_iff_right hslash).symm
    · rw [segments_of_not_mem hp]
      simp

theorem not_names_nil : ¬ ∀ s ∈ segments [], Name s := by
  rw [segments_of_not_mem List.not_mem_nil]
  exact fun h => (h [] (List.mem_singleton_self [])).1 rfl

theorem ends_of_names (h : ∀ s ∈ segments p, Name s) : p.head? ≠ some slash ∧ p.getLast? ≠ some slash := by
  refine ⟨fun hhead => ?_, fun hlast => ?_⟩
  · obtain ⟨q, rfl⟩ := List.head?_eq_some_iff.mp hhead
    exact not_names_nil (names_append_iff (p := []) |>.mp h).1
  · obtain ⟨q, rfl⟩ := List.getLast?_eq_some_iff.mp hlast
    exact not_names_nil (names_append_iff.mp h).2

theorem clean_name (hs : Name s) : clean s = s := by
  have hfold : (segments s).foldl (push (s.head? == some slash)) [] = [s] := by
    rw [segments_of_not_mem hs.2.2.2]
    exact push_name hs
  have hhead : s.head? ≠ some slash := fun h => hs.2.2.2 (List.mem_of_mem_head? h)
  rw [clean_eq hfold (by rw [List.reverse_singleton, unsegment_singleton]; exact hs.1), List.reverse_singleton,
    unsegment_singleton, if_neg (by simpa using hhead), List.nil_append]

/-- The cleaned path goes on with a name, unless nothing is left of it. -/
theorem clean_append_name (hp : p ≠ []) (hs : Name s) :
    clean (p ++ slash :: s) =
      if clean p = [slash] then slash :: s else if clean p = dot then s else clean p ++ slash :: s := by
  obtain ⟨b, bs, rfl⟩ := List.exists_cons_of_ne_nil hp
  have hhead : ((b :: bs) ++ slash :: s).head? = (b :: bs).head? := rfl
  have hcleaned : Cleaned ((b :: bs).head? == some slash)
      ((segments (b :: bs)).foldl (push ((b :: bs).head? == some slash)) []) := cleaned_segments (b :: bs)
  generalize hstack : (segments (b :: bs)).foldl (push ((b :: bs).head? == some slash)) [] = stack at hcleaned
  have hfold : (segments ((b :: bs) ++ slash :: s)).foldl (push ((b :: bs).head? == some slash)) [] = s :: stack := by
    rw [segments_append, List.foldl_append, hstack, segments_of_not_mem hs.2.2.2]
    exact push_name hs
  have hout : unsegment (s :: stack).reverse ≠ [] :=
    (unsegment_cleaned_ne (hfold ▸ cleaned_segments _) (List.cons_ne_nil s stack)).1
  rw [clean_eq hfold hout, hhead]
  by_cases hnil : stack = []
  · have hclean : clean (b :: bs) = if (b :: bs).head? == some slash then [slash] else dot := by
      unfold clean
      dsimp only
      rw [hstack, hnil]
      rfl
    rw [hclean, hnil, List.reverse_singleton, unsegment_singleton]
    cases (b :: bs).head? == some slash with
    | true => rfl
    | false => rfl
  · obtain ⟨hempty, hdot⟩ := unsegment_cleaned_ne hcleaned hnil
    have hslash := head?_unsegment hcleaned
    have hgoes : unsegment (s :: stack).reverse = unsegment stack.reverse ++ slash :: s := by
      rw [List.reverse_cons, unsegment_append (mt List.reverse_eq_nil_iff.mp hnil) (List.cons_ne_nil s []),
        unsegment_singleton]
    rw [clean_eq hstack hempty, hgoes]
    generalize unsegment stack.reverse = out at hempty hdot hslash
    cases (b :: bs).head? == some slash with
    | true =>
      have hroot : slash :: out ≠ [slash] := fun heq => hempty (List.cons.inj heq).2
      have hrel : slash :: out ≠ dot := fun heq => absurd (List.cons.inj heq).1 (by decide)
      exact ((if_neg hroot).trans (if_neg hrel)).symm
    | false =>
      have hroot : out ≠ [slash] := by
        rintro rfl
        exact hslash rfl
      exact ((if_neg hroot).trans (if_neg hdot)).symm

end Csar.Path
