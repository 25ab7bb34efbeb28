import CsarCore.Spec.Audit.Postgres

/-!
# Listing audit events

Placeholders have the numbers of their arguments (`Resolves`), so a query selects what
the filter says (`selects_iff`), and `list_eq` is a page. The rows of a filter are in one
order without ties (`pairwise_matching`); the cursor of a row leads to those behind it
(`matching_after`), so the pages are the list cut into pieces (`pages_from`).
-/

namespace Csar.Proof.Audit

open Impl.Audit Spec.Audit

variable {ord : IDOrder} {t : AuditEvents} {f : ListFilter} {q : Query} {ws : List Where} {r : AuditRow}

/-! ## Queries -/

/-- The conditions of a query, with the arguments of their placeholders, are `ws`, also with more
arguments behind. -/
structure Resolves (q : Query) (ws : List Where) : Prop where
  idx : q.idx = q.args.length + 1
  conds : ∀ more, q.conds.mapM (Cond.resolve (q.args ++ more)) = some ws

theorem placeholder_append (args more : List Arg) (a : Arg) :
    placeholder (args ++ a :: more) (args.length + 1) = some a := by
  rw [placeholder, if_neg (Nat.succ_ne_zero _), Nat.add_sub_cancel, List.getElem?_append_right (Nat.le_refl _),
    Nat.sub_self]
  rfl

theorem Resolves.snoc (h : Resolves q ws) {c : Cond} {w : Where} (as : List Arg)
    (hc : ∀ more, c.resolve (q.args ++ (as ++ more)) = some w) :
    Resolves ⟨q.conds ++ [c], q.args ++ as, q.idx + as.length⟩ (ws ++ [w]) := by
  refine ⟨?_, fun more => ?_⟩
  · show q.idx + as.length = (q.args ++ as).length + 1
    rw [h.idx, List.length_append]
    omega
  · show (q.conds ++ [c]).mapM (Cond.resolve ((q.args ++ as) ++ more)) = some (ws ++ [w])
    rw [List.append_assoc, List.mapM_append, h.conds]
    simp [hc]

def textWhere (c : Column) (value : Bytes) : List Where := if value ≠ [] then [.column c value] else []

theorem resolves_text (h : Resolves q ws) (c : Column) (value : Bytes) :
    Resolves (q.text c value) (ws ++ textWhere c value) := by
  unfold Query.text textWhere
  split
  · refine h.snoc [.text value] fun more => ?_
    rw [Cond.resolve, h.idx, List.singleton_append, placeholder_append]
  · rw [List.append_nil]
    exact h

theorem resolves_since (h : Resolves q ws) (s : Option Int) :
    Resolves (q.since s) (ws ++ s.toList.map .since) := by
  rcases s with _ | s
  · rw [show (none : Option Int).toList.map Where.since = [] from rfl, List.append_nil]
    exact h
  · refine h.snoc [.time s] fun more => ?_
    rw [Cond.resolve, h.idx, List.singleton_append, placeholder_append]

theorem resolves_untilTime (h : Resolves q ws) (s : Option Int) :
    Resolves (q.untilTime s) (ws ++ s.toList.map .untilTime) := by
  rcases s with _ | s
  · rw [show (none : Option Int).toList.map Where.untilTime = [] from rfl, List.append_nil]
    exact h
  · refine h.snoc [.time s] fun more => ?_
    rw [Cond.resolve, h.idx, List.singleton_append, placeholder_append]

def cursorWhere (cursor : Bytes) : List Where :=
  if cursor ≠ [] then (decodeCursor cursor).toList.map fun p => .before p.1 p.1 p.2 else []

theorem resolves_cursor (h : Resolves q ws) (cursor : Bytes) :
    Resolves (q.cursor cursor) (ws ++ cursorWhere cursor) := by
  unfold Query.cursor cursorWhere
  split
  · rcases decodeCursor cursor with _ | ⟨time, id⟩
    · dsimp only
      rw [show (none : Option (Int × Bytes)).toList.map _ = [] from rfl, List.append_nil]
      exact h
    · refine h.snoc [.time time, .text id] fun more => ?_
      have hid : placeholder (q.args ++ Arg.time time :: Arg.text id :: more) (q.args.length + 1 + 1) = some (.text id) := by
        have := placeholder_append (q.args ++ [.time time]) more (.text id)
        rwa [List.append_assoc, List.length_append] at this
      show Cond.resolve (q.args ++ (Arg.time time :: Arg.text id :: more)) _ = _
      rw [Cond.resolve, h.idx, placeholder_append, hid]
  · rw [List.append_nil]
    exact h

def listWheres (f : ListFilter) : List Where :=
  textWhere .scopeType f.scopeType ++ textWhere .scopeID f.scopeID ++ textWhere .actor f.actor ++
    textWhere .action f.action ++ textWhere .targetType f.targetType ++ textWhere .targetID f.targetID ++
    f.since.toList.map .since ++ f.untilTime.toList.map .untilTime ++ cursorWhere f.cursor

theorem resolves_listQuery (f : ListFilter) : Resolves (listQuery f) (listWheres f) := by
  have h0 : Resolves ⟨[], [], 1⟩ [] := ⟨rfl, fun _ => rfl⟩
  have h1 := resolves_text (resolves_text (resolves_text h0 .scopeType f.scopeType) .scopeID f.scopeID) .actor f.actor
  have h2 := resolves_text (resolves_text (resolves_text h1 .action f.action) .targetType f.targetType) .targetID f.targetID
  exact resolves_cursor (resolves_untilTime (resolves_since h2 f.since) f.untilTime) f.cursor

theorem all_textWhere (c : Column) (value : Bytes) :
    (textWhere c value).all (Where.holds ord r) = true ↔ IfSet value (c.get r) := by
  unfold textWhere IfSet
  split
  · rename_i h
    simp [Where.holds, h]
  · rename_i h
    exact iff_of_true rfl fun h' => absurd h' h

theorem all_cursorWhere (cursor : Bytes) :
    (cursorWhere cursor).all (Where.holds ord r) = true ↔ Beyond ord cursor r := by
  unfold cursorWhere Beyond
  split
  · rename_i h
    rcases decodeCursor cursor with _ | p
    · simp
    · simp [Where.holds, h]
  · rename_i h
    exact iff_of_true rfl fun h' => absurd h' h

theorem selects_iff : (listWheres f).all (Where.holds ord r) = true ↔ Selected f r ∧ Beyond ord f.cursor r := by
  have hsince : (f.since.toList.map Where.since).all (Where.holds ord r) = true ↔ ∀ s ∈ f.since, s ≤ r.createdAt := by
    cases f.since <;> simp [Where.holds]
  have huntil : (f.untilTime.toList.map Where.untilTime).all (Where.holds ord r) = true ↔
      ∀ u ∈ f.untilTime, r.createdAt ≤ u := by
    cases f.untilTime <;> simp [Where.holds]
  simp only [listWheres, List.all_append, Bool.and_eq_true, all_textWhere, all_cursorWhere, hsince, huntil, Selected,
    Within, Column.get, and_assoc]

/-! ## A page -/

def matching (ord : IDOrder) (t : AuditEvents) (f : ListFilter) : List AuditRow :=
  (t.rows.filter fun r => Selected f r ∧ Beyond ord f.cursor r).insertionSort (NotEarlier ord)

def pageOf (limit : Nat) (rows : List AuditRow) : ListResult where
  events := (rows.take limit).map scan
  nextCursor :=
    match rows.drop limit, (rows.take limit).getLast? with
    | _ :: _, some last => encodeCursor last.createdAt last.id
    | _, _ => []

theorem clampLimit_pos (limit : Int) : 0 < clampLimit limit := by
  unfold clampLimit
  split <;> omega

theorem execute_eq (ord : IDOrder) (t : AuditEvents) (f : ListFilter) (n : Int) :
    execute ord t (listQuery f).conds (listQuery f).idx ((listQuery f).args ++ [.int n]) =
      some ((matching ord t f).take n.toNat) := by
  have h := resolves_listQuery f
  have hsel : (fun r => (listWheres f).all (Where.holds ord r)) = fun r => decide (Selected f r ∧ Beyond ord f.cursor r) := by
    funext r
    rw [Bool.eq_iff_iff, selects_iff, decide_eq_true_eq]
  rw [execute, h.conds, h.idx, placeholder_append]
  dsimp only
  rw [hsel]
  rfl

theorem list_eq (ord : IDOrder) (t : AuditEvents) (f : ListFilter) :
    list ord t f = some (pageOf (clampLimit f.limit).toNat (matching ord t f)) := by
  have hpos := clampLimit_pos f.limit
  rw [list]
  dsimp only
  rw [execute_eq]
  generalize matching ord t f = rows
  obtain ⟨m, hm⟩ : ∃ m : Nat, clampLimit f.limit = m + 1 := ⟨(clampLimit f.limit).toNat - 1, by omega⟩
  rw [hm, show ((m : Int) + 1 + 1).toNat = m + 2 by omega, show ((m : Int) + 1).toNat = m + 1 by omega]
  dsimp only
  rw [List.length_map, List.length_take, ← List.map_take, List.take_take, Nat.min_eq_left (Nat.le_succ (m + 1))]
  by_cases hmore : m + 1 < rows.length
  · -- there are more rows than the limit
    obtain ⟨x, xs, hdrop⟩ : ∃ x xs, rows.drop (m + 1) = x :: xs :=
      List.exists_cons_of_ne_nil (by rw [ne_eq, List.drop_eq_nil_iff]; omega)
    obtain ⟨last, hlast⟩ : ∃ last, (rows.take (m + 1)).getLast? = some last := by
      refine ⟨_, List.getLast?_eq_some_getLast ?_⟩
      rw [ne_eq, List.take_eq_nil_iff]
      rintro (h | rfl)
      · cases h
      · exact absurd hmore (Nat.not_lt_zero _)
    rw [if_pos (by omega), List.getLast?_map, hlast, pageOf, hdrop, hlast]
    rfl
  · have hdrop : rows.drop (m + 1) = [] := List.drop_eq_nil_of_le (by omega)
    rw [if_neg (by omega), pageOf, hdrop, List.take_of_length_le (show rows.length ≤ m + 2 by omega),
      List.take_of_length_le (show rows.length ≤ m + 1 by omega)]

/-! ## The order of the list -/

theorem later_irrefl (r : AuditRow) : ¬ Later ord r r := by
  rintro (h | ⟨-, h⟩)
  · omega
  · rw [ord.irrefl] at h
    cases h

theorem later_trans {a b c : AuditRow} (hab : Later ord a b) (hbc : Later ord b c) : Later ord a c := by
  rcases hab with hab | ⟨hab, hid⟩
  · rcases hbc with hbc | ⟨hbc, -⟩
    · exact .inl (by omega)
    · exact .inl (by omega)
  · rcases hbc with hbc | ⟨hbc, hid'⟩
    · exact .inl (by omega)
    · exact .inr ⟨by omega, ord.trans _ _ _ hid' hid⟩

theorem later_total {a b : AuditRow} (h : ¬ (a.createdAt = b.createdAt ∧ a.id = b.id)) : Later ord a b ∨ Later ord b a := by
  rcases Int.lt_trichotomy a.createdAt b.createdAt with hlt | heq | hgt
  · exact .inr (.inl hlt)
  · rcases ord.total a.id b.id fun hid => h ⟨heq, hid⟩ with hid | hid
    · exact .inr (.inr ⟨heq, hid⟩)
    · exact .inl (.inr ⟨heq.symm, hid⟩)
  · exact .inl (.inl hgt)

instance notEarlier_total : Std.Total (NotEarlier ord) where
  total a b := by
    by_cases h : a.createdAt = b.createdAt ∧ a.id = b.id
    · exact .inl (.inr h)
    · exact (later_total h).imp .inl .inl

instance notEarlier_trans : IsTrans AuditRow (NotEarlier ord) where
  trans a b c hab hbc := by
    rcases hab with hab | ⟨ht, hid⟩
    · rcases hbc with hbc | ⟨ht', hid'⟩
      · exact .inl (later_trans hab hbc)
      · left
        unfold Later at hab ⊢
        rwa [← ht', ← hid']
    · rcases hbc with hbc | ⟨ht', hid'⟩
      · left
        unfold Later at hbc ⊢
        rwa [ht, hid]
      · exact .inr ⟨ht.trans ht', hid.trans hid'⟩

theorem perm_matching (ord : IDOrder) (t : AuditEvents) (f : ListFilter) :
    (matching ord t f).Perm (t.rows.filter fun r => Selected f r ∧ Beyond ord f.cursor r) := List.perm_insertionSort ..

theorem pairwise_matching (ord : IDOrder) (t : AuditEvents) (f : ListFilter) : (matching ord t f).Pairwise (Later ord) := by
  have hids : ((matching ord t f).map AuditRow.id).Nodup :=
    (((perm_matching ord t f).map AuditRow.id).nodup_iff).mpr (t.pk.sublist (List.filter_sublist.map AuditRow.id))
  have hne : (matching ord t f).Pairwise fun a b => a.id ≠ b.id := List.pairwise_map.mp hids
  refine ((List.pairwise_insertionSort (NotEarlier ord) _).and hne).imp ?_
  rintro a b ⟨hab | ⟨-, hid⟩, hne⟩
  · exact hab
  · exact absurd hid hne

theorem matching_eq {rows : List AuditRow} (hord : rows.Pairwise (Later ord))
    (hperm : rows.Perm (t.rows.filter fun r => Selected f r ∧ Beyond ord f.cursor r)) : matching ord t f = rows := by
  refine List.Perm.eq_of_pairwise (fun a b _ _ hab hba => ?_) (pairwise_matching ord t f) hord
    ((perm_matching ord t f).trans hperm.symm)
  exact absurd (later_trans hab hba) (later_irrefl a)

/-! ## Cursors -/

theorem decode_encodeCursor {time : Int} (h : Time.FourDigitYear time) (id : Bytes) :
    decodeCursor (encodeCursor time id) = some (time, id) := by
  have hbar : bar ∉ Time.format time := by
    intro hmem
    rcases Time.plain_format time bar hmem with hdigit | hpunct
    · exact absurd hdigit (by decide)
    · exact absurd hpunct (by decide)
  rw [decodeCursor, encodeCursor, Base64.Encoding.decode_encode]
  dsimp only
  rw [Strings.cut_append hbar]
  dsimp only
  rw [Time.parse_format h]
  rfl

theorem encodeCursor_ne_nil (time : Int) (id : Bytes) : encodeCursor time id ≠ [] := by
  intro h
  exact absurd (Base64.Encoding.encode_eq_nil h) (List.append_ne_nil_of_right_ne_nil _ (List.cons_ne_nil _ _))

/-- The cursor of a row leads to the rows behind it. -/
theorem matching_after {pre post : List AuditRow} (hf : f.cursor = []) (hr : Time.FourDigitYear r.createdAt)
    (h : matching ord t f = pre ++ r :: post) :
    matching ord t { f with cursor := encodeCursor r.createdAt r.id } = post := by
  have hord := pairwise_matching ord t f
  rw [h, List.pairwise_append, List.pairwise_cons] at hord
  obtain ⟨-, ⟨hbehind, hpost⟩, hbefore⟩ := hord
  have hbeyond : ∀ x, Beyond ord (encodeCursor r.createdAt r.id) x ↔ Later ord r x := by
    intro x
    unfold Beyond
    rw [decode_encodeCursor hr]
    simp [encodeCursor_ne_nil, Later]
  have hall : ∀ x, Beyond ord f.cursor x := fun x hne => absurd hf hne
  -- what comes behind the row, of the whole list
  have hcut : (pre ++ r :: post).filter (fun x => Later ord r x) = post := by
    rw [List.filter_append, List.filter_cons_of_neg (by simpa using later_irrefl r), List.filter_eq_nil_iff.mpr,
      List.filter_eq_self.mpr, List.nil_append]
    · exact fun x hx => decide_eq_true (hbehind x hx)
    · intro x hx hlater
      exact later_irrefl x (later_trans (hbefore x hx r List.mem_cons_self) (of_decide_eq_true hlater))
  refine matching_eq hpost ?_
  rw [← hcut, ← h]
  refine ((perm_matching ord t f).filter _).trans (List.Perm.of_eq ?_)
  rw [List.filter_filter]
  refine List.filter_congr fun x _ => ?_
  rw [Bool.eq_iff_iff, Bool.and_eq_true, decide_eq_true_eq, decide_eq_true_eq, decide_eq_true_eq]
  show Later ord r x ∧ Selected f x ∧ Beyond ord f.cursor x ↔ Selected f x ∧ Beyond ord (encodeCursor r.createdAt r.id) x
  rw [hbeyond, and_iff_left (hall x), and_comm]

/-! ## All pages -/

/-- The pages from a cursor on, which leads to `rest`, are all of it. -/
theorem pages_from (hf : f.cursor = []) (ht : ∀ r ∈ t.rows, Time.FourDigitYear r.createdAt) {pre rest : List AuditRow}
    {cursor : Bytes} (hall : matching ord t f = pre ++ rest) (hrest : matching ord t { f with cursor } = rest) :
    ∃ results : List ListResult, (pager ord t f).Pages cursor (results.map some) ∧
      results.flatMap ListResult.events = rest.map scan := by
  induction hn : rest.length using Nat.strong_induction_on generalizing pre rest cursor with
  | _ n ih =>
    have hlimit : 0 < (clampLimit f.limit).toNat := by
      have := clampLimit_pos f.limit
      omega
    have hpage : (pager ord t f).page cursor = some (pageOf (clampLimit f.limit).toNat rest) := by
      show list ord t { f with cursor } = _
      rw [list_eq, hrest]
    generalize (clampLimit f.limit).toNat = limit at hlimit hpage
    rcases hdrop : rest.drop limit with _ | ⟨x, xs⟩
    · -- the last page
      have hlast : (pageOf limit rest).nextCursor = [] := by rw [pageOf, hdrop]
      have htake : rest.take limit = rest := List.take_of_length_le (List.drop_eq_nil_iff.mp hdrop)
      refine ⟨[pageOf limit rest], ?_, ?_⟩
      · have hnext : (pager ord t f).next ((pager ord t f).page cursor) = none := by
          rw [hpage]
          exact if_pos hlast
        rw [List.map_singleton, ← hpage, Pager.Pages, ← hnext]
        exact .here cursor
      · rw [List.flatMap_singleton, pageOf, htake]
    · have hne : rest.take limit ≠ [] := by
        rw [ne_eq, List.take_eq_nil_iff]
        rintro (h | rfl)
        · omega
        · rw [List.drop_nil] at hdrop
          cases hdrop
      obtain ⟨init, hinit⟩ := List.getLast?_eq_some_iff.mp (List.getLast?_eq_some_getLast hne)
      generalize (rest.take limit).getLast hne = last at hinit
      have hsplit : matching ord t f = (pre ++ init) ++ last :: rest.drop limit := by
        rw [hall, List.append_assoc]
        conv_lhs => rw [← List.take_append_drop limit rest, hinit]
        rw [List.append_assoc]
        rfl
      have hmem : last ∈ t.rows := by
        have hmatch : last ∈ matching ord t f := by
          rw [hsplit]
          exact List.mem_append_right _ List.mem_cons_self
        exact List.mem_of_mem_filter ((perm_matching ord t f).mem_iff.mp hmatch)
      have hcursor : (pageOf limit rest).nextCursor = encodeCursor last.createdAt last.id := by
        rw [pageOf, hdrop, hinit, List.getLast?_concat]
      have hafter := matching_after hf (ht last hmem) hsplit
      rw [List.append_cons] at hsplit
      obtain ⟨results, hpages, hevents⟩ := ih (rest.drop limit).length
        (by rw [← hn, List.length_drop]; have := congrArg List.length hdrop; simp at this; omega) hsplit hafter rfl
      refine ⟨pageOf limit rest :: results, ?_, ?_⟩
      · have hnext : (pager ord t f).next ((pager ord t f).page cursor) = some (encodeCursor last.createdAt last.id) := by
          rw [hpage]
          show (if (pageOf limit rest).nextCursor = [] then none else some (pageOf limit rest).nextCursor) = _
          rw [hcursor, if_neg (encodeCursor_ne_nil _ _)]
        rw [List.map_cons, ← hpage]
        exact .on hnext hpages
      · rw [List.flatMap_cons, hevents, pageOf, ← List.map_append, List.take_append_drop]

/-- For every table with instants of the years 0 to 9999, every filter without a cursor and every limit:
the cursor of every row is read back, and the pages from the first on end and have each selected row
once, in the order of the list. -/
theorem list_pages (ord : IDOrder) (t : AuditEvents) (f : ListFilter)
    (ht : ∀ r ∈ t.rows, Time.FourDigitYear r.createdAt) (hf : f.cursor = []) :
    (∀ r ∈ t.rows, decodeCursor (encodeCursor r.createdAt r.id) = some (r.createdAt, r.id)) ∧
      ∃ (results : List ListResult) (rows : List AuditRow), (pager ord t f).Pages [] (results.map some) ∧
        results.flatMap ListResult.events = rows.map scan ∧
        rows.Perm (t.rows.filter fun r => Selected f r) ∧ rows.Pairwise (Later ord) := by
  have hself : { f with cursor := [] } = f := by rw [← hf]
  have hfirst : matching ord t { f with cursor := [] } = matching ord t f := by rw [hself]
  obtain ⟨results, hpages, hevents⟩ := pages_from hf ht (List.nil_append _).symm hfirst
  refine ⟨fun r hr => decode_encodeCursor (ht r hr) r.id, results, matching ord t f, hpages, hevents, ?_,
    pairwise_matching ord t f⟩
  refine (perm_matching ord t f).trans (List.Perm.of_eq (List.filter_congr fun r _ => ?_))
  have hall : Beyond ord f.cursor r := fun hne => absurd hf hne
  rw [decide_eq_decide, and_iff_left hall]

def exampleRow (id actor : Bytes) (createdAt : Int) : AuditRow :=
  ⟨id, actor, utf8 "delete", utf8 "user", utf8 "1", utf8 "tenant", utf8 "t", none, none, none, createdAt⟩

def exampleEvents : AuditEvents :=
  ⟨[exampleRow [1] [7] 1000, exampleRow [2] [7] 1000, exampleRow [3] [8] 2000, exampleRow [4, bar] [7] 500], by decide⟩

theorem list_pages_three :
    ∃ (results : List ListResult) (rows : List AuditRow),
      (pager .bytes exampleEvents { actor := [7], limit := 1 }).Pages [] (results.map some) ∧
        results.flatMap ListResult.events = rows.map scan ∧
        rows.Perm [exampleRow [1] [7] 1000, exampleRow [2] [7] 1000, exampleRow [4, bar] [7] 500] ∧
        rows.Pairwise (Later .bytes) :=
  (list_pages .bytes exampleEvents { actor := [7], limit := 1 } (by decide) rfl).2

/-! ## What a page may have -/

theorem meets_scan : Meets f (scan r) ↔ Selected f r ∧ f.service = [] ∧ f.requestID = [] := by
  have hempty : ∀ value, IfSet value [] ↔ value = [] := by
    intro value
    unfold IfSet
    refine ⟨fun h => ?_, fun h hne => absurd h hne⟩
    by_contra hne
    exact hne (h hne).symm
  show IfSet f.scopeType r.scopeType ∧ IfSet f.scopeID r.scopeID ∧ IfSet f.service [] ∧ IfSet f.actor r.actor ∧
    IfSet f.action r.action ∧ IfSet f.targetType r.targetType ∧ IfSet f.targetID r.targetID ∧ IfSet f.requestID [] ∧
    Within f.since f.untilTime r.createdAt ↔ _
  rw [hempty, hempty]
  unfold Selected
  tauto

/-- For every table and filter: the listing succeeds, and each event meets every condition that the
filter sets, exactly when it sets neither `Service` nor `RequestID`, or no row behind its cursor meets
the others. -/
theorem list_sound_iff :
    (∃ result, list ord t f = some result ∧ ∀ e ∈ result.events, Meets f e) ↔
      f.service = [] ∧ f.requestID = [] ∨ ∀ r ∈ t.rows, ¬ (Selected f r ∧ Beyond ord f.cursor r) := by
  have hmem : ∀ r, r ∈ matching ord t f ↔ r ∈ t.rows ∧ Selected f r ∧ Beyond ord f.cursor r := by
    intro r
    rw [(perm_matching ord t f).mem_iff, List.mem_filter, decide_eq_true_eq]
  rw [list_eq]
  constructor
  · rintro ⟨_, ⟨⟩, hsound⟩
    rcases hrows : matching ord t f with _ | ⟨r, rows⟩
    · refine .inr fun r hr hsel => ?_
      have := (hmem r).mpr ⟨hr, hsel⟩
      rw [hrows] at this
      exact absurd this List.not_mem_nil
    · -- the first row is on the page, whatever the limit
      have hpos := clampLimit_pos f.limit
      obtain ⟨m, hm⟩ : ∃ m, (clampLimit f.limit).toNat = m + 1 := ⟨(clampLimit f.limit).toNat - 1, by omega⟩
      have hfirst : scan r ∈ (pageOf (clampLimit f.limit).toNat (matching ord t f)).events := by
        rw [hrows, hm]
        exact List.mem_map_of_mem List.mem_cons_self
      exact .inl (meets_scan.mp (hsound _ hfirst)).2
  · intro h
    refine ⟨_, rfl, fun e he => ?_⟩
    obtain ⟨r, hr, rfl⟩ := List.mem_map.mp he
    obtain ⟨hrow, hsel⟩ := (hmem r).mp (List.mem_of_mem_take hr)
    rcases h with hnone | hnone
    · exact meets_scan.mpr ⟨hsel.1, hnone⟩
    · exact absurd hsel (hnone r hrow)

/-- A filter that sets a service lists an event that has none. -/
theorem list_ignores_service :
    ∃ e ∈ (list .bytes exampleEvents { service := utf8 "authn", actor := [8] }).elim [] ListResult.events,
      ¬ Meets { service := utf8 "authn", actor := [8] } e :=
  ⟨scan (exampleRow [3] [8] 2000), by decide +kernel, by decide +kernel⟩

end Csar.Proof.Audit
