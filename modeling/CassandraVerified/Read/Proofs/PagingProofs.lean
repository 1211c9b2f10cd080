import CassandraVerified.Read.Paging
import CassandraVerified.Read.Proofs.BoundsProofs

/-!
# What the pages of a query hold

A page holds the next rows behind the pager's mark. Behind the mark of a row come the rows that
follow it, unless the row has an empty clustering key and is not the last of its partition, or the
bytes of the paging state cut something off.
-/

namespace CassandraVerified.Read

open List Storage PlacedRow

variable {r : PlacedRow} {partitions : List PartitionResult}

variable {pk m : Bytes} {rows : List Row} {r' : PlacedRow} {p : PartitionResult}

namespace PlacedRow

def marker (r : PlacedRow) : Marker := .ofRow r.partitionKey r.row r.rest

def pair (r : PlacedRow) : Bytes × Row := (r.partitionKey, r.row)

/-- The mark of a row, as a pager keeps it. -/
def mark (r : PlacedRow) : Bytes × Bytes := (r.marker.partitionKey, r.marker.rowMark)

end PlacedRow

attribute [local simp] placedRows

@[simp] theorem length_placedRows (pk : Bytes) (rows : List Row) :
    (placedRows pk rows).length = rows.length := by
  induction rows with
  | nil => rfl
  | cons row rows ih => simp [ih]

theorem placedRows_drop (pk : Bytes) (rows : List Row) (n : Nat) :
    placedRows pk (rows.drop n) = (placedRows pk rows).drop n := by
  induction rows generalizing n with
  | nil => simp
  | cons row rows ih => cases n <;> simp [ih]

theorem map_pair_placedRows (pk : Bytes) (rows : List Row) :
    (placedRows pk rows).map pair = rows.map fun row => (pk, row) := by
  induction rows with
  | nil => rfl
  | cons row rows ih => simp [pair, ih]

theorem map_row_placedRows (pk : Bytes) (rows : List Row) :
    (placedRows pk rows).map row = rows := by
  induction rows with
  | nil => rfl
  | cons row rows ih => simp [ih]

theorem partitionKey_of_mem_placedRows (h : r ∈ placedRows pk rows) : r.partitionKey = pk := by
  induction rows with
  | nil => simp at h
  | cons row rows ih =>
    rcases mem_cons.mp h with rfl | h
    · rfl
    · exact ih h

theorem map_pair_resultRows (partitions : List PartitionResult) :
    (resultRows partitions).map pair = rowsOf partitions := by
  simp only [resultRows, rowsOf, map_flatMap]
  congr 1
  funext p
  cases p.data with
  | none => rfl
  | some data => exact map_pair_placedRows _ _

theorem length_resultRows (partitions : List PartitionResult) :
    (resultRows partitions).length = (rowsOf partitions).length := by
  rw [← map_pair_resultRows, length_map]

/-- The rows of a partition behind a mark. -/
def resumedIn (startAfter : Option (Bytes × Bytes)) (p : PartitionResult) : List PlacedRow :=
  match p.data, resumeRowIndex p startAfter with
  | some data, some startIdx => placedRows p.partitionKey (data.rowList.drop startIdx)
  | _, _ => []

def resumedRows (partitions : List PartitionResult) (startAfter : Option (Bytes × Bytes)) :
    List PlacedRow :=
  partitions.flatMap (resumedIn startAfter)

/-- The loop has gone from `s` to `t` over the rows `l`, as far as the budget lasts. -/
structure PageRun.Adds (s : PageRun) (l : List PlacedRow) (t : PageRun) : Prop where
  budget : t.budget = s.budget - l.length
  rowsReturned : t.rowsReturned = s.rowsReturned + (l.take s.budget).length
  lastMarker : t.lastMarker = ((l.take s.budget).getLast?.map marker).or s.lastMarker
  output : rowsOf t.output = rowsOf s.output ++ (l.take s.budget).map pair

namespace PageRun.Adds

variable {s t u : PageRun} {l l' : List PlacedRow}

theorem nil (s : PageRun) : s.Adds [] s := ⟨by simp, by simp, by simp, by simp⟩

theorem append (h : s.Adds l t) (h' : t.Adds l' u) : s.Adds (l ++ l') u where
  budget := by
    rw [h'.budget, h.budget, length_append]
    omega
  rowsReturned := by
    rw [h'.rowsReturned, h.rowsReturned, h.budget, take_append, length_append]
    omega
  lastMarker := by
    rw [h'.lastMarker, h.lastMarker, h.budget, take_append, List.getLast?_append,
      Option.map_or, Option.or_assoc]
  output := by
    rw [h'.output, h.output, h.budget, take_append, map_append, append_assoc]

end PageRun.Adds

theorem addRows_eq (pk : Bytes) (rows : List Row) (s : PartitionRun) : addRows pk rows s =
      { budget := s.budget - rows.length
        output := s.output
        rowsReturned := s.rowsReturned + min s.budget rows.length
        lastMarker := (((placedRows pk rows).take s.budget).getLast?.map marker).or s.lastMarker
        pageData := (rows.take s.budget).foldl .applyRow s.pageData
        rowsInPartition := s.rowsInPartition + min s.budget rows.length } := by
  induction rows generalizing s with
  | nil => simp [addRows]
  | cons row rows ih =>
    rcases hb : s.budget with _ | b
    · obtain ⟨⟨budget, output, returned, marker⟩, data, count⟩ := s
      obtain rfl : budget = 0 := hb
      simp [addRows]
    · have hmarker : Marker.ofRow pk row rows = marker ⟨pk, row, rows⟩ := rfl
      simp only [addRows, hb, Nat.add_eq_zero_iff, one_ne_zero, and_false, if_false, ih]
      simp only [placedRows, take_succ_cons, List.getLast?_cons, length_cons, hmarker,
        foldl_cons, Nat.add_sub_cancel, PartitionRun.mk.injEq, PageRun.mk.injEq]
      refine ⟨⟨by omega, trivial, by omega, ?_⟩, trivial, by omega⟩
      cases ((placedRows pk rows).take b).getLast? <;> rfl

theorem size_eq_length_rowList (data : PartitionData) : data.rows.size = data.rowList.length := by
  rw [← Std.ExtTreeMap.length_toList, data.rows_toList, length_map]

theorem keys_eq_map_rowList (data : PartitionData) :
    data.rows.keys = data.rowList.map Row.clusteringKey := by
  rw [← Std.ExtTreeMap.map_fst_toList_eq_keys, data.rows_toList, map_map]
  rfl

/-- One partition: its rows behind the mark are added. -/
theorem adds_addPartition (startAfter : Option (Bytes × Bytes)) (s : PageRun)
    (p : PartitionResult) :
    s.Adds (resumedIn startAfter p) (addPartition startAfter s p) := by
  by_cases hbudget : s.budget = 0
  · rw [addPartition, if_pos hbudget]
    exact ⟨by simp [hbudget], by simp [hbudget], by simp [hbudget], by simp [hbudget]⟩
  rw [addPartition, if_neg hbudget, resumedIn]
  rcases hdata : p.data with _ | data
  · exact .nil s
  rcases hidx : resumeRowIndex p startAfter with _ | startIdx
  · exact .nil s
  simp only [size_eq_length_rowList]
  by_cases hend : data.rowList.length ≤ startIdx
  · rw [if_pos hend, drop_eq_nil_of_le hend]
    exact .nil s
  have hpos : 0 < min s.budget (data.rowList.drop startIdx).length := by
    rw [length_drop]
    omega
  have hsorted : ClusteringSorted ((data.rowList.drop startIdx).take s.budget) :=
    data.sorted_rowList.sublist ((take_sublist _ _).trans (drop_sublist _ _))
  have hrows : (((data.rowList.drop startIdx).take s.budget).foldl .applyRow
      (copyTombstone data)).rowList = (data.rowList.drop startIdx).take s.budget := by
    have hempty := PartitionData.rowList_of_no_rows (copyTombstone_eq data).1
    have := PartitionData.rowList_foldl_applyRow (p := copyTombstone data) (by rwa [hempty])
    rwa [hempty] at this
  rw [if_neg (by omega), addRows_eq, if_pos (by simpa using hpos)]
  refine ⟨by simp, by simp, rfl, ?_⟩
  simp [rowsOf, hrows, map_pair_placedRows]

theorem adds_foldl_addPartition (startAfter : Option (Bytes × Bytes))
    (partitions : List PartitionResult) (s : PageRun) :
    s.Adds (resumedRows partitions startAfter) (partitions.foldl (addPartition startAfter) s) := by
  induction partitions generalizing s with
  | nil => exact .nil s
  | cons p ps ih => exact (adds_addPartition startAfter s p).append (ih _)

def QueryPager.taken (pager : QueryPager) : List PlacedRow :=
  (resumedRows pager.partitions pager.startAfter).take (min pager.pageSize pager.remaining)

/-- The paging state of a page that ends with row `r`, with `left` rows still to come. -/
def PlacedRow.state (r : PlacedRow) (left : Nat) : PagingState where
  partitionKey := r.mark.1
  rowMark := r.mark.2
  remaining := .ofNat (min left (2 ^ 32 - 1))
  remainingInPartition := if r.rest.isEmpty then 0 else .ofNat r.rest.length

namespace QueryPager

variable {pager : QueryPager}

theorem taken_of_remaining_eq_zero (h : pager.remaining = 0) : pager.taken = [] := by
  simp [taken, h]

theorem length_taken_le (pager : QueryPager) : pager.taken.length ≤ pager.remaining := by
  rw [taken, length_take]
  omega

section

variable (hsize : 0 < pager.pageSize)

include hsize

/-- The loop of a page takes the rows of the page. -/
theorem adds_taken (hrem : pager.remaining ≠ 0) :
    ∃ run, pager.partitions.foldl (addPartition pager.startAfter)
        { budget := if min pager.pageSize pager.remaining = 0 then pager.remaining
            else min pager.pageSize pager.remaining
          output := [], rowsReturned := 0, lastMarker := none } = run ∧
      run.rowsReturned = pager.taken.length ∧
      run.lastMarker = pager.taken.getLast?.map marker ∧
      rowsOf run.output = pager.taken.map pair := by
  have hbudget : min pager.pageSize pager.remaining ≠ 0 := by omega
  rw [if_neg hbudget]
  have hadds := adds_foldl_addPartition pager.startAfter pager.partitions
    ⟨min pager.pageSize pager.remaining, [], 0, none⟩
  refine ⟨_, rfl, ?_, ?_, ?_⟩
  · simpa [taken] using hadds.rowsReturned
  · simpa [taken] using hadds.lastMarker
  · simpa [taken, rowsOf] using hadds.output

theorem rowsOf_nextPage : rowsOf pager.nextPage.1.partitions = pager.taken.map pair := by
  by_cases hrem : pager.remaining = 0
  · simp [nextPage, hrem, taken_of_remaining_eq_zero, rowsOf]
  obtain ⟨run, hrun, -, -, houtput⟩ := adds_taken hsize hrem
  rw [nextPage, if_neg hrem]
  simp only [hrun]
  split
  · split <;> exact houtput
  · exact houtput

theorem nextPage_ends (h : pager.remaining ≤ pager.taken.length ∨ pager.taken = []) :
    pager.nextPage.1.pagingState = none := by
  by_cases hrem : pager.remaining = 0
  · simp [nextPage, hrem]
  obtain ⟨run, hrun, hreturned, hmarker, -⟩ := adds_taken hsize hrem
  rw [nextPage, if_neg hrem]
  simp only [hrun]
  split
  · next marker hsome =>
    have hdone : pager.remaining - run.rowsReturned = 0 := by
      rcases h with h | h
      · omega
      · simp [h, hsome] at hmarker
    rw [if_pos hdone]
  · rfl

theorem nextPage_continues (hlast : pager.taken.getLast? = some r)
    (hmore : pager.taken.length < pager.remaining) :
    pager.nextPage.1.pagingState = some (r.state (pager.remaining - pager.taken.length)) ∧
      pager.nextPage.2 =
        { pager with
          remaining := pager.remaining - pager.taken.length
          startAfter := some r.mark } := by
  have hrem : pager.remaining ≠ 0 := by omega
  obtain ⟨run, hrun, hreturned, hmarker, -⟩ := adds_taken hsize hrem
  rw [hlast, Option.map_some] at hmarker
  have hleft : pager.remaining - pager.taken.length ≠ 0 := by omega
  rw [nextPage, if_neg hrem]
  simp only [hrun, hmarker, hreturned, if_neg hleft]
  exact ⟨rfl, rfl⟩

end

end QueryPager

def PlacedRow.Before (r r' : PlacedRow) : Prop := compare r.partitionKey r'.partitionKey = .lt ∨
    r.partitionKey = r'.partitionKey ∧ compare r.row.clusteringKey r'.row.clusteringKey = .lt

theorem PlacedRow.Before.asymm (h : r.Before r') (h' : r'.Before r) : False := by
  have hself : ∀ k : Bytes, compare k k ≠ .lt := fun k => by simp [Std.ReflCmp.compare_self]
  rcases h with h | ⟨heq, h⟩ <;> rcases h' with h' | ⟨heq', h'⟩
  · exact hself _ (Std.TransCmp.lt_trans h h')
  · exact hself _ (heq' ▸ h)
  · exact hself _ (heq ▸ h')
  · exact hself _ (Std.TransCmp.lt_trans h h')

theorem pairwise_placedRows (pk : Bytes) (h : ClusteringSorted rows) :
    (placedRows pk rows).Pairwise PlacedRow.Before := by
  induction rows with
  | nil => exact .nil
  | cons row rows ih =>
    obtain ⟨hrow, hrows⟩ := pairwise_cons.mp h
    refine .cons (fun r hr => .inr ⟨(partitionKey_of_mem_placedRows hr).symm, ?_⟩) (ih hrows)
    have hmem : r.row ∈ (placedRows pk rows).map PlacedRow.row := mem_map_of_mem hr
    exact hrow _ (map_row_placedRows pk rows ▸ hmem)

theorem resultRows_cons (p : PartitionResult) (ps : List PartitionResult) : resultRows (p :: ps) =
      (p.data.elim [] fun data => placedRows p.partitionKey data.rowList) ++ resultRows ps := rfl

theorem exists_of_mem_resultRows
    (h : r ∈ resultRows partitions) : ∃ p ∈ partitions, r.partitionKey = p.partitionKey := by
  obtain ⟨p, hp, hr⟩ := mem_flatMap.mp h
  refine ⟨p, hp, ?_⟩
  cases hdata : p.data with
  | none => simp [hdata] at hr
  | some data => exact partitionKey_of_mem_placedRows (by simpa [hdata] using hr)

theorem pairwise_resultRows
    (h : PartitionsSorted partitions) : (resultRows partitions).Pairwise PlacedRow.Before := by
  induction partitions with
  | nil => exact .nil
  | cons p ps ih =>
    obtain ⟨hp, hps⟩ := pairwise_cons.mp h
    rw [resultRows_cons]
    cases p.data with
    | none => exact ih hps
    | some data =>
      refine pairwise_append.mpr ⟨pairwise_placedRows _ data.sorted_rowList, ih hps, ?_⟩
      intro r hr r' hr'
      obtain ⟨q, hq, hkey⟩ := exists_of_mem_resultRows hr'
      exact .inl (by rw [partitionKey_of_mem_placedRows hr, hkey]; exact hp q hq)

theorem resumedRows_sublist (partitions : List PartitionResult)
    (startAfter : Option (Bytes × Bytes)) :
    (resumedRows partitions startAfter).Sublist (resultRows partitions) := by
  induction partitions with
  | nil => exact .slnil
  | cons p ps ih =>
    refine List.Sublist.append ?_ ih
    simp only [resumedIn]
    cases p.data with
    | none => exact nil_sublist _
    | some data =>
      cases resumeRowIndex p startAfter with
      | none => exact nil_sublist _
      | some startIdx =>
        simp only [placedRows_drop]
        exact drop_sublist _ _

theorem resumedRows_none (partitions : List PartitionResult) :
    resumedRows partitions none = resultRows partitions := by
  rw [resumedRows, resultRows]
  congr 1
  funext p
  rw [resumedIn, resumeRowIndex]
  cases p.data <;> rfl

theorem exists_of_getElem?_placedRows {i : Nat} (h : (placedRows pk rows)[i]? = some r) :
    r.partitionKey = pk ∧ ∃ rows₁, rows = rows₁ ++ r.row :: r.rest ∧ rows₁.length = i := by
  induction rows generalizing i with
  | nil => simp at h
  | cons row rows ih =>
    cases i with
    | zero =>
      obtain rfl : ⟨pk, row, rows⟩ = r := by simpa using h
      exact ⟨rfl, [], rfl, rfl⟩
    | succ i =>
      obtain ⟨hpk, rows₁, hrows, hlen⟩ := ih (by simpa using h)
      exact ⟨hpk, row :: rows₁, by rw [hrows]; rfl, by rw [length_cons, hlen]⟩

/-- Where a row stands in the result: partitions `before` it and `after` it, and rows before it in
its own. -/
structure PlacedAt (partitions : List PartitionResult) (d : Nat) (r : PlacedRow) where
  before : List PartitionResult
  partition : PartitionResult
  after : List PartitionResult
  data : PartitionData
  rows : List Row
  partitions_eq : partitions = before ++ partition :: after
  data_eq : partition.data = some data
  rowList_eq : data.rowList = rows ++ r.row :: r.rest
  key_eq : partition.partitionKey = r.partitionKey
  index_eq : (resultRows before).length + rows.length = d

theorem exists_placedAt {d : Nat}
    (h : (resultRows partitions)[d]? = some r) : Nonempty (PlacedAt partitions d r) := by
  induction partitions generalizing d with
  | nil => simp [resultRows] at h
  | cons p ps ih =>
    rw [resultRows_cons] at h
    -- the row is behind the first partition, unless that has data and is long enough
    have hrest : ∀ l, (p.data.elim [] fun data => placedRows p.partitionKey data.rowList) = l →
        l.length ≤ d → Nonempty (PlacedAt (p :: ps) d r) := by
      intro l hl hle
      rw [hl, List.getElem?_append_right hle] at h
      obtain ⟨at'⟩ := ih h
      exact ⟨⟨p :: at'.before, at'.partition, at'.after, at'.data, at'.rows,
        by rw [cons_append, ← at'.partitions_eq], at'.data_eq, at'.rowList_eq, at'.key_eq,
        by rw [resultRows_cons, hl, length_append, Nat.add_assoc, at'.index_eq]; omega⟩⟩
    cases hdata : p.data with
    | none => exact hrest [] (by simp [hdata]) (Nat.zero_le d)
    | some data =>
      by_cases hle : (placedRows p.partitionKey data.rowList).length ≤ d
      · exact hrest _ (by simp [hdata]) hle
      · rw [hdata, Option.elim_some, List.getElem?_append_left (by omega)] at h
        obtain ⟨hpk, rows₁, hrows, hlen⟩ := exists_of_getElem?_placedRows h
        exact ⟨⟨[], p, ps, data, rows₁, rfl, hdata, hrows, hpk.symm, by simp [resultRows, hlen]⟩⟩

theorem indexAfter_of_notMem {cks : List Bytes} (h : m ∉ cks) (idx : Nat) :
    indexAfter m idx cks = 0 := by
  induction cks generalizing idx with
  | nil => rfl
  | cons ck cks ih =>
    obtain ⟨hne, hnot⟩ := not_or.mp (fun hmem => h (mem_cons.mpr hmem))
    rw [indexAfter, if_neg (Ne.symm hne), ih hnot]

theorem indexAfter_append {cks₁ : List Bytes} (h : m ∉ cks₁) (cks₂ : List Bytes) (idx : Nat) :
    indexAfter m idx (cks₁ ++ m :: cks₂) = idx + cks₁.length + 1 := by
  induction cks₁ generalizing idx with
  | nil => simp [indexAfter]
  | cons ck cks ih =>
    obtain ⟨hne, hnot⟩ := not_or.mp (fun hmem => h (mem_cons.mpr hmem))
    rw [cons_append, indexAfter, if_neg (Ne.symm hne), ih hnot, length_cons]
    omega

theorem resumedIn_of_lt (h : compare p.partitionKey pk = .lt) :
    resumedIn (some (pk, m)) p = [] := by
  rw [resumedIn, resumeRowIndex]
  cases p.data with
  | none => rfl
  | some data => simp [h]

theorem resumedIn_of_gt (h : compare pk p.partitionKey = .lt) : resumedIn (some (pk, m)) p =
      p.data.elim [] fun data => placedRows p.partitionKey data.rowList := by
  rw [resumedIn, resumeRowIndex]
  cases p.data with
  | none => rfl
  | some data => simp [Std.OrientedCmp.gt_of_lt h]

theorem resumedIn_self {data : PartitionData} (hdata : p.data = some data) (m : Bytes) :
    resumedIn (some (p.partitionKey, m)) p =
      if m = [] then []
      else placedRows p.partitionKey
        (data.rowList.drop (indexAfter m 0 (data.rowList.map Row.clusteringKey))) := by
  rw [resumedIn, resumeRowIndex, hdata]
  simp only [Option.bind_some, Std.ReflCmp.compare_self, size_eq_length_rowList,
    keys_eq_map_rowList, List.isEmpty_iff]
  by_cases hm : m = []
  · simp [hm]
  · simp [hm]

namespace PlacedAt

variable {d : Nat}

section

variable (place : PlacedAt partitions d r)

include place

section

variable (hsorted : PartitionsSorted partitions)

include hsorted

theorem before_lt : ∀ p ∈ place.before, compare p.partitionKey r.partitionKey = .lt := by
  intro p hp
  rw [PartitionsSorted, place.partitions_eq] at hsorted
  exact place.key_eq ▸ (pairwise_append.mp hsorted).2.2 p hp _ mem_cons_self

theorem lt_after : ∀ p ∈ place.after, compare r.partitionKey p.partitionKey = .lt := by
  intro p hp
  rw [PartitionsSorted, place.partitions_eq] at hsorted
  exact place.key_eq ▸ (pairwise_cons.mp (pairwise_append.mp hsorted).2.1).1 p hp

theorem resumedRows_key (m : Bytes) :
    resumedRows partitions (some (r.partitionKey, m)) =
      resumedIn (some (r.partitionKey, m)) place.partition ++ resultRows place.after := by
  have hbefore : place.before.flatMap (resumedIn (some (r.partitionKey, m))) = [] :=
    flatMap_eq_nil_iff.mpr fun p hp => resumedIn_of_lt (place.before_lt hsorted p hp)
  have hafter : place.after.flatMap (resumedIn (some (r.partitionKey, m))) =
      resultRows place.after :=
    flatMap_congr fun p hp => resumedIn_of_gt (place.lt_after hsorted p hp)
  conv_lhs => rw [resumedRows, place.partitions_eq]
  rw [flatMap_append, flatMap_cons, hbefore, hafter, nil_append]

end

theorem clusteringKey_lt :
    ∀ row ∈ place.rows, compare row.clusteringKey r.row.clusteringKey = .lt := by
  intro row hrow
  have hsorted := place.data.sorted_rowList
  rw [ClusteringSorted, place.rowList_eq] at hsorted
  exact (pairwise_append.mp hsorted).2.2 row hrow _ mem_cons_self

theorem indexAfter_mark :
    indexAfter r.row.clusteringKey 0 (place.data.rowList.map Row.clusteringKey) =
      place.rows.length + 1 := by
  have hnot : r.row.clusteringKey ∉ place.rows.map Row.clusteringKey := by
    intro hmem
    obtain ⟨row, hrow, heq⟩ := mem_map.mp hmem
    have hlt := place.clusteringKey_lt row hrow
    simp [heq, Std.ReflCmp.compare_self] at hlt
  rw [place.rowList_eq, map_append, map_cons, indexAfter_append hnot, length_map]
  omega

theorem drop_resultRows : (resultRows partitions).drop (d + 1) =
      placedRows r.partitionKey r.rest ++ resultRows place.after := by
  have hdrop : (placedRows place.partition.partitionKey place.data.rowList).drop
      (place.rows.length + 1) = placedRows r.partitionKey r.rest := by
    rw [← placedRows_drop, place.rowList_eq, place.key_eq, drop_append,
      drop_eq_nil_of_le (by omega), nil_append]
    simp
  have hlen : place.rows.length + 1 ≤
      (placedRows place.partition.partitionKey place.data.rowList).length := by
    rw [length_placedRows, place.rowList_eq, length_append, length_cons]
    omega
  have happend ps qs : resultRows (ps ++ qs) = resultRows ps ++ resultRows qs := flatMap_append
  conv_lhs => rw [place.partitions_eq, happend, resultRows_cons, place.data_eq]
  have hindex : d + 1 = (resultRows place.before).length + (place.rows.length + 1) := by
    rw [← Nat.add_assoc, place.index_eq]
  rw [hindex, drop_append, drop_eq_nil_of_le (by omega), nil_append,
    Nat.add_sub_cancel_left, Option.elim_some, drop_append_of_le_length hlen, hdrop]

theorem resumedRows_mark (hsorted : PartitionsSorted partitions)
    (hmarked : r.rest ≠ [] → r.row.clusteringKey ≠ []) :
    resumedRows partitions (some r.mark) = (resultRows partitions).drop (d + 1) := by
  have hself := resumedIn_self place.data_eq r.mark.2
  rw [place.key_eq] at hself
  rw [place.drop_resultRows]
  refine (place.resumedRows_key hsorted r.mark.2).trans ?_
  rw [hself]
  cases hrest : r.rest with
  | nil => simp [mark, marker, Marker.ofRow, hrest]
  | cons row rest =>
    have hck : r.row.clusteringKey ≠ [] := hmarked (by simp [hrest])
    have hmark : r.mark.2 = r.row.clusteringKey := by
      simp [mark, marker, Marker.ofRow, hrest]
    rw [hmark, if_neg hck, place.indexAfter_mark, place.rowList_eq, drop_append,
      drop_eq_nil_of_le (by omega), hrest]
    simp

theorem partitionKey_next (hrest : r.rest ≠ [])
    (hnext : (resultRows partitions)[d + 1]? = some r') :
    r'.partitionKey = r.partitionKey := by
  obtain ⟨row, rest, hcons⟩ := exists_cons_of_ne_nil hrest
  have hhead : ((resultRows partitions).drop (d + 1))[0]? = some r' := by simpa using hnext
  rw [place.drop_resultRows, hcons, placedRows] at hhead
  obtain rfl := Option.some_inj.mp hhead
  rfl

theorem notMem_resumedRows_nil (hsorted : PartitionsSorted partitions)
    (hmem : r' ∈ resumedRows partitions (some (r.partitionKey, []))) :
    r'.partitionKey ≠ r.partitionKey := by
  have hself := resumedIn_self place.data_eq []
  rw [place.key_eq] at hself
  rw [place.resumedRows_key hsorted, hself, if_pos rfl, nil_append] at hmem
  obtain ⟨p, hp, hkey⟩ := exists_of_mem_resultRows hmem
  have hlt := place.lt_after hsorted p hp
  intro heq
  rw [← hkey, heq] at hlt
  simp [Std.ReflCmp.compare_self] at hlt

end

end PlacedAt

end CassandraVerified.Read
