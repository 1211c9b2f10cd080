import CassandraVerified.Read.Proofs.PagingProofs

/-!
# Whole queries, page by page

The rows behind a pager are what is left of the result, as long as every page so far ended with a
row that the query can go on from. At the first page that does not, the pager goes on elsewhere, or
with too few rows left.
-/

namespace CassandraVerified.Read

open List Storage PlacedRow QueryPager

variable {r : PlacedRow}

/-! ## The paging state on the wire -/

namespace PagingState

variable {state state' : PagingState}

theorem deserialize_serialize (hkey : state.partitionKey.length < 2 ^ 32)
    (hmark : state.rowMark.length < 2 ^ 32) : deserialize state.serialize = some state := by
  have hlen : 16 ≤ state.serialize.length := by
    simp only [serialize, length_append, Wire.length_beBytes]
    omega
  have hremaining : state.remaining.toNat < 256 ^ 4 := state.remaining.toNat_lt
  have hpartition : state.remainingInPartition.toNat < 256 ^ 4 :=
    state.remainingInPartition.toNat_lt
  have hlast := Wire.readBe_beBytes_of_lt hpartition []
  rw [append_nil] at hlast
  rw [deserialize]
  simp only [hlen, guard, if_pos]
  simp [serialize, Wire.readBe_beBytes_of_lt (show _ < 256 ^ 4 from hkey),
    Wire.readBe_beBytes_of_lt (show _ < 256 ^ 4 from hmark),
    Wire.readBe_beBytes_of_lt hremaining, hlast, Wire.take_append rfl]

theorem take_cut {bs rest read rest' : Bytes} {len : Nat} {data : Bytes}
    (hlen : Wire.readBe 4 (Wire.beBytes 4 bs.length ++ (bs ++ rest)) = some (len, data))
    (htake : Wire.take len data = some (read, rest')) :
    read = bs.take (bs.length % 2 ^ 32) ∧ (bs.length < 2 ^ 32 → rest' = rest) := by
  rw [Wire.readBe_beBytes] at hlen
  obtain ⟨rfl, rfl⟩ : bs.length % 2 ^ 32 = len ∧ bs ++ rest = data := by simpa using hlen
  obtain ⟨happ, hread⟩ := Wire.take_eq_some.mp htake
  have hle : bs.length % 2 ^ 32 ≤ bs.length := Nat.mod_le _ _
  have htaken : read = bs.take (bs.length % 2 ^ 32) := by
    have htake : (bs ++ rest).take (bs.length % 2 ^ 32) = bs.take (bs.length % 2 ^ 32) :=
      take_append_of_le_length hle
    rw [← htake, happ, ← hread, take_left]
  refine ⟨htaken, fun hlt => ?_⟩
  rw [Nat.mod_eq_of_lt hlt, take_length] at htaken
  exact (append_cancel_left (htaken ▸ happ)).symm

theorem deserialize_cut (h : deserialize state.serialize = some state') :
    state'.partitionKey = state.partitionKey.take (state.partitionKey.length % 2 ^ 32) ∧
      (state.partitionKey.length < 2 ^ 32 →
        state'.rowMark = state.rowMark.take (state.rowMark.length % 2 ^ 32)) := by
  simp only [deserialize, Option.bind_eq_bind, Option.bind_eq_some_iff, Prod.exists,
    Option.pure_def, Option.some.injEq] at h
  obtain ⟨-, -, pkLen, data₁, hpkLen, pk, data₂, hpk, rmLen, data₃, hrmLen, rm, data₄, hrm,
    -, -, -, -, -, -, rfl⟩ := h
  simp only [serialize, append_assoc] at hpkLen
  obtain ⟨hkey, hrest⟩ := take_cut hpkLen hpk
  refine ⟨hkey, fun hlt => ?_⟩
  rw [hrest hlt] at hrmLen
  exact (take_cut hrmLen hrm).1

end PagingState

theorem compare_take_lt {l : Bytes} {n : Nat} (h : n < l.length) : compare (l.take n) l = .lt := by
  induction l generalizing n with
  | nil => simp at h
  | cons a l ih =>
    cases n with
    | zero => rfl
    | succ n =>
      have hself : compare a a = .eq := Std.ReflCmp.compare_self
      rw [List.take_succ_cons, List.compare_cons_cons, hself]
      exact ih (by simpa using h)

/-! ## Marks that go back -/

theorem mem_placedRows (r : PlacedRow) (rows : List Row) :
    r ∈ placedRows r.partitionKey (rows ++ r.row :: r.rest) := by
  induction rows with
  | nil => exact mem_cons_self
  | cons row rows ih => exact mem_cons_of_mem _ ih

theorem indexAfter_le {m : Bytes} {cks₂ : List Bytes} (h : m ∉ cks₂) (cks₁ : List Bytes)
    (idx : Nat) : indexAfter m idx (cks₁ ++ cks₂) ≤ idx + cks₁.length := by
  induction cks₁ generalizing idx with
  | nil => rw [nil_append, indexAfter_of_notMem h]; omega
  | cons ck cks ih =>
    rw [cons_append, indexAfter, length_cons]
    have := ih (idx + 1)
    split <;> omega

namespace PlacedAt

variable {partitions : List PartitionResult} {d : Nat}

theorem partition_mem (place : PlacedAt partitions d r) : place.partition ∈ partitions := by
  have hmem : place.partition ∈ place.before ++ place.partition :: place.after := by simp
  exact (congrArg (place.partition ∈ ·) place.partitions_eq).mpr hmem

theorem mem_resumedRows_of_key_lt (place : PlacedAt partitions d r) {pk : Bytes}
    (h : compare pk r.partitionKey = .lt) (m : Bytes) :
    r ∈ resumedRows partitions (some (pk, m)) := by
  refine mem_flatMap.mpr ⟨place.partition, place.partition_mem, ?_⟩
  rw [resumedIn_of_gt (place.key_eq ▸ h), place.data_eq, Option.elim_some, place.key_eq,
    place.rowList_eq]
  exact mem_placedRows r _

/-- A mark before the row brings it again. -/
theorem mem_resumedRows_of_mark_lt (place : PlacedAt partitions d r) {m : Bytes} (hne : m ≠ [])
    (h : compare m r.row.clusteringKey = .lt) :
    r ∈ resumedRows partitions (some (r.partitionKey, m)) := by
  have hirrefl : compare m m ≠ .lt := by simp [Std.ReflCmp.compare_self]
  have hsorted : ClusteringSorted (place.rows ++ r.row :: r.rest) :=
    place.rowList_eq ▸ place.data.sorted_rowList
  have hnot : m ∉ (r.row :: r.rest).map Row.clusteringKey := by
    intro hmem
    obtain ⟨row, hrow, rfl⟩ := mem_map.mp hmem
    rcases mem_cons.mp hrow with rfl | hrow
    · exact hirrefl h
    · have hlt := (pairwise_cons.mp (pairwise_append.mp hsorted).2.1).1 row hrow
      exact hirrefl (Std.TransCmp.lt_trans h hlt)
  have hindex := indexAfter_le hnot (place.rows.map Row.clusteringKey) 0
  rw [← map_append, ← place.rowList_eq, length_map, Nat.zero_add] at hindex
  refine mem_flatMap.mpr ⟨place.partition, place.partition_mem, ?_⟩
  rw [← place.key_eq, resumedIn_self place.data_eq, if_neg hne, place.key_eq]
  set index := indexAfter m 0 (place.data.rowList.map Row.clusteringKey)
  rw [place.rowList_eq, drop_append_of_le_length hindex]
  exact mem_placedRows r _

/-- A mark that brings a row again does not go on with the next one. -/
theorem head?_ne_of_mem (hsorted : PartitionsSorted partitions)
    (hr : (resultRows partitions)[d]? = some r) {r' : PlacedRow}
    (hr' : (resultRows partitions)[d + 1]? = some r') {startAfter : Option (Bytes × Bytes)}
    (hmem : r ∈ resumedRows partitions startAfter) :
    (resumedRows partitions startAfter).head?.map pair ≠ some r'.pair := by
  have hpairwise := pairwise_resultRows hsorted
  have hresumed := hpairwise.sublist (resumedRows_sublist partitions startAfter)
  have hbefore : r.Before r' := by
    obtain ⟨hd, hget⟩ := List.getElem?_eq_some_iff.mp hr
    obtain ⟨hd', hget'⟩ := List.getElem?_eq_some_iff.mp hr'
    have := pairwise_iff_getElem.mp hpairwise d (d + 1) hd hd' (Nat.lt_succ_self d)
    rwa [hget, hget'] at this
  intro hhead
  obtain ⟨first, hfirst, hpair⟩ := Option.map_eq_some_iff.mp hhead
  obtain ⟨hkey, hrow⟩ := Prod.mk.inj hpair
  have hback : r.Before first := by
    rw [PlacedRow.Before, hkey, hrow]
    exact hbefore
  obtain ⟨tail, htail⟩ := List.head?_eq_some_iff.mp hfirst
  rw [htail] at hresumed hmem
  rcases mem_cons.mp hmem with rfl | hmem
  · exact hback.asymm hback
  · exact hback.asymm ((pairwise_cons.mp hresumed).1 r hmem)

end PlacedAt

/-! ## Runs -/

section Runs

variable {pageSize : UInt32} {rebuilt : Nat → Bool} {n : Nat} {pager : QueryPager}
  {rows : List (Bytes × Row)} {state : PagingState}

theorem yields_of_ends (h : pager.nextPage.1.pagingState = none) :
    Yields pageSize rebuilt n pager rows ↔ rowsOf pager.nextPage.1.partitions = rows := by
  constructor
  · rintro ⟨fuel | fuel, result, hrun, rfl⟩
    · simp [pages] at hrun
    · simp only [pages, h, Option.some.injEq] at hrun
      simp [← hrun]
  · intro hrows
    exact ⟨1, [pager.nextPage.1], by simp [pages, h], by simpa using hrows⟩

/-- A page with a paging state: what follows is the run of the pager behind it. -/
theorem yields_of_continues (h : pager.nextPage.1.pagingState = some state) :
    Yields pageSize rebuilt n pager rows ↔
      ∃ rest, rows = rowsOf pager.nextPage.1.partitions ++ rest ∧
        match followingPager pageSize (rebuilt n) pager.nextPage.2 state with
        | none => rest = []
        | some following => Yields pageSize rebuilt (n + 1) following rest := by
  cases hfollow : followingPager pageSize (rebuilt n) pager.nextPage.2 state with
  | none =>
    constructor
    · rintro ⟨fuel | fuel, result, hrun, rfl⟩
      · simp [pages] at hrun
      · simp only [pages, h, hfollow, Option.some.injEq] at hrun
        exact ⟨[], by simp [← hrun], rfl⟩
    · rintro ⟨rest, rfl, rfl⟩
      exact ⟨1, [pager.nextPage.1], by simp [pages, h, hfollow], by simp⟩
  | some following =>
    constructor
    · rintro ⟨fuel | fuel, result, hrun, rfl⟩
      · simp [pages] at hrun
      · simp only [pages, h, hfollow, Option.map_eq_some_iff] at hrun
        obtain ⟨rest, hrest, rfl⟩ := hrun
        exact ⟨_, flatMap_cons, fuel, rest, hrest, rfl⟩
    · rintro ⟨_, rfl, fuel, result, hrun, rfl⟩
      exact ⟨fuel + 1, pager.nextPage.1 :: result, by simp [pages, h, hfollow, hrun], by simp⟩

section

variable (hsize : 0 < pager.pageSize)

include hsize

/-- A run starts with the first row behind its pager, if with any. -/
theorem head?_of_yields (h : Yields pageSize rebuilt n pager rows) :
    rows = [] ∨ rows.head? = (resumedRows pager.partitions pager.startAfter).head?.map pair := by
  by_cases hnil : pager.taken = []
  · left
    have hrows := (yields_of_ends (nextPage_ends hsize (.inr hnil))).mp h
    rw [← hrows, rowsOf_nextPage hsize, hnil, map_nil]
  · right
    have hhead : (pager.taken.map pair).head? =
        (resumedRows pager.partitions pager.startAfter).head?.map pair := by
      have hbudget : min pager.pageSize pager.remaining ≠ 0 := by
        intro hzero
        exact hnil (by simp [taken, hzero])
      rw [head?_map, taken, head?_take, if_neg hbudget]
    have hne : pager.taken.map pair ≠ [] := by simpa using hnil
    rw [← hhead, ← rowsOf_nextPage hsize]
    rw [← rowsOf_nextPage hsize] at hne
    cases hstate : pager.nextPage.1.pagingState with
    | none => rw [(yields_of_ends hstate).mp h]
    | some state =>
      obtain ⟨rest, rfl, -⟩ := (yields_of_continues hstate).mp h
      exact head?_append_of_ne_nil _ hne

theorem not_yields_of_head?_ne {x : Bytes × Row} (hhead : rows.head? = some x)
    (hne : (resumedRows pager.partitions pager.startAfter).head?.map pair ≠ some x) :
    ¬ Yields pageSize rebuilt n pager rows := by
  intro h
  rcases head?_of_yields hsize h with rfl | heq
  · simp at hhead
  · exact hne (heq ▸ hhead)

theorem exists_of_continues (h : pager.nextPage.1.pagingState = some state) :
    ∃ r, pager.taken.getLast? = some r ∧ pager.taken.length < pager.remaining := by
  by_cases hend : pager.remaining ≤ pager.taken.length ∨ pager.taken = []
  · rw [nextPage_ends hsize hend] at h
    simp at h
  · obtain ⟨hlt, hne⟩ := not_or.mp hend
    exact ⟨_, getLast?_eq_some_getLast hne, not_le.mp hlt⟩

/-- A pager that is not rebuilt any more returns no more rows than it counts. -/
theorem length_le_of_yields (hkept : ∀ m, n ≤ m → rebuilt m = false)
    (h : Yields pageSize rebuilt n pager rows) : rows.length ≤ pager.remaining := by
  obtain ⟨fuel, result, hrun, hrows⟩ := h
  induction fuel generalizing n pager result rows with
  | zero => simp [pages] at hrun
  | succ fuel ih =>
    have htaken : (rowsOf pager.nextPage.1.partitions).length = pager.taken.length := by
      rw [rowsOf_nextPage hsize, length_map]
    have hle := pager.length_taken_le
    cases hstate : pager.nextPage.1.pagingState with
    | none =>
      simp only [pages, hstate, Option.some.injEq] at hrun
      rw [← hrows, ← hrun]
      simpa [htaken] using hle
    | some state =>
      obtain ⟨r, hlast, hmore⟩ := exists_of_continues hsize hstate
      have hnext := (nextPage_continues hsize hlast hmore).2
      simp only [pages, hstate, followingPager, hkept n (le_refl n), Bool.false_eq_true, if_false,
        Option.map_eq_some_iff] at hrun
      obtain ⟨rest, hrest, rfl⟩ := hrun
      have hlen := ih (by rw [hnext]; exact hsize) (fun m hm => hkept m (by omega)) rest hrest rfl
      rw [hnext] at hlen
      rw [← hrows, flatMap_cons, length_append, htaken]
      dsimp only at hlen
      omega

end

end Runs

/-! ## Page ends -/

section PageEnds

variable {partitions : List PartitionResult} {pageSize : UInt32} {d left n : Nat}
  {r' : PlacedRow} {next : QueryPager} {rest : List (Bytes × Row)} {rebuilt : Nat → Bool}

@[simp] theorem PlacedRow.state_partitionKey (r : PlacedRow) (left : Nat) :
    (r.state left).partitionKey = r.partitionKey := rfl

@[simp] theorem PlacedRow.state_rowMark (r : PlacedRow) (left : Nat) :
    (r.state left).rowMark = r.mark.2 := rfl

theorem PlacedRow.mark_snd_of_rest (h : r.rest ≠ []) : r.mark.2 = r.row.clusteringKey := by
  simp [mark, marker, Marker.ofRow, h]

theorem PlacedRow.length_mark_lt (h : r.rest ≠ [] → r.row.clusteringKey.length < 2 ^ 32) :
    r.mark.2.length < 2 ^ 32 := by
  by_cases hrest : r.rest = []
  · simp [mark, marker, Marker.ofRow, hrest]
  · rw [mark_snd_of_rest hrest]
    exact h hrest

theorem followingPager_of_resumable (h : r.Resumable left) (rebuilt : Bool)
    (hsize : next.pageSize = effectiveLimit pageSize) (hremaining : next.remaining = left)
    (hmark : next.startAfter = some r.mark) :
    followingPager pageSize rebuilt next (r.state left) = some next := by
  cases rebuilt with
  | false => rfl
  | true =>
    have hcount : (UInt32.ofNat (min left (2 ^ 32 - 1))).toNat = left := by
      have := h.leftFits
      rw [UInt32.toNat_ofNat_of_lt' (by simp only [UInt32.size]; omega)]
      omega
    rw [followingPager, if_pos rfl, PagingState.deserialize_serialize h.keyFits
      (length_mark_lt h.markFits), Option.map_some, Option.some_inj]
    obtain ⟨ps, size, remaining, startAfter⟩ := next
    simp only at hsize hremaining hmark
    simp only [fromPagingState, state, hcount, hsize, hremaining, hmark]

theorem effectiveLimit_of_ne (h : pageSize ≠ 0) : effectiveLimit pageSize = pageSize.toNat :=
  if_neg h

theorem effectiveLimit_pos (h : pageSize ≠ 0) : 0 < effectiveLimit pageSize := by
  rw [effectiveLimit_of_ne h, Nat.pos_iff_ne_zero]
  exact fun hzero => h (UInt32.toNat_inj.mp hzero)

variable (hsorted : PartitionsSorted partitions) (hr : (resultRows partitions)[d]? = some r)
  (hr' : (resultRows partitions)[d + 1]? = some r')

include hsorted hr hr'

theorem head?_ne_of_nil (hrest : r.rest ≠ []) :
    (resumedRows partitions (some (r.partitionKey, []))).head?.map pair ≠ some r'.pair := by
  obtain ⟨place⟩ := exists_placedAt hr
  intro hhead
  obtain ⟨first, hfirst, hpair⟩ := Option.map_eq_some_iff.mp hhead
  refine place.notMem_resumedRows_nil hsorted (mem_of_mem_head? hfirst) ?_
  exact (Prod.mk.inj hpair).1.trans (place.partitionKey_next hrest hr')

/-! If the run goes on with the row after a page end, then the row there is resumable. -/

variable (hhead : rest.head? = some r'.pair)

include hhead

theorem marked_of_yields (hpartitions : next.partitions = partitions) (hsize : 0 < next.pageSize)
    (hmark : next.startAfter = some r.mark) (h : Yields pageSize rebuilt n next rest) :
    r.rest ≠ [] → r.row.clusteringKey ≠ [] := by
  intro hrest hnil
  have hmark' : r.mark = (r.partitionKey, []) := Prod.ext rfl ((mark_snd_of_rest hrest).trans hnil)
  refine not_yields_of_head?_ne hsize hhead ?_ h
  rw [hpartitions, hmark, hmark']
  exact head?_ne_of_nil hsorted hr hr' hrest

section Rebuilt

variable {state : PagingState} (hsize : pageSize ≠ 0)
  (hstate : PagingState.deserialize (r.state left).serialize = some state)
  (h : Yields pageSize rebuilt n (.fromPagingState partitions pageSize state) rest)

include hsize hstate h

theorem keyFits_of_yields : r.partitionKey.length < 2 ^ 32 := by
  by_contra hlong
  obtain ⟨place⟩ := exists_placedAt hr
  have hlt : compare state.partitionKey r.partitionKey = .lt := by
    rw [(PagingState.deserialize_cut hstate).1, state_partitionKey]
    exact compare_take_lt (by omega)
  exact not_yields_of_head?_ne (effectiveLimit_pos hsize) hhead
    (PlacedAt.head?_ne_of_mem hsorted hr hr' (place.mem_resumedRows_of_key_lt hlt _)) h

theorem markFits_of_yields (hkey : r.partitionKey.length < 2 ^ 32) :
    r.rest ≠ [] → r.row.clusteringKey.length < 2 ^ 32 := by
  intro hrest
  by_contra hlong
  obtain ⟨place⟩ := exists_placedAt hr
  obtain ⟨hkey', hmark'⟩ := PagingState.deserialize_cut hstate
  rw [state_partitionKey, Nat.mod_eq_of_lt hkey, take_length] at hkey'
  have hlt : compare state.rowMark r.row.clusteringKey = .lt := by
    rw [hmark' hkey, state_rowMark, mark_snd_of_rest hrest]
    exact compare_take_lt (by omega)
  refine not_yields_of_head?_ne (effectiveLimit_pos hsize) hhead ?_ h
  simp only [fromPagingState, hkey']
  by_cases hnil : state.rowMark = []
  · rw [hnil]
    exact head?_ne_of_nil hsorted hr hr' hrest
  · exact PlacedAt.head?_ne_of_mem hsorted hr hr' (place.mem_resumedRows_of_mark_lt hnil hlt)

omit hsorted hr hr' hhead in
theorem leftFits_of_yields (hleft : rest.length = left) (hkey : r.partitionKey.length < 2 ^ 32)
    (hmark : r.rest ≠ [] → r.row.clusteringKey.length < 2 ^ 32)
    (hkept : ∀ m, n ≤ m → rebuilt m = false) : left < 2 ^ 32 := by
  rw [PagingState.deserialize_serialize hkey (length_mark_lt hmark)] at hstate
  obtain rfl := Option.some_inj.mp hstate
  have hlen := length_le_of_yields (effectiveLimit_pos hsize) hkept h
  have hcount : (UInt32.ofNat (min left (2 ^ 32 - 1))).toNat < 2 ^ 32 := UInt32.toNat_lt _
  simp only [fromPagingState, state] at hlen
  omega

end Rebuilt

/-- If the run goes on rightly from a page end however the pager is rebuilt, the row there is
resumable. -/
theorem resumable_of_yields (hleft : rest.length = left) (hsize : pageSize ≠ 0)
    (hpartitions : next.partitions = partitions)
    (hnextSize : next.pageSize = effectiveLimit pageSize) (hmark : next.startAfter = some r.mark)
    (h : ∀ rebuilt : Nat → Bool, ∃ q,
      followingPager pageSize (rebuilt n) next (r.state left) = some q ∧
        Yields pageSize rebuilt (n + 1) q rest) :
    r.Resumable left := by
  obtain ⟨q, hq, hyields⟩ := h fun _ => false
  obtain rfl : next = q := Option.some_inj.mp hq
  have hmarked := marked_of_yields hsorted hr hr' hhead hpartitions
    (hnextSize ▸ effectiveLimit_pos hsize) hmark hyields
  -- rebuild the pager here, and here only
  obtain ⟨q, hq, hyields⟩ := h fun m => m = n
  rw [followingPager, if_pos (by simp), Option.map_eq_some_iff] at hq
  obtain ⟨state, hstate, rfl⟩ := hq
  rw [hpartitions] at hyields
  have hkey := keyFits_of_yields hsorted hr hr' hhead hsize hstate hyields
  have hfits := markFits_of_yields hsorted hr hr' hhead hsize hstate hyields hkey
  refine ⟨hmarked, hkey, hfits, leftFits_of_yields hsize hstate hyields hleft hkey hfits ?_⟩
  intro m hm
  simpa using (by omega : m ≠ n)

end PageEnds

/-! ## The whole query -/

section Query

variable {partitions : List PartitionResult} {pageSize limit : UInt32} {size count d n : Nat}
  {pager : QueryPager}

/-- The pager has returned `d` rows of the query, and what it has left is the rest. -/
structure QueryPager.At (partitions : List PartitionResult) (pageSize limit : UInt32) (d : Nat)
    (pager : QueryPager) : Prop where
  partitions_eq : pager.partitions = partitions
  pageSize_eq : pager.pageSize = effectiveLimit pageSize
  remaining_eq : pager.remaining = resultCount partitions limit - d
  behind : resumedRows partitions pager.startAfter = (resultRows partitions).drop d

theorem resultCount_le (partitions : List PartitionResult) (limit : UInt32) :
    resultCount partitions limit ≤ (resultRows partitions).length := by
  rw [resultCount, length_resultRows]
  split <;> omega

theorem rowsAfter_none (partitions : List PartitionResult) :
    rowsAfter partitions none = (rowsOf partitions).length := by
  induction partitions with
  | nil => rfl
  | cons p ps ih =>
    rw [rowsAfter] at ih ⊢
    rw [rowsOf, flatMap_cons, length_append, ← rowsOf, ← ih]
    cases hdata : p.data with
    | none => simp [hdata]
    | some data => simp [hdata, resumeRowIndex, size_eq_length_rowList]

theorem at_new (partitions : List PartitionResult) (pageSize limit : UInt32) :
    (new partitions pageSize limit).At partitions pageSize limit 0 where
  partitions_eq := rfl
  pageSize_eq := rfl
  remaining_eq := by simp [new, rowsAfter_none, resultCount]
  behind := resumedRows_none partitions

theorem QueryPager.At.taken_eq (hat : pager.At partitions pageSize limit d) :
    pager.taken = ((resultRows partitions).drop d).take
      (min (effectiveLimit pageSize) (resultCount partitions limit - d)) := by
  rw [taken, hat.partitions_eq, hat.behind, hat.pageSize_eq, hat.remaining_eq]

theorem rows_left (hmore : d + size < count) :
    ((rowsOf partitions).take count).drop d =
      ((rowsOf partitions).drop d).take size ++ ((rowsOf partitions).take count).drop (d + size) := by
  have hsplit := take_append_drop size (((rowsOf partitions).take count).drop d)
  rw [drop_drop, drop_take, take_take, Nat.min_eq_left (by omega), ← drop_take] at hsplit
  exact hsplit.symm

section

variable (hsize : pageSize ≠ 0) (hlimit : effectiveLimit pageSize = size)
  (hcount : resultCount partitions limit = count) (hat : pager.At partitions pageSize limit d)

include hsize hlimit hcount hat

theorem yields_last (hend : count ≤ d + size) (rebuilt : Nat → Bool) :
    Yields pageSize rebuilt n pager (((rowsOf partitions).take count).drop d) := by
  have hpos : 0 < pager.pageSize := hat.pageSize_eq ▸ effectiveLimit_pos hsize
  have hle := hcount ▸ resultCount_le partitions limit
  have htaken : pager.taken = ((resultRows partitions).drop d).take (count - d) := by
    rw [hat.taken_eq, hlimit, hcount, Nat.min_eq_right (by omega)]
  have hlen : pager.remaining ≤ pager.taken.length := by
    rw [htaken, hat.remaining_eq, hcount, length_take, length_drop]
    omega
  rw [yields_of_ends (nextPage_ends hpos (.inl hlen)),
    rowsOf_nextPage hpos, htaken, ← map_pair_resultRows, drop_take, map_take,
    map_drop]

/-- A page before the last: it holds a page size of rows, and the query goes on from the last of
them. -/
theorem nextPage_at (hmore : d + size < count)
    (hr : (resultRows partitions)[d + size - 1]? = some r) :
    rowsOf pager.nextPage.1.partitions = ((rowsOf partitions).drop d).take size ∧
      pager.nextPage.1.pagingState = some (r.state (count - (d + size))) ∧
      pager.nextPage.2 =
        { pager with remaining := count - (d + size), startAfter := some r.mark } := by
  have hpos := effectiveLimit_pos hsize
  have hpager : 0 < pager.pageSize := hat.pageSize_eq ▸ hpos
  have hle := hcount ▸ resultCount_le partitions limit
  have htaken : pager.taken = ((resultRows partitions).drop d).take size := by
    rw [hat.taken_eq, hlimit, hcount, Nat.min_eq_left (by omega)]
  have hlen : pager.taken.length = size := by
    rw [htaken, length_take, length_drop]
    omega
  have hlast : pager.taken.getLast? = some r := by
    rw [getLast?_eq_getElem?, hlen, htaken, getElem?_take_of_lt (by omega), getElem?_drop, ← hr]
    congr 1
    omega
  have hleft : pager.remaining - pager.taken.length = count - (d + size) := by
    rw [hat.remaining_eq, hcount, hlen]
    omega
  obtain ⟨hstate, hnext⟩ := nextPage_continues hpager hlast (by omega)
  rw [hleft] at hstate hnext
  refine ⟨?_, hstate, hnext⟩
  rw [rowsOf_nextPage hpager, htaken, ← map_pair_resultRows, map_take, map_drop]

variable (hsorted : PartitionsSorted partitions)

include hsorted

section

variable (hmore : d + size < count) (hr : (resultRows partitions)[d + size - 1]? = some r)

include hmore hr

theorem at_next (hmarked : r.rest ≠ [] → r.row.clusteringKey ≠ []) :
    pager.nextPage.2.At partitions pageSize limit (d + size) := by
  have hpos := effectiveLimit_pos hsize
  obtain ⟨place⟩ := exists_placedAt hr
  rw [(nextPage_at hsize hlimit hcount hat hmore hr).2.2]
  refine ⟨hat.partitions_eq, hat.pageSize_eq, by rw [hcount],
    (place.resumedRows_mark hsorted hmarked).trans ?_⟩
  congr 1
  omega

/-- One page that is not the last: the run is exact iff the query can go on from the last row of the
page, and does so. -/
theorem yields_step :
    (∀ rebuilt : Nat → Bool, Yields pageSize rebuilt n pager
        (((rowsOf partitions).take count).drop d)) ↔
      r.Resumable (count - (d + size)) ∧
        ∀ rebuilt : Nat → Bool, Yields pageSize rebuilt (n + 1) pager.nextPage.2
          (((rowsOf partitions).take count).drop (d + size)) := by
  have hpos := effectiveLimit_pos hsize
  have hle := hcount ▸ resultCount_le partitions limit
  obtain ⟨hpage, hstate, hnext⟩ := nextPage_at hsize hlimit hcount hat hmore hr
  have hfollow : ∀ rebuilt : Nat → Bool, r.Resumable (count - (d + size)) →
      followingPager pageSize (rebuilt n) pager.nextPage.2 (r.state (count - (d + size))) =
        some pager.nextPage.2 := by
    intro rebuilt hresumable
    refine followingPager_of_resumable hresumable _ ?_ ?_ ?_ <;> rw [hnext]
    exact hat.pageSize_eq
  set left := ((rowsOf partitions).take count).drop (d + size) with hleft
  have hlength : left.length = count - (d + size) := by
    rw [hleft, length_drop, length_take, ← length_resultRows]
    omega
  have hyields : ∀ rebuilt : Nat → Bool, Yields pageSize rebuilt n pager
      (((rowsOf partitions).take count).drop d) ↔
        ∃ q, followingPager pageSize (rebuilt n) pager.nextPage.2
            (r.state (count - (d + size))) = some q ∧
          Yields pageSize rebuilt (n + 1) q left := by
    intro rebuilt
    rw [yields_of_continues hstate, rows_left hmore, hpage, ← hleft]
    simp only [append_cancel_left_eq, exists_eq_left']
    cases followingPager pageSize (rebuilt n) pager.nextPage.2 _ with
    | none => simpa using ne_nil_of_length_pos (by omega)
    | some q => simp
  constructor
  · intro h
    obtain ⟨r', hr'⟩ : ∃ r', (resultRows partitions)[d + size]? = some r' :=
      ⟨_, getElem?_eq_getElem (by omega)⟩
    have hhead : left.head? = some r'.pair := by
      rw [hleft, head?_drop, getElem?_take_of_lt hmore, ← map_pair_resultRows,
        getElem?_map, hr', Option.map_some]
    have hresumable : r.Resumable _ := resumable_of_yields hsorted hr
      (by rw [← hr']; congr 1; omega) hhead hlength hsize (by rw [hnext]; exact hat.partitions_eq)
      (by rw [hnext]; exact hat.pageSize_eq) (by rw [hnext])
      fun rebuilt => (hyields rebuilt).mp (h rebuilt)
    refine ⟨hresumable, fun rebuilt => ?_⟩
    obtain ⟨q, hq, hrun⟩ := (hyields rebuilt).mp (h rebuilt)
    rw [hfollow rebuilt hresumable] at hq
    exact Option.some_inj.mp hq ▸ hrun
  · rintro ⟨hresumable, h⟩ rebuilt
    exact (hyields rebuilt).mpr ⟨_, hfollow rebuilt hresumable, h rebuilt⟩

end

/-- From any page on: the run is exact iff the pages to come end with rows that the query can go on
from. -/
theorem yields_iff (hdvd : size ∣ d) :
    (∀ rebuilt : Nat → Bool, Yields pageSize rebuilt n pager
        (((rowsOf partitions).take count).drop d)) ↔
      ∀ e, d ≤ e → size ∣ e + 1 → e + 1 < count → ∀ r, (resultRows partitions)[e]? = some r →
        r.Resumable (count - (e + 1)) := by
  have hpos := effectiveLimit_pos hsize
  have hle := hcount ▸ resultCount_le partitions limit
  induction hleft : count - d using Nat.strong_induction_on generalizing d n pager with
  | _ k ih =>
    -- the next page end is a whole page away
    have hends : ∀ e, d ≤ e → size ∣ e + 1 → d + size ≤ e + 1 := by
      intro e hde he
      have := Nat.le_of_dvd (by omega) (Nat.dvd_sub he hdvd)
      omega
    by_cases hlast : count ≤ d + size
    · refine iff_of_true (yields_last hsize hlimit hcount hat hlast) fun e hde he hlt => ?_
      have := hends e hde he
      omega
    have hmore : d + size < count := not_le.mp hlast
    obtain ⟨r, hr⟩ : ∃ r, (resultRows partitions)[d + size - 1]? = some r :=
      ⟨_, getElem?_eq_getElem (by omega)⟩
    have hdvd' : size ∣ d + size := Nat.dvd_add hdvd (dvd_refl _)
    rw [yields_step hsize hlimit hcount hat hsorted hmore hr]
    constructor
    · rintro ⟨hresumable, h⟩ e hde he hlt r₁ hr₁
      have hnext := at_next hsize hlimit hcount hat hsorted hmore hr hresumable.marked
      rcases Nat.eq_or_lt_of_le (hends e hde he) with heq | hgt
      · obtain rfl : d + size - 1 = e := by omega
        obtain rfl := Option.some_inj.mp (hr.symm.trans hr₁)
        rwa [← heq]
      · exact (ih _ (by omega) hnext hdvd' rfl).mp h e (by omega) he hlt r₁ hr₁
    · intro h
      have hresumable := h _ (by omega) (by rwa [Nat.sub_add_cancel (by omega)]) (by omega) r hr
      rw [Nat.sub_add_cancel (by omega)] at hresumable
      have hnext := at_next hsize hlimit hcount hat hsorted hmore hr hresumable.marked
      exact ⟨hresumable, (ih _ (by omega) hnext hdvd' rfl).mpr fun e hde => h e (by omega)⟩

end

end Query

/-- Paging over sorted partitions loses and repeats nothing iff every page but the last ends with a
row that the query can go on from. -/
theorem pagesExact_iff (partitions : List PartitionResult) (pageSize limit : UInt32)
    (hsorted : PartitionsSorted partitions) (hsize : 1 ≤ pageSize) :
    PagesExact partitions pageSize limit ↔ PageEndsResumable partitions pageSize limit := by
  have hne : pageSize ≠ 0 := by
    rintro rfl
    exact absurd hsize (by decide)
  have h := yields_iff (n := 0) hne rfl rfl (at_new partitions pageSize limit) hsorted (Nat.dvd_zero _)
  rw [drop_zero, effectiveLimit_of_ne hne] at h
  rw [PagesExact, h, PageEndsResumable]
  simp

def valueRow (ck : Bytes) : Row where
  clusteringKey := ck
  cells := [⟨"v", some [1], 5, 0, none, false⟩]
  isTombstone := false
  localDeletionTime := none

def twoRowResult (ck₁ ck₂ : Bytes) : List PartitionResult :=
  [{ partitionKey := [7]
     data := some ((PartitionData.empty.applyRow (valueRow ck₁)).applyRow (valueRow ck₂))
     liveRowCount := 2
     wasTruncated := false }]

/-- Two rows with proper keys come on two pages. -/
theorem pagesExact_properKeys :
    PartitionsSorted (twoRowResult [1] [2]) ∧ (1 : UInt32) ≤ 1 ∧ PagesExact (twoRowResult [1] [2]) 1 0 := by
  have hsorted : PartitionsSorted (twoRowResult [1] [2]) := pairwise_singleton _ _
  refine ⟨hsorted, by decide, (pagesExact_iff _ _ _ hsorted (by decide)).mpr ?_⟩
  intro d _ hlt r hr
  have hcount : resultCount (twoRowResult [1] [2]) 0 = 2 := rfl
  rw [hcount] at hlt ⊢
  obtain rfl : d = 0 := by omega
  have hfirst : (resultRows (twoRowResult [1] [2]))[0]? =
      some ⟨[7], valueRow [1], [valueRow [2]]⟩ := rfl
  obtain rfl := Option.some_inj.mp (hfirst.symm.trans hr)
  constructor <;> decide

/-- With pages of one row, a row with an empty clustering key ends its partition: the row behind it
is lost. -/
theorem not_pagesExact_emptyKey :
    PartitionsSorted (twoRowResult [] [1]) ∧ ¬ PagesExact (twoRowResult [] [1]) 1 0 := by
  have hsorted : PartitionsSorted (twoRowResult [] [1]) := pairwise_singleton _ _
  refine ⟨hsorted, fun h => ?_⟩
  have hfirst : (resultRows (twoRowResult [] [1]))[0]? =
      some ⟨[7], valueRow [], [valueRow [1]]⟩ := rfl
  have hends := (yields_iff (by decide) rfl rfl (at_new _ 1 0) hsorted (Nat.dvd_zero _)).mp h
  have hresumable := hends 0 (le_refl 0) (by decide) (show 1 < 2 by decide) _ hfirst
  exact hresumable.marked (by simp) rfl

end CassandraVerified.Read
