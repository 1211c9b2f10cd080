import CassandraVerified.Storage.Compaction
import CassandraVerified.Storage.Proofs.LiveRowsProofs

/-!
# Proofs: what purging changes

A purge never drops a live cell, so a purged partition can only differ from the merged one in
which rows are shown: those that its tombstone hides, and those without any cell left.
`purgeInvisible_iff` states when it does not.
-/

namespace CassandraVerified.Storage

open List
open Std (ExtTreeMap)

variable {t gcCutoff now : Int32} {r : Row} {p : PartitionData} {ck : Bytes}

namespace Cell

theorem isLiveAt_iff (c : Cell) (t : Int32) : c.isLiveAt t = true ↔
      c.isTombstone = false ∧ (0 < c.ttl → ∀ ldt, c.localDeletionTime = some ldt → t < ldt) := by
  unfold isLiveAt
  cases c.isTombstone <;> by_cases httl : 0 < c.ttl <;> cases c.localDeletionTime <;> simp [httl]

theorem isLiveAt_of_le {c : Cell} {u : Int32} (htu : t ≤ u) (h : c.isLiveAt u = true) :
    c.isLiveAt t = true := by
  rw [isLiveAt_iff] at h ⊢
  exact ⟨h.1, fun httl ldt hldt => lt_of_le_of_lt htu (h.2 httl ldt hldt)⟩

theorem retained_of_isLiveAt {c : Cell} (hnow : now ≤ t) (h : c.isLiveAt t = true) :
    cellRetained gcCutoff now c = true := by
  obtain ⟨htomb, hexpiry⟩ := (isLiveAt_iff c now).mp (isLiveAt_of_le hnow h)
  unfold cellRetained
  cases hldt : c.localDeletionTime with
  | none => rfl
  | some ldt =>
    by_cases httl : 0 < c.ttl
    · simp [htomb, not_le.mpr (hexpiry httl ldt hldt)]
    · simp [htomb, httl]

end Cell

theorem purgeRow_of_isTombstone {r' : Row} (h : r.isTombstone = true)
    (hr : purgeRow gcCutoff now r = some r') : r'.isTombstone = true := by
  unfold purgeRow at hr
  split at hr
  · exact absurd hr (by simp)
  · simp only [h, Bool.or_true, if_true, Option.some.injEq] at hr
    rw [← hr]

theorem purgeRow_of_not_isTombstone (h : r.isTombstone = false) : purgeRow gcCutoff now r =
      if (r.cells.filter (cellRetained gcCutoff now)).isEmpty then none
      else some { r with cells := r.cells.filter (cellRetained gcCutoff now) } := by
  unfold purgeRow
  by_cases hempty : (r.cells.filter (cellRetained gcCutoff now)).isEmpty = true
  · simp [h, hempty]
  · simp [h, hempty]

namespace PartitionData

attribute [local simp] Option.filter

theorem tombstone_purgeTombstone (gcCutoff : Int32) (p : PartitionData) :
    (p.purgeTombstone gcCutoff).tombstone = p.tombstone.filter fun t => gcCutoff < t.2 := by
  unfold purgeTombstone
  cases htomb : p.tombstone with
  | none =>
    have hldt : p.tombstoneLocalDeletionTime = none := by
      have hpaired := p.paired
      rw [tombstone_eq_none.mp htomb] at hpaired
      simpa using hpaired.symm
    simp [hldt, htomb]
  | some t =>
    obtain ⟨ts, ldt⟩ := t
    have hldt := (tombstone_eq_some.mp htomb).2
    by_cases hle : ldt ≤ gcCutoff
    · simp [hldt, hle, tombstone]
    · simp [hldt, hle, htomb, not_le.mp hle]

theorem rows_purgeTombstone (gcCutoff : Int32) (p : PartitionData) :
    (p.purgeTombstone gcCutoff).rows = p.rows := by
  unfold purgeTombstone
  split
  · split <;> rfl
  · rfl

theorem getElem?_purgeRows (gcCutoff now : Int32) (p : PartitionData) (ck : Bytes) :
    (p.purgeRows gcCutoff now).rows[ck]? = p.rows[ck]?.bind (purgeRow gcCutoff now) := by
  simp [purgeRows]

theorem shownRow_eq_none (h : ∀ r, p.rows[ck]? = some r → r.isTombstone = true) :
    p.shownRow t ck = none := by
  cases hr : p.rows[ck]? with
  | none => simp [shownRow, liveRow, hr]
  | some r => simp [shownRow, liveRow, hr, rowIsLive, h r hr]

theorem shownRow_of_row (hr : p.rows[ck]? = some r) :
    p.shownRow t ck = if p.rowIsLive t r then some (r.cells.filter (·.isLiveAt t)) else none := by
  unfold shownRow liveRow
  by_cases hlive : p.rowIsLive t r = true
  · simp [hr, hlive]
  · simp [hr, hlive]

/-- A dropped partition shows no more than its rows would. -/
theorem shownRow_purge (gcCutoff now : Int32) (p : PartitionData) (t : Int32) (ck : Bytes) :
    (p.purge gcCutoff now).bind (·.shownRow t ck) =
      ((p.purgeTombstone gcCutoff).purgeRows gcCutoff now).shownRow t ck := by
  simp only [purge]
  generalize (p.purgeTombstone gcCutoff).purgeRows gcCutoff now = q
  split
  · rfl
  · next h =>
    have hempty : q.rows = ∅ := by
      simp only [Bool.or_eq_true, not_or] at h
      simpa using h.1
    rw [shownRow_eq_none (p := q) (by simp [hempty])]
    rfl

/-- A purged row shows the live cells it showed before, if a cell of it is left and the tombstone
that is left lets it. -/
theorem shownRow_purge_of_row (hnow : now ≤ t) (hr : p.rows[ck]? = some r)
    (htomb : r.isTombstone = false) : (p.purge gcCutoff now).bind (·.shownRow t ck) =
      if (∃ c ∈ r.cells, cellRetained gcCutoff now c) ∧ (p.purgeTombstone gcCutoff).rowIsLive t
          { r with cells := r.cells.filter (cellRetained gcCutoff now) }
      then some (r.cells.filter (·.isLiveAt t)) else none := by
  have hfilter : (r.cells.filter (cellRetained gcCutoff now)).filter (·.isLiveAt t) =
      r.cells.filter (·.isLiveAt t) := by
    rw [filter_filter]
    refine filter_congr fun c _ => ?_
    cases hc : c.isLiveAt t with
    | false => rfl
    | true => simp [Cell.retained_of_isLiveAt hnow hc]
  have hrow := getElem?_purgeRows gcCutoff now (p.purgeTombstone gcCutoff) ck
  rw [rows_purgeTombstone, hr, Option.bind_some, purgeRow_of_not_isTombstone htomb] at hrow
  rw [shownRow_purge]
  by_cases hkept : ∃ c ∈ r.cells, cellRetained gcCutoff now c = true
  · rw [if_neg (by simpa using hkept)] at hrow
    rw [shownRow_of_row hrow, hfilter]
    simp only [hkept, true_and]
    rfl
  · rw [if_pos (by simpa using hkept)] at hrow
    rw [shownRow_eq_none (by simp [hrow]), if_neg fun h => hkept h.1]

theorem rowIsLive_purged_iff (htomb : r.isTombstone = false) :
    (p.purgeTombstone gcCutoff).rowIsLive t
        { r with cells := r.cells.filter (cellRetained gcCutoff now) } = true ↔
      ∀ ts ldt, p.tombstone = some (ts, ldt) → gcCutoff < ldt → ldt ≤ t →
        ∃ c ∈ r.cells, cellRetained gcCutoff now c ∧ ts < c.timestamp := by
  rw [rowIsLive_iff, tombstone_purgeTombstone]
  simp only [htomb, true_and, Option.filter_eq_some_iff, decide_eq_true_eq, and_imp,
    mem_filter, and_assoc]

/-- One row: its live cells are the same before and after, so only whether it is shown can differ. -/
theorem shownRow_purge_eq_iff (hnow : now ≤ t) (hr : p.rows[ck]? = some r)
    (htomb : r.isTombstone = false) :
    (p.purge gcCutoff now).bind (·.shownRow t ck) = p.shownRow t ck ↔
      ((∃ c ∈ r.cells, cellRetained gcCutoff now c) ∧
        (∀ ts ldt, p.tombstone = some (ts, ldt) → gcCutoff < ldt → ldt ≤ t →
          ∃ c ∈ r.cells, cellRetained gcCutoff now c ∧ ts < c.timestamp) ↔
      ∀ ts ldt, p.tombstone = some (ts, ldt) → ldt ≤ t → ∃ c ∈ r.cells, ts < c.timestamp) := by
  have hbefore := rowIsLive_iff p t r
  simp only [htomb, true_and] at hbefore
  rw [shownRow_purge_of_row hnow hr htomb, shownRow_of_row hr, ← hbefore,
    ← rowIsLive_purged_iff htomb]
  split_ifs with h1 h2 h2 <;> simp [h1, h2]

/-- One row: purging shows in it at no time from `now` on exactly when it is settled. -/
theorem settled_iff (hcutoff : gcCutoff ≤ now) (hr : p.rows[ck]? = some r)
    (htomb : r.isTombstone = false) :
    (∀ t, now ≤ t → (p.purge gcCutoff now).bind (·.shownRow t ck) = p.shownRow t ck) ↔
      r.Settled gcCutoff now p.tombstone := by
  refine (forall₂_congr fun t (ht : now ≤ t) =>
    @shownRow_purge_eq_iff t gcCutoff now r p ck ht hr htomb).trans ?_
  unfold Row.Settled
  cases p.tombstone with
  | none => simpa using ⟨fun h => h now le_rfl, fun h t ht => h⟩
  | some tomb =>
    obtain ⟨ts, ldt⟩ := tomb
    have hboth : (∃ c ∈ r.cells, cellRetained gcCutoff now c ∧ ts < c.timestamp) →
        (∃ c ∈ r.cells, cellRetained gcCutoff now c) ∧ ∃ c ∈ r.cells, ts < c.timestamp :=
      fun ⟨c, hc, hkept, hlt⟩ => ⟨⟨c, hc, hkept⟩, c, hc, hlt⟩
    have hone : ∀ q : Int64 → Int32 → Prop,
        (∀ ts' ldt', some (ts, ldt) = some (ts', ldt') → q ts' ldt') ↔ q ts ldt :=
      fun q => ⟨fun h => h ts ldt rfl, by rintro h _ _ ⟨⟩; exact h⟩
    simp only [hone]
    split_ifs with hle
    · -- the tombstone is purged, and hides from `now` on
      have hpurged : ∀ t, now ≤ t → ldt ≤ t := fun t ht => hle.trans (hcutoff.trans ht)
      simp only [not_lt.2 hle, false_implies, and_true]
      constructor
      · exact fun h => ⟨fun hnewer => (h now le_rfl).2 fun _ => hnewer,
          fun hkept => (h now le_rfl).1 hkept (hpurged now le_rfl)⟩
      · exact fun h t ht => ⟨fun hkept _ => h.2 hkept, fun hnewer => h.1 (hnewer (hpurged t ht))⟩
    · constructor
      · refine fun h => ⟨fun hnewer => ?_, fun hlt => ?_⟩
        · exact ((h (max now ldt) (le_max_left _ _)).2 fun _ => hnewer).2 (not_le.1 hle)
            (le_max_right _ _)
        · exact ((h now le_rfl).2 fun hldt => absurd hlt (not_lt.2 hldt)).1
      · rintro ⟨hnewer, hearly⟩ t ht
        refine ⟨fun h hldt => (hboth (h.2 (not_le.1 hle) hldt)).2, fun h => ?_⟩
        by_cases hldt : ldt ≤ t
        · have hkept := hnewer (h hldt)
          exact ⟨(hboth hkept).1, fun _ _ => hkept⟩
        · exact ⟨hearly (ht.trans_lt (not_le.1 hldt)), fun _ h => absurd h hldt⟩

/-- One partition: purging shows at no time from `now` on exactly when its rows are settled. -/
theorem purge_invisible_iff (hcutoff : gcCutoff ≤ now) (p : PartitionData) :
    (∀ t, now ≤ t → ∀ ck, (p.purge gcCutoff now).bind (·.shownRow t ck) = p.shownRow t ck) ↔
      p.RowsSettled gcCutoff now := by
  constructor
  · intro h ck r hr htomb
    exact (settled_iff hcutoff hr htomb).mp fun t ht => h t ht ck
  · intro h t ht ck
    by_cases hrow : ∃ r, p.rows[ck]? = some r ∧ r.isTombstone = false
    · obtain ⟨r, hr, htomb⟩ := hrow
      exact (settled_iff hcutoff hr htomb).mpr (h ck r hr htomb) t ht
    · -- A row marked as deleted is never live, and stays marked or is dropped.
      have hmarked : ∀ r, p.rows[ck]? = some r → r.isTombstone = true := by
        intro r hr
        by_contra hne
        exact hrow ⟨r, hr, by simpa using hne⟩
      rw [shownRow_eq_none hmarked, shownRow_purge]
      refine shownRow_eq_none fun r' hr' => ?_
      rw [getElem?_purgeRows, rows_purgeTombstone, Option.bind_eq_some_iff] at hr'
      obtain ⟨r, hr, hpurged⟩ := hr'
      exact purgeRow_of_isTombstone (hmarked r hr) hpurged

end PartitionData

theorem lookup_mergePartitions (sources : List Source) (gcGraceSeconds now : Int32) (pk : Bytes) :
    (mergePartitions sources gcGraceSeconds now).lookup pk =
      (mergeSources sources)[pk]?.bind (·.purge (now - gcGraceSeconds) now) := by
  rw [mergePartitions, TreeMap.lookup_toList, ExtTreeMap.getElem?_filterMap']

theorem sub_le_of_nonneg {gcGraceSeconds : Int32} (hgrace : 0 ≤ gcGraceSeconds)
    (hrange : Int32.minValue.toInt ≤ now.toInt - gcGraceSeconds.toInt) :
    now - gcGraceSeconds ≤ now := by
  have hgrace' : 0 ≤ gcGraceSeconds.toInt := by simpa [Int32.le_iff_toInt_le] using hgrace
  have hmax := now.toInt_lt
  have hsub : (now - gcGraceSeconds).toInt = now.toInt - gcGraceSeconds.toInt := by
    rw [Int32.toInt_sub]
    exact Int.bmod_eq_of_le (by simpa using hrange) (by omega)
  rw [Int32.le_iff_toInt_le, hsub]
  omega

/-- A merge that purges shows the same live rows as one that does not, from the time of the merge
on, exactly when the rows of every merged partition are settled. -/
theorem purgeInvisible_iff (sources : List Source) (gcGraceSeconds now : Int32)
    (hgrace : 0 ≤ gcGraceSeconds)
    (hrange : Int32.minValue.toInt ≤ now.toInt - gcGraceSeconds.toInt) :
    PurgeInvisible sources gcGraceSeconds now ↔
      ∀ (pk : Bytes) (p : PartitionData), (mergeSources sources)[pk]? = some p →
        p.RowsSettled (now - gcGraceSeconds) now := by
  have hcutoff := sub_le_of_nonneg hgrace hrange
  unfold PurgeInvisible
  simp only [lookup_mergePartitions]
  constructor
  · intro h pk p hp
    rw [← PartitionData.purge_invisible_iff hcutoff]
    intro t ht ck
    have hpk := h t ht pk ck
    rwa [hp] at hpk
  · intro h t ht pk ck
    cases hp : (mergeSources sources)[pk]? with
    | none => rfl
    | some p => exact (PartitionData.purge_invisible_iff hcutoff p).mpr (h pk p hp) t ht ck

/-- One row, written at time 5, and a partition tombstone of time 10, written in second 100. -/
def shadowedPartition : PartitionData := .ofWrites
    [.row { clusteringKey := [], isTombstone := false, localDeletionTime := none
            cells := [{ column := "v", value := some [7], timestamp := 5, ttl := 0
                        localDeletionTime := none, isTombstone := false }] },
     .tombstone 10 100]

theorem purgeInvisible_iff_shadowedPartition : PurgeInvisible [[([1], shadowedPartition)]] 10 1000 ↔
      ∀ (pk : Bytes) (p : PartitionData),
        (mergeSources [[([1], shadowedPartition)]])[pk]? = some p →
        p.RowsSettled (1000 - 10) 1000 :=
  purgeInvisible_iff [[([1], shadowedPartition)]] 10 1000 (by decide) (by decide)

/-- Ten seconds of grace are over in second 1000: the tombstone goes, and the row that it hid is
live again. -/
theorem not_purgeInvisible_shadowedPartition :
    ¬ PurgeInvisible [[([1], shadowedPartition)]] 10 1000 := by
  intro h
  exact absurd (h 1000 (by decide) [1] []) (by decide +kernel)

end CassandraVerified.Storage
