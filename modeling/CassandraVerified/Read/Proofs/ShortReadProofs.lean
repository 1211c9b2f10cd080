import CassandraVerified.Read.ShortRead
import CassandraVerified.Read.Proofs.BoundsProofs

/-!
# Proofs: what the retries of a short read collect

A payload always holds an initial part of the live rows of the replica, in clustering order. A
retry continues behind the last of them and reads one stored row more than live rows are known.
-/

namespace CassandraVerified.Storage.PartitionData

theorem tombstoneTimestamp_eq (p : PartitionData) :
    p.tombstoneTimestamp = p.tombstone.map Prod.fst := by
  have hpair := p.paired
  unfold tombstone
  cases hts : p.tombstoneTimestamp with
  | none => rfl
  | some ts =>
    cases hldt : p.tombstoneLocalDeletionTime with
    | none => simp [hts, hldt] at hpair
    | some ldt => rfl

theorem setTombstone_of_tombstone {p : PartitionData} {ts : Int64} {ldt : Int32}
    (h : p.tombstone = some (ts, ldt)) : p.setTombstone ts ldt = p := by
  unfold setTombstone
  rw [(tombstone_eq_some.mp h).1]
  simp

end CassandraVerified.Storage.PartitionData

namespace CassandraVerified.Read

open Storage PartitionResult List PartitionData

/-- The payload holds one partition, with the given tombstone and rows. -/
def Holds (payload : ReadDataResponsePayload) (pk : Bytes) (tombstone : Option (Int64 × Int32))
    (rows : List Row) : Prop :=
  ∃ data : Option PartitionData, payload.partitions = [⟨pk, data, rows.length, false⟩] ∧
    (data.getD .empty).rowList = rows ∧ (data.getD .empty).tombstone = tombstone

namespace Holds

variable {payload next : ReadDataResponsePayload} {pk : Bytes}
  {tombstone : Option (Int64 × Int32)} {rows rows' : List Row}

theorem rowList_elim (data : Option PartitionData) :
    data.elim [] rowList = (data.getD .empty).rowList := by
  cases data with
  | none => exact (rowList_of_no_rows rows_empty).symm
  | some p => rfl

section

variable (h : Holds payload pk tombstone rows)

include h

theorem rows_eq : payload.rows = rows := by
  obtain ⟨data, hpartitions, hrows, -⟩ := h
  rw [ReadDataResponsePayload.rows, hpartitions, flatMap_singleton, rowList_elim, hrows]

theorem liveRowCount_sum :
    (payload.partitions.map PartitionResult.liveRowCount).sum = rows.length := by
  obtain ⟨data, hpartitions, -, -⟩ := h
  simp [hpartitions]

theorem lastClusteringKey_eq : payload.lastClusteringKey = rows.getLast?.map Row.clusteringKey := by
  obtain ⟨data, hpartitions, hrows, -⟩ := h
  have hlast : data.bind (·.rowList.getLast?) = rows.getLast? := by
    rw [← hrows, ← rowList_elim]
    cases data <;> rfl
  unfold ReadDataResponsePayload.lastClusteringKey
  rw [hpartitions, foldl_cons, foldl_nil, hlast]
  cases rows.getLast? <;> rfl

/-- Rows that follow are appended. -/
theorem mergeShortRead (h' : Holds next pk tombstone rows')
    (hsorted : ClusteringSorted (rows ++ rows')) (hasher : Hasher) :
    Holds (payload.mergeShortRead hasher next) pk tombstone (rows ++ rows') := by
  obtain ⟨data, hpartitions, hrows, htomb⟩ := h
  obtain ⟨data', hpartitions', hrows', htomb'⟩ := h'
  obtain ⟨merged, hmerged⟩ : ∃ merged,
      (data'.getD .empty).rowList.foldl .applyRow (data.getD .empty) = merged := ⟨_, rfl⟩
  have hmergedRows : merged.rowList = rows ++ rows' := by
    rw [← hmerged, rowList_foldl_applyRow (by rwa [hrows, hrows']), hrows, hrows']
  have hmergedTomb : merged.tombstone = tombstone := by
    rw [← hmerged, tombstone_foldl_applyRow, htomb]
  have hresult : ReadDataResponsePayload.mergeResult ⟨pk, data, rows.length, false⟩
      ⟨pk, data', rows'.length, false⟩ = ⟨pk, some merged, (rows ++ rows').length, false⟩ := by
    unfold ReadDataResponsePayload.mergeResult
    simp only [hmerged]
    split
    · next ts ldt hts hldt =>
      have hsame : merged.tombstone = some (ts, ldt) :=
        hmergedTomb.trans (htomb'.symm.trans (tombstone_eq_some.mpr ⟨hts, hldt⟩))
      rw [setTombstone_of_tombstone hsame, hmergedRows]
      rfl
    · rw [hmergedRows]
      rfl
  refine ⟨some merged, ?_, hmergedRows, hmergedTomb⟩
  simp [ReadDataResponsePayload.mergeShortRead, ReadDataResponsePayload.refreshDigest, hpartitions,
    hpartitions', ReadDataResponsePayload.mergeInto, hresult]

end

end Holds

section Fetch

variable (hasher : Hasher) {storage : Replica} {now : Int32} {read : CoordinatedRead}
  {data : PartitionData}

theorem length_liveRowsOf (rows : List Row) : (liveRowsOf data now rows).length =
      rows.countP fun r => (keptRow data.tombstoneTimestamp now r).isSome :=
  length_filterMap_eq_countP

theorem sorted_liveRowsOf {rows : List Row} (h : ClusteringSorted rows) :
    ClusteringSorted (liveRowsOf data now rows) := by
  refine List.Pairwise.filterMap _ (fun a b hab a' ha' b' hb' => ?_) h
  rwa [keptRow_clusteringKey ha', keptRow_clusteringKey hb']

section

variable (hstored : storage read.keyspace read.table read.partitionKey = some data)

include hstored

/-- What a bounded request returns. -/
theorem holds_fetchWithBounds (startAfter : Option Bytes) (rowLimit : Option Nat) :
    Holds (fetchFullDataPayloadWithBounds hasher storage now read startAfter rowLimit)
      read.partitionKey data.tombstone
      (liveRowsOf data now (boundedRows data startAfter rowLimit)) := by
  obtain ⟨hrows, htomb, -⟩ := applyBoundsToPartition_eq data startAfter rowLimit
  obtain ⟨bounded, hbounded⟩ : ∃ bounded,
      (applyBoundsToPartition data startAfter rowLimit).1 = bounded := ⟨_, rfl⟩
  rw [hbounded] at hrows htomb
  have hlive : (livePart bounded now).rowList =
      liveRowsOf data now (boundedRows data startAfter rowLimit) := by
    rw [rowList_livePart, hrows, bounded.tombstoneTimestamp_eq, htomb, ← data.tombstoneTimestamp_eq]
    rfl
  have hpartitions :
      (fetchFullDataPayloadWithBounds hasher storage now read startAfter rowLimit).partitions =
        [(fromPartitionData read.partitionKey bounded now (.new {})).1] := by
    simp only [fetchFullDataPayloadWithBounds, readDataResponse, hstored, hbounded]
    rfl
  refine ⟨(fromPartitionData read.partitionKey bounded now (.new {})).1.data, ?_, ?_⟩
  · rw [hpartitions, fromPartitionData_fst, hlive]
  · have hdata : (fromPartitionData read.partitionKey bounded now (.new {})).1.data.getD .empty =
        livePart bounded now := by
      cases h : (fromPartitionData read.partitionKey bounded now (.new {})).1.data with
      | none => exact (livePart_eq_empty h).symm
      | some q => exact fromPartitionData_data h
    rw [hdata, hlive, tombstone_livePart, htomb]
    exact ⟨rfl, rfl⟩

theorem isShortRead_fetchWithBounds (startAfter : Option Bytes) (rowLimit : Option Nat) :
    (fetchFullDataPayloadWithBounds hasher storage now read startAfter rowLimit).isShortRead =
      rowLimit.any fun limit => limit < (storedRows data startAfter).length := by
  rw [← (applyBoundsToPartition_eq data startAfter rowLimit).2.2]
  simp only [fetchFullDataPayloadWithBounds, readDataResponse, hstored]

theorem tombstonesRead_fetchWithBounds (startAfter : Option Bytes) (rowLimit : Option Nat) :
    0 < (fetchFullDataPayloadWithBounds hasher storage now read startAfter rowLimit).tombstonesRead ↔
      MeetsTombstone data now (boundedRows data startAfter rowLimit) := by
  obtain ⟨hrows, htomb, -⟩ := applyBoundsToPartition_eq data startAfter rowLimit
  simp only [fetchFullDataPayloadWithBounds, readDataResponse, hstored]
  rw [fromPartition_tombstonesRead_pos, hrows, tombstoneTimestamp_eq, htomb,
    ← tombstoneTimestamp_eq]
  rfl

end

end Fetch

theorem drop_filterMap {α β : Type} (f : α → Option β) (n : Nat) (l : List α) :
    (l.filterMap f).drop n = (dropUntil (fun a => (f a).isSome) n l).filterMap f := by
  induction l generalizing n with
  | nil => cases n <;> simp [dropUntil]
  | cons a l ih =>
    cases n with
    | zero => rfl
    | succ n =>
      cases hf : f a with
      | none => simp [dropUntil, hf, ih]
      | some b => simp [dropUntil, hf, ih]

theorem take_prefix_take_iff {α : Type} (l : List α) (m n : Nat) :
    l.take m <+: l.take n ↔ min m l.length ≤ n := by
  constructor
  · intro h
    have hlen := h.length_le
    rw [length_take, length_take] at hlen
    omega
  · intro h
    have hm : l.take m = l.take (min m l.length) := by simp
    rw [hm]
    exact take_prefix_take_left h

/-- The rows behind a live row are what is left behind it. -/
theorem filter_isAfter {keep : Row → Option Row}
    (hkey : ∀ r r', keep r = some r' → r'.clusteringKey = r.clusteringKey) {rows : List Row}
    (hsorted : ClusteringSorted rows) {n : Nat} {last : Row}
    (hlast : (rows.filterMap keep)[n]? = some last) :
    rows.filter (isAfter (some last.clusteringKey)) =
      dropUntil (fun r => (keep r).isSome) (n + 1) rows := by
  induction rows generalizing n with
  | nil => simp at hlast
  | cons a rows ih =>
    obtain ⟨ha, hrows⟩ := pairwise_cons.mp hsorted
    -- a live row further on lies behind `a`
    have hskip : ∀ m : Nat, (rows.filterMap keep)[m]? = some last →
        isAfter (some last.clusteringKey) a = false := by
      intro m hm
      obtain ⟨b, hb, hkeep⟩ := mem_filterMap.mp (mem_of_getElem? hm)
      have hlt := ha b hb
      rw [← hkey b last hkeep] at hlt
      simp [isAfter, Std.OrientedCmp.gt_of_lt hlt]
    cases hkeep : keep a with
    | none =>
      rw [filterMap_cons_none hkeep] at hlast
      rw [filter_cons_of_neg (by simp [hskip n hlast]), ih hrows hlast]
      simp [dropUntil, hkeep]
    | some a' =>
      rw [filterMap_cons_some hkeep] at hlast
      cases n with
      | zero =>
        obtain rfl : a' = last := by simpa using hlast
        have hall : rows.filter (isAfter (some a'.clusteringKey)) = rows := by
          refine filter_eq_self.mpr fun b hb => ?_
          simp [isAfter, hkey a a' hkeep, ha b hb]
        have hself : isAfter (some a'.clusteringKey) a = false := by
          simp [isAfter, hkey a a' hkeep, Std.ReflCmp.compare_self]
        rw [filter_cons_of_neg (by simp [hself]), hall]
        simp [dropUntil, hkeep]
      | succ n =>
        have hlast : (rows.filterMap keep)[n]? = some last := by simpa using hlast
        rw [filter_cons_of_neg (by simp [hskip n hlast]), ih hrows hlast]
        simp [dropUntil, hkeep]

theorem storedRows_of_isAfter (data : PartitionData) {startAfter : Option Bytes} {last : Row}
    (h : isAfter startAfter last = true) :
    storedRows data (some last.clusteringKey) =
      (storedRows data startAfter).filter (isAfter (some last.clusteringKey)) := by
  unfold storedRows
  rw [filter_filter]
  refine filter_congr fun r _ => ?_
  cases startAfter with
  | none => simp [isAfter]
  | some start =>
    by_cases hr : compare last.clusteringKey r.clusteringKey = .lt
    · have hlt : compare start last.clusteringKey = .lt := by simpa [isAfter] using h
      simp [isAfter, hr, Std.TransCmp.lt_trans hlt hr]
    · simp [isAfter, hr]

section Loop

variable (hasher : Hasher) {storage : Replica} {now : Int32} {read : CoordinatedRead}
  {data : PartitionData}

/-- All live rows that the read asks for. -/
abbrev allLive (data : PartitionData) (now : Int32) (read : CoordinatedRead) : List Row :=
  liveRowsOf data now (storedRows data read.startAfter)

/-- A row is live for the filter of the replica. -/
abbrev isLiveRow (data : PartitionData) (now : Int32) (r : Row) : Bool :=
  (keptRow data.tombstoneTimestamp now r).isSome

/-- How many live rows are known after a retry of the read. -/
abbrev nextKnown (data : PartitionData) (now : Int32) (read : CoordinatedRead) : Nat → Nat :=
  knownAfterRetry (isLiveRow data now) (storedRows data read.startAfter)

/-- The payload holds the first `known` live rows, and is short if there are more. -/
structure Collected (data : PartitionData) (now : Int32) (read : CoordinatedRead)
    (payload : ReadDataResponsePayload) (known : Nat) : Prop where
  holds : Holds payload read.partitionKey data.tombstone ((allLive data now read).take known)
  known_le : known ≤ (allLive data now read).length
  tombstonesRead : 0 < payload.tombstonesRead
  complete : payload.isShortRead = false → known = (allLive data now read).length

theorem liveRowsOf_take (rows : List Row) (n : Nat) : liveRowsOf data now (rows.take n) =
      (liveRowsOf data now rows).take ((rows.take n).countP (isLiveRow data now)) := by
  have happ : liveRowsOf data now rows =
      liveRowsOf data now (rows.take n) ++ liveRowsOf data now (rows.drop n) := by
    simp [liveRowsOf, ← filterMap_append]
  rw [happ, ← length_liveRowsOf, take_left]

/-- A retry moves on from the last live row. -/
theorem Collected.retry (hstored : storage read.keyspace read.table read.partitionKey = some data)
    (h : Collected data now read payload (known + 1)) :
    ∃ lastKey, payload.lastClusteringKey = some lastKey ∧ Collected data now read
        (payload.mergeShortRead hasher
          (fetchFullDataPayloadWithBounds hasher storage now read (some lastKey)
            (some (known + 1 + 1))))
        (nextKnown data now read (known + 1)) := by
  obtain ⟨last, hlast⟩ : ∃ last, (allLive data now read)[known]? = some last :=
    ⟨_, getElem?_eq_getElem h.known_le⟩
  have hkey : ∀ r r', keptRow data.tombstoneTimestamp now r = some r' →
      r'.clusteringKey = r.clusteringKey := fun _ _ => keptRow_clusteringKey
  have hsorted : ClusteringSorted (storedRows data read.startAfter) :=
    data.sorted_rowList.sublist filter_sublist
  have hafter : isAfter read.startAfter last = true := by
    obtain ⟨r, hr, hkept⟩ := mem_filterMap.mp (mem_of_getElem? hlast)
    have hr := (mem_filter.mp hr).2
    unfold isAfter at hr ⊢
    rwa [hkey r last hkept]
  -- the stored rows that the retry asks for
  have hrest : storedRows data (some last.clusteringKey) =
      dropUntil (isLiveRow data now) (known + 1) (storedRows data read.startAfter) := by
    rw [storedRows_of_isAfter data hafter, filter_isAfter hkey hsorted hlast]
  have hlive : liveRowsOf data now (storedRows data (some last.clusteringKey)) =
      (allLive data now read).drop (known + 1) := by
    rw [hrest]
    exact (drop_filterMap _ _ _).symm
  obtain ⟨found, hfound⟩ : ∃ found, ((storedRows data (some last.clusteringKey)).take
      (known + 1 + 1)).countP (isLiveRow data now) = found := ⟨_, rfl⟩
  have hknown : nextKnown data now read (known + 1) = known + 1 + found := by
    rw [nextKnown, knownAfterRetry, ← hrest, hfound]
  have hnext : Holds (fetchFullDataPayloadWithBounds hasher storage now read
      (some last.clusteringKey) (some (known + 1 + 1))) _ _ _ :=
    holds_fetchWithBounds hasher hstored _ _
  have hrows : (allLive data now read).take (known + 1) ++
      liveRowsOf data now (boundedRows data (some last.clusteringKey) (some (known + 1 + 1))) =
        (allLive data now read).take (known + 1 + found) := by
    have hsplit : (allLive data now read).take (known + 1 + found) = _ := take_add
    rw [hsplit, ← hlive, ← hfound, ← liveRowsOf_take]
    rfl
  have hfound_le : found ≤ ((allLive data now read).drop (known + 1)).length := by
    rw [← hlive, length_liveRowsOf, ← hfound]
    exact (take_sublist _ _).countP_le
  refine ⟨last.clusteringKey, ?_, hknown ▸ ⟨?_, ?_, ?_, ?_⟩⟩
  · rw [h.holds.lastClusteringKey_eq, getLast?_eq_getElem?, length_take,
      Nat.min_eq_left h.known_le, Nat.add_sub_cancel, getElem?_take_of_lt (Nat.lt_succ_self _),
      hlast]
    rfl
  · rw [← hrows]
    refine h.holds.mergeShortRead hnext ?_ hasher
    rw [hrows]
    exact (sorted_liveRowsOf hsorted).sublist (take_sublist _ _)
  · have hle := h.known_le
    rw [length_drop] at hfound_le
    omega
  · exact Nat.add_pos_left h.tombstonesRead _
  · intro hshort
    have hshort : (fetchFullDataPayloadWithBounds hasher storage now read
        (some last.clusteringKey) (some (known + 1 + 1))).isShortRead = false := hshort
    rw [isShortRead_fetchWithBounds hasher hstored] at hshort
    -- the request was not cut, so that everything behind the last known row was read
    have hall : found = ((allLive data now read).drop (known + 1)).length := by
      rw [← hlive, length_liveRowsOf, ← hfound, take_of_length_le (by simpa using hshort)]
    have hle := h.known_le
    rw [length_drop] at hall
    omega

theorem le_iterate_knownAfterRetry (live : Row → Bool) (rows : List Row) (n known : Nat) :
    known ≤ (knownAfterRetry live rows)^[n] known := by
  induction n generalizing known with
  | zero => exact le_rfl
  | succ n ih => exact (Nat.le_add_right known _).trans (ih (knownAfterRetry live rows known))

theorem nextKnown_all :
    nextKnown data now read (allLive data now read).length = (allLive data now read).length := by
  have hnone : liveRowsOf data now (dropUntil (isLiveRow data now) (allLive data now read).length
      (storedRows data read.startAfter)) = [] := by
    refine (drop_filterMap _ _ _).symm.trans ?_
    exact drop_eq_nil_of_le le_rfl
  have hzero := (take_sublist ((allLive data now read).length + 1) (dropUntil
    (isLiveRow data now) (allLive data now read).length
    (storedRows data read.startAfter))).countP_le (p := isLiveRow data now)
  rw [← length_liveRowsOf (dropUntil _ _ _), hnone] at hzero
  rw [nextKnown, knownAfterRetry, Nat.le_zero.mp hzero, Nat.add_zero]

/-- The digest of a payload is that of its rows. -/
def Refreshed (hasher : Hasher) (payload : ReadDataResponsePayload) : Prop :=
  payload.refreshDigest hasher = payload

theorem retryLoop_of_not_short (h : payload.isShortRead = false) :
    retryLoop hasher storage now read left shortRead payload = payload := by
  cases left with
  | zero => rfl
  | succ left => rw [retryLoop, if_neg (by simp [h])]

section

variable (hstored : storage read.keyspace read.table read.partitionKey = some data)

include hstored

/-- One turn of the loop for a payload that is short. -/
theorem Collected.retryLoop_succ (henabled : shortRead.enabled = true)
    (hretries : shortRead.retries < shortRead.maxRetries)
    (h : Collected data now read payload (known + 1)) (hshort : payload.isShortRead = true)
    (left : Nat) :
    ∃ next, retryLoop hasher storage now read (left + 1) shortRead payload =
        retryLoop hasher storage now read left shortRead.recordRetry
          (payload.mergeShortRead hasher next) ∧
      Collected data now read (payload.mergeShortRead hasher next)
        (nextKnown data now read (known + 1)) := by
  obtain ⟨lastKey, hlast, hnext⟩ := h.retry hasher hstored
  have hcount : (payload.partitions.map PartitionResult.liveRowCount).sum = known + 1 := by
    rw [h.holds.liveRowCount_sum, length_take, Nat.min_eq_left h.known_le]
  have hneeds : shortRead.needsRetry (known + 1 + 1) (known + 1) payload.tombstonesRead = true := by
    simp [ShortReadProtection.needsRetry, henabled, not_le.mpr hretries, h.tombstonesRead]
  refine ⟨_, ?_, hnext⟩
  rw [retryLoop, if_pos hshort]
  simp [hcount, hneeds, hlast, ShortReadProtection.retryBounds]

/-- The loop makes all its retries, unless everything is known before. -/
theorem collected_retryLoop (henabled : shortRead.enabled = true)
    (hleft : shortRead.retries + left = shortRead.maxRetries) (hknown : 0 < known)
    (h : Collected data now read payload known) :
    Collected data now read (retryLoop hasher storage now read left shortRead payload)
        ((nextKnown data now read)^[left] known) ∧
      (Refreshed hasher payload →
        Refreshed hasher (retryLoop hasher storage now read left shortRead payload)) := by
  induction left generalizing known shortRead payload with
  | zero => exact ⟨h, id⟩
  | succ left ih =>
    cases hshort : payload.isShortRead with
    | false =>
      rw [retryLoop_of_not_short hasher hshort]
      have hall := h.complete hshort
      have hfix : (nextKnown data now read)^[left + 1] known = known := by
        refine Function.iterate_fixed ?_ (left + 1)
        rw [hall]
        exact nextKnown_all
      exact ⟨hfix.symm ▸ h, id⟩
    | true =>
      obtain ⟨known, rfl⟩ : ∃ k, known = k + 1 := ⟨known - 1, by omega⟩
      obtain ⟨next, hloop, hnext⟩ := h.retryLoop_succ hasher hstored henabled (by omega) hshort left
      have hleft : shortRead.recordRetry.retries + left = shortRead.recordRetry.maxRetries := by
        simp only [ShortReadProtection.recordRetry]
        omega
      have henabled : shortRead.recordRetry.enabled = true := henabled
      have hpos : 0 < nextKnown data now read (known + 1) :=
        Nat.add_pos_left (Nat.succ_pos known) _
      obtain ⟨hcollected, hrefreshed⟩ := ih henabled hleft hpos hnext
      rw [hloop]
      exact ⟨hcollected, fun _ => hrefreshed rfl⟩

end

theorem retryLoop_of_no_rows
    (h : (fetchFullDataPayload hasher storage now read).lastClusteringKey = none) :
    retryLoop hasher storage now read left shortRead (fetchFullDataPayload hasher storage now read) =
      fetchFullDataPayload hasher storage now read := by
  induction left generalizing shortRead with
  | zero => rfl
  | succ left ih =>
    rw [retryLoop]
    split
    · simp only [h]
      split
      · exact ih
      · rfl
    · rfl

theorem retryLoop_of_no_tombstones (h : payload.tombstonesRead = 0) :
    retryLoop hasher storage now read left shortRead payload = payload := by
  cases left with
  | zero => rfl
  | succ left =>
    rw [retryLoop]
    split
    · rw [if_neg]
      simp [ShortReadProtection.needsRetry, h]
    · rfl

/-- The number of live rows that the first answer holds. -/
abbrev firstKnown (data : PartitionData) (now : Int32) (read : CoordinatedRead) (limit : Nat) : Nat :=
  ((storedRows data read.startAfter).take limit).countP (isLiveRow data now)

section

variable (hstored : storage read.keyspace read.table read.partitionKey = some data)
  (hlimit : read.rowLimit = some limit)

include hstored hlimit

theorem holds_fetchFullDataPayload :
    Holds (fetchFullDataPayload hasher storage now read) read.partitionKey data.tombstone
      ((allLive data now read).take (firstKnown data now read limit)) := by
  have h : Holds (fetchFullDataPayload hasher storage now read) _ _ _ :=
    holds_fetchWithBounds hasher hstored _ _
  rw [hlimit] at h
  rwa [← liveRowsOf_take]

theorem collected_fetchFullDataPayload
    (htomb : MeetsTombstone data now ((storedRows data read.startAfter).take limit)) :
    Collected data now read (fetchFullDataPayload hasher storage now read)
      (firstKnown data now read limit) where
  holds := holds_fetchFullDataPayload hasher hstored hlimit
  known_le := by
    rw [length_liveRowsOf]
    exact (take_sublist _ _).countP_le
  tombstonesRead := by
    rw [fetchFullDataPayload, tombstonesRead_fetchWithBounds hasher hstored, hlimit]
    exact htomb
  complete hshort := by
    rw [fetchFullDataPayload, isShortRead_fetchWithBounds hasher hstored, hlimit] at hshort
    rw [length_liveRowsOf, firstKnown, take_of_length_le (by simpa using hshort)]

theorem fetch_of_stays (h : ¬ (0 < firstKnown data now read limit ∧
      MeetsTombstone data now ((storedRows data read.startAfter).take limit))) :
    fetchFullDataPayloadWithShortReadRetry hasher storage now read =
      fetchFullDataPayload hasher storage now read := by
  rcases Nat.eq_zero_or_pos (firstKnown data now read limit) with hzero | hpos
  · refine retryLoop_of_no_rows hasher ?_
    rw [(holds_fetchFullDataPayload hasher hstored hlimit).lastClusteringKey_eq, hzero]
    rfl
  · refine retryLoop_of_no_tombstones hasher (Nat.eq_zero_of_not_pos fun htomb => h ⟨hpos, ?_⟩)
    rw [fetchFullDataPayload, tombstonesRead_fetchWithBounds hasher hstored, hlimit] at htomb
    exact htomb

/-- The rows that are fetched in the end: those of the first answer, or those that three retries
lead to. -/
theorem rows_fetchWithShortReadRetry :
    (fetchFullDataPayloadWithShortReadRetry hasher storage now read).rows =
      (allLive data now read).take (if 0 < firstKnown data now read limit ∧
            MeetsTombstone data now ((storedRows data read.startAfter).take limit) then
          (nextKnown data now read)^[3] (firstKnown data now read limit)
        else firstKnown data now read limit) := by
  split
  · next h =>
    exact (collected_retryLoop hasher hstored rfl rfl h.1
      (collected_fetchFullDataPayload hasher hstored hlimit h.2)).1.holds.rows_eq
  · next h =>
    rw [fetch_of_stays hasher hstored hlimit h]
    exact (holds_fetchFullDataPayload hasher hstored hlimit).rows_eq

end

end Loop

/-- Short-read protection is complete exactly where three retries are enough. -/
theorem fetchesLimit_iff (hasher : Hasher) (storage : Replica) (now : Int32)
    (read : CoordinatedRead) :
    FetchesLimit hasher storage now read ↔
      ∀ data limit, storage read.keyspace read.table read.partitionKey = some data →
        read.rowLimit = some limit → RetriesSuffice data now read.startAfter limit := by
  unfold FetchesLimit
  refine forall_congr' fun data => forall_congr' fun limit => imp_congr_right fun hstored =>
    imp_congr_right fun hlimit => ?_
  rw [rows_fetchWithShortReadRetry hasher hstored hlimit, take_prefix_take_iff, length_liveRowsOf]
  have hle := le_iterate_knownAfterRetry (isLiveRow data now) (storedRows data read.startAfter) 3
    (firstKnown data now read limit)
  unfold RetriesSuffice
  split
  · next h =>
    constructor
    · intro hneeded
      exact .inr ⟨h.1, h.2, hneeded⟩
    · rintro (hneeded | ⟨-, -, hneeded⟩)
      · exact le_trans hneeded hle
      · exact hneeded
  · next h =>
    constructor
    · exact .inl
    · rintro (hneeded | ⟨hknown, htomb, -⟩)
      · exact hneeded
      · exact absurd ⟨hknown, htomb⟩ h

def deletedFirst : PartitionData :=
  .ofWrites [.row ⟨[1], [], true, some 50⟩, .row ⟨[2], [], true, some 50⟩,
    .row ⟨[3], [⟨"v", some [7], 5, 0, none, false⟩], false, none⟩]

def readTwo : CoordinatedRead := ⟨"ks", "t", [0], none, some 2⟩

/-- The first two rows are deleted, and the live row behind them is never asked for. -/
theorem not_fetchesLimit_deletedFirst :
    ¬ FetchesLimit (fun _ => .empty) (fun _ _ _ => some deletedFirst) 100 readTwo := by
  intro h
  have hlive : (liveRowsOf deletedFirst 100 (storedRows deletedFirst none)).take 2 =
      [⟨[3], [⟨"v", some [7], 5, 0, none, false⟩], false, none⟩] := rfl
  have hfetched : (fetchFullDataPayloadWithShortReadRetry (fun _ => .empty)
      (fun _ _ _ => some deletedFirst) 100 readTwo).rows = [] := rfl
  have hstarts := h deletedFirst 2 rfl rfl
  rw [hfetched, show readTwo.startAfter = none from rfl, hlive] at hstarts
  simp at hstarts

end CassandraVerified.Read
