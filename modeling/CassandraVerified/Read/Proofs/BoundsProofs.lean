import CassandraVerified.Read.Handler
import CassandraVerified.Read.Proofs.ResponseProofs

/-!
# Proofs: bounded reads

Partitions that are rebuilt row by row list the rows that were applied, as long as these come in
clustering order. An answer to a data request is described by the list of rows that its bounds
leave.
-/

namespace CassandraVerified.Storage

open List
open Std (ExtTreeMap)

variable {p : PartitionData}

def ClusteringSorted (rows : List Row) : Prop :=
  rows.Pairwise fun a b => compare a.clusteringKey b.clusteringKey = .lt

namespace PartitionData

theorem rows_toList (p : PartitionData) :
    p.rows.toList = p.rowList.map fun r => (r.clusteringKey, r) := by
  rw [rowList, TreeMap.values, map_map]
  refine (map_id _).symm.trans (map_congr_left fun e he => ?_)
  have hkey := p.keyed e.1 e.2 (ExtTreeMap.mem_toList_iff_getElem?_eq_some.mp he)
  exact Prod.ext hkey.symm rfl

theorem sorted_rowList (p : PartitionData) : ClusteringSorted p.rowList := by
  have h := p.rows.ordered_keys_toList
  rw [rows_toList, pairwise_map] at h
  exact h

theorem rowList_of_no_rows (h : ∀ ck : Bytes, p.rows[ck]? = none) : p.rowList = [] := by
  refine eq_nil_iff_forall_not_mem.mpr fun r hr => ?_
  obtain ⟨ck, hck⟩ := TreeMap.mem_values.mp hr
  exact absurd ((h ck).symm.trans hck) (by simp)

/-- A row behind all others is appended. -/
theorem rowList_applyRow {r : Row}
    (h : ∀ r' ∈ p.rowList, compare r'.clusteringKey r.clusteringKey = .lt) :
    (p.applyRow r).rowList = p.rowList ++ [r] := by
  have hnew : p.rows[r.clusteringKey]? = none := by
    rw [← p.find?_rowList, List.find?_eq_none]
    intro r' hr' hkey
    have hlt := h r' hr'
    rw [of_decide_eq_true hkey] at hlt
    exact absurd hlt (by simp [Std.ReflCmp.compare_self])
  have hlist : (p.applyRow r).rows.toList = p.rows.toList ++ [(r.clusteringKey, r)] := by
    refine TreeMap.toList_eq_of_pairwise ?_ fun ck r' => ?_
    · rw [pairwise_append]
      refine ⟨p.rows.ordered_keys_toList, pairwise_singleton _ _, fun a ha b hb => ?_⟩
      rw [rows_toList] at ha
      obtain ⟨r', hr', rfl⟩ := mem_map.mp ha
      rw [mem_singleton.mp hb]
      exact h r' hr'
    · rw [getElem?_applyRow, mem_append, ExtTreeMap.mem_toList_iff_getElem?_eq_some,
        mem_singleton]
      by_cases hck : r.clusteringKey = ck
      · subst hck
        simp [hnew, mergedRow, eq_comm]
      · simp [hck, Ne.symm hck]
  rw [rowList, TreeMap.values, hlist, map_append]
  rfl

theorem rowList_foldl_applyRow {rows : List Row} (h : ClusteringSorted (p.rowList ++ rows)) :
    (rows.foldl applyRow p).rowList = p.rowList ++ rows := by
  induction rows generalizing p with
  | nil => simp
  | cons r rows ih =>
    have hlast : ∀ r' ∈ p.rowList, compare r'.clusteringKey r.clusteringKey = .lt := fun r' hr' =>
      (pairwise_append.mp h).2.2 r' hr' r (by simp)
    have hrow := rowList_applyRow hlast
    have hlist : p.rowList ++ r :: rows = (p.applyRow r).rowList ++ rows := by simp [hrow]
    rw [foldl_cons, ih (hlist ▸ h), ← hlist]

end PartitionData

end CassandraVerified.Storage

namespace CassandraVerified.Read

open Storage

theorem boundedRows_sublist (data : PartitionData) (startAfter : Option Bytes)
    (rowLimit : Option Nat) : (boundedRows data startAfter rowLimit).Sublist data.rowList := by
  unfold boundedRows
  cases rowLimit with
  | none => exact List.filter_sublist
  | some limit => exact (List.take_sublist _ _).trans List.filter_sublist

theorem copyTombstone_eq (data : PartitionData) :
    (∀ ck : Bytes, (copyTombstone data).rows[ck]? = none) ∧
      (copyTombstone data).tombstone = data.tombstone := by
  unfold copyTombstone PartitionData.tombstone
  cases data.tombstoneTimestamp with
  | none => exact ⟨fun ck => by simp, rfl⟩
  | some ts =>
    cases data.tombstoneLocalDeletionTime with
    | none => exact ⟨fun ck => by simp, rfl⟩
    | some ldt => exact ⟨fun ck => by simp, rfl⟩

theorem applyBoundsToPartition_eq (data : PartitionData) (startAfter : Option Bytes)
    (rowLimit : Option Nat) :
    (applyBoundsToPartition data startAfter rowLimit).1.rowList =
        boundedRows data startAfter rowLimit ∧
      (applyBoundsToPartition data startAfter rowLimit).1.tombstone = data.tombstone ∧
      (applyBoundsToPartition data startAfter rowLimit).2 =
        rowLimit.any fun limit => limit < (storedRows data startAfter).length := by
  have hnil := PartitionData.rowList_of_no_rows (copyTombstone_eq data).1
  have hrows : ∀ rows : List Row, rows.Sublist data.rowList →
      (rows.foldl .applyRow (copyTombstone data)).rowList = rows ∧
        (rows.foldl .applyRow (copyTombstone data)).tombstone = data.tombstone := by
    intro rows hsub
    have hsorted : ClusteringSorted ((copyTombstone data).rowList ++ rows) := by
      rw [hnil]
      exact data.sorted_rowList.sublist hsub
    exact ⟨by rw [PartitionData.rowList_foldl_applyRow hsorted, hnil, List.nil_append],
      by rw [PartitionData.tombstone_foldl_applyRow, (copyTombstone_eq data).2]⟩
  have hsub := boundedRows_sublist data startAfter rowLimit
  unfold applyBoundsToPartition
  cases rowLimit with
  | none => exact ⟨(hrows _ hsub).1, (hrows _ hsub).2, rfl⟩
  | some limit =>
    by_cases hlen : limit < (storedRows data startAfter).length
    · simp only [gt_iff_lt, hlen, if_true]
      exact ⟨(hrows _ hsub).1, (hrows _ hsub).2, by simp [hlen]⟩
    · have hall : boundedRows data startAfter (some limit) =
          storedRows data startAfter := List.take_of_length_le (by omega)
      rw [hall] at hsub ⊢
      simp only [gt_iff_lt, hlen, if_false]
      exact ⟨(hrows _ hsub).1, (hrows _ hsub).2, by simp [hlen]⟩

end CassandraVerified.Read
