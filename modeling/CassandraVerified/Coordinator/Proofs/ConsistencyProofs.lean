import CassandraVerified.Coordinator.Consistency

/-!
# Quorums intersect

Two sets of replicas share a member when together they are larger than the set they are taken from.
For `QUORUM`, `ALL` and `ONE` this is the set of all replicas, for `LOCAL_QUORUM` and `EACH_QUORUM`
the replicas of one datacenter.
-/

namespace CassandraVerified.Coordinator

open Finset

variable {E : Type} {p : Placement E} {W R A : Finset E} {dcOf : E → String} {received : DcMap}

theorem CountsByDc.total (hcounts : CountsByDc dcOf A received) : received.total = A.card := by
  have hkeys : ∀ a ∈ A, dcOf a ∈ received.keys.toFinset := by
    intro a hmem
    have hpos : 0 < received.count (dcOf a) := by
      rw [hcounts, card_pos]
      exact ⟨a, mem_filter.2 ⟨hmem, rfl⟩⟩
    rw [List.mem_toFinset, Std.ExtTreeMap.mem_keys, Std.ExtTreeMap.mem_iff_isSome_getElem?]
    cases hvalue : received[dcOf a]? with
    | none => simp [DcMap.count, hvalue] at hpos
    | some n => rfl
  have hvalues : received.toList.map Prod.snd = received.keys.map received.count := by
    rw [← Std.ExtTreeMap.map_fst_toList_eq_keys, List.map_map]
    refine List.map_congr_left fun entry hmem => ?_
    have hvalue := Std.ExtTreeMap.mem_toList_iff_getElem?_eq_some.1 hmem
    simp [DcMap.count, hvalue]
  calc received.total = (received.keys.map received.count).sum := by rw [DcMap.total, hvalues]
    _ = ∑ dc ∈ received.keys.toFinset, received.count dc :=
      (List.sum_toFinset _ Std.ExtTreeMap.nodup_keys).symm
    _ = ∑ dc ∈ received.keys.toFinset, (A.filter (dcOf · = dc)).card :=
      sum_congr rfl fun dc _ => hcounts dc
    _ = A.card := (card_eq_sum_card_fiberwise hkeys).symm

theorem countsByDc_of_forall_eq {dc : String} (hsame : ∀ a ∈ A, dcOf a = dc) :
    CountsByDc dcOf A ((∅ : DcMap).insert dc A.card) := by
  intro dc'
  simp only [DcMap.count, Std.ExtTreeMap.getElem?_insert, Std.compare_eq_iff_eq]
  split_ifs with heq
  · subst heq
    rw [filter_true_of_mem hsame]
    rfl
  · rw [filter_false_of_mem fun a hmem hhere => heq ((hsame a hmem).symm.trans hhere)]
    rfl

namespace Placement.Answers

open ConsistencyLevel

variable {localDc : Option String}

theorem card_filter_of_localQuorum (h : p.Answers .localQuorum localDc A) :
    ∃ dc, localDc = some dc ∧ p.dcRf.count dc / 2 + 1 ≤ (A.filter (p.dcOf · = dc)).card := by
  obtain ⟨received, hcounts, hsatisfied⟩ := h.satisfied
  cases localDc with
  | none => simp [isSatisfiedByDatacenter] at hsatisfied
  | some dc =>
    refine ⟨dc, rfl, ?_⟩
    simpa [isSatisfiedByDatacenter, blockFor, hcounts dc] using hsatisfied

theorem card_filter_of_eachQuorum (h : p.Answers .eachQuorum localDc A) {dc : String}
    (hreplicated : 0 < p.dcRf.count dc) :
    p.dcRf.count dc / 2 + 1 ≤ (A.filter (p.dcOf · = dc)).card := by
  obtain ⟨received, hcounts, hsatisfied⟩ := h.satisfied
  simp only [isSatisfiedByDatacenter, Bool.and_eq_true, List.all_eq_true, Prod.forall,
    decide_eq_true_eq] at hsatisfied
  cases hvalue : p.dcRf[dc]? with
  | none => simp [DcMap.count, hvalue] at hreplicated
  | some rf =>
    have henough := hsatisfied.2 dc rf (Std.ExtTreeMap.mem_toList_iff_getElem?_eq_some.2 hvalue)
    rw [hcounts dc] at henough
    simpa [DcMap.count, hvalue] using henough

theorem blockFor_le_card {cl : ConsistencyLevel} (h : p.Answers cl localDc A)
    (heach : cl ≠ .eachQuorum) (hlocal : cl.isDatacenterLocal = false) :
    cl.blockFor p.replicas.card ≤ A.card := by
  obtain ⟨received, hcounts, hsatisfied⟩ := h.satisfied
  rw [← hcounts.total, ← p.counts.total]
  cases cl <;> simp_all [isSatisfiedByDatacenter, isSatisfied, isDatacenterLocal]

end Placement.Answers

variable [DecidableEq E]

theorem Placement.inter_nonempty_of_dc (hW : W ⊆ p.replicas) (hR : R ⊆ p.replicas) (dc : String)
    (hlarge : p.dcRf.count dc < (W.filter (p.dcOf · = dc)).card + (R.filter (p.dcOf · = dc)).card) :
    (W ∩ R).Nonempty := by
  rw [p.counts dc] at hlarge
  have hshared := inter_nonempty_of_card_lt_card_add_card
    (filter_subset_filter _ hW) (filter_subset_filter _ hR) hlarge
  exact hshared.mono (inter_subset_inter (filter_subset _ _) (filter_subset _ _))

/-- Replicas that acknowledged a write and replicas that answer a read have one in common. -/
theorem exists_common_replica {write read : ConsistencyLevel} {writeDc readDc : Option String}
    (hlevels : Overlapping write writeDc read readDc) (hW : p.Answers write writeDc W)
    (hR : p.Answers read readDc R) : ∃ replica, replica ∈ W ∧ replica ∈ R := by
  suffices hshared : (W ∩ R).Nonempty by
    obtain ⟨replica, hmem⟩ := hshared
    exact ⟨replica, mem_inter.1 hmem⟩
  cases hlevels with
  | quorum | allOne | oneAll =>
    have hwrites := hW.blockFor_le_card (by decide) rfl
    have hreads := hR.blockFor_le_card (by decide) rfl
    simp only [ConsistencyLevel.blockFor] at hwrites hreads
    exact inter_nonempty_of_card_lt_card_add_card hW.subset hR.subset (by omega)
  | eachQuorum =>
    obtain ⟨dc, -, hreads⟩ := hR.card_filter_of_localQuorum
    -- the datacenter of the read has replicas, or else none of them could have answered
    have hreplica : 0 < p.dcRf.count dc := by
      rw [p.counts dc]
      exact lt_of_lt_of_le (Nat.succ_pos _)
        (hreads.trans (card_le_card (filter_subset_filter _ hR.subset)))
    have hwrites := hW.card_filter_of_eachQuorum hreplica
    exact p.inter_nonempty_of_dc hW.subset hR.subset dc (by omega)
  | localQuorum =>
    obtain ⟨dc, rfl, hwrites⟩ := hW.card_filter_of_localQuorum
    obtain ⟨_, ⟨⟩, hreads⟩ := hR.card_filter_of_localQuorum
    exact p.inter_nonempty_of_dc hW.subset hR.subset dc (by omega)

def threeInOne : Placement Nat where
  dcOf _ := "dc1"
  replicas := {1, 2, 3}
  dcRf := (∅ : DcMap).insert "dc1" 3
  counts := countsByDc_of_forall_eq fun _ _ => rfl

theorem exists_common_replica_threeInOne :
    ∃ replica, replica ∈ ({1, 2} : Finset Nat) ∧ replica ∈ ({2, 3} : Finset Nat) :=
  exists_common_replica (p := threeInOne) (.localQuorum (some "dc1"))
    ⟨by decide, _, countsByDc_of_forall_eq fun _ _ => rfl, by decide⟩
    ⟨by decide, _, countsByDc_of_forall_eq fun _ _ => rfl, by decide⟩

end CassandraVerified.Coordinator
