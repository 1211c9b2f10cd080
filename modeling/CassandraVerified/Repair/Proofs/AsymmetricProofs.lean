import CassandraVerified.Repair.Asymmetric

/-!
# When asymmetric repair converges

A replica's disagreements on a range are the replicas with another content, so that the source is a
replica whose content most replicas have.
-/

namespace CassandraVerified.Repair

open List
open Cluster (TokenRange)
open EndpointPair DifferenceHolder

variable {E K C : Type} [LinearOrder K] {endpointKey : E → K}
  {replicas : List E} {content : E → TokenRange → C} {range : TokenRange}
  {difference : RangeDifference E} {a b e source : E} {keyspace table : String}

section PushNew

variable {α : Type} [DecidableEq α] {l : List α} {x y : α}

theorem mem_pushNew : x ∈ pushNew l y ↔ x ∈ l ∨ x = y := by
  unfold pushNew
  split_ifs with h
  · exact ⟨.inl, fun hx => hx.elim id fun heq => heq ▸ h⟩
  · simp

theorem nodup_pushNew (h : l.Nodup) : (pushNew l y).Nodup := by
  unfold pushNew
  split_ifs with hy
  · exact h
  · exact nodup_append.2 ⟨h, nodup_singleton y, by
      rintro x hx _ hy' rfl
      exact hy (mem_singleton.1 hy' ▸ hx)⟩

end PushNew

namespace EndpointPair

theorem new_comm (hkey : Function.Injective endpointKey) (a b : E) :
    new endpointKey a b = new endpointKey b a := by
  unfold new
  split_ifs with hab hba hba
  · rw [hkey (le_antisymm hab hba)]
  · rfl
  · rfl
  · exact absurd (le_total _ _) (not_or.2 ⟨hab, hba⟩)

theorem new_eq (endpointKey : E → K) (a b : E) :
    new endpointKey a b = ⟨a, b⟩ ∨ new endpointKey a b = ⟨b, a⟩ := by
  unfold new
  split_ifs
  · exact .inl rfl
  · exact .inr rfl

theorem new_right_injective (endpointKey : E → K) (a : E) :
    Function.Injective (new endpointKey a) := by
  intro b b' h
  rcases new_eq endpointKey a b with h1 | h1 <;> rcases new_eq endpointKey a b' with h2 | h2 <;>
    simp only [h1, h2, mk.injEq] at h
  · exact h.2
  · rw [h.2, h.1]
  · rw [h.1, h.2]
  · exact h.1

end EndpointPair

namespace RangeMap

/-- The pair is recorded for the range. -/
def HasPair (entries : RangeMap E) (range : TokenRange) (pair : EndpointPair E) : Prop :=
  ∃ entry ∈ entries, entry.range = range ∧ pair ∈ entry.pairs

/-- Every range has one entry, and no entry has a pair twice. -/
structure Indexed (entries : RangeMap E) : Prop where
  ranges : (entries.map RangeDifference.range).Nodup
  pairs : ∀ entry ∈ entries, entry.pairs.Nodup

variable {entries : RangeMap E} {range' : TokenRange} {pair : EndpointPair E}

theorem hasPair_cons {entry : RangeDifference E} : HasPair (entry :: entries) range pair ↔
      entry.range = range ∧ pair ∈ entry.pairs ∨ HasPair entries range pair := by
  simp [HasPair]

variable [DecidableEq E]

theorem hasPair_addDifference : HasPair (addDifference endpointKey range' a b entries) range pair ↔
      HasPair entries range pair ∨ range = range' ∧ pair = new endpointKey a b := by
  induction entries with
  | nil =>
    simp only [addDifference, hasPair_cons, mem_singleton]
    simp [HasPair, eq_comm]
  | cons entry entries ih =>
    unfold addDifference
    split_ifs with heq
    · simp only [hasPair_cons, mem_pushNew, heq]
      constructor
      · rintro (⟨rfl, hin | hnew⟩ | hrest)
        · exact .inl (.inl ⟨rfl, hin⟩)
        · exact .inr ⟨rfl, hnew⟩
        · exact .inl (.inr hrest)
      · rintro ((⟨rfl, hin⟩ | hrest) | ⟨rfl, hnew⟩)
        · exact .inl ⟨rfl, .inl hin⟩
        · exact .inr hrest
        · exact .inl ⟨rfl, .inr hnew⟩
    · rw [hasPair_cons, hasPair_cons, ih, or_assoc]

theorem ranges_addDifference :
    range ∈ (addDifference endpointKey range' a b entries).map RangeDifference.range ↔
      range ∈ entries.map RangeDifference.range ∨ range = range' := by
  induction entries with
  | nil => simp [addDifference]
  | cons entry entries ih =>
    unfold addDifference
    split_ifs with heq
    · simp only [map_cons, mem_cons, heq]
      tauto
    · simp [ih, or_assoc]

theorem Indexed.addDifference (h : Indexed entries) :
    Indexed (addDifference endpointKey range' a b entries) := by
  induction entries with
  | nil =>
    constructor
    · simp [RangeMap.addDifference]
    · simp [RangeMap.addDifference]
  | cons entry entries ih =>
    have hrest : Indexed entries :=
      ⟨(nodup_cons.1 h.ranges).2, fun e he => h.pairs e (mem_cons_of_mem _ he)⟩
    have hfirst := h.pairs entry mem_cons_self
    unfold RangeMap.addDifference
    split_ifs with heq
    · refine ⟨h.ranges, fun e he => ?_⟩
      rcases mem_cons.1 he with rfl | he
      · exact nodup_pushNew hfirst
      · exact hrest.pairs e he
    · refine ⟨nodup_cons.2 ⟨fun hmem => ?_, (ih hrest).ranges⟩, fun e he => ?_⟩
      · rcases ranges_addDifference.1 hmem with hmem | hsame
        · exact (nodup_cons.1 h.ranges).1 hmem
        · exact heq hsame
      · rcases mem_cons.1 he with rfl | he
        · exact hfirst
        · exact (ih hrest).pairs e he

end RangeMap

variable [DecidableEq E]

namespace DifferenceHolder

open RangeMap

variable {holder : DifferenceHolder E} {ranges : List TokenRange} {pair : EndpointPair E}

theorem hasPair_addDiff :
    HasPair (holder.addDiff endpointKey a b ranges).rangeMap range pair ↔
      HasPair holder.rangeMap range pair ∨ range ∈ ranges ∧ pair = new endpointKey a b := by
  unfold addDiff
  generalize holder.rangeMap = entries
  induction ranges generalizing entries with
  | nil => simp
  | cons range' ranges ih =>
    rw [foldl_cons, ih, hasPair_addDifference, mem_cons]
    tauto

theorem indexed_addDiff (h : Indexed holder.rangeMap) :
    Indexed (holder.addDiff endpointKey a b ranges).rangeMap := by
  unfold addDiff
  generalize holder.rangeMap = entries at h
  induction ranges generalizing entries with
  | nil => exact h
  | cons range' ranges ih => exact ih _ h.addDifference

/-- What a run of differences adds to the holder. -/
theorem foldl_addDiff (diffs : List (DiffResult E)) (holder : DifferenceHolder E)
    (h : Indexed holder.rangeMap) :
    let holder' := diffs.foldl (fun holder diff =>
      holder.addDiff endpointKey diff.endpointA diff.endpointB
        (diff.mismatchedRanges.map fun bounds => ⟨bounds.1, bounds.2⟩)) holder
    Indexed holder'.rangeMap ∧ ∀ range pair, HasPair holder'.rangeMap range pair ↔
      HasPair holder.rangeMap range pair ∨ ∃ diff ∈ diffs,
        (range.start, range.stop) ∈ diff.mismatchedRanges ∧
        pair = new endpointKey diff.endpointA diff.endpointB := by
  induction diffs generalizing holder with
  | nil => simpa using h
  | cons diff diffs ih =>
    obtain ⟨hindexed, hpairs⟩ := ih (holder.addDiff endpointKey diff.endpointA diff.endpointB
      (diff.mismatchedRanges.map fun bounds => ⟨bounds.1, bounds.2⟩)) (indexed_addDiff h)
    refine ⟨hindexed, fun range pair => ?_⟩
    have hbounds : range ∈ diff.mismatchedRanges.map (fun bounds => (⟨bounds.1, bounds.2⟩ :
        TokenRange)) ↔ (range.start, range.stop) ∈ diff.mismatchedRanges := by
      rw [mem_map]
      constructor
      · rintro ⟨bounds, hin, rfl⟩
        exact hin
      · exact fun hin => ⟨_, hin, rfl⟩
    rw [foldl_cons, hpairs, hasPair_addDiff, hbounds, exists_mem_cons_iff, or_assoc]

theorem indexed_fromDiffs (endpointKey : E → K) (diffs : List (DiffResult E)) :
    Indexed (fromDiffs endpointKey diffs).rangeMap :=
  (foldl_addDiff diffs {} ⟨nodup_nil, by simp⟩).1

theorem hasPair_fromDiffs {diffs : List (DiffResult E)} :
    HasPair (fromDiffs endpointKey diffs).rangeMap range pair ↔ ∃ diff ∈ diffs,
      (range.start, range.stop) ∈ diff.mismatchedRanges ∧
      pair = new endpointKey diff.endpointA diff.endpointB := by
  refine ((foldl_addDiff diffs {} ⟨nodup_nil, by simp⟩).2 range pair).trans ?_
  simp [HasPair]

end DifferenceHolder

/-- The entry has the pairs of replicas with other contents. -/
structure RangeDifference.RecordsPairs (difference : RangeDifference E) (endpointKey : E → K)
    (replicas : List E) (content : E → TokenRange → C) : Prop where
  nodup : difference.pairs.Nodup
  mem_iff : ∀ pair, pair ∈ difference.pairs ↔ ∃ a ∈ replicas, ∃ b ∈ replicas,
    content a difference.range ≠ content b difference.range ∧ pair = new endpointKey a b

/-- A range that differs has one entry, which records the pairs that differ. -/
theorem exists_difference (hkey : Function.Injective endpointKey) {diffs : List (DiffResult E)}
    (hrecords : Records diffs replicas content)
    (hdiffers : ¬ SameContent replicas content range) :
    ∃ difference ∈ (fromDiffs endpointKey diffs).rangeMap,
      difference.range = range ∧ difference.RecordsPairs endpointKey replicas content := by
  have hindexed := indexed_fromDiffs endpointKey diffs
  have hpairs : ∀ pair, RangeMap.HasPair (fromDiffs endpointKey diffs).rangeMap
      range pair ↔ ∃ a ∈ replicas, ∃ b ∈ replicas, content a range ≠ content b range ∧
        pair = new endpointKey a b := by
    intro pair
    rw [hasPair_fromDiffs]
    constructor
    · rintro ⟨diff, hdiff, hin, rfl⟩
      obtain ⟨ha, hb, hne⟩ := (hrecords _ _ _).1 ⟨diff, hdiff, .inl ⟨rfl, rfl⟩, hin⟩
      exact ⟨_, ha, _, hb, hne, rfl⟩
    · rintro ⟨a, ha, b, hb, hne, rfl⟩
      obtain ⟨diff, hdiff, ⟨rfl, rfl⟩ | ⟨rfl, rfl⟩, hin⟩ := (hrecords a b range).2 ⟨ha, hb, hne⟩
      · exact ⟨diff, hdiff, hin, rfl⟩
      · exact ⟨diff, hdiff, hin, new_comm hkey _ _⟩
  simp only [SameContent, not_forall] at hdiffers
  obtain ⟨a, ha, b, hb, hne⟩ := hdiffers
  obtain ⟨difference, hmem, rfl, -⟩ := (hpairs _).2 ⟨a, ha, b, hb, hne, rfl⟩
  refine ⟨difference, hmem, rfl, hindexed.pairs _ hmem, fun pair => ?_⟩
  rw [← hpairs]
  refine ⟨fun hin => ⟨difference, hmem, rfl, hin⟩, ?_⟩
  rintro ⟨difference', hmem', hrange, hin⟩
  rwa [inj_on_of_nodup_map hindexed.ranges hmem hmem' hrange.symm]

theorem getD_addDisagreement (counts : E → Option Nat) (e e' : E) :
    (addDisagreement counts e' e).getD 0 = (counts e).getD 0 + if e' = e then 1 else 0 := by
  unfold addDisagreement
  by_cases h : e = e'
  · subst h
    simp
  · rw [Function.update_of_ne h, if_neg (Ne.symm h), Nat.add_zero]

theorem getD_foldl_addDisagreement (pairs : List (EndpointPair E)) (counts : E → Option Nat)
    (e : E) (hne : ∀ pair ∈ pairs, pair.left ≠ pair.right) :
    (pairs.foldl (fun counts pair =>
        addDisagreement (addDisagreement counts pair.left) pair.right) counts e).getD 0 =
      (counts e).getD 0 + pairs.countP fun pair => pair.left = e ∨ pair.right = e := by
  induction pairs generalizing counts with
  | nil => simp
  | cons pair pairs ih =>
    rw [foldl_cons, ih _ fun p hp => hne p (mem_cons_of_mem _ hp), getD_addDisagreement,
      getD_addDisagreement, countP_cons]
    have hpair := hne pair mem_cons_self
    by_cases hleft : pair.left = e
    · have hright : pair.right ≠ e := fun h => hpair (hleft.trans h.symm)
      simp [hleft, hright]
      omega
    · by_cases hright : pair.right = e
      · simp [hleft, hright]
        omega
      · simp [hleft, hright]

namespace RangeDifference.RecordsPairs

variable (h : difference.RecordsPairs endpointKey replicas content)
include h

/-- A replica disagrees with those that have another content. -/
theorem getD_disagreementCounts [DecidableEq C] (hkey : Function.Injective endpointKey)
    (he : e ∈ replicas) :
    (disagreementCounts difference e).getD 0 = (replicas.toFinset.filter fun b =>
        content b difference.range ≠ content e difference.range).card := by
  have hne : ∀ pair ∈ difference.pairs, pair.left ≠ pair.right := by
    intro pair hpair heq
    obtain ⟨a, -, b, -, hne, rfl⟩ := (h.mem_iff pair).1 hpair
    rcases new_eq endpointKey a b with hnew | hnew <;> rw [hnew] at heq
    · exact hne (congrArg (content · _) heq)
    · exact hne (congrArg (content · _) heq.symm)
  rw [disagreementCounts, getD_foldl_addDisagreement _ _ _ hne, countP_eq_length_filter,
    ← toFinset_card_of_nodup (h.nodup.filter _)]
  simp only [Option.getD_none, Nat.zero_add]
  symm
  refine Finset.card_bij (fun b _ => new endpointKey e b) ?_ ?_ ?_
  · intro b hb
    obtain ⟨hb, hne'⟩ := Finset.mem_filter.1 hb
    refine mem_toFinset.2 (mem_filter.2 ⟨(h.mem_iff _).2
      ⟨e, he, b, mem_toFinset.1 hb, Ne.symm hne', rfl⟩, ?_⟩)
    rcases new_eq endpointKey e b with hnew | hnew <;> simp [hnew]
  · intro b _ b' _ heq
    exact new_right_injective endpointKey e heq
  · intro pair hpair
    obtain ⟨hpair, hin⟩ := mem_filter.1 (mem_toFinset.1 hpair)
    obtain ⟨a, ha, b, hb, hcontent, rfl⟩ := (h.mem_iff pair).1 hpair
    have hside : a = e ∨ b = e := by
      rcases new_eq endpointKey a b with hnew | hnew <;>
        simpa [hnew, or_comm] using hin
    rcases hside with rfl | rfl
    · exact ⟨b, Finset.mem_filter.2 ⟨mem_toFinset.2 hb, Ne.symm hcontent⟩, rfl⟩
    · exact ⟨a, Finset.mem_filter.2 ⟨mem_toFinset.2 ha, hcontent⟩,
        new_comm hkey _ _⟩

theorem disagreementCounts_add_agreeing [DecidableEq C] (hkey : Function.Injective endpointKey)
    (he : e ∈ replicas) :
    (disagreementCounts difference e).getD 0 + agreeing replicas content difference.range e =
      replicas.toFinset.card := by
  rw [h.getD_disagreementCounts hkey he, agreeing, add_comm]
  exact Finset.card_filter_add_card_filter_not _

end RangeDifference.RecordsPairs

theorem mem_dedupNeighbours {l : List E} : e ∈ dedupNeighbours l ↔ e ∈ l := by
  fun_induction dedupNeighbours l with
  | case1 => exact Iff.rfl
  | case2 => exact Iff.rfl
  | case3 a rest ih => simp [ih]
  | case4 a b rest hne ih => rw [mem_cons, mem_cons, ih]

@[simp] theorem mem_sortedEndpoints : e ∈ sortedEndpoints endpointKey replicas ↔ e ∈ replicas := by
  rw [sortedEndpoints, mem_dedupNeighbours, mem_insertionSort]

/-- The tasks stream the range from the source to the target. -/
def Streams (tasks : List (SyncTaskDescriptor E)) (range : TokenRange) (source target : E) : Prop :=
  ∃ task ∈ tasks, task.source = source ∧ task.target = target ∧
    (range.start, range.stop) ∈ task.ranges

/-- A replica's content after the repair is the least upper bound of what it has and receives. -/
theorem execute_le_iff [SemilatticeSup C] {tasks : List (SyncTaskDescriptor E)} {x : C} :
    execute content tasks e range ≤ x ↔
      content e range ≤ x ∧ ∀ source, Streams tasks range source e → content source range ≤ x := by
  suffices hfold : ∀ now : E → TokenRange → C, tasks.foldl (fun now task e range =>
      if e = task.target ∧ (range.start, range.stop) ∈ task.ranges then
        now e range ⊔ content task.source range
      else now e range) now e range ≤ x ↔
      now e range ≤ x ∧ ∀ source, Streams tasks range source e → content source range ≤ x from
    hfold content
  induction tasks with
  | nil => simp [Streams]
  | cons task tasks ih =>
    intro now
    rw [foldl_cons, ih]
    simp only [Streams, exists_mem_cons_iff, or_imp, forall_and]
    by_cases htask : e = task.target ∧ (range.start, range.stop) ∈ task.ranges
    · rw [if_pos htask, sup_le_iff, and_assoc]
      simp [htask.1.symm, htask.2]
    · rw [if_neg htask]
      have hnone : ∀ source, ¬ (task.source = source ∧ task.target = e ∧
          (range.start, range.stop) ∈ task.ranges) := fun _ h => htask ⟨h.2.1.symm, h.2.2⟩
      simp [hnone]

theorem range_of_mem_syncTasks {task : SyncTaskDescriptor E}
    (h : task ∈ syncTasks endpointKey replicas keyspace table difference) :
    task.ranges = [(difference.range.start, difference.range.stop)] := by
  unfold syncTasks at h
  dsimp only at h
  split at h
  · exact absurd h not_mem_nil
  split at h
  · exact absurd h not_mem_nil
  split_ifs at h
  · obtain ⟨pair, -, hpair⟩ := mem_flatMap.1 h
    simp only [mem_cons, not_mem_nil, or_false] at hpair
    rcases hpair with rfl | rfl <;> rfl
  · obtain ⟨target, -, rfl⟩ := mem_map.1 h
    rfl

/-- Only the entry of a range gives tasks for it. -/
theorem streams_plan (keyspace table : String) {holder : DifferenceHolder E}
    (hindexed : RangeMap.Indexed holder.rangeMap)
    (hmem : difference ∈ holder.rangeMap) :
    Streams (createAsymmetricSyncPlan endpointKey holder replicas keyspace table)
      difference.range source e ↔
    Streams (syncTasks endpointKey replicas keyspace table difference) difference.range
      source e := by
  constructor
  · rintro ⟨task, htask, hsource, htarget, hrange⟩
    obtain ⟨difference', hmem', htask'⟩ := mem_flatMap.1 htask
    have hsame : difference'.range = difference.range := by
      rw [range_of_mem_syncTasks htask', mem_singleton, Prod.mk.injEq] at hrange
      cases hr : difference.range
      cases hr' : difference'.range
      simp_all
    obtain rfl := inj_on_of_nodup_map hindexed.ranges hmem' hmem hsame
    exact ⟨task, htask', hsource, htarget, hrange⟩
  · rintro ⟨task, htask, hrest⟩
    exact ⟨task, mem_flatMap.2 ⟨difference, hmem, htask⟩, hrest⟩

/-- Either no replica has more disagreements than others and all pairs are streamed both ways, or
one with the fewest streams to those with more. -/
theorem syncTasks_cases (endpointKey : E → K) (keyspace table : String)
    (hreplicas : replicas ≠ []) (difference : RangeDifference E) :
    let count := fun e => (disagreementCounts difference e).getD 0
    let tasks := syncTasks endpointKey replicas keyspace table difference
    ((∀ a ∈ replicas, ∀ b ∈ replicas, count a = count b) ∧
      ∀ source target, Streams tasks difference.range source target ↔
        ⟨source, target⟩ ∈ difference.pairs ∨ ⟨target, source⟩ ∈ difference.pairs) ∨
    ∃ source ∈ replicas, (∀ e ∈ replicas, count source ≤ count e) ∧
      (∃ e ∈ replicas, count source < count e) ∧
      ∀ source' target, Streams tasks difference.range source' target ↔
        source' = source ∧ target ∈ replicas ∧ count source < count target := by
  intro count tasks
  set candidates := sortedEndpoints endpointKey replicas with hcandidates
  have hmem : ∀ e, e ∈ candidates ↔ e ∈ replicas := fun e => mem_sortedEndpoints
  obtain ⟨e, he⟩ := exists_mem_of_ne_nil replicas hreplicas
  obtain ⟨minCount, hmin⟩ : ∃ m, (candidates.map count).min? = some m := by
    refine Option.ne_none_iff_exists'.1 fun hnone => ?_
    rw [List.min?_eq_none_iff, map_eq_nil_iff] at hnone
    exact absurd ((hmem e).2 he) (hnone ▸ not_mem_nil)
  obtain ⟨hattained, hle⟩ := List.min?_eq_some_iff.1 hmin
  obtain ⟨first, hfirst, hcount⟩ := mem_map.1 hattained
  obtain ⟨source, hfind⟩ := Option.isSome_iff_exists.1
    (List.find?_isSome (p := fun e => decide (count e = minCount)).2
      ⟨first, hfirst, decide_eq_true hcount⟩)
  have hsource : source ∈ replicas := (hmem _).1 (mem_of_find?_eq_some hfind)
  have hsourceCount : count source = minCount := by
    simpa using List.find?_some hfind
  have hleast : ∀ e ∈ replicas, count source ≤ count e := fun e he =>
    hsourceCount ▸ hle _ (mem_map_of_mem ((hmem e).2 he))
  have htasks : tasks = if (candidates.filter fun e => count e > minCount) = [] then
      (sortedPairs endpointKey difference.pairs).flatMap fun pair =>
        [syncTask pair.left pair.right difference.range keyspace table,
          syncTask pair.right pair.left difference.range keyspace table]
      else ((candidates.filter fun e => count e > minCount).insertionSort
        fun a b => endpointKey a ≤ endpointKey b).map fun target =>
          syncTask source target difference.range keyspace table := by
    simp only [tasks, syncTasks, ← hcandidates]
    rw [hmin]
    dsimp only
    rw [hfind]
  rw [htasks]
  by_cases htied : (candidates.filter fun e => count e > minCount) = []
  · left
    rw [if_pos htied]
    rw [filter_eq_nil_iff] at htied
    have hall : ∀ e ∈ replicas, count e = minCount := by
      intro e he
      have hnot := htied e ((hmem e).2 he)
      have hge := hleast e he
      simp only [gt_iff_lt, decide_eq_true_eq] at hnot
      omega
    refine ⟨fun a ha b hb => (hall a ha).trans (hall b hb).symm, fun s t => ?_⟩
    constructor
    · rintro ⟨task, htask, rfl, rfl, -⟩
      obtain ⟨pair, hpair, hin⟩ := mem_flatMap.1 htask
      rw [sortedPairs, mem_insertionSort] at hpair
      simp only [mem_cons, not_mem_nil, or_false] at hin
      rcases hin with rfl | rfl
      · exact .inl hpair
      · exact .inr hpair
    · rintro (hpair | hpair) <;>
        exact ⟨syncTask s t difference.range keyspace table,
          mem_flatMap.2 ⟨_, (mem_insertionSort _).2 hpair, by simp⟩, rfl, rfl,
          mem_singleton_self _⟩
  · right
    rw [if_neg htied]
    refine ⟨source, hsource, hleast, ?_, fun s t => ?_⟩
    · obtain ⟨target, htarget⟩ := exists_mem_of_ne_nil _ htied
      obtain ⟨hin, hmore⟩ := mem_filter.1 htarget
      exact ⟨target, (hmem _).1 hin, hsourceCount ▸ of_decide_eq_true hmore⟩
    · simp only [Streams, mem_map, mem_insertionSort, mem_filter, hmem, gt_iff_lt,
        decide_eq_true_eq, hsourceCount]
      constructor
      · rintro ⟨_, ⟨target, hin, rfl⟩, rfl, rfl, -⟩
        exact ⟨rfl, hin⟩
      · rintro ⟨rfl, hin⟩
        exact ⟨_, ⟨t, hin, rfl⟩, rfl, rfl, mem_singleton_self _⟩

section

variable [SemilatticeSup C] [DecidableEq C] {tasks : List (SyncTaskDescriptor E)}

omit [SemilatticeSup C] in
theorem agreeing_congr (replicas : List E) (heq : content a range = content b range) :
    agreeing replicas content range a = agreeing replicas content range b := by
  rw [agreeing, agreeing, heq]

omit [DecidableEq C] in
/-- If one replica streams to those with more disagreements, all end equal just if its content
includes all others and is that of the remaining replicas. -/
theorem sameContent_iff_of_source (count : E → Nat) (hsource : source ∈ replicas)
    (hstreams : ∀ source' target, Streams tasks range source' target ↔
      source' = source ∧ target ∈ replicas ∧ count source < count target) :
    SameContent replicas (execute content tasks) range ↔
      ∀ e ∈ replicas, content e range ≤ content source range ∧
        (content e range ≠ content source range → count source < count e) := by
  have hle : ∀ e ∈ replicas, ∀ x, execute content tasks e range ≤ x ↔ content e range ≤ x ∧
        (count source < count e → content source range ≤ x) := by
    intro e he x
    rw [execute_le_iff]
    refine and_congr_right fun _ => ⟨fun hall hmore => ?_, fun hall s hs => ?_⟩
    · exact hall source ((hstreams _ _).2 ⟨rfl, he, hmore⟩)
    · obtain ⟨rfl, -, hmore⟩ := (hstreams _ _).1 hs
      exact hall hmore
  have hkept : ∀ e ∈ replicas, ¬ count source < count e →
      execute content tasks e range = content e range := by
    intro e he hnot
    refine eq_of_forall_ge_iff fun x => (hle e he x).trans ?_
    exact ⟨And.left, fun hown => ⟨hown, fun hmore => absurd hmore hnot⟩⟩
  have hsourceKept := hkept source hsource (lt_irrefl _)
  constructor
  · intro hsame e he
    have heq := (hsame e he source hsource).trans hsourceKept
    refine ⟨((hle e he _).1 heq.le).1, fun hne => ?_⟩
    by_contra hnot
    exact hne ((hkept e he hnot).symm.trans heq)
  · intro hall
    have heq : ∀ e ∈ replicas, execute content tasks e range =
        content source range := by
      intro e he
      obtain ⟨hbelow, hmore⟩ := hall e he
      by_cases htarget : count source < count e
      · exact le_antisymm ((hle e he _).2 ⟨hbelow, fun _ => le_rfl⟩)
          (((hle e he _).1 le_rfl).2 htarget)
      · rw [hkept e he htarget]
        by_contra hne
        exact htarget (hmore hne)
    intro a ha b hb
    rw [heq a ha, heq b hb]

namespace RangeDifference.RecordsPairs

variable (h : difference.RecordsPairs endpointKey replicas content)
include h

omit [SemilatticeSup C] [DecidableEq C] [DecidableEq E] in
theorem mem_pairs_iff : ⟨a, b⟩ ∈ difference.pairs ∨ ⟨b, a⟩ ∈ difference.pairs ↔
      a ∈ replicas ∧ b ∈ replicas ∧ content a difference.range ≠ content b difference.range := by
  have hpair : ∀ {a b}, ⟨a, b⟩ ∈ difference.pairs → a ∈ replicas ∧ b ∈ replicas ∧
        content a difference.range ≠ content b difference.range := by
    intro a b hin
    obtain ⟨a', ha, b', hb, hne, heq⟩ := (h.mem_iff _).1 hin
    rcases new_eq endpointKey a' b' with hnew | hnew <;>
      rw [hnew, EndpointPair.mk.injEq] at heq <;> obtain ⟨rfl, rfl⟩ := heq
    · exact ⟨ha, hb, hne⟩
    · exact ⟨hb, ha, hne.symm⟩
  constructor
  · rintro (hin | hin)
    · exact hpair hin
    · exact ⟨(hpair hin).2.1, (hpair hin).1, (hpair hin).2.2.symm⟩
  · rintro ⟨ha, hb, hne⟩
    have hin := (h.mem_iff _).2 ⟨a, ha, b, hb, hne, rfl⟩
    rcases new_eq endpointKey a b with hnew | hnew <;> rw [hnew] at hin
    · exact .inl hin
    · exact .inr hin

theorem sameContent_of_tied
    (hstreams : ∀ source target, Streams tasks difference.range source target ↔
      ⟨source, target⟩ ∈ difference.pairs ∨ ⟨target, source⟩ ∈ difference.pairs) :
    SameContent replicas (execute content tasks) difference.range := by
  have hle : ∀ e ∈ replicas, ∀ x, execute content tasks e difference.range ≤ x ↔
      ∀ b ∈ replicas, content b difference.range ≤ x := by
    intro e he x
    simp only [execute_le_iff, hstreams, h.mem_pairs_iff]
    constructor
    · rintro ⟨hown, hothers⟩ b hb
      by_cases hne : content b difference.range = content e difference.range
      · exact hne ▸ hown
      · exact hothers b ⟨hb, he, hne⟩
    · intro hall
      exact ⟨hall e he, fun source hsource => hall source hsource.1⟩
  intro a ha b hb
  exact eq_of_forall_ge_iff fun x => (hle a ha x).trans (hle b hb x).symm

/-- On a range that differs, the plan leaves one content just if the range is mendable. -/
theorem sameContent_iff_mendable (hkey : Function.Injective endpointKey) (hreplicas : replicas ≠ [])
    (hstreams : ∀ source target, Streams tasks difference.range source target ↔
      Streams (syncTasks endpointKey replicas keyspace table difference) difference.range
        source target) :
    SameContent replicas (execute content tasks) difference.range ↔
      Mendable replicas content difference.range := by
  have htotal : ∀ e ∈ replicas, (disagreementCounts difference e).getD 0 +
      agreeing replicas content difference.range e = replicas.toFinset.card :=
    fun e he => h.disagreementCounts_add_agreeing hkey he
  obtain ⟨htied, htasks⟩ | ⟨source, hsource, hleast, ⟨target, htarget, hmore⟩, htasks⟩ :=
    syncTasks_cases endpointKey keyspace table hreplicas difference <;>
    dsimp only at *
  · have hsame := h.sameContent_of_tied fun s t => (hstreams s t).trans (htasks s t)
    refine iff_of_true hsame (.inl fun a ha b hb => ?_)
    have hcounts := htied a ha b hb
    have hatotal := htotal a ha
    have hbtotal := htotal b hb
    omega
  · rw [sameContent_iff_of_source (fun e => (disagreementCounts difference e).getD 0) hsource
      fun s t => (hstreams s t).trans (htasks s t)]
    have hsourceTotal := htotal source hsource
    constructor
    · intro hall
      refine .inr ⟨source, hsource, fun e he => ⟨(hall e he).1, fun hne => ?_⟩⟩
      have hcount := (hall e he).2 hne
      have hetotal := htotal e he
      omega
    · rintro (hequal | ⟨best, hbest, hall⟩)
      · have hagree := hequal source hsource target htarget
        have htargetTotal := htotal target htarget
        omega
      · have hbestTotal := htotal best hbest
        have hbestCount := hleast best hbest
        have hcontent : content source difference.range = content best difference.range := by
          by_contra hne
          have hless := (hall source hsource).2 hne
          omega
        have hagree := agreeing_congr replicas hcontent
        intro e he
        rw [hcontent]
        refine ⟨(hall e he).1, fun hne => ?_⟩
        have hless := (hall e he).2 hne
        have hetotal := htotal e he
        omega

end RangeDifference.RecordsPairs

/-- The plan converges just if every range that differs has a content that most replicas have and
that includes the others, or contents of equally many replicas. -/
theorem converges_iff (endpointKey : E → K) (hkey : Function.Injective endpointKey)
    (diffs : List (DiffResult E)) (replicas : List E) (content : E → TokenRange → C)
    (hrecords : Records diffs replicas content) (keyspace table : String) :
    Converges endpointKey diffs replicas content keyspace table ↔
      ∀ range, ¬ SameContent replicas content range → Mendable replicas content range := by
  refine forall_congr' fun range => forall_congr' fun hdiffers => ?_
  obtain ⟨difference, hmem, rfl, hpairs⟩ := exists_difference hkey hrecords hdiffers
  have hreplicas : replicas ≠ [] := by
    rintro rfl
    exact hdiffers fun a ha => absurd ha not_mem_nil
  exact hpairs.sameContent_iff_mendable hkey hreplicas fun s t =>
    streams_plan keyspace table (indexed_fromDiffs endpointKey diffs) hmem

end

/-- The first two of three replicas have one set of rows in a range, the last has another one. -/
def twoAgainstOne (rows row : Finset ℕ) (e : Fin 3) (range : TokenRange) : Finset ℕ :=
  if range = ⟨0, 100⟩ then if e = 2 then row else rows else ∅

def twoAgainstOneDiffs : List (DiffResult (Fin 3)) := [⟨0, 2, [(0, 100)]⟩, ⟨2, 1, [(0, 100)]⟩]

theorem records_twoAgainstOne {rows row : Finset ℕ} (hne : rows ≠ row) :
    Records twoAgainstOneDiffs [0, 1, 2] (twoAgainstOne rows row) := by
  intro a b range
  have hbounds : (range.start, range.stop) = (0, 100) ↔ range = ⟨0, 100⟩ := by
    cases range
    simp
  by_cases hrange : range = ⟨0, 100⟩
  · subst hrange
    fin_cases a <;> fin_cases b <;> simp [twoAgainstOneDiffs, twoAgainstOne, hne, hne.symm]
  · simp [twoAgainstOneDiffs, twoAgainstOne, hrange, hbounds]

theorem converges_missingRow :
    Converges id twoAgainstOneDiffs [0, 1, 2] (twoAgainstOne {1} ∅) "ks" "tbl" := by
  refine (converges_iff id Function.injective_id _ _ _ (records_twoAgainstOne (by decide)) _ _).2 ?_
  intro range hdiffers
  by_cases hrange : range = ⟨0, 100⟩
  · subst hrange
    exact .inr ⟨0, by decide, by decide⟩
  · exact absurd (fun a _ b _ => by simp [twoAgainstOne, hrange]) hdiffers

/-- A row that only the last replica has is not given to the others. -/
theorem not_converges_extraRow : Records twoAgainstOneDiffs [0, 1, 2] (twoAgainstOne ∅ {1}) ∧
      ¬ Converges id twoAgainstOneDiffs [0, 1, 2] (twoAgainstOne ∅ {1}) "ks" "tbl" := by
  refine ⟨records_twoAgainstOne (by decide), fun h => ?_⟩
  have hsame := h ⟨0, 100⟩ (fun hsame => absurd (hsame 0 (by decide) 2 (by decide)) (by decide))
    0 (by decide) 2 (by decide)
  exact absurd hsame (by decide)

end CassandraVerified.Repair
