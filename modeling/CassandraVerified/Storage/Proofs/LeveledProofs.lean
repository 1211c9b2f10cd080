import CassandraVerified.Storage.Leveled
import Mathlib.Data.List.Pairwise

/-!
# Proofs: leveled compaction

What a compaction selects from the next level are the SSTables that meet a window, the hull of what
it compacts. They widen the window, but only over keys that no other SSTable of their level has.
-/

namespace CassandraVerified.Storage

open List LeveledSSTable Option

variable {group : List LeveledSSTable}

theorem getElem?_sstableLevels (sstables : List LeveledSSTable) (n : Nat) :
    (sstableLevels sstables)[n]?.getD [] = sstables.filter (·.level = n) := by
  have hfold : ∀ (l : List LeveledSSTable) (m : Std.ExtTreeMap Nat (List LeveledSSTable)),
      (l.foldl (fun levels s => levels.alter s.level fun l => some (l.getD [] ++ [s])) m)[n]?.getD
        [] = m[n]?.getD [] ++ l.filter (·.level = n) := by
    intro l
    induction l with
    | nil => simp
    | cons s l ih =>
      intro m
      rw [foldl_cons, ih, Std.ExtTreeMap.getElem?_alter]
      by_cases hlevel : s.level = n
      · subst hlevel
        simp
      · simp [hlevel]
  have hall := hfold sstables ∅
  rwa [Std.ExtTreeMap.getElem?_empty, getD_none, nil_append] at hall

instance : Std.Symm Apart := ⟨fun _ _ => Or.symm⟩

/-- The ends of the hull are ends of members. -/
theorem mem_hull {range : Nat × Nat} (h : range ∈ hull group) :
    (∃ s ∈ group, s.minKeyHash = range.1) ∧ ∃ s ∈ group, s.maxKeyHash = range.2 := by
  simp only [hull, mem_def, bind_eq_bind, bind_eq_some_iff] at h
  obtain ⟨lo, hlo, hi, hhi, hrange⟩ := h
  cases hrange
  exact ⟨mem_map.mp (List.min?_mem hlo), mem_map.mp (List.max?_mem hhi)⟩

section Window

variable {lo hi : Nat} {t : LeveledSSTable}

/-- A selection is hulled by a window and the SSTables of a level that meet the window. -/
structure Selects (lo hi : Nat) (level group : List LeveledSSTable) : Prop where
  mem : ∀ s ∈ group, (lo ≤ s.minKeyHash ∧ s.maxKeyHash ≤ hi) ∨ s ∈ overlapping lo hi level
  all : ∀ s ∈ overlapping lo hi level, s ∈ group

/-- A range on one side of the window is on that side of everything that is selected. -/
theorem Selects.hull_apart {level : List LeveledSSTable} (h : Selects lo hi level group)
    (hranges : ∀ s ∈ level, s.minKeyHash ≤ s.maxKeyHash) (hapart : level.Pairwise Apart)
    (ht : t ∈ level) (hunselected : t ∉ group) {range : Nat × Nat} (hhull : range ∈ hull group) :
    t.maxKeyHash < range.1 ∨ range.2 < t.minKeyHash := by
  obtain ⟨⟨a, ha, hamin⟩, b, hb, hbmax⟩ := mem_hull hhull
  have hside : t.maxKeyHash < lo ∨ hi < t.minKeyHash := by
    by_contra hmeets
    refine hunselected (h.all t (mem_filter.mpr ⟨ht, ?_⟩))
    simp only [decide_eq_true_eq]
    omega
  have hother : ∀ s ∈ overlapping lo hi level, s.Apart t ∧ s.minKeyHash ≤ s.maxKeyHash ∧
      lo ≤ s.maxKeyHash ∧ s.minKeyHash ≤ hi := by
    intro s hs
    obtain ⟨hlevel, hmeets⟩ := mem_filter.mp hs
    have hne : s ≠ t := fun heq => hunselected (heq ▸ h.all s hs)
    simp only [decide_eq_true_eq] at hmeets
    exact ⟨hapart.forall hlevel ht hne, hranges s hlevel, hmeets⟩
  have hrange := hranges t ht
  rcases hside with hleft | hright
  · left
    rcases h.mem a ha with hin | hover
    · omega
    · obtain ⟨hsep, hra⟩ := hother a hover
      unfold Apart at hsep
      omega
  · right
    rcases h.mem b hb with hin | hover
    · omega
    · obtain ⟨hsep, hrb⟩ := hother b hover
      unfold Apart at hsep
      omega

end Window

namespace LeveledCompactionStrategy

variable {F : Type} {f : F64 F} {self : LeveledCompactionStrategy} {sstables : List LeveledSSTable}

theorem selects_pickL0 (l0 : List LeveledSSTable) (l1 : Option (List LeveledSSTable)) :
    Selects ((l0.map minKeyHash).min?.getD 0) ((l0.map maxKeyHash).max?.getD (2 ^ 64 - 1))
      (l1.getD []) (self.pickL0 l0 l1) where
  mem s hs := by
    rcases mem_append.mp hs with hs | hs
    · have hmem := mem_of_mem_take hs
      have hmin : s.minKeyHash ∈ l0.map minKeyHash := mem_map_of_mem hmem
      have hmax : s.maxKeyHash ∈ l0.map maxKeyHash := mem_map_of_mem hmem
      refine .inl ⟨?_, ?_⟩
      · cases hlo : (l0.map minKeyHash).min? with
        | none => exact Nat.zero_le _
        | some lo => exact (List.min?_eq_some_iff.mp hlo).2 _ hmin
      · cases hhi : (l0.map maxKeyHash).max? with
        | none => simp [List.max?_eq_none_iff.mp hhi] at hmax
        | some hi => exact (List.max?_eq_some_iff.mp hhi).2 _ hmax
    · exact .inr hs
  all s hs := mem_append_right _ hs

theorem selects_pickOldest {ssts : List LeveledSSTable} {next : Option (List LeveledSSTable)}
    (h : pickOldest ssts next = some group) :
    ∃ oldest ∈ ssts, Selects oldest.minKeyHash oldest.maxKeyHash (next.getD []) group := by
  obtain ⟨oldest, holdest, rfl⟩ := map_eq_some_iff.mp h
  refine ⟨oldest, List.minOn?_mem holdest, fun s hs => ?_, fun s hs => mem_cons_of_mem _ hs⟩
  rcases mem_cons.mp hs with rfl | hs
  · exact .inl ⟨Nat.le_refl _, Nat.le_refl _⟩
  · exact .inr hs

/-- Whatever level is compacted, the selection is a window with what meets it in the next level. -/
theorem selects_of_selectLeveledCompaction {n : Nat}
    (h : self.selectLeveledCompaction f sstables = some (n, group)) :
    ∃ lo hi, Selects lo hi (sstables.filter (·.level = (n + 1) % 2 ^ 32)) group := by
  simp only [selectLeveledCompaction] at h
  split at h
  · next l0 _ =>
    cases h
    rw [← getElem?_sstableLevels]
    exact ⟨_, _, selects_pickL0 l0 _⟩
  · simp only [bind_eq_bind, bind_eq_some_iff] at h
    obtain ⟨level, -, ssts, -, group', hgroup, hpair⟩ := h
    cases hpair
    rw [← getElem?_sstableLevels]
    obtain ⟨oldest, -, hselects⟩ := selects_pickOldest hgroup
    exact ⟨_, _, hselects⟩

/-- A compaction into the next level keeps it disjoint: the hull of what is picked meets no other
SSTable there. -/
theorem hull_apart_of_pick {n : Nat} {group : List LeveledSSTable}
    (hranges : ∀ s ∈ sstables, s.minKeyHash ≤ s.maxKeyHash)
    (hlevels : ∀ s ∈ sstables, s.level < 2 ^ 32)
    (hapart : (sstables.filter (·.level = n + 1)).Pairwise Apart)
    (hselect : self.selectLeveledCompaction f sstables = some (n, group)) :
    self.pickLeveledCompaction f sstables = [group.map LeveledSSTable.id] ∧
      ∀ t ∈ sstables, t.level = n + 1 → t ∉ group →
        ∀ range ∈ hull group, t.maxKeyHash < range.1 ∨ range.2 < t.minKeyHash := by
  refine ⟨by rw [pickLeveledCompaction, hselect]; rfl, fun t ht hlevel hunselected range hrange => ?_⟩
  have hlt := hlevels t ht
  obtain ⟨lo, hi, hselects⟩ := selects_of_selectLeveledCompaction hselect
  rw [Nat.mod_eq_of_lt (hlevel ▸ hlt)] at hselects
  refine hselects.hull_apart (fun s hs => hranges s (mem_of_mem_filter hs)) hapart ?_
    hunselected hrange
  exact mem_filter.mpr ⟨ht, by simp [hlevel]⟩

/-- Quotients without rounding. -/
def exactQuotients : F64 ℚ := ⟨0, 1, fun a b => a / b, fun a b => decide (b < a)⟩

/-- One SSTable of level 1, of more bytes than the level should have, that meets two of level 2. -/
def betweenNeighbours : List LeveledSSTable :=
  [⟨2, 1, 2, 10, 35⟩, ⟨4, 1, 2, 81, 90⟩, ⟨1, 2000000000, 1, 30, 50⟩, ⟨3, 1, 2, 50, 80⟩]

theorem hull_apart_of_pick_betweenNeighbours :
    hull [⟨1, 2000000000, 1, 30, 50⟩, ⟨2, 1, 2, 10, 35⟩, ⟨3, 1, 2, 50, 80⟩] = some (10, 80) ∧
      (90 < 10 ∨ 80 < 81) := by
  have hselect : ({} : LeveledCompactionStrategy).selectLeveledCompaction exactQuotients
      betweenNeighbours =
      some (1, [⟨1, 2000000000, 1, 30, 50⟩, ⟨2, 1, 2, 10, 35⟩, ⟨3, 1, 2, 50, 80⟩]) := by
    decide +kernel
  exact ⟨rfl, (hull_apart_of_pick (by decide) (by decide) (by decide) hselect).2 ⟨4, 1, 2, 81, 90⟩
    (by decide) rfl (by decide) (10, 80) rfl⟩

end LeveledCompactionStrategy

end CassandraVerified.Storage
