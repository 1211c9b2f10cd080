import CassandraVerified.Storage.Backend

/-!
# Every backend is the same map

A backend refines the ordered map from keys to partitions: the relation between the two is kept by
every write, and whoever is related to a map reads as the map does. A sharded memtable is related to
a map if every shard is related to the part of the map whose tokens are its own.
-/

namespace CassandraVerified.Storage

open List
open Std (ExtTreeMap)
open MemtableBackend

variable {t : PartitionTrie} {m : Partitions}

abbrev Partitions := ExtTreeMap Bytes PartitionData

def Partitions.write (m : Partitions) (partitionKey : Bytes) (w : Write) : Partitions :=
  m.alter partitionKey fun p => some ((p.getD .empty).apply w)

/-- The bytes that a write counts against the flush threshold. -/
def Write.estimatedSize : Write → Nat
  | .row r => estimateRowSize r
  | .tombstone _ _ => 0

/-- Writes keep the relation `R` between the states of a backend and maps, and related states read
as the map. -/
structure MemtableBackend.Refines {S : Type} [MemtableBackend S] (R : S → Partitions → Prop) :
    Prop where
  write : ∀ {s m}, R s m → ∀ key w, R (write s key w) (m.write key w)
  getPartition : ∀ {s m}, R s m → ∀ key, getPartition s key = m[key]?
  iterPartitions : ∀ {s m}, R s m → iterPartitions s = m.toList
  partitionCount : ∀ {s m}, R s m → partitionCount s = m.size
  memoryUsage : ∀ {s m}, R s m → ∀ key w,
    MemtableBackend.memoryUsage (MemtableBackend.write s key w) = memoryUsage s + w.estimatedSize

namespace Partitions

theorem getElem?_write_self (m : Partitions) (key : Bytes) (w : Write) :
    (m.write key w)[key]? = some ((m[key]?.getD .empty).apply w) := by
  simp [write]

theorem getElem?_write_of_ne (m : Partitions) {key k : Bytes} (h : k ≠ key) (w : Write) :
    (m.write key w)[k]? = m[k]? := by
  simp [write, ExtTreeMap.getElem?_alter, Ne.symm h]

theorem keysAscend_toList (m : Partitions) : MemtableBackend.KeysAscend m.toList :=
  m.ordered_keys_toList

end Partitions

namespace MemtableBackend

theorem refines_memtableData :
    Refines fun (d : MemtableData) (m : Partitions) => d.partitions = m where
  write := by
    rintro d m rfl key w
    cases w <;> rfl
  getPartition := by
    rintro d m rfl key
    rfl
  iterPartitions := by
    rintro d m rfl
    rfl
  partitionCount := by
    rintro d m rfl
    rfl
  memoryUsage := by
    rintro d m - key w
    cases w <;> rfl

end MemtableBackend

/-- The trie has the values of the map. -/
def PartitionTrie.Holds (t : PartitionTrie) (m : Partitions) : Prop :=
  t.WellFormed ∧ ∀ key, t.get key = m[key]?

namespace PartitionTrie.Holds

theorem empty : Holds .empty ∅ := ⟨Trie.wellFormed_empty, fun key => by simp [Trie.get_empty]⟩

theorem alter (h : t.Holds m) (key : Bytes) (w : Write) :
    Holds (t.alter (fun p => (p.getD .empty).apply w) key) (m.write key w) := by
  refine ⟨Trie.wellFormed_alter _ key h.1, fun k => ?_⟩
  by_cases hk : k = key
  · subst hk
    rw [Trie.get_alter_self _ _ h.1, h.2, Partitions.getElem?_write_self]
  · rw [Trie.get_alter_of_ne _ hk h.1, h.2, Partitions.getElem?_write_of_ne _ hk]

theorem collect (h : t.Holds m) : t.collect [] = m.toList := Trie.collect_eq_toList h.1 h.2

theorem size (h : t.Holds m) : t.size = m.size := by
  rw [← t.length_collect [], h.collect, ExtTreeMap.length_toList]

end PartitionTrie.Holds

theorem TrieMemtable.root_write (s : TrieMemtable) (key : Bytes) (w : Write) :
    (write s key w).root = s.root.alter (fun p => (p.getD .empty).apply w) key := by
  cases w <;> rfl

theorem MemtableTrie.data_write (s : MemtableTrie) (key : Bytes) (w : Write) :
    (write s key w).data = s.data.apply key fun p => (p.getD .empty).apply w := by
  cases w <;> rfl

theorem Partitions.size_write (m : Partitions) (key : Bytes) (w : Write) :
    (m.write key w).size = if m[key]?.isNone then m.size + 1 else m.size := by
  rw [Partitions.write]
  by_cases hkey : key ∈ m
  · rw [ExtTreeMap.size_alter_eq_self_of_mem hkey rfl, ExtTreeMap.getElem?_eq_some_getElem hkey]
    rfl
  · rw [ExtTreeMap.size_alter_eq_add_one hkey rfl, ExtTreeMap.getElem?_eq_none hkey]
    rfl

namespace MemtableBackend

theorem refines_trieMemtable :
    Refines fun (s : TrieMemtable) (m : Partitions) => s.root.Holds m where
  write {s m} h key w := by
    rw [TrieMemtable.root_write]
    exact h.alter key w
  getPartition h key := h.2 key
  iterPartitions h := h.collect
  partitionCount h := h.size
  memoryUsage _ key w := by cases w <;> rfl

theorem refines_memtableTrie : Refines fun (s : MemtableTrie) (m : Partitions) =>
      PartitionTrie.Holds s.data.root m ∧ s.data.entryCount = m.size where
  write := by
    rintro s m ⟨h, hcount⟩ key w
    rw [MemtableTrie.data_write]
    refine ⟨h.alter key w, ?_⟩
    rw [Partitions.size_write, ← hcount, ← h.2 key]
    rfl
  getPartition h key := h.1.2 key
  iterPartitions h := h.1.collect
  partitionCount h := h.2
  memoryUsage _ key w := by cases w <;> rfl

end MemtableBackend

theorem ShardBoundaries.shardForToken_new_lt {shardCount : Nat} (h : 0 < shardCount)
    (token : Int64) : (new shardCount).shardForToken token < shardCount := by
  unfold shardForToken
  cases hfind : (new shardCount).boundaries.findIdx? (token ≤ ·) with
  | none => simp only [Option.getD_none, new]; omega
  | some i =>
    obtain ⟨hi, -⟩ := List.findIdx?_eq_some_iff_getElem.1 hfind
    simp only [new, length_map, length_range'] at hi
    simp only [Option.getD_some]
    omega

section Shards

variable {token : Bytes → Int64} {S : Type}

namespace ShardedMemtable

def part (s : ShardedMemtable token S) (m : Partitions) (i : Nat) : Partitions :=
  m.filter fun key _ => s.shardIndex key = i

/-- Every shard has the keys whose tokens are its own. -/
structure Holds (R : S → Partitions → Prop) (s : ShardedMemtable token S) (m : Partitions) :
    Prop where
  inRange : ∀ key, s.shardIndex key < s.shards.length
  shard : ∀ i t, s.shards[i]? = some t → R t (s.part m i)

variable {R : S → Partitions → Prop} {s : ShardedMemtable token S}

theorem getElem?_part (s : ShardedMemtable token S) (m : Partitions) (i : Nat) (key : Bytes) :
    (s.part m i)[key]? = if s.shardIndex key = i then m[key]? else none := by
  rw [part, ExtTreeMap.getElem?_filter']
  split <;> cases m[key]? <;> simp [*]

theorem holds_new {shards : List S} (hpos : 0 < shards.length) (h : ∀ t ∈ shards, R t ∅) :
    Holds R (new shards : ShardedMemtable token S) ∅ where
  inRange key := ShardBoundaries.shardForToken_new_lt hpos (token key)
  shard i t ht := by
    have hempty : (new shards : ShardedMemtable token S).part ∅ i = ∅ := by
      refine ExtTreeMap.ext_getElem? fun key => ?_
      simp [getElem?_part]
    rw [hempty]
    exact h t (mem_of_getElem? ht)

theorem part_write (s : ShardedMemtable token S) (m : Partitions) (key : Bytes) (w : Write)
    (i : Nat) :
    s.part (m.write key w) i =
      if s.shardIndex key = i then (s.part m i).write key w else s.part m i := by
  refine ExtTreeMap.ext_getElem? fun k => ?_
  by_cases hk : k = key
  · subst hk
    split <;> simp [getElem?_part, Partitions.getElem?_write_self, *]
  · split <;> simp [getElem?_part, Partitions.getElem?_write_of_ne _ hk]

variable [MemtableBackend S]

theorem write_eq (s : ShardedMemtable token S) (key : Bytes) (w : Write) : write s key w =
      { s with shards := s.shards.modify (s.shardIndex key) (write · key w) } := by
  cases w <;> rfl

section

variable (href : MemtableBackend.Refines R) (h : s.Holds R m)

include href h

theorem Holds.write (key : Bytes) (w : Write) : (write s key w).Holds R (m.write key w) := by
  rw [write_eq]
  refine ⟨fun k => ?_, fun i t ht => ?_⟩
  · rw [length_modify]
    exact h.inRange k
  · rw [List.getElem?_modify] at ht
    obtain ⟨t₀, ht₀, rfl⟩ := Option.map_eq_some_iff.1 ht
    have hpart := part_write s m key w i
    change R _ (s.part (m.write key w) i)
    rw [hpart]
    split
    · exact href.write (h.shard i t₀ ht₀) key w
    · exact h.shard i t₀ ht₀

theorem Holds.getPartition (key : Bytes) : MemtableBackend.getPartition s key = m[key]? := by
  have hget := List.getElem?_eq_getElem (h.inRange key)
  change (s.shards[s.shardIndex key]?).bind _ = _
  rw [hget, Option.bind_some, href.getPartition (h.shard _ _ hget), getElem?_part, if_pos rfl]

theorem Holds.mem_iterPartitions {i : Nat} {t : S} (ht : s.shards[i]? = some t) {key : Bytes}
    {p : PartitionData} :
    (key, p) ∈ MemtableBackend.iterPartitions t ↔ m[key]? = some p ∧ s.shardIndex key = i := by
  rw [href.iterPartitions (h.shard i t ht), ExtTreeMap.mem_toList_iff_getElem?_eq_some,
    getElem?_part]
  split <;> simp [*]

theorem Holds.flatMap_perm : (s.shards.flatMap iterPartitions).Perm m.toList := by
  have hnodup : (s.shards.flatMap iterPartitions).Nodup := by
    rw [nodup_flatMap]
    refine ⟨fun t ht => ?_, pairwise_iff_getElem.2 fun i j hi hj hij => ?_⟩
    · obtain ⟨i, hi⟩ := mem_iff_getElem?.1 ht
      rw [href.iterPartitions (h.shard i t hi)]
      exact (Partitions.keysAscend_toList _).imp fun hlt heq => by simp [heq] at hlt
    · rintro ⟨key, p⟩ hp hp'
      have hi' := ((h.mem_iterPartitions href (List.getElem?_eq_getElem hi)).1 hp).2
      have hj' := ((h.mem_iterPartitions href (List.getElem?_eq_getElem hj)).1 hp').2
      omega
  refine (perm_ext_iff_of_nodup hnodup ?_).2 ?_
  · exact (Partitions.keysAscend_toList _).imp fun hlt heq => by simp [heq] at hlt
  · rintro ⟨key, p⟩
    rw [mem_flatMap, ExtTreeMap.mem_toList_iff_getElem?_eq_some]
    constructor
    · rintro ⟨t, ht, hp⟩
      obtain ⟨i, hi⟩ := mem_iff_getElem?.1 ht
      exact ((h.mem_iterPartitions href hi).1 hp).1
    · intro hp
      have hget := List.getElem?_eq_getElem (h.inRange key)
      exact ⟨_, mem_of_getElem? hget, (h.mem_iterPartitions href hget).2 ⟨hp, rfl⟩⟩

theorem memoryUsage_write (key : Bytes) (w : Write) : memoryUsage (write s key w) =
      MemtableBackend.memoryUsage s + w.estimatedSize := by
  obtain ⟨before, t, after, hshards, hlen, hmodify⟩ :=
    exists_of_modify (write · key w) (h.inRange key)
  have ht : s.shards[s.shardIndex key]? = some t := by
    rw [hshards, ← hlen]
    simp
  have hshard := href.memoryUsage (h.shard _ t ht) key w
  rw [write_eq]
  change ((s.shards.modify _ _).map memoryUsage).sum = (s.shards.map memoryUsage).sum + _
  rw [hmodify, hshards]
  simp only [map_append, map_cons, sum_append, sum_cons, hshard]
  omega

theorem Holds.partitionCount : partitionCount s = m.size := by
  have hcount : ∀ t ∈ s.shards, MemtableBackend.partitionCount t = (iterPartitions t).length := by
    intro t ht
    obtain ⟨i, hi⟩ := mem_iff_getElem?.1 ht
    rw [href.partitionCount (h.shard i t hi), href.iterPartitions (h.shard i t hi),
      ExtTreeMap.length_toList]
  calc MemtableBackend.partitionCount s
      = (s.shards.map fun t => (iterPartitions t).length).sum := by
        rw [← map_congr_left hcount]
        rfl
    _ = (s.shards.flatMap iterPartitions).length := length_flatMap.symm
    _ = m.size := by rw [(h.flatMap_perm href).length_eq, ExtTreeMap.length_toList]

end

end ShardedMemtable

theorem MemtableBackend.refines_shardedMemtable [MemtableBackend S] {R : S → Partitions → Prop}
    (href : Refines R) : Refines fun (s : ShardedMemtable token S) m => s.Holds R m where
  write h key w := h.write href key w
  getPartition h key := h.getPartition href key
  iterPartitions h := TreeMap.mergeSort_eq_toList (h.flatMap_perm href)
  partitionCount h := h.partitionCount href
  memoryUsage h key w := ShardedMemtable.memoryUsage_write href h key w

end Shards

namespace MemtableBackend

variable {S S' : Type} [MemtableBackend S] [MemtableBackend S'] {R : S → Partitions → Prop}
  {R' : S' → Partitions → Prop}

theorem Refines.run (href : Refines R) (calls : List (Bytes × Write)) {s : S} (h : R s m) :
    R (run s calls) (calls.foldl (fun m call => m.write call.1 call.2) m) := by
  induction calls generalizing s m with
  | nil => exact h
  | cons call calls ih => exact ih (href.write h call.1 call.2)

theorem Refines.sameReads (href : Refines R) (href' : Refines R') {s : S} {s' : S'}
    (h : R s m) (h' : R' s' m) : SameReads s s' where
  getPartition key := (href.getPartition h key).trans (href'.getPartition h' key).symm
  iterPartitions := (href.iterPartitions h).trans (href'.iterPartitions h').symm
  ascending := by
    rw [href.iterPartitions h]
    exact m.keysAscend_toList

end MemtableBackend

theorem exists_refines_createBackend (token : Bytes → Int64) (type : MemtableType) :
    ∃ R : type.Backend token → Partitions → Prop,
      MemtableBackend.Refines R ∧ R (createBackend token type) ∅ := by
  cases type with
  | skipList => exact ⟨_, refines_memtableData, rfl⟩
  | trie => exact ⟨_, refines_trieMemtable, PartitionTrie.Holds.empty⟩
  | shardedTrie =>
    refine ⟨_, refines_shardedMemtable refines_memtableTrie,
      ShardedMemtable.holds_new (by decide) fun t ht => ?_⟩
    rw [eq_of_mem_replicate ht]
    exact ⟨PartitionTrie.Holds.empty, rfl⟩

/-- No read tells apart the backends that can be created, nor a sharded memtable with any number of
them as its shards. -/
theorem sameReads_createBackend (token : Bytes → Int64) (type type' : MemtableType)
    (shardCount : Nat) (calls : List (Bytes × Write)) :
    let shards : ShardedMemtable token (type'.Backend token) :=
      .new (List.replicate (shardCount + 1) (createBackend token type'))
    MemtableBackend.SameReads (run (createBackend token type) calls)
        (run (createBackend token type') calls) ∧
      MemtableBackend.SameReads (run (createBackend token type) calls)
        (MemtableBackend.run shards calls) := by
  intro shards
  obtain ⟨R, href, hnew⟩ := exists_refines_createBackend token type
  obtain ⟨R', href', hnew'⟩ := exists_refines_createBackend token type'
  have hshards : shards.Holds R' ∅ :=
    ShardedMemtable.holds_new (by simp) fun t ht => by rwa [eq_of_mem_replicate ht]
  have hsharded : MemtableBackend.Refines
      fun (s : ShardedMemtable token (type'.Backend token)) m => s.Holds R' m :=
    refines_shardedMemtable href'
  exact ⟨href.sameReads href' (href.run calls hnew) (href'.run calls hnew'),
    href.sameReads hsharded (href.run calls hnew) (hsharded.run calls hshards)⟩

end CassandraVerified.Storage
