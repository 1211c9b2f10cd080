import CassandraVerified.Storage.Proofs.DataProofs

/-!
# Proofs: the size of what is read

Whatever the bytes of a data file are, a partition that a reader returns is not larger, written
again, than the bytes that it was read from. So no reader gives back what did not fit the fields
when it was written.
-/

namespace CassandraVerified.Storage

open List
open Wire (Reader)
open Wire.Reader (Spends)

variable {r : Row} {p : PartitionData} {n : ℕ} {s : Source}

theorem spends_uint (width : Nat) : Spends (readUInt width) fun n m => n < 256 ^ width ∧ m = width :=
  Spends.be _ width

theorem spends_exact (length : Nat) :
    Spends (readExact length) fun bs m => bs.length = length ∧ m = length :=
  Spends.take _ length

theorem spends_u8 : Spends readU8 fun _ m => m = 1 := Spends.byte _

theorem spends_i64 : Spends readI64 fun _ m => m = 8 := (spends_uint 8).bind_pure fun _ _ h => h.2

theorem spends_i32 : Spends readI32 fun _ m => m = 4 := (spends_uint 4).bind_pure fun _ _ h => h.2

theorem spends_bytes : Spends readBytes fun bs m => bs.length < 2 ^ 32 ∧ m = 4 + bs.length := by
  refine (spends_uint 4).bind fun length n hn => (spends_exact length).mono fun bs m hm => ?_
  obtain ⟨hlt, rfl⟩ := hn
  obtain ⟨hlen, rfl⟩ := hm
  exact ⟨by rw [hlen]; simpa using hlt, by rw [hlen]⟩

theorem spends_deletionTime : Spends readDeletionTime fun _ m => m = 12 :=
  spends_i64.bind fun _ n hn => spends_i32.bind_pure fun _ m hm => by omega

theorem length_writeLocalDeletionTime (ldt : Option Int32) :
    (writeLocalDeletionTime ldt).length = if ldt.isSome then 4 else 0 := by
  cases ldt <;> simp [writeLocalDeletionTime, writeI32]

theorem spends_localDeletionTime (present : Bool) :
    Spends (readLocalDeletionTime present) fun ldt m => m = (writeLocalDeletionTime ldt).length := by
  cases present with
  | false => exact Spends.pure rfl
  | true => exact spends_i32.bind_pure fun ldt m hm => by rw [length_writeLocalDeletionTime, hm]; rfl

theorem spends_value (present : Bool) : Spends (readValue present) fun value m =>
      (∀ v ∈ value, v.length < 2 ^ 32) ∧ m = (value.elim [] writeBytes).length := by
  cases present with
  | false => exact Spends.pure ⟨by simp, rfl⟩
  | true =>
    refine spends_bytes.bind_pure fun v m hm => ⟨?_, ?_⟩
    · intro v' hv'
      cases hv'
      exact hm.1
    · simpa [writeBytes] using hm.2

theorem spends_name (length : Nat) :
    Spends (readName length) fun column m => m = (nameBytes column).length := by
  refine (spends_exact length).bind fun name n hn => ?_
  obtain ⟨hlen, rfl⟩ := hn
  cases hname : String.fromUTF8? ⟨name.toArray⟩ with
  | none => exact Spends.throw _
  | some column =>
    refine Spends.pure ?_
    have hbytes : column.toUTF8 = ⟨name.toArray⟩ := by
      unfold String.fromUTF8? at hname
      split at hname
      · cases hname
        rfl
      · cases hname
    rw [nameBytes, hbytes]
    simp [← hlen]

theorem spends_boundKind (kind : UInt8) : Spends (decodeBoundKind kind) fun _ _ => True := by
  unfold decodeBoundKind
  split_ifs
  · exact Spends.pure trivial
  · exact Spends.pure trivial
  · exact Spends.pure trivial
  · exact Spends.pure trivial
  · exact Spends.throw _

theorem spends_rangeTombstoneMarker : Spends readRangeTombstoneMarker fun _ _ => True := by
  refine spends_u8.bind fun markerKind _ _ => spends_u8.bind fun kind _ _ =>
    (spends_boundKind kind).bind fun boundKind _ _ => spends_bytes.bind fun values _ _ => ?_
  split_ifs
  · exact spends_deletionTime.bind_pure fun _ _ _ => trivial
  · exact spends_deletionTime.bind_pure fun _ _ _ => trivial
  · exact spends_deletionTime.bind fun _ _ _ => spends_deletionTime.bind_pure fun _ _ _ => trivial
  · exact spends_deletionTime.bind fun _ _ _ => Spends.throw _

theorem spends_cell : Spends readCell fun c m => c.ValueFits ∧ m = (writeCell c).length := by
  refine (spends_uint 2).bind fun length n₁ h₁ => (spends_name length).bind fun column n₂ h₂ =>
    spends_i64.bind fun timestamp n₃ h₃ => spends_i32.bind fun ttl n₄ h₄ =>
    spends_u8.bind fun flags n₅ h₅ => (spends_localDeletionTime _).bind fun ldt n₆ h₆ =>
    (spends_value _).bind_pure fun value n₇ h₇ => ⟨h₇.1, ?_⟩
  simp only [writeCell, length_append, Wire.length_beBytes, writeI64, writeI32, length_singleton]
  omega

theorem length_writeRow (ck : Bytes) (r : Row) :
    (writeRow ck r).length = 10 + ck.length + (writeLocalDeletionTime r.localDeletionTime).length +
      (r.cells.map fun c => (writeCell c).length).sum := by
  simp only [writeRow, writeBytes, length_append, Wire.length_beBytes, length_flatMap,
    length_singleton]
  omega

/-- A row as it comes out of a file: its key and its values fit their fields. -/
structure Row.FieldsFit (r : Row) : Prop where
  clusteringKey : r.clusteringKey.length < 2 ^ 32
  values : ∀ c ∈ r.cells, c.ValueFits

theorem spends_row : Spends readRow fun r m =>
    r.FieldsFit ∧ r.cells.length < 2 ^ 32 ∧ 1 + m = (writeRow r.clusteringKey r).length := by
  refine spends_bytes.bind fun clusteringKey n₁ h₁ => spends_u8.bind fun flags n₂ h₂ =>
    (spends_localDeletionTime _).bind fun ldt n₃ h₃ => (spends_uint 4).bind fun count n₄ h₄ =>
    (spends_cell.times count).bind_pure fun cells n₅ h₅ => ?_
  obtain ⟨hlen, hvalues, rfl⟩ := h₅
  refine ⟨⟨h₁.1, hvalues⟩, ?_, ?_⟩
  · rw [hlen]
    simpa using h₄.1
  · rw [length_writeRow]
    simp only
    omega

namespace Row

theorem mem_mergeCell {cells : List Cell} {c other : Cell} (h : c ∈ mergeCell cells other) :
    c ∈ cells ∨ c = other := by
  induction cells with
  | nil => exact .inr (by simpa [mergeCell] using h)
  | cons d cells ih =>
    rw [mergeCell] at h
    split at h
    · rcases mem_cons.mp h with rfl | h
      · rw [Cell.mergeWith_eq_pick]
        rcases Lww.pick_eq_or Cell.rank d other with hp | hp
        · exact .inl (by rw [hp]; exact mem_cons_self)
        · exact .inr hp
      · exact .inl (mem_cons_of_mem _ h)
    · rcases mem_cons.mp h with rfl | h
      · exact .inl mem_cons_self
      · exact (ih h).imp_left (mem_cons_of_mem _)

theorem mem_foldl_mergeCell {cells others : List Cell} {c : Cell}
    (h : c ∈ others.foldl mergeCell cells) : c ∈ cells ∨ c ∈ others := by
  induction others generalizing cells with
  | nil => exact .inl h
  | cons other others ih =>
    rcases ih h with h | h
    · rcases mem_mergeCell h with h | rfl
      · exact .inl h
      · exact .inr mem_cons_self
    · exact .inr (mem_cons_of_mem _ h)

theorem sum_mergeCell_le (w : Cell → ℕ) (cells : List Cell) (other : Cell) :
    ((mergeCell cells other).map w).sum ≤ (cells.map w).sum + w other := by
  induction cells with
  | nil => simp [mergeCell]
  | cons d cells ih =>
    rw [mergeCell]
    split
    · have hmerge : w (d.mergeWith other) ≤ w d + w other := by
        rw [Cell.mergeWith_eq_pick]
        rcases Lww.pick_eq_or Cell.rank d other with hp | hp <;> rw [hp] <;> omega
      simp only [map_cons, sum_cons]
      omega
    · simp only [map_cons, sum_cons]
      omega

theorem sum_foldl_mergeCell_le (w : Cell → ℕ) (cells others : List Cell) :
    ((others.foldl mergeCell cells).map w).sum ≤ (cells.map w).sum + (others.map w).sum := by
  induction others generalizing cells with
  | nil => simp
  | cons other others ih =>
    have hfirst := sum_mergeCell_le w cells other
    have hrest := ih (mergeCell cells other)
    rw [foldl_cons, map_cons, sum_cons]
    omega

theorem FieldsFit.mergeWith {other : Row} (h : r.FieldsFit) (hother : other.FieldsFit) :
    (r.mergeWith other).FieldsFit where
  clusteringKey := h.clusteringKey
  values c hc := (mem_foldl_mergeCell hc).elim (h.values c) (hother.values c)

theorem length_writeRow_mergeWith (ck : Bytes) (r other : Row) :
    (writeRow ck (r.mergeWith other)).length + 10 ≤
      (writeRow ck r).length + (writeRow ck other).length := by
  have hcells := sum_foldl_mergeCell_le (fun c => (writeCell c).length) r.cells other.cells
  have hldt : (writeLocalDeletionTime (r.mergeWith other).localDeletionTime).length ≤
      (writeLocalDeletionTime r.localDeletionTime).length +
        (writeLocalDeletionTime other.localDeletionTime).length := by
    unfold Row.mergeWith
    simp only
    split <;> omega
  simp only [length_writeRow, mergeWith_cells]
  omega

/-- What a row takes in a file that it was read from: with more cells than the count field can hold
it came in at least two parts. -/
def cost (r : Row) : ℕ :=
  (writeRow r.clusteringKey r).length + if 2 ^ 32 ≤ r.cells.length then 10 else 0

theorem cost_eq (h : r.cells.length < 2 ^ 32) : r.cost = (writeRow r.clusteringKey r).length := by
  rw [cost, if_neg (by omega), Nat.add_zero]

theorem cost_mergeWith_le {other : Row} (hck : r.clusteringKey = other.clusteringKey)
    (hother : other.cells.length < 2 ^ 32) : (r.mergeWith other).cost ≤ r.cost + other.cost := by
  have hmerge := length_writeRow_mergeWith r.clusteringKey r other
  rw [cost_eq hother, ← hck]
  simp only [cost, mergeWith_clusteringKey]
  split <;> omega

end Row

theorem sum_map_add_le {α : Type} {l : List α} {f g : α → ℕ} (h : ∀ a ∈ l, f a ≤ g a) {a : α}
    (ha : a ∈ l) (k : ℕ) (hk : f a + k ≤ g a) : (l.map f).sum + k ≤ (l.map g).sum := by
  obtain ⟨before, after, rfl⟩ := append_of_mem ha
  have hbefore : (before.map f).sum ≤ (before.map g).sum :=
    sum_le_sum fun b hb => h b (by simp [hb])
  have hafter : (after.map f).sum ≤ (after.map g).sum := sum_le_sum fun b hb => h b (by simp [hb])
  simp only [map_append, map_cons, sum_append, sum_cons]
  omega

namespace PartitionData

/-- What a partition takes in a file that it was read from, without the end marker. -/
def cost (p : PartitionData) : ℕ := (p.tombstone.elim 0 fun _ => 13) + (p.rowList.map Row.cost).sum

/-- A partition as it comes out of a file. -/
def FieldsFit (p : PartitionData) : Prop :=
  ∀ (ck : Bytes) (r : Row), p.rows[ck]? = some r → r.FieldsFit

theorem cost_empty : cost .empty = 0 := by
  have hlist : (∅ : Std.ExtTreeMap Bytes Row).toList = [] := rfl
  simp [cost, rowList, TreeMap.values, empty, tombstone, hlist]

theorem fieldsFit_empty : FieldsFit .empty := fun ck r h => by simp at h

theorem cost_setTombstone_le (p : PartitionData) (ts : Int64) (ldt : Int32) :
    (p.setTombstone ts ldt).cost ≤ p.cost + 13 := by
  have hrows : (p.setTombstone ts ldt).rowList = p.rowList := by
    rw [rowList, rows_setTombstone, rowList]
  rw [cost, cost, hrows]
  cases (p.setTombstone ts ldt).tombstone <;> simp only [Option.elim] <;> omega

theorem FieldsFit.setTombstone (h : p.FieldsFit) (ts : Int64) (ldt : Int32) :
    (p.setTombstone ts ldt).FieldsFit := by
  intro ck r hr
  rw [rows_setTombstone] at hr
  exact h ck r hr

theorem cost_applyRow_le (p : PartitionData) {row : Row} (h : row.cells.length < 2 ^ 32) :
    (p.applyRow row).cost ≤ p.cost + row.cost := by
  have hsum := TreeMap.sum_values_alter p.rows row.clusteringKey (mergedRow row) Row.cost
  have hone : (mergedRow row p.rows[row.clusteringKey]?).elim 0 Row.cost ≤
      p.rows[row.clusteringKey]?.elim 0 Row.cost + row.cost := by
    cases hold : p.rows[row.clusteringKey]? with
    | none => simp [mergedRow]
    | some existing => exact Row.cost_mergeWith_le (p.keyed _ _ hold) h
  rw [cost, cost, tombstone_applyRow]
  simp only [rowList, applyRow] at hsum ⊢
  omega

theorem FieldsFit.applyRow (h : p.FieldsFit) {row : Row} (hrow : row.FieldsFit) :
    (p.applyRow row).FieldsFit := by
  intro ck r hr
  rw [getElem?_applyRow] at hr
  split at hr
  · cases hold : p.rows[ck]? with
    | none =>
      rw [hold] at hr
      cases hr
      exact hrow
    | some existing =>
      rw [hold] at hr
      cases hr
      exact (h ck existing hold).mergeWith hrow
  · exact h ck r hr

theorem length_writePartitionBody (p : PartitionData) :
    (writePartitionBody p).length = (p.tombstone.elim 0 fun _ => 13) +
      (p.rowList.map fun r => (writeRow r.clusteringKey r).length).sum + 1 := by
  have htomb : (p.tombstone.elim [] fun t => writePartitionDeletion ⟨t.1, t.2⟩).length =
      p.tombstone.elim 0 fun _ => 13 := by
    cases p.tombstone <;> simp [writePartitionDeletion, writeDeletionTime, writeI64, writeI32]
  rw [writePartitionBody, flatMap_writeRow, length_append, length_append, htomb,
    length_flatMap, length_singleton]

theorem length_writePartitionBody_le (p : PartitionData) :
    (writePartitionBody p).length ≤ p.cost + 1 := by
  have hsum : (p.rowList.map fun r => (writeRow r.clusteringKey r).length).sum ≤
      (p.rowList.map Row.cost).sum := sum_le_sum fun _ _ => Nat.le_add_right _ _
  rw [length_writePartitionBody, cost]
  omega

theorem length_writePartitionBody_lt (hr : r ∈ p.rowList) (hlarge : 2 ^ 32 ≤ r.cells.length) :
    (writePartitionBody p).length + 10 ≤ p.cost + 1 := by
  have hcost : (writeRow r.clusteringKey r).length + 10 ≤ r.cost := by
    unfold Row.cost
    split <;> omega
  have hsum : (p.rowList.map fun r => (writeRow r.clusteringKey r).length).sum + 10 ≤
      (p.rowList.map Row.cost).sum :=
    sum_map_add_le (fun _ _ => Nat.le_add_right _ _) hr 10 hcost
  rw [length_writePartitionBody, cost]
  omega

end PartitionData

section Items

open PartitionData

variable (unexpected : String)

theorem spends_item (hfit : p.FieldsFit) (hcost : p.cost ≤ n) :
    Spends (readItem unexpected p) fun x m =>
      Sum.elim (fun q => q.FieldsFit ∧ q.cost ≤ n + m) (fun q => q.FieldsFit ∧ q.cost + 1 ≤ n + m)
        x := by
  refine spends_u8.bind fun marker m₁ h₁ => ?_
  split_ifs
  · exact Spends.pure ⟨hfit, by omega⟩
  · refine spends_deletionTime.bind_pure fun d m₂ h₂ => ⟨hfit.setTombstone _ _, ?_⟩
    have hset := cost_setTombstone_le p d.markedForDeleteAt d.localDeletionTime
    omega
  · exact spends_rangeTombstoneMarker.bind_pure fun _ m₂ _ => ⟨hfit, by omega⟩
  · refine spends_row.bind_pure fun row m₂ h₂ => ?_
    obtain ⟨hrow, hcells, hlen⟩ := h₂
    have happly := cost_applyRow_le p hcells
    rw [Row.cost_eq hcells] at happly
    exact ⟨hfit.applyRow hrow, by omega⟩
  · exact Spends.throw _

theorem spends_partitionBody :
    Spends (readPartitionBody unexpected) fun p m => p.FieldsFit ∧ p.cost + 1 ≤ m :=
  Spends.loop (I := fun p n => p.FieldsFit ∧ p.cost ≤ n)
    (fun _ _ h => spends_item unexpected h.1 h.2) ⟨fieldsFit_empty, by rw [cost_empty]⟩

end Items

/-- What a partition and its key take in a file that they were read from. -/
def entryCost (e : Bytes × PartitionData) : ℕ := 4 + e.1.length + e.2.cost + 1

theorem length_writeEntry_le (e : Bytes × PartitionData) : (writeEntry e).length ≤ entryCost e := by
  have hbody := e.2.length_writePartitionBody_le
  rw [writeEntry, writeBytes, length_append, length_append, Wire.length_beBytes, entryCost]
  omega

theorem length_writeEntry_lt {e : Bytes × PartitionData} (hr : r ∈ e.2.rowList)
    (hlarge : 2 ^ 32 ≤ r.cells.length) : (writeEntry e).length + 10 ≤ entryCost e := by
  have hbody := PartitionData.length_writePartitionBody_lt hr hlarge
  rw [writeEntry, writeBytes, length_append, length_append, Wire.length_beBytes, entryCost]
  omega

/-- A scan so far: what it has found fits, and has taken its bytes. -/
structure Source.ReadFrom (s : Source) (n : ℕ) : Prop where
  fits : ∀ e ∈ s, e.1.length < 2 ^ 32 ∧ e.2.FieldsFit
  cost : (s.map entryCost).sum ≤ n

theorem Source.ReadFrom.mono {m : ℕ} (h : s.ReadFrom n) (hle : n ≤ m) :
    s.ReadFrom m := ⟨h.fits, h.cost.trans hle⟩

theorem spends_scanEntry {result : Source} (h : result.ReadFrom n) :
    Spends (scanEntry result) fun x m =>
      Sum.elim (fun s => s.ReadFrom (n + m)) (fun s => s.ReadFrom (n + m)) x := by
  have hget : Spends (get : FileReader Bytes) fun _ m => m = 0 := by
    intro i a rest hrun
    cases hrun
    exact ⟨0, by omega, rfl⟩
  refine hget.bind fun rest m₀ h₀ => ?_
  split_ifs
  · exact Spends.pure (h.mono (by omega))
  · refine (spends_uint 4).bind fun pkLen m₁ h₁ => ?_
    split_ifs
    · exact Spends.pure (h.mono (by omega))
    · refine (spends_exact pkLen).bind fun pk m₂ h₂ =>
        (spends_partitionBody _).bind_pure fun p m₃ h₃ => ⟨fun e he => ?_, ?_⟩
      · rcases mem_append.mp he with he | he
        · exact h.fits e he
        · obtain rfl := mem_singleton.mp he
          exact ⟨by rw [h₂.1]; simpa using h₁.1, h₃.1⟩
      · have hcost := h.cost
        simp only [map_append, map_cons, map_nil, sum_append, sum_cons, sum_nil, entryCost]
        omega

theorem readFrom_of_scanPartitions {data : Bytes} (h : scanPartitions data = .ok s) :
    s.ReadFrom (data.length - dataHeader.length) := by
  have hloop : Spends (Reader.loop .unexpectedEof scanEntry []) Source.ReadFrom :=
    Spends.loop (fun s n hs => spends_scanEntry hs) ⟨by simp, by simp⟩
  rw [scanPartitions] at h
  cases hrun : (Reader.loop .unexpectedEof scanEntry []).run (data.drop dataHeader.length) with
  | error e => rw [hrun] at h; cases h
  | ok x =>
    rw [hrun] at h
    cases h
    obtain ⟨n, hlen, hread⟩ := hloop _ x.1 x.2 hrun
    rw [length_drop] at hlen
    exact hread.mono (by omega)

/-- A list of partitions that a scan of its own file gives back fits the fields of the file. -/
theorem lengthsFit_of_scanPartitions {crc32 : Bytes → UInt32}
    (h : scanPartitions (dataFile crc32 s) = .ok s) : s.LengthsFit := by
  have hread := readFrom_of_scanPartitions h
  have hfile : (dataFile crc32 s).length - dataHeader.length =
      (s.map fun e => (writeEntry e).length).sum + 4 := by
    simp only [dataFile, dataBody, length_append, length_flatMap, Wire.length_beBytes]
    omega
  rw [hfile] at hread
  intro e he
  refine ⟨(hread.fits e he).1, fun ck r hr => ?_⟩
  have hfields := (hread.fits e he).2 ck r hr
  refine ⟨hfields.clusteringKey, ?_, hfields.values⟩
  -- a longer row would have left ten bytes to spare, and there are only those of the CRC
  by_contra hlarge
  have hmem : r ∈ e.2.rowList := TreeMap.mem_values.mpr ⟨ck, hr⟩
  have hsum := sum_map_add_le (f := fun e => (writeEntry e).length) (g := entryCost)
    (fun e _ => length_writeEntry_le e) he 10 (length_writeEntry_lt hmem (by omega))
  have hcost := hread.cost
  omega

end CassandraVerified.Storage
