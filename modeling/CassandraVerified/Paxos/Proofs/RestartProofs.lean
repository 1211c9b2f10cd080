import CassandraVerified.Paxos.Proofs.JournalProofs
import CassandraVerified.Storage.Proofs.ReferenceProofs

/-!
# Restarts of a replica

What a replica loads after a restart, compared with what it had in memory. The storage holds the
newest of what was saved that no commit has cleared.
-/

namespace CassandraVerified.Paxos

open List
open Storage (Bytes Cell Row PartitionData Mutation Store Io LogExternal CommitLogConfig Shows
  viewOf cellsOf writesFor applyCalls jsonOf)
open Save StoredReplica Uuid

section

variable [UuidV1] {x : Save} {column : String} {c : Cell}

/-- The value of a column whose cell is not a tombstone. -/
def shown (cell : Option Cell) : Option Bytes :=
  cell.bind fun c => if c.isTombstone then none else c.value

def ballotAt (cell : String → Option Cell) (column : String) : Option Ballot :=
  ((shown (cell column)).filter (·.length = 16)).map fun value => uuidToBallot (fromSlice value)

/-- The state by the cells of the columns. -/
def stateOf (cell : String → Option Cell) : PaxosState :=
  let proposalOf ballot mutation :=
    (ballotAt cell ballot).bind fun b => (shown (cell mutation)).map (⟨b, ·⟩)
  { promised := (ballotAt cell "in_progress_ballot").getD .none
    accepted := proposalOf "proposal_ballot" "proposal"
    committed := proposalOf "most_recent_commit_at" "most_recent_commit" }

omit [UuidV1] in
theorem lastValue_eq {r : Row} (h : r.DistinctColumns) (column : String) (valid : Bytes → Bool) :
    lastValue r.cells column valid = (shown (r.cell? column)).filter valid := by
  have hcells : (r.cells.filterMap fun c =>
        if c.isTombstone ∨ c.column ≠ column then none else c.value.filter valid) =
      (r.cells.filter (·.column = column)).filterMap fun c =>
        if c.isTombstone then none else c.value.filter valid := by
    rw [filterMap_filter]
    congr 1
    funext c
    by_cases hcol : c.column = column <;> simp [hcol]
  rw [lastValue, hcells, h.filter_eq]
  cases r.cell? column with
  | none => rfl
  | some c =>
    by_cases htomb : c.isTombstone
    · simp [shown, htomb]
    · cases hv : c.value.filter valid <;> simp [shown, htomb, hv]

theorem loadState_eq {result : Option PartitionData} {ws : List Storage.Write} (h : Shows result ws)
    (cfId : Uuid) :
    loadState result cfId = stateOf fun column => (viewOf ws).cell (asBytes cfId) column := by
  have hcell : ((fun column => (viewOf ws).cell (asBytes cfId) column) : String → Option Cell) =
      fun column => (result.bind fun pd => pd.rows[asBytes cfId]?).bind (·.cell? column) := by
    cases result with
    | none => rw [h.none_iff.1 rfl]; rfl
    | some pd => rw [← h.view_eq pd rfl]; rfl
  rw [hcell, loadState]
  cases hrow : result.bind fun pd => pd.rows[asBytes cfId]? with
  | none => rfl
  | some row =>
    obtain ⟨pd, hpd, hrow⟩ := Option.bind_eq_some_iff.1 hrow
    have hdist := h.distinctColumns pd hpd _ _ hrow
    have hall (o : Option Bytes) : o.filter (fun _ => true) = o := by cases o <;> rfl
    have huuid (o : Option Bytes) : (o.map fromSlice).elim Ballot.none uuidToBallot =
        (o.map fun value => uuidToBallot (fromSlice value)).getD .none := by
      cases o <;> rfl
    simp [stateOf, ballotAt, lastValue_eq hdist, hall, huuid, Option.bind_map]

/-- The cell that a save brings to a column. -/
def Save.cell? (x : Save) (column : String) : Option Cell := x.cells.find? (·.column = column)

/-- Every column of the partition holds the newest of the cells that were saved. -/
structure Stores (saves : List Save) (k : Bytes) (cell : String → Option Cell) : Prop where
  mem : ∀ column c, cell column = some c → ∃ x ∈ saves, x.partitionKey = k ∧ x.cell? column = some c
  top : ∀ column c, cell column = some c →
    ∀ x ∈ saves, x.partitionKey = k → ∀ d, x.cell? column = some d → d.rank ≤ c.rank
  isSome : ∀ column, ∀ x ∈ saves, x.partitionKey = k → (x.cell? column).isSome = true →
    (cell column).isSome = true

namespace Save

theorem writes_mutation (x : Save) :
    x.mutation.writes = [.row ⟨asBytes cfId, x.cells, false, none⟩] := by
  simp [Mutation.writes, mutation, Mutation.rowWrites, Mutation.staticRow?]

theorem distinctColumns_row (x : Save) :
    (⟨asBytes cfId, x.cells, false, none⟩ : Row).DistinctColumns := by
  cases x <;> simp [Row.DistinctColumns, cells, valueCell, clearCell]

theorem cell?_eq_some_iff : x.cell? column = some c ↔ c ∈ x.cells ∧ c.column = column :=
  Row.cell?_eq_some_iff x.distinctColumns_row

theorem timestamp_of_cell? (h : x.cell? column = some c) :
    c.timestamp = x.ballot.timestampMicros := by
  have hmem := (cell?_eq_some_iff.1 h).1
  cases x <;> simp only [cells, valueCell, clearCell, mem_cons, not_mem_nil] at hmem <;>
    grind [ballot]

end Save

theorem mem_cellsOf_writesFor {saves : List Save} {k : Bytes} :
    c ∈ cellsOf (writesFor (saves.map mutation) k) (asBytes cfId) column ↔
      ∃ x ∈ saves, x.partitionKey = k ∧ x.cell? column = some c := by
  have hwrites (w : Storage.Write) : w ∈ writesFor (saves.map mutation) k ↔
      ∃ x ∈ saves, x.partitionKey = k ∧ w = .row ⟨asBytes cfId, x.cells, false, none⟩ := by
    simp only [writesFor, Storage.Ledger.mem_writesTo, Storage.ledgerOf, mem_flatMap,
      mem_map, Storage.Mutation.ops, Prod.mk.injEq]
    constructor
    · rintro ⟨_, ⟨x, hx, rfl⟩, w', hw', hk, rfl⟩
      rw [x.writes_mutation, mem_singleton] at hw'
      exact ⟨x, hx, hk, hw'⟩
    · rintro ⟨x, hx, hk, rfl⟩
      exact ⟨_, ⟨x, hx, rfl⟩, _, by rw [x.writes_mutation]; exact mem_singleton_self _, hk, rfl⟩
  rw [Storage.mem_cellsOf]
  constructor
  · rintro ⟨row, hrow, -, hc, hcol⟩
    obtain ⟨x, hx, hk, hw⟩ := (hwrites _).1 hrow
    cases hw
    exact ⟨x, hx, hk, cell?_eq_some_iff.2 ⟨hc, hcol⟩⟩
  · rintro ⟨x, hx, hk, hc⟩
    obtain ⟨hmem, hcol⟩ := cell?_eq_some_iff.1 hc
    exact ⟨_, (hwrites _).2 ⟨x, hx, hk, rfl⟩, rfl, hmem, hcol⟩

/-- Saves that all succeeded are what the storage shows. -/
theorem exists_stores_read {ext : LogExternal} {config : CommitLogConfig} {flushThreshold : Nat}
    {saves : List (Save × Io)}
    (hok : ∀ r ∈ ((Store.new config flushThreshold).run ext
      (saves.map fun x => .applyMutation x.1.mutation x.2)).2, r = .ok ()) (k : Bytes) :
    ∃ cell, Stores (saves.map Prod.fst) k cell ∧
      loadState (((Store.new config flushThreshold).run ext
        (saves.map fun x => .applyMutation x.1.mutation x.2)).1.read "system" "paxos" k)
          cfId = stateOf cell := by
  let calls : List (Mutation × Io) := saves.map fun x => (x.1.mutation, x.2)
  have hrun : (Store.new config flushThreshold).run ext
      (saves.map fun x => .applyMutation x.1.mutation x.2) =
        applyCalls ext config flushThreshold calls := by
    simp [applyCalls, calls, Function.comp_def]
  rw [hrun] at hok ⊢
  have hcalls : calls.map Prod.fst = (saves.map Prod.fst).map mutation := by simp [calls]
  have htable : ∀ c ∈ calls, c.1.keyspace = "system" ∧ c.1.table = "paxos" := by
    intro c hc
    obtain ⟨x, -, rfl⟩ := mem_map.1 hc
    exact ⟨rfl, rfl⟩
  have hdist : ∀ c ∈ calls, ∀ w ∈ c.1.writes, w.DistinctColumns := by
    intro c hc w hw
    obtain ⟨x, -, rfl⟩ := mem_map.1 hc
    rw [x.1.writes_mutation, mem_singleton] at hw
    rw [hw]
    exact x.1.distinctColumns_row
  obtain ⟨ws, hshows, hdelivers⟩ := Storage.exists_shows_applyCalls (by decide) htable hdist hok k
  rw [hcalls] at hdelivers
  refine ⟨_, ?_, loadState_eq hshows cfId⟩
  have hmem (column : String) (c : Cell) : c ∈ cellsOf ws (asBytes cfId) column ↔
        ∃ x ∈ saves.map Prod.fst, x.partitionKey = k ∧ x.cell? column = some c := by
    rw [hdelivers.mem_cellsOf_iff, mem_cellsOf_writesFor]
  constructor
  case mem =>
    intro column c hc
    exact (hmem column c).1 (Lww.isTop_of_mem_argmax _ hc).1
  case top =>
    intro column c hc x hx hk d hd
    exact (Lww.isTop_of_mem_argmax _ hc).2 d ((hmem column d).2 ⟨x, hx, hk, hd⟩)
  case isSome =>
    intro column x hx hk hsome
    obtain ⟨c, hc⟩ := Option.isSome_iff_exists.1 hsome
    obtain ⟨d, hd, -⟩ := Lww.exists_argmax_of_mem Cell.rank ((hmem column c).2 ⟨x, hx, hk, hc⟩)
    exact Option.isSome_iff_exists.2 ⟨d, hd⟩

/-- The rows can hold what was saved for the partition. -/
structure Keeps (saves : List Save) (k : Bytes) : Prop where
  encodable : ∀ x ∈ saves, x.partitionKey = k → x.ballot.Encodable
  ballots : ∀ x ∈ saves, ∀ y ∈ saves, x.partitionKey = k → y.partitionKey = k →
    x.ballot.timestampMicros = y.ballot.timestampMicros → x.ballot = y.ballot
  proposals : ∀ p q, .proposal k p ∈ saves → .proposal k q ∈ saves → p.ballot = q.ballot → p = q

section

variable {ms : List Message} {saves : List Save} {k : Bytes} {s : PaxosState}
  {cell : String → Option Cell}

omit [UuidV1] in
theorem Keeps.timestamp_lt (h : Keeps saves k) {y : Save} (hx : x ∈ saves) (hy : y ∈ saves)
    (hxk : x.partitionKey = k) (hyk : y.partitionKey = k) (hlt : x.ballot < y.ballot) :
    x.ballot.timestampMicros < y.ballot.timestampMicros := by
  have hkey : x.ballot.key < y.ballot.key := hlt
  rw [Ballot.key, Ballot.key, Prod.Lex.toLex_lt_toLex] at hkey
  rcases hkey with hts | ⟨hts, -⟩
  · exact Int64.lt_iff_toInt_lt.2 hts
  · exact absurd (h.ballots x hx y hy hxk hyk (Int64.toInt_inj.1 hts)) hlt.ne

omit [UuidV1] in
theorem lt_of_timestamp_lt {b b' : Ballot} (h : b.timestampMicros < b'.timestampMicros) : b < b' := by
  change b.key < b'.key
  rw [Ballot.key, Ballot.key, Prod.Lex.toLex_lt_toLex]
  exact .inl (Int64.lt_iff_toInt_lt.1 h)

theorem Stores.eq_of_newest (h : Stores saves k cell) (hkeeps : Keeps saves k) (hx : x ∈ saves)
    (hxk : x.partitionKey = k) (hc : x.cell? column = some c)
    (hnewest : ∀ y ∈ saves, y.partitionKey = k → ∀ d, y.cell? column = some d →
      d = c ∨ y.ballot < x.ballot) :
    cell column = some c := by
  obtain ⟨d, hd⟩ := Option.isSome_iff_exists.1 (h.isSome column x hx hxk (by rw [hc]; rfl))
  obtain ⟨y, hy, hyk, hyd⟩ := h.mem column d hd
  rcases hnewest y hy hyk d hyd with rfl | hlt
  · exact hd
  · have hle := Cell.timestamp_le_of_rank_le (h.top column d hd x hx hxk c hc)
    rw [timestamp_of_cell? hc, timestamp_of_cell? hyd] at hle
    exact absurd (hkeeps.timestamp_lt hy hx hyk hxk hlt) (not_lt.2 hle)

/-- The columns with ballots, as a save fills them. -/
def Save.ballotCell (x : Save) (column : String) : Cell :=
  valueCell x.ballot.timestampMicros column (asBytes (ballotToUuid x.ballot))

attribute [local simp] valueCell

theorem ballotAt_of_cell (hx : x.ballot.Encodable) (h : cell column = some (x.ballotCell column)) :
    ballotAt cell column = some x.ballot := by
  simp [ballotAt, h, shown, ballotCell, hx.uuidToBallot_ballotToUuid]

theorem stateOf_accepted_eq_some_iff {a : Proposal} : (stateOf cell).accepted = some a ↔
      ballotAt cell "proposal_ballot" = some a.ballot ∧ shown (cell "proposal") = some a.mutation := by
  obtain ⟨b, m⟩ := a
  cases hb : ballotAt cell "proposal_ballot" <;> cases hm : shown (cell "proposal") <;>
    simp [stateOf, hb, hm]

/-- The column is filled with ballots by one kind of saves and else only cleared. -/
def FilledBy (column : String) (kind : Save → Prop) : Prop :=
  ∀ (x : Save) (c : Cell), x.cell? column = some c →
    kind x ∧ c = x.ballotCell column ∨ (∃ p now, x = .commit x.partitionKey p now) ∧ c.isTombstone = true

theorem filledBy_inProgress : FilledBy "in_progress_ballot" fun x => ∃ k b, x = .promise k b := by
  intro x c h
  cases x with
  | promise k b => exact .inl ⟨⟨k, b, rfl⟩, (Option.some.inj h).symm⟩
  | proposal k p => simp [cell?, cells] at h
  | commit k p now => exact .inr ⟨⟨p, now, rfl⟩, Option.some.inj h ▸ rfl⟩

theorem filledBy_proposalBallot : FilledBy "proposal_ballot" fun x => ∃ k p, x = .proposal k p := by
  intro x c h
  cases x with
  | promise k b => simp [cell?, cells] at h
  | proposal k p => exact .inl ⟨⟨k, p, rfl⟩, (Option.some.inj h).symm⟩
  | commit k p now => exact .inr ⟨⟨p, now, rfl⟩, Option.some.inj h ▸ rfl⟩

theorem filledBy_commitAt : FilledBy "most_recent_commit_at" fun x => ∃ k p now, x = .commit k p now := by
  intro x c h
  cases x with
  | promise k b => simp [cell?, cells] at h
  | proposal k p => simp [cell?, cells] at h
  | commit k p now => exact .inl ⟨⟨k, p, now, rfl⟩, (Option.some.inj h).symm⟩

variable {kind : Save → Prop}

/-- A ballot in a column was saved, and no commit has cleared the column since. -/
theorem Stores.exists_of_ballotAt (h : Stores saves k cell) (hkeeps : Keeps saves k)
    (hfilled : FilledBy column kind) {b : Ballot} (hb : ballotAt cell column = some b) :
    ∃ x ∈ saves, x.partitionKey = k ∧ x.ballot = b ∧ kind x ∧
      ∀ y ∈ saves, y.partitionKey = k → ∀ d, y.cell? column = some d → d.isTombstone = true →
        y.ballot < b := by
  simp only [ballotAt, Option.map_eq_some_iff, Option.filter_eq_some_iff, shown,
    Option.bind_eq_some_iff] at hb
  obtain ⟨value, ⟨⟨c, hc, hvalue⟩, -⟩, hb⟩ := hb
  obtain ⟨x, hx, hxk, hxc⟩ := h.mem column c hc
  have hlive : c.isTombstone = false := by
    by_contra htomb
    simp [htomb] at hvalue
  rcases hfilled x c hxc with ⟨hkind, rfl⟩ | ⟨-, htomb⟩
  · have hxb : x.ballot = b := by
      simp only [ballotCell, valueCell, Bool.false_eq_true, if_false, Option.some_inj] at hvalue
      rw [← hb, ← hvalue, fromSlice_asBytes, (hkeeps.encodable x hx hxk).uuidToBallot_ballotToUuid]
    refine ⟨x, hx, hxk, hxb, hkind, fun y hy hyk d hd htomb => lt_of_timestamp_lt ?_⟩
    -- A tombstone of the same time would have won.
    have hle := h.top column _ hc y hy hyk d hd
    rw [Cell.rank_le_iff, timestamp_of_cell? hd, timestamp_of_cell? hxc, hxb, htomb, hlive] at hle
    simpa using hle
  · rw [hlive] at htomb
    cases htomb

theorem Stores.ballotAt_eq (h : Stores saves k cell) (hkeeps : Keeps saves k)
    (hfilled : FilledBy column kind) (hx : x ∈ saves) (hxk : x.partitionKey = k)
    (hc : x.cell? column = some (x.ballotCell column))
    (hkind : ∀ y ∈ saves, y.partitionKey = k → kind y → y.ballot ≤ x.ballot)
    (hcommit : ∀ p now, .commit k p now ∈ saves → p.ballot < x.ballot) :
    ballotAt cell column = some x.ballot := by
  refine ballotAt_of_cell (hkeeps.encodable x hx hxk) (h.eq_of_newest hkeeps hx hxk hc ?_)
  intro y hy hyk d hd
  rcases hfilled y d hd with ⟨hykind, rfl⟩ | ⟨⟨p, now, hyp⟩, -⟩
  · rcases (hkind y hy hyk hykind).eq_or_lt with heq | hlt
    · exact .inl (by rw [ballotCell, ballotCell, heq])
    · exact .inr hlt
  · rw [hyk] at hyp
    subst hyp
    exact .inr (hcommit p now hy)

omit [UuidV1] in
theorem PaxosState.hasInProgress_iff : s.hasInProgress = true ↔
      ∃ a, s.accepted = some a ∧ ∀ c, s.committed = some c → c.ballot < a.ballot := by
  unfold hasInProgress
  cases s.accepted <;> cases s.committed <;> simp

theorem Stores.promised_mem (h : Stores saves k cell) (hkeeps : Keeps saves k) :
    (stateOf cell).promised = .none ∨ .promise k (stateOf cell).promised ∈ saves := by
  cases hb : ballotAt cell "in_progress_ballot" with
  | none => exact .inl (by simp [stateOf, hb])
  | some b =>
    obtain ⟨x, hx, hxk, hxb, ⟨k', b', rfl⟩, -⟩ := h.exists_of_ballotAt hkeeps filledBy_inProgress hb
    cases hxk
    cases hxb
    exact .inr (by simpa [stateOf, hb, partitionKey, ballot] using hx)

omit [UuidV1] in
theorem Mirrors.commit_lt (hm : Mirrors ms saves k s) {a : Proposal}
    (hnewer : ∀ c, s.committed = some c → c.ballot < a.ballot) {p : Proposal} {now : Int32}
    (hp : .commit k p now ∈ saves) : p.ballot < a.ballot := by
  obtain ⟨d, hd, hle⟩ := hm.commit_le p now hp
  exact hle.trans_lt (hnewer d hd)

section

variable (hm : Mirrors ms saves k s) (hs : Stores saves k cell) (hkeeps : Keeps saves k)

include hm hs hkeeps

/-- A proposal in progress is loaded. -/
theorem Mirrors.accepted_eq (hprogress : s.hasInProgress = true) :
    (stateOf cell).accepted = s.accepted ∧ (stateOf cell).hasInProgress = true := by
  obtain ⟨a, ha, hnewer⟩ := PaxosState.hasInProgress_iff.1 hprogress
  obtain ⟨hmem, hnewest⟩ := hm.accepted a ha
  have hballot : ballotAt cell "proposal_ballot" = some a.ballot := by
    refine hs.ballotAt_eq hkeeps filledBy_proposalBallot hmem rfl rfl ?_ fun p now hp =>
      hm.commit_lt hnewer hp
    rintro y hy rfl ⟨k', p, rfl⟩
    exact hnewest p hy
  have hmutation : cell "proposal" =
      some (valueCell a.ballot.timestampMicros "proposal" a.mutation) := by
    refine hs.eq_of_newest hkeeps hmem rfl rfl fun y hy hyk d hd => ?_
    cases y with
    | promise k' b => simp [cell?, cells] at hd
    | proposal k' p =>
      cases hyk
      rcases (hnewest p hy).eq_or_lt with heq | hlt
      · obtain rfl := hkeeps.proposals p a hy hmem heq
        exact .inl (Option.some.inj hd).symm
      · exact .inr hlt
    | commit k' p now =>
      cases hyk
      exact .inr (hm.commit_lt hnewer hy)
  have haccepted : (stateOf cell).accepted = some a :=
    stateOf_accepted_eq_some_iff.2 ⟨hballot, by rw [hmutation]; rfl⟩
  refine ⟨haccepted.trans ha.symm, PaxosState.hasInProgress_iff.2 ⟨a, haccepted, fun c hc => ?_⟩⟩
  -- The commit that is loaded is one that was saved.
  have hat : ballotAt cell "most_recent_commit_at" = some c.ballot := by
    simp only [stateOf, Option.bind_eq_some_iff, Option.map_eq_some_iff] at hc
    obtain ⟨b, hb, m, -, rfl⟩ := hc
    exact hb
  obtain ⟨x, hx, hxk, hxb, ⟨k', p, now, rfl⟩, -⟩ := hs.exists_of_ballotAt hkeeps filledBy_commitAt hat
  cases hxk
  rw [← hxb]
  exact hm.commit_lt hnewer hx

theorem Mirrors.hasInProgress_of_load (hprogress : (stateOf cell).hasInProgress = true) :
    s.hasInProgress = true := by
  obtain ⟨a, ha, -⟩ := PaxosState.hasInProgress_iff.1 hprogress
  obtain ⟨x, hx, hxk, hxb, ⟨k', p, rfl⟩, hcleared⟩ :=
    hs.exists_of_ballotAt hkeeps filledBy_proposalBallot (stateOf_accepted_eq_some_iff.1 ha).1
  cases hxk
  have hlt (c : Proposal) (now : Int32) (hc : .commit k' c now ∈ saves) : c.ballot < p.ballot := by
    rw [show p.ballot = a.ballot from hxb]
    exact hcleared _ hc rfl _ rfl rfl
  rcases hm.covered p hx with hsome | ⟨c, now, hc, hle⟩
  · obtain ⟨a', ha'⟩ := Option.isSome_iff_exists.1 hsome
    refine PaxosState.hasInProgress_iff.2 ⟨a', ha', fun c hc => ?_⟩
    obtain ⟨now, hnow⟩ := hm.committed c hc
    exact (hlt c now hnow).trans_le ((hm.accepted a' ha').2 p hx)
  · exact absurd (hlt c now hc) (not_lt.2 hle)

theorem Mirrors.promised_eq (hprogress : s.hasInProgress = true)
    (hsaved : .promise k s.promised ∈ saves) : (stateOf cell).promised = s.promised := by
  obtain ⟨a, ha, hnewer⟩ := PaxosState.hasInProgress_iff.1 hprogress
  have hle : a.ballot ≤ s.promised := hm.proposal_le a (hm.accepted a ha).1
  have hballot : ballotAt cell "in_progress_ballot" = some s.promised := by
    refine hs.ballotAt_eq hkeeps filledBy_inProgress hsaved rfl rfl ?_ fun p now hp =>
      (hm.commit_lt hnewer hp).trans_le hle
    rintro y hy rfl ⟨k', b, rfl⟩
    exact hm.promise_le b hy
  simp [stateOf, hballot]

end

end

/-- The state of a partition after a restart: what is loaded for it, if that is in progress. -/
theorem StoredReplica.state_restart (r : StoredReplica) (knownKeys : List Bytes) (k : Bytes) :
    let loaded := loadState (r.storage.read "system" "paxos" k) cfId
    (r.restart knownKeys).memory.state k =
      if k ∈ knownKeys ∧ loaded.hasInProgress = true then loaded else .new := by
  let load (k : Bytes) := loadState (r.storage.read "system" "paxos" k) cfId
  have hfold (memory : PaxosReplica) : ((loadAllUncommitted r.storage knownKeys cfId).foldl
        (fun memory entry => memory.setState entry.1 entry.2) memory).state k =
      if k ∈ knownKeys ∧ (load k).hasInProgress = true then load k else memory.state k := by
    unfold loadAllUncommitted
    induction knownKeys generalizing memory with
    | nil => simp
    | cons key keys ih =>
      by_cases hprogress : (load key).hasInProgress = true
      · rw [filterMap_cons_some (b := (key, load key)) (by simpa [load] using hprogress),
          foldl_cons, ih]
        by_cases hk : k = key
        · subst hk
          simp [hprogress]
        · simp [hk, PaxosReplica.state_setState_of_ne]
      · rw [filterMap_cons_none (by simpa [load] using hprogress), ih]
        by_cases hk : k = key
        · subst hk
          simp [hprogress]
        · simp [hk]
  have hnew := hfold .new
  rw [PaxosReplica.state_new] at hnew
  exact hnew

end

namespace PaxosReplica

theorem promised_eq_false_iff (r : PaxosReplica) (msg : PaxosPrepare) :
    (r.handlePrepare msg).1.promised = false ↔
      msg.ballot < (r.state msg.partitionKey).promised := by
  rw [(r.handlePrepare_spec msg).2.1, decide_eq_false_iff_not, not_le]

theorem accepted_eq_false_iff (r : PaxosReplica) (msg : PaxosPropose) :
    (r.handlePropose msg).1.accepted = false ↔
      msg.proposal.ballot < (r.state msg.partitionKey).promised := by
  rcases le_or_gt (r.state msg.partitionKey).promised msg.proposal.ballot with h | h
  · simp [handlePropose, PaxosState.propose_of_le h, not_lt.2 h]
  · simp [handlePropose, PaxosState.propose_of_lt h, h]

/-- Survival is a matter of the promises and of the proposals in progress. -/
theorem survives_iff {r r' : PaxosReplica} :
    r.Survives r' ↔ ∀ k, (r.state k).promised ≤ (r'.state k).promised ∧
      ((r.state k).hasInProgress = true → (r'.state k).accepted = (r.state k).accepted) := by
  constructor
  · intro h k
    constructor
    · refine le_of_forall_lt fun b hb => ?_
      exact (r'.promised_eq_false_iff ⟨k, "", "", b⟩).1
        (h.prepare ⟨k, "", "", b⟩ ((r.promised_eq_false_iff _).2 hb))
    · intro hprogress
      obtain ⟨a, ha, -⟩ := PaxosState.hasInProgress_iff.1 hprogress
      have hreport := h.reports ⟨k, "", "", .none⟩ a hprogress ((r.handlePrepare_spec _).1.trans ha)
      rw [(r'.handlePrepare_spec _).1] at hreport
      exact hreport.trans ha.symm
  · intro h
    constructor
    case prepare =>
      intro msg hmsg
      rw [promised_eq_false_iff] at hmsg ⊢
      exact hmsg.trans_le (h _).1
    case propose =>
      intro msg hmsg
      rw [accepted_eq_false_iff] at hmsg ⊢
      exact hmsg.trans_le (h _).1
    case reports =>
      intro msg p hprogress hp
      rw [(r.handlePrepare_spec msg).1] at hp
      rw [(r'.handlePrepare_spec msg).1, (h _).2 hprogress, hp]

end PaxosReplica

section

variable [UuidV1] {ext : LogExternal} {config : CommitLogConfig} {flushThreshold : Nat}
  {msgs : List (Message × Int32 × Io)} {knownKeys : List Bytes}

omit [UuidV1] in
theorem Storable.keeps (h : Storable (msgs.map Prod.fst)) (r : PaxosReplica) (k : Bytes) :
    Keeps ((journal r msgs).map Prod.fst) k := by
  constructor
  case encodable =>
    intro x hx _
    obtain ⟨m, hm, now, rfl⟩ := exists_of_mem_journal hx
    rw [Message.ballot_toSave]
    exact h.encodable m hm
  case ballots =>
    intro x hx y hy hxk hyk hts
    obtain ⟨m, hm, now, rfl⟩ := exists_of_mem_journal hx
    obtain ⟨m', hm', now', rfl⟩ := exists_of_mem_journal hy
    simp only [Message.partitionKey_toSave, Message.ballot_toSave] at hxk hyk hts ⊢
    exact h.ballots m hm m' hm' (hxk.trans hyk.symm) hts
  case proposals =>
    intro p q hp hq hballot
    obtain ⟨m, hm, now, hmp⟩ := exists_of_mem_journal hp
    obtain ⟨m', hm', now', hmq⟩ := exists_of_mem_journal hq
    obtain ⟨msg, rfl, hk, rfl⟩ := Message.exists_of_toSave_eq_proposal hmp.symm
    obtain ⟨msg', rfl, hk', rfl⟩ := Message.exists_of_toSave_eq_proposal hmq.symm
    exact h.proposals msg msg' hm hm' (hk.trans hk'.symm) hballot

/-- One partition: `s` in memory, and `s'` what is there after the restart. -/
theorem Mirrors.kept_iff {ms : List Message} {saves : List Save} {k : Bytes} {s s' : PaxosState}
    {cell : String → Option Cell} (hm : Mirrors ms saves k s) (hs : Stores saves k cell)
    (hkeeps : Keeps saves k) (hfrom : ∀ x ∈ saves, ∃ m ∈ ms, ∃ now, x = m.toSave now)
    (hkeys : ∀ m ∈ ms, m.partitionKey ∈ knownKeys)
    (hs' : s' = if k ∈ knownKeys ∧ (stateOf cell).hasInProgress = true then stateOf cell else .new) :
    (s.promised ≤ s'.promised ∧ (s.hasInProgress = true → s'.accepted = s.accepted)) ↔
      (s.promised = .none ∨ s.hasInProgress = true ∧
          ∃ msg, .prepare msg ∈ ms ∧ msg.partitionKey = k ∧ msg.ballot = s.promised) := by
  -- A state in progress is loaded, since its key is known.
  have hloaded (hprogress : s.hasInProgress = true) : s' = stateOf cell := by
    obtain ⟨a, ha, -⟩ := PaxosState.hasInProgress_iff.1 hprogress
    obtain ⟨m, hmem, now, hsave⟩ := hfrom _ (hm.accepted a ha).1
    obtain ⟨msg, rfl, rfl, -⟩ := Message.exists_of_toSave_eq_proposal hsave.symm
    rw [hs', if_pos ⟨hkeys _ hmem, (hm.accepted_eq hs hkeeps hprogress).2⟩]
  have hnone_le : .none ≤ s'.promised := by
    rw [hs']
    split
    · rcases hs.promised_mem hkeeps with heq | hmem
      · exact heq.ge
      · exact (hkeeps.encodable _ hmem rfl).none_le
    · exact le_rfl
  constructor
  · rintro ⟨hle, -⟩
    refine or_iff_not_imp_left.2 fun hne => ?_
    have hlt : Ballot.none < s'.promised := (lt_of_le_of_ne hm.none_le (Ne.symm hne)).trans_le hle
    by_cases hcond : k ∈ knownKeys ∧ (stateOf cell).hasInProgress = true
    · rw [if_pos hcond] at hs'
      subst hs'
      have hmem := (hs.promised_mem hkeeps).resolve_left hlt.ne'
      have heq := le_antisymm hle (hm.promise_le _ hmem)
      obtain ⟨m, hmem, now, hsave⟩ := hfrom _ hmem
      obtain ⟨msg, rfl, hk, hballot⟩ := Message.exists_of_toSave_eq_promise hsave.symm
      exact ⟨hm.hasInProgress_of_load hs hkeeps hcond.2, msg, hmem, hk, hballot.trans heq.symm⟩
    · rw [if_neg hcond] at hs'
      rw [hs'] at hlt
      exact absurd hlt (lt_irrefl _)
  · intro h
    refine ⟨?_, fun hprogress => ?_⟩
    · rcases h with heq | ⟨hprogress, msg, hmsg, hk, hballot⟩
      · rw [heq]
        exact hnone_le
      · have hsaved := (hm.prepared msg hmsg hk).resolve_right hballot.not_lt
        rw [hballot] at hsaved
        rw [hloaded hprogress, hm.promised_eq hs hkeeps hprogress hsaved]
    · rw [hloaded hprogress, (hm.accepted_eq hs hkeeps hprogress).1]

/-- A replica that saved all its promises and proposals keeps them over a restart exactly if, for
every partition with a promise, a proposal is in progress and a prepare had asked for the promise.
-/
theorem survives_restart_iff (hok : ∀ r ∈ ((new (.new config flushThreshold)).run ext
      msgs).2, r = .ok ())
    (hkeys : ∀ m ∈ msgs.map Prod.fst, m.partitionKey ∈ knownKeys)
    (hstorable : Storable (msgs.map Prod.fst)) :
    let replica := ((new (.new config flushThreshold)).run ext msgs).1
    replica.memory.Survives (replica.restart knownKeys).memory ↔
      ∀ k, PromiseSaved (msgs.map Prod.fst) replica.memory k := by
  intro replica
  let saves := journal .new msgs
  have hrun := run_eq ext (.new (.new config flushThreshold)) msgs
  have hmemory : replica.memory = PaxosReplica.new.handleAll msgs := by
    simp only [replica, hrun]
    rfl
  rw [hrun] at hok
  rw [PaxosReplica.survives_iff]
  refine forall_congr' fun k => ?_
  have hmirrors : Mirrors (msgs.map Prod.fst) (saves.map Prod.fst) k (replica.memory.state k) := by
    have hnew := Mirrors.new k
    rw [← PaxosReplica.state_new k] at hnew
    simpa [hmemory] using hnew.handleAll msgs
  have hkeeps := hstorable.keeps .new k
  obtain ⟨cell, hstores, hload⟩ := exists_stores_read hok k
  refine hmirrors.kept_iff hstores hkeeps (fun x hx => exists_of_mem_journal hx) hkeys ?_
  rw [state_restart, ← hload]
  simp only [replica, hrun]
  rfl

end

attribute [local instance] Uuid.v1

/-- A promise for the partition `[0]` at time 100. -/
def promiseOnly : List (Message × Int32 × Io) := [(.prepare ⟨[0], "ks", "t", ⟨100, 1⟩⟩, 0, .quiet)]

/-- The promise, and then a proposal under it. -/
def promiseThenAccept : List (Message × Int32 × Io) :=
  promiseOnly ++ [(.propose ⟨[0], "ks", "t", ⟨100, 1⟩, [7]⟩, 0, .quiet)]

/-- Encodes what is saved for these messages. -/
def promiseJson : LogExternal :=
  jsonOf [(promise [0] ⟨100, 1⟩).mutation, (proposal [0] ⟨⟨100, 1⟩, [7]⟩).mutation]

theorem storable_promiseThenAccept : Storable (promiseThenAccept.map Prod.fst) where
  encodable m hm := by
    have hballot : m.ballot = ⟨100, 1⟩ := by
      revert m
      decide
    rw [hballot]
    exact ⟨by decide, by decide, by decide⟩
  ballots m hm m' hm' _ _ := by
    revert m m'
    decide
  proposals msg msg' hmsg hmsg' _ _ := by
    simp [promiseThenAccept, promiseOnly] at hmsg hmsg'
    rw [hmsg, hmsg']

theorem survives_restart_iff_promiseThenAccept :
    let replica := ((new (.new {} 1000)).run promiseJson promiseThenAccept).1
    replica.memory.Survives (replica.restart [[0]]).memory := by
  refine (survives_restart_iff (by decide +kernel) (by decide) storable_promiseThenAccept).2
    fun k => ?_
  rw [run_eq]
  by_cases hk : [0] = k
  · subst hk
    exact .inr ⟨by decide, ⟨[0], "ks", "t", ⟨100, 1⟩⟩, by decide, rfl, by decide⟩
  · left
    simp [PaxosReplica.handleAll, promiseThenAccept, promiseOnly, PaxosReplica.state_handle,
      Message.partitionKey, hk, new, PaxosState.new]

/-- After a restart the replica promises the time 50, although it has promised the time 100. -/
theorem not_survives_promiseOnly :
    let run := (new (.new {} 1000)).run promiseJson promiseOnly
    (∀ r ∈ run.2, r = .ok ()) ∧ (∀ m ∈ promiseOnly.map Prod.fst, m.partitionKey ∈ [[(0 : UInt8)]]) ∧
      ¬run.1.memory.Survives (run.1.restart [[0]]).memory := by
  refine ⟨by decide +kernel, by decide, fun h => ?_⟩
  have hreject := h.prepare ⟨[0], "ks", "t", ⟨50, 1⟩⟩ (by decide +kernel)
  revert hreject
  decide +kernel

end CassandraVerified.Paxos
