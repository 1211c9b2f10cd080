import CassandraVerified.Paxos.Storage
import CassandraVerified.Paxos.Proofs.SystemProofs

/-!
# The journal of a replica

What a replica saves in a run. Its memory holds the newest promise, proposal and commit among the
saves, and its storage is what they make of it.
-/

namespace CassandraVerified.Paxos

open List
open Storage (Bytes Store Io LogExternal)
open PaxosState

variable {ticks : UInt64} {node : Nat} {b : Ballot} {m : Message} {now : Int32} {r : PaxosReplica}

namespace Uuid

@[simp] theorem length_asBytes (id : Uuid) : (asBytes id).length = 16 := by simp [asBytes]

@[simp] theorem fromSlice_asBytes (id : Uuid) : fromSlice (asBytes id) = id := by
  have hlt : id.toNat < 256 ^ 16 := id.isLt
  rw [fromSlice, asBytes, Wire.beNat_beBytes_of_lt hlt, BitVec.ofNat_toNat, BitVec.setWidth_eq]

/-- The parts of a UUID of version 1, the low part of the time first. -/
def ofTicks (ticks : UInt64) (node : Nat) : Uuid :=
  let t := ticks.toNat
  .ofNat 128 (t % 2 ^ 32 * 2 ^ 96 + t / 2 ^ 32 % 2 ^ 16 * 2 ^ 80 +
    (2 ^ 12 + t / 2 ^ 48 % 2 ^ 12) * 2 ^ 64 + 2 ^ 63 + node)

/-- The time of a UUID of version 1. -/
def ticks? (id : Uuid) : Option Nat :=
  if id.toNat / 2 ^ 76 % 2 ^ 4 = 1 then
    some (id.toNat / 2 ^ 64 % 2 ^ 12 * 2 ^ 48 + id.toNat / 2 ^ 80 % 2 ^ 16 * 2 ^ 32 +
      id.toNat / 2 ^ 96)
  else none

section

variable (hticks : ticks.toNat < 2 ^ 60) (hnode : node < 2 ^ 48)

include hticks hnode

theorem exists_toNat_ofTicks : ∃ low mid high, low < 2 ^ 32 ∧ mid < 2 ^ 16 ∧ high < 2 ^ 12 ∧
      ticks.toNat = high * 2 ^ 48 + mid * 2 ^ 32 + low ∧
      (ofTicks ticks node).toNat =
        low * 2 ^ 96 + mid * 2 ^ 80 + (2 ^ 12 + high) * 2 ^ 64 + 2 ^ 63 + node := by
  refine ⟨ticks.toNat % 2 ^ 32, ticks.toNat / 2 ^ 32 % 2 ^ 16, ticks.toNat / 2 ^ 48 % 2 ^ 12,
    Nat.mod_lt _ (by decide), Nat.mod_lt _ (by decide), Nat.mod_lt _ (by decide), by omega, ?_⟩
  rw [ofTicks, BitVec.toNat_ofNat]
  generalize ticks.toNat = t
  omega

theorem ticks?_ofTicks : ticks? (ofTicks ticks node) = some ticks.toNat := by
  obtain ⟨low, mid, high, hlow, hmid, hhigh, ht, hid⟩ := exists_toNat_ofTicks hticks hnode
  have htop : (ofTicks ticks node).toNat / 2 ^ 96 = low := by omega
  have hmiddle : (ofTicks ticks node).toNat / 2 ^ 80 = low * 2 ^ 16 + mid := by omega
  have hversion : (ofTicks ticks node).toNat / 2 ^ 76 = (low * 2 ^ 16 + mid) * 2 ^ 4 + 1 := by omega
  have hbottom : (ofTicks ticks node).toNat / 2 ^ 64 =
      ((low * 2 ^ 16 + mid) * 2 ^ 4 + 1) * 2 ^ 12 + high := by omega
  rw [ticks?, htop, hmiddle, hbottom, hversion, if_pos (by omega),
    Nat.mul_add_mod_self_right, Nat.mul_add_mod_self_right, Nat.mod_eq_of_lt hhigh,
    Nat.mod_eq_of_lt hmid, ht]

theorem toNat_ofTicks_mod : (ofTicks ticks node).toNat % 2 ^ 48 = node := by
  obtain ⟨low, mid, high, -, -, -, -, hid⟩ := exists_toNat_ofTicks hticks hnode
  omega

theorem ofTicks_ne_zero : ofTicks ticks node ≠ 0 := by
  intro h
  obtain ⟨low, mid, high, -, -, -, -, hid⟩ := exists_toNat_ofTicks hticks hnode
  have hzero : (ofTicks ticks node).toNat = 0 := by rw [h]; rfl
  omega

end

/-- UUIDs of version 1 as they are laid out in 128 bits. -/
abbrev v1 : UuidV1 where
  newV1 := ofTicks
  getTimestamp := ticks?
  getNodeId id := id.toNat % 2 ^ 48
  getTimestamp_newV1 := ticks?_ofTicks
  getNodeId_newV1 := toNat_ofTicks_mod
  newV1_ne_zero := ofTicks_ne_zero

end Uuid

namespace Ballot

theorem Encodable.none_le (h : b.Encodable) : none ≤ b := by
  change none.key ≤ b.key
  rw [key, key, Prod.Lex.toLex_le_toLex]
  have hnonneg := h.timestamp_nonneg
  have hzero : (0 : Uuid).toNat = 0 := rfl
  simp only [none, Int64.toInt_zero, hzero]
  omega

theorem toNat_toUInt64_of_nonneg {x : Int64} (h : 0 ≤ x.toInt) :
    x.toUInt64.toNat = x.toInt.toNat := by
  have hcond := BitVec.toInt_eq_toNat_cond x.toBitVec
  have htoNat : x.toUInt64.toNat = x.toBitVec.toNat := rfl
  rw [Int64.toInt_toBitVec] at hcond
  split at hcond <;> omega

theorem Encodable.toNat_ticks (h : b.Encodable) :
    (b.timestampMicros.toUInt64 * 10 + UInt64.ofNat ticksBetweenEpochs).toNat =
      b.timestampMicros.toInt.toNat * 10 + ticksBetweenEpochs := by
  have hnonneg := h.timestamp_nonneg
  have hlt := h.ticks_lt
  have hoffset : (UInt64.ofNat ticksBetweenEpochs).toNat = ticksBetweenEpochs := rfl
  have hten : (10 : UInt64).toNat = 10 := rfl
  rw [UInt64.toNat_add, UInt64.toNat_mul, toNat_toUInt64_of_nonneg hnonneg, hoffset, hten]
  omega

theorem Encodable.uuidToBallot_ballotToUuid [UuidV1] (h : b.Encodable) :
    uuidToBallot (ballotToUuid b) = b := by
  obtain ⟨ts, node⟩ := b
  by_cases hnone : (⟨ts, node⟩ : Ballot).isNone = true
  · rw [ballotToUuid, if_pos hnone, uuidToBallot, if_pos rfl]
    simp only [isNone, Bool.decide_and, Bool.and_eq_true, decide_eq_true_eq] at hnone
    rw [none, hnone.1, hnone.2]
  · have hticks := h.toNat_ticks
    have hlt := h.ticks_lt
    have hnonneg := h.timestamp_nonneg
    have hroom : (ts.toUInt64 * 10 + UInt64.ofNat ticksBetweenEpochs).toNat < 2 ^ 60 := by
      rw [hticks]
      omega
    rw [ballotToUuid, if_neg hnone, Nat.mod_eq_of_lt h.node_lt, uuidToBallot,
      if_neg (UuidV1.newV1_ne_zero hroom h.node_lt), UuidV1.getTimestamp_newV1 hroom h.node_lt,
      UuidV1.getNodeId_newV1 hroom h.node_lt]
    simp only [hticks]
    simp only [Nat.add_sub_cancel, BitVec.ofNat_toNat, BitVec.setWidth_eq, mk.injEq, and_true]
    rw [Nat.mul_div_cancel _ (by decide)]
    apply Int64.toInt_inj.1
    have hbound := ts.toInt_lt
    rw [Int64.toInt_ofNat_of_lt (by omega)]
    simp only at hnonneg
    omega

end Ballot

/-- What a replica saves for a message if it agrees. -/
def Message.toSave (now : Int32) : Message → Save
  | .prepare msg => .promise msg.partitionKey msg.ballot
  | .propose msg => .proposal msg.partitionKey msg.proposal
  | .commit msg => .commit msg.partitionKey msg.proposal now

@[simp]
theorem Message.partitionKey_toSave (m : Message) (now : Int32) :
    (m.toSave now).partitionKey = m.partitionKey := by
  cases m <;> rfl

@[simp]
theorem Message.ballot_toSave (m : Message) (now : Int32) : (m.toSave now).ballot = m.ballot := by
  cases m <;> rfl

variable {k : Bytes}

theorem Message.exists_of_toSave_eq_promise (h : m.toSave now = .promise k b) :
    ∃ msg, m = .prepare msg ∧ msg.partitionKey = k ∧ msg.ballot = b := by
  cases m with
  | prepare msg => exact ⟨msg, rfl, by simpa [toSave] using h⟩
  | propose msg => simp [toSave] at h
  | commit msg => simp [toSave] at h

theorem Message.exists_of_toSave_eq_proposal {p : Proposal} (h : m.toSave now = .proposal k p) :
    ∃ msg, m = .propose msg ∧ msg.partitionKey = k ∧ msg.proposal = p := by
  cases m with
  | prepare msg => simp [toSave] at h
  | propose msg => exact ⟨msg, rfl, by simpa [toSave] using h⟩
  | commit msg => simp [toSave] at h

/-- A prepare or proposal whose ballot is below the promise changes nothing and is not saved. -/
def PaxosReplica.Rejects (r : PaxosReplica) : Message → Prop
  | .prepare msg => msg.ballot < (r.state msg.partitionKey).promised
  | .propose msg => msg.proposal.ballot < (r.state msg.partitionKey).promised
  | .commit _ => False

instance (r : PaxosReplica) : (m : Message) → Decidable (r.Rejects m)
  | .prepare _ => inferInstanceAs (Decidable (_ < _))
  | .propose _ => inferInstanceAs (Decidable (_ < _))
  | .commit _ => inferInstanceAs (Decidable False)

namespace PaxosReplica

theorem save?_eq (r : PaxosReplica) (m : Message) (now : Int32) :
    r.save? m now = if r.Rejects m then none else some (m.toSave now) := by
  cases m with
  | prepare msg =>
    have hprom := (r.handlePrepare_spec msg).2.1
    simp only [save?, hprom, Rejects, Message.toSave, ← not_le]
    by_cases h : (r.state msg.partitionKey).promised ≤ msg.ballot <;> simp [h]
  | propose msg =>
    rcases le_or_gt (r.state msg.partitionKey).promised msg.proposal.ballot with h | h
    · simp [save?, handlePropose, propose_of_le h, Rejects, Message.toSave, not_lt.2 h]
    · simp [save?, handlePropose, propose_of_lt h, Rejects, h]
  | commit msg => rfl

/-- The state of a partition after a message that is not rejected. -/
def acceptedState (s : PaxosState) : Message → PaxosState
  | .prepare msg => { s with promised := msg.ballot }
  | .propose msg => { s with promised := msg.proposal.ballot, accepted := some msg.proposal }
  | .commit msg => s.commit msg.proposal

theorem state_handle (r : PaxosReplica) (m : Message) (k : Bytes) : (r.handle m).state k =
      if m.partitionKey = k ∧ ¬r.Rejects m then acceptedState (r.state k) m else r.state k := by
  -- Every handler writes one state; it is a new one only if the message is not rejected.
  have hset (k₀ : Bytes) (s : PaxosState) (hs : r.handle m = r.setState k₀ s)
      (hk₀ : m.partitionKey = k₀)
      (hnew : s = if r.Rejects m then r.state k₀ else acceptedState (r.state k₀) m) :
      (r.handle m).state k =
        if m.partitionKey = k ∧ ¬r.Rejects m then acceptedState (r.state k) m else r.state k := by
    by_cases hk : k = k₀
    · subst hk
      rw [hs, state_setState_self, hnew]
      by_cases hrej : r.Rejects m <;> simp [hrej, hk₀]
    · rw [hs, state_setState_of_ne _ hk, if_neg]
      exact fun h => hk (h.1.symm.trans hk₀)
  cases m with
  | prepare msg =>
    refine hset _ _ (r.handlePrepare_spec msg).2.2 rfl ?_
    rcases le_or_gt (r.state msg.partitionKey).promised msg.ballot with h | h
    · simp [Rejects, acceptedState, not_lt.2 h, h]
    · simp [Rejects, h, h.le]
  | propose msg =>
    refine hset _ ((r.state msg.partitionKey).propose msg.proposal).2 rfl rfl ?_
    rcases le_or_gt (r.state msg.partitionKey).promised msg.proposal.ballot with h | h
    · simp [Rejects, acceptedState, propose_of_le h, not_lt.2 h]
    · simp [Rejects, propose_of_lt h, h]
  | commit msg => exact hset _ _ rfl rfl (if_neg not_false).symm

end PaxosReplica

/-- Memory holds the newest of what was saved for the partition. -/
structure Mirrors (ms : List Message) (saves : List Save) (k : Bytes) (s : PaxosState) : Prop where
  none_le : .none ≤ s.promised
  promise_le : ∀ b, .promise k b ∈ saves → b ≤ s.promised
  proposal_le : ∀ p, .proposal k p ∈ saves → p.ballot ≤ s.promised
  prepared : ∀ msg, .prepare msg ∈ ms → msg.partitionKey = k →
    .promise k msg.ballot ∈ saves ∨ msg.ballot < s.promised
  accepted : ∀ a, s.accepted = some a →
    .proposal k a ∈ saves ∧ ∀ p, .proposal k p ∈ saves → p.ballot ≤ a.ballot
  covered : ∀ p, .proposal k p ∈ saves →
    s.accepted.isSome = true ∨ ∃ c now, .commit k c now ∈ saves ∧ p.ballot ≤ c.ballot
  committed : ∀ c, s.committed = some c → ∃ now, .commit k c now ∈ saves
  commit_le : ∀ c now, .commit k c now ∈ saves → ∃ d, s.committed = some d ∧ c.ballot ≤ d.ballot

namespace Mirrors

variable {ms : List Message} {saves : List Save} {s : PaxosState}

theorem new (k : Bytes) : Mirrors [] [] k .new := by
  constructor <;> simp [PaxosState.new]

section

variable (h : Mirrors ms saves k s)

include h

/-- A message that is rejected or concerns another partition. -/
theorem frame {saves' : List Save} (hother : ∀ x ∈ saves', x.partitionKey ≠ k)
    (hrejected : ∀ msg, m = .prepare msg → msg.partitionKey = k → msg.ballot < s.promised) :
    Mirrors (ms ++ [m]) (saves ++ saves') k s := by
  have hmem {x : Save} (hx : x.partitionKey = k) : x ∈ saves ++ saves' ↔ x ∈ saves := by
    rw [mem_append, or_iff_left fun h' => hother x h' hx]
  constructor
  case none_le => exact h.none_le
  case promise_le => exact fun b hb => h.promise_le b ((hmem rfl).1 hb)
  case proposal_le => exact fun p hp => h.proposal_le p ((hmem rfl).1 hp)
  case prepared =>
    intro msg hmsg hk
    rcases mem_append.1 hmsg with hmsg | hmsg
    · exact (h.prepared msg hmsg hk).imp_left fun h' => mem_append_left _ h'
    · exact .inr (hrejected msg (mem_singleton.1 hmsg).symm hk)
  case accepted =>
    intro a ha
    exact ⟨mem_append_left _ (h.accepted a ha).1,
      fun p hp => (h.accepted a ha).2 p ((hmem rfl).1 hp)⟩
  case covered =>
    intro p hp
    refine (h.covered p ((hmem rfl).1 hp)).imp_right ?_
    rintro ⟨c, now, hc, hle⟩
    exact ⟨c, now, mem_append_left _ hc, hle⟩
  case committed =>
    intro c hc
    obtain ⟨now, hnow⟩ := h.committed c hc
    exact ⟨now, mem_append_left _ hnow⟩
  case commit_le => exact fun c now hc => h.commit_le c now ((hmem rfl).1 hc)

theorem prepare {msg : PaxosPrepare} (hle : s.promised ≤ msg.ballot) :
    Mirrors (ms ++ [.prepare msg]) (saves ++ [.promise k msg.ballot]) k
      { s with promised := msg.ballot } := by
  constructor
  case none_le => exact h.none_le.trans hle
  case promise_le =>
    intro b hb
    rcases mem_append.1 hb with hb | hb
    · exact (h.promise_le b hb).trans hle
    · simp only [mem_singleton, Save.promise.injEq, true_and] at hb
      exact hb.le
  case proposal_le =>
    intro p hp
    exact (h.proposal_le p (by simpa using hp)).trans hle
  case prepared =>
    intro msg' hmsg hk
    rcases mem_append.1 hmsg with hmsg | hmsg
    · rcases h.prepared msg' hmsg hk with h' | h'
      · exact .inl (mem_append_left _ h')
      · exact .inr (h'.trans_le hle)
    · simp only [mem_singleton, Message.prepare.injEq] at hmsg
      simp [hmsg]
  case accepted => simpa using h.accepted
  case covered => simpa using h.covered
  case committed => simpa using h.committed
  case commit_le => simpa using h.commit_le

theorem propose {msg : PaxosPropose} (hle : s.promised ≤ msg.proposal.ballot) :
    Mirrors (ms ++ [.propose msg]) (saves ++ [.proposal k msg.proposal]) k
      { s with promised := msg.proposal.ballot, accepted := some msg.proposal } := by
  have hnewest : ∀ p, Save.proposal k p ∈ saves ++ [.proposal k msg.proposal] →
      p.ballot ≤ msg.proposal.ballot := by
    intro p hp
    rcases mem_append.1 hp with hp | hp
    · exact (h.proposal_le p hp).trans hle
    · simp only [mem_singleton, Save.proposal.injEq, true_and] at hp
      rw [hp]
  constructor
  case none_le => exact h.none_le.trans hle
  case promise_le =>
    intro b hb
    exact (h.promise_le b (by simpa using hb)).trans hle
  case proposal_le => exact hnewest
  case prepared =>
    intro msg' hmsg hk
    rcases h.prepared msg' (by simpa using hmsg) hk with h' | h'
    · exact .inl (mem_append_left _ h')
    · exact .inr (h'.trans_le hle)
  case accepted =>
    rintro a ⟨⟩
    exact ⟨by simp, hnewest⟩
  case covered => exact fun _ _ => .inl rfl
  case committed => simpa using h.committed
  case commit_le => simpa using h.commit_le

theorem commit {msg : PaxosCommit} :
    Mirrors (ms ++ [.commit msg]) (saves ++ [.commit k msg.proposal now]) k
      (s.commit msg.proposal) := by
  have hcommitted (c : Proposal) (hc : (s.commit msg.proposal).committed = some c) :
      ∃ now', Save.commit k c now' ∈ saves ++ [.commit k msg.proposal now] := by
    rcases committed_commit hc with rfl | hc
    · exact ⟨now, by simp⟩
    · obtain ⟨now', hnow'⟩ := h.committed c hc
      exact ⟨now', mem_append_left _ hnow'⟩
  constructor
  case none_le => exact h.none_le
  case promise_le => simpa [commit_promised] using h.promise_le
  case proposal_le => simpa [commit_promised] using h.proposal_le
  case prepared => simpa [commit_promised] using h.prepared
  case accepted => simpa using fun a ha => h.accepted a (accepted_of_commit ha)
  case covered =>
    intro p hp
    have hp' : Save.proposal k p ∈ saves := by simpa using hp
    rcases h.covered p hp' with hsome | ⟨c, now', hc, hle⟩
    · obtain ⟨a, ha⟩ := Option.isSome_iff_exists.1 hsome
      by_cases hkept : (s.commit msg.proposal).accepted = some a
      · exact .inl (by rw [hkept]; rfl)
      · obtain ⟨c, hc, hle⟩ := accepted_or_committed ha hkept
        obtain ⟨now', hnow'⟩ := hcommitted c hc
        exact .inr ⟨c, now', hnow', ((h.accepted a ha).2 p hp').trans hle⟩
    · exact .inr ⟨c, now', mem_append_left _ hc, hle⟩
  case committed => exact hcommitted
  case commit_le =>
    obtain ⟨d, hd, hnew, hold⟩ := s.exists_committed_commit msg.proposal
    intro c now' hc
    refine ⟨d, hd, ?_⟩
    rcases mem_append.1 hc with hc | hc
    · obtain ⟨d', hd', hle⟩ := h.commit_le c now' hc
      exact hle.trans (hold d' hd')
    · simp only [mem_singleton, Save.commit.injEq, true_and] at hc
      rwa [hc.1]

end

theorem handle (h : Mirrors ms saves k (r.state k)) (m : Message) (now : Int32) :
    Mirrors (ms ++ [m]) (saves ++ (r.save? m now).toList) k ((r.handle m).state k) := by
  rw [r.save?_eq, r.state_handle]
  by_cases hrej : r.Rejects m
  · rw [if_pos hrej, if_neg fun h' => h'.2 hrej]
    refine h.frame (by simp) ?_
    rintro msg rfl rfl
    exact hrej
  by_cases hk : m.partitionKey = k
  · subst hk
    rw [if_neg hrej, if_pos ⟨rfl, hrej⟩]
    cases m with
    | prepare msg => exact h.prepare (not_lt.1 hrej)
    | propose msg => exact h.propose (not_lt.1 hrej)
    | commit msg => exact h.commit
  · rw [if_neg hrej, if_neg fun h' => hk h'.1]
    refine h.frame ?_ ?_
    · simpa using hk
    · rintro msg rfl hmsg
      exact absurd hmsg hk

end Mirrors

/-- The saves of a run, with what the storage meets in each of them. -/
def journal (r : PaxosReplica) : List (Message × Int32 × Io) → List (Save × Io)
  | [] => []
  | (m, now, io) :: msgs => ((r.save? m now).map (·, io)).toList ++ journal (r.handle m) msgs

theorem exists_of_mem_journal {msgs : List (Message × Int32 × Io)} {x : Save}
    (hx : x ∈ (journal r msgs).map Prod.fst) :
    ∃ m ∈ msgs.map Prod.fst, ∃ now, x = m.toSave now := by
  induction msgs generalizing r with
  | nil => simp [journal] at hx
  | cons c msgs ih =>
    obtain ⟨m, now, io⟩ := c
    rw [journal, map_append, mem_append] at hx
    rcases hx with hx | hx
    · rw [r.save?_eq] at hx
      refine ⟨m, mem_cons_self, now, ?_⟩
      split at hx
      · simp at hx
      · simpa using hx
    · obtain ⟨m', hm', now', heq⟩ := ih hx
      exact ⟨m', mem_cons_of_mem _ hm', now', heq⟩

def PaxosReplica.handleAll (r : PaxosReplica) (msgs : List (Message × Int32 × Io)) : PaxosReplica :=
  msgs.foldl (fun r m => r.handle m.1) r

attribute [local simp] PaxosReplica.handleAll

theorem Mirrors.handleAll {ms : List Message} {saves : List Save}
    (h : Mirrors ms saves k (r.state k)) (msgs : List (Message × Int32 × Io)) :
    Mirrors (ms ++ msgs.map Prod.fst) (saves ++ (journal r msgs).map Prod.fst) k
      ((r.handleAll msgs).state k) := by
  induction msgs generalizing ms saves r with
  | nil => simpa [journal] using h
  | cons c msgs ih =>
    obtain ⟨m, now, io⟩ := c
    have hstep := ih (h.handle m now)
    have hsaves : ((r.save? m now).map (·, io)).toList.map Prod.fst = (r.save? m now).toList := by
      cases r.save? m now <;> rfl
    simpa [journal, hsaves] using hstep

theorem StoredReplica.run_eq [UuidV1] (ext : LogExternal) (r : StoredReplica)
    (msgs : List (Message × Int32 × Io)) :
    let ops := (journal r.memory msgs).map fun x => Store.Op.applyMutation x.1.mutation x.2
    r.run ext msgs =
      (⟨r.memory.handleAll msgs, (r.storage.run ext ops).1⟩, (r.storage.run ext ops).2) := by
  induction msgs generalizing r with
  | nil => rfl
  | cons c msgs ih =>
    obtain ⟨m, now, io⟩ := c
    simp only [run, journal, handle]
    cases hsave : r.memory.save? m now with
    | none => simp [ih]
    | some save => simp [ih, Store.run, Store.step]

end CassandraVerified.Paxos
