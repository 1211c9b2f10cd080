import CassandraVerified.Cluster.Metadata
import CassandraVerified.Cluster.Proofs.LocksProofs

/-!
# Which restored metadata is that of the cluster

A restored instance has the state of the snapshot, but not its locked ranges, and it counts epochs
from zero again.
-/

namespace CassandraVerified.Cluster

open List
open Std (ExtTreeMap)
open TreeMap (IterationOrder insertAll)
open NodeDirectory Std.LawfulEqCmp

variable {E : Type} [DecidableEq E]

theorem LockedRanges.lock_eq_ok_iff {order : IterationOrder (Uuid × List TokenRange)}
    {self locked : LockedRanges} {operationId : Uuid} {ranges : List TokenRange} :
    self.lock order operationId ranges = .ok locked ↔
      locked = ⟨self.locks.insert operationId ranges⟩ ∧ ∀ range ∈ ranges, ∀ (op : Uuid) held,
        self.locks[op]? = some held → ∀ r ∈ held, rangesOverlap r range = false := by
  refine ⟨fun h => ?_, fun ⟨hlocked, hnone⟩ => ?_⟩
  · obtain ⟨hlocked, hnone⟩ := lock_eq_ok h
    exact ⟨hlocked, fun range hrange => conflictsWith_eq_none.mp (hnone range hrange)⟩
  · have hfind : ranges.findSome? (self.conflictsWith order) = none :=
      List.findSome?_eq_none_iff.mpr fun range hrange =>
        conflictsWith_eq_none.mpr (hnone range hrange)
    rw [lock, hfind, hlocked]

namespace TcmMetadata

variable {orders orders' : Orders E} {m m' r : TcmMetadata E} {t : Transformation E} {by' : Uuid}
  {ts : List (Transformation E × Uuid)}

def withLog (m : TcmMetadata E) (epoch : Nat) (log : MetadataLog E) : TcmMetadata E :=
  { m with epoch, log }

theorem transform_withLog (epoch : Nat) (log : MetadataLog E) :
    (m.withLog epoch log).transform orders t =
      (m.transform orders t).map fun m' => m'.withLog epoch log := by
  cases t with
  | register nodeId endpoint dc rack =>
    by_cases hnode : m.directory.nodes[nodeId]?.isSome = true <;>
      simp [transform, withLog, hnode, Except.map]
  | assignTokens | updateNodeState | lockRanges =>
    simp only [transform, withLog]
    split <;> rfl
  | _ => rfl

theorem transform_eq_ok_orders (h : m.transform orders t = .ok m') :
    m.transform orders' t = .ok m' := by
  cases t with
  | lockRanges operationId ranges =>
    simp only [transform] at h ⊢
    cases hlock : m.lockedRanges.lock orders.locks operationId ranges with
    | error conflict => simp [hlock] at h
    | ok locked =>
      have hlock' : m.lockedRanges.lock orders'.locks operationId ranges = .ok locked :=
        LockedRanges.lock_eq_ok_iff.mpr (LockedRanges.lock_eq_ok_iff.mp hlock)
      rw [hlock']
      rwa [hlock] at h
  | _ => exact h

theorem transform_log (h : m.transform orders t = .ok m') : m'.log = m.log := by
  have hself : m = m.withLog m.epoch m.log := rfl
  rw [hself, transform_withLog] at h
  cases htransform : m.transform orders t with
  | error e => simp [htransform, Except.map] at h
  | ok x =>
    rw [htransform] at h
    exact (congrArg log (Except.ok.inj h)).symm

theorem apply_eq_ok {epoch : Nat} : m.apply orders t by' = .ok (epoch, m') ↔
    ∃ changed, m.transform orders t = .ok changed ∧ epoch = m.log.currentEpoch + 1 ∧
      m' = changed.withLog epoch (m.log.append t by').2 := by
  unfold apply
  cases htransform : m.transform orders t with
  | error e => simp
  | ok changed =>
    have hlog := transform_log htransform
    simp only [bind, Except.bind, pure, Except.pure, Except.ok.injEq, Prod.mk.injEq, hlog,
      exists_eq_left']
    constructor
    · rintro ⟨rfl, rfl⟩
      exact ⟨rfl, rfl⟩
    · rintro ⟨rfl, rfl⟩
      exact ⟨rfl, rfl⟩

omit [DecidableEq E] in
@[simp] theorem withLog_withLog (epoch epoch' : Nat) (log log' : MetadataLog E) :
    (m.withLog epoch log).withLog epoch' log' = m.withLog epoch' log' := rfl

/-- An accepted run is accepted, and has the same state at the end, with any epoch and log. -/
theorem applyAll_withLog (haccepts : m.Accepts orders ts) (orders' : Orders E) (epoch : Nat)
    (log : MetadataLog E) :
    ((m.withLog epoch log).applyAll orders' ts).1 = List.range' (log.currentEpoch + 1) ts.length ∧
    ∃ log', log'.currentEpoch = log.currentEpoch + ts.length ∧
      ((m.withLog epoch log).applyAll orders' ts).2 = (m.applyAll orders ts).2.withLog
          (if ts = [] then epoch else log.currentEpoch + ts.length) log' := by
  induction ts generalizing m epoch log with
  | nil => exact ⟨rfl, log, rfl, rfl⟩
  | cons entry ts ih =>
    obtain ⟨t, committedBy⟩ := entry
    obtain ⟨first, applied, happly, hrest⟩ := haccepts
    obtain ⟨changed, htransform, -, rfl⟩ := apply_eq_ok.mp happly
    have htransform' : (m.withLog epoch log).transform orders' t =
        .ok (changed.withLog epoch log) := by
      rw [transform_withLog, transform_eq_ok_orders htransform]
      rfl
    have happly' : (m.withLog epoch log).apply orders' t committedBy = .ok (log.currentEpoch + 1,
          changed.withLog (log.currentEpoch + 1) (log.append t committedBy).2) :=
      apply_eq_ok.mpr ⟨_, htransform', rfl, rfl⟩
    obtain ⟨hepochs, log', hlog', hlast⟩ :=
      ih hrest (log.currentEpoch + 1) (log.append t committedBy).2
    have hcurrent : (log.append t committedBy).2.currentEpoch = log.currentEpoch + 1 := rfl
    simp only [withLog_withLog, hcurrent] at hepochs hlog' hlast
    have hepoch : (if ts = [] then log.currentEpoch + 1 else log.currentEpoch + 1 + ts.length) =
        log.currentEpoch + (ts.length + 1) := by
      split
      · next hnil => simp [hnil]
      · omega
    simp only [applyAll, happly, happly', hepochs, hlast, hepoch]
    exact ⟨by simp [List.range'], log', by rw [hlog', length_cons]; omega,
      by rw [if_neg (cons_ne_nil _ _), length_cons]⟩

/-- A run counts on from the epoch of the log, unless it keeps the epoch it has. -/
theorem epoch_applyAll_le (orders : Orders E) (r : TcmMetadata E) (ts : List (Transformation E × Uuid)) :
    (r.applyAll orders ts).2.epoch = r.epoch ∨
      (r.applyAll orders ts).2.epoch ≤ r.log.currentEpoch + ts.length := by
  induction ts generalizing r with
  | nil => exact .inl rfl
  | cons entry ts ih =>
    obtain ⟨t, committedBy⟩ := entry
    cases happly : r.apply orders t committedBy with
    | error e =>
      simp only [applyAll, happly, length_cons]
      exact (ih r).imp_right fun h => by omega
    | ok result =>
      obtain ⟨epoch, applied⟩ := result
      obtain ⟨changed, -, rfl, rfl⟩ := apply_eq_ok.mp happly
      simp only [applyAll, happly, length_cons]
      have hih := ih (changed.withLog (r.log.currentEpoch + 1) (r.log.append t committedBy).2)
      have hcurrent : (changed.withLog (r.log.currentEpoch + 1)
          (r.log.append t committedBy).2).log.currentEpoch = r.log.currentEpoch + 1 := rfl
      have hepoch : (changed.withLog (r.log.currentEpoch + 1)
          (r.log.append t committedBy).2).epoch = r.log.currentEpoch + 1 := rfl
      rw [hcurrent, hepoch] at hih
      right
      omega

theorem Accepts.append {after : List (Transformation E × Uuid)}
    (h : m.Accepts orders (ts ++ after)) :
    m.Accepts orders ts ∧ (m.applyAll orders ts).2.Accepts orders after := by
  induction ts generalizing m with
  | nil => exact ⟨trivial, h⟩
  | cons entry ts ih =>
    obtain ⟨t, committedBy⟩ := entry
    obtain ⟨epoch, applied, happly, hrest⟩ := h
    obtain ⟨hts, hafter⟩ := ih hrest
    refine ⟨⟨epoch, applied, happly, hts⟩, ?_⟩
    simpa only [applyAll, happly] using hafter

/-- What was accepted is replayed to the same effect. -/
theorem applyWithoutLogging_of_transform (h : m.transform orders t = .ok m') :
    ({ m with log := .new } : TcmMetadata E).applyWithoutLogging orders' t =
      .ok { m' with log := .new } := by
  replace h : m.transform orders' t = .ok m' := transform_eq_ok_orders h
  cases t <;> simp only [transform] at h <;> (try split at h) <;> cases h <;>
    simp_all [applyWithoutLogging, Except.toOption]

theorem replay_applyAll (orders orders' : Orders E) (m : TcmMetadata E)
    (ts : List (Transformation E × Uuid)) :
    ∃ new, (m.applyAll orders ts).2.log.entries = m.log.entries ++ new ∧
      new.foldlM (replayEntry orders') { m with log := .new } =
        .ok { (m.applyAll orders ts).2 with log := .new } := by
  induction ts generalizing m with
  | nil => exact ⟨[], (append_nil _).symm, rfl⟩
  | cons entry ts ih =>
    obtain ⟨t, committedBy⟩ := entry
    cases happly : m.apply orders t committedBy with
    | error e =>
      -- a rejected transformation is not in the log, and nothing depends on it
      simp only [applyAll, happly]
      exact ih m
    | ok result =>
      obtain ⟨changed, htransform, hepoch, hresult⟩ := apply_eq_ok.mp happly
      obtain ⟨new, hlog, hreplay⟩ := ih result.2
      have hentry : replayEntry orders' { m with log := .new } ⟨result.1, t, committedBy⟩ =
          .ok { result.2 with log := .new } := by
        rw [replayEntry, applyWithoutLogging_of_transform htransform, hresult]
        rfl
      refine ⟨⟨result.1, t, committedBy⟩ :: new, ?_, ?_⟩
      · simp only [applyAll, happly, hlog]
        simp [hresult, hepoch, withLog, MetadataLog.append]
      · simp only [applyAll, happly, foldlM_cons, hentry]
        exact hreplay

/-- A replay of the log rebuilds the state, whatever was rejected on the way and in whatever orders
the hash maps are iterated. -/
theorem replayFrom_log (orders orders' : Orders E) (ts : List (Transformation E × Uuid)) :
    replayFrom orders' ((new : TcmMetadata E).applyAll orders ts).2.log.entries =
      .ok { ((new : TcmMetadata E).applyAll orders ts).2 with log := .new } := by
  obtain ⟨entries, hentries, hreplay⟩ := replay_applyAll orders orders' new ts
  rw [hentries]
  exact hreplay

/-- Nodes and operations stand under their identifiers, and a node found under an endpoint has that
endpoint. -/
structure Wf (m : TcmMetadata E) : Prop where
  hostId : ∀ (id : Uuid) info, m.directory.nodes[id]? = some info → info.hostId = id
  endpoint : ∀ endpoint id, m.directory.endpointToId endpoint = some id →
    ∃ info, m.directory.nodes[id]? = some info ∧ info.endpoint = endpoint
  operationId : ∀ (id : Uuid) seq, m.inProgress[id]? = some seq → seq.operationId = id

omit [DecidableEq E] in
theorem Wf.update (h : Wf m) {id : Uuid} {f : NodeInfo E → NodeInfo E}
    (hhost : ∀ info, (f info).hostId = info.hostId)
    (hendpoint : ∀ info, (f info).endpoint = info.endpoint) {directory : NodeDirectory E}
    (hupdate : m.directory.update id f = some directory) : Wf { m with directory } := by
  obtain ⟨info, hinfo, rfl⟩ := Option.map_eq_some_iff.mp hupdate
  refine ⟨fun id' info' hinfo' => ?_, fun endpoint id' hid' => ?_, h.operationId⟩
  · simp only [ExtTreeMap.getElem?_insert] at hinfo'
    split at hinfo'
    · next heq =>
      obtain rfl := Option.some.inj hinfo'
      rw [hhost, h.hostId id info hinfo]
      exact eq_of_compare heq
    · exact h.hostId id' info' hinfo'
  · obtain ⟨info', hinfo', rfl⟩ := h.endpoint endpoint id' hid'
    simp only [ExtTreeMap.getElem?_insert]
    split
    · next heq =>
      obtain rfl := eq_of_compare heq
      obtain rfl := Option.some.inj (hinfo.symm.trans hinfo')
      exact ⟨_, rfl, hendpoint info⟩
    · exact ⟨info', hinfo', rfl⟩

theorem Wf.register (h : Wf m) {info : NodeInfo E} (hnew : m.directory.nodes[info.hostId]? = none) :
    Wf { m with directory := m.directory.register info } := by
  refine ⟨fun id info' hinfo' => ?_, fun endpoint id hid => ?_, h.operationId⟩
  · simp only [NodeDirectory.register, ExtTreeMap.getElem?_insert] at hinfo'
    split at hinfo'
    · next heq =>
      obtain rfl := Option.some.inj hinfo'
      exact eq_of_compare heq
    · exact h.hostId id info' hinfo'
  · simp only [NodeDirectory.register, Function.update_apply] at hid ⊢
    split at hid
    · next heq =>
      obtain rfl := Option.some.inj hid
      exact ⟨info, by simp, heq.symm⟩
    · obtain ⟨info', hinfo', hendpoint⟩ := h.endpoint endpoint id hid
      refine ⟨info', ?_, hendpoint⟩
      rw [ExtTreeMap.getElem?_insert, if_neg]
      · exact hinfo'
      · rintro heq
        rw [eq_of_compare heq, hinfo'] at hnew
        exact absurd hnew nofun

theorem Wf.unregister (h : Wf m) (id : Uuid) :
    Wf { m with directory := m.directory.unregister id } := by
  cases hid : m.directory.nodes[id]? with
  | none =>
    simp only [NodeDirectory.unregister, hid]
    exact h
  | some info =>
    simp only [NodeDirectory.unregister, hid]
    refine ⟨fun id' info' hinfo' => ?_, fun endpoint id' hid' => ?_, h.operationId⟩
    · simp only [ExtTreeMap.getElem?_erase] at hinfo'
      split at hinfo'
      · exact absurd hinfo' nofun
      · exact h.hostId id' info' hinfo'
    · simp only [Function.update_apply] at hid'
      split at hid'
      · exact absurd hid' nofun
      · next hne =>
        obtain ⟨info', hinfo', rfl⟩ := h.endpoint endpoint id' hid'
        refine ⟨info', ?_, rfl⟩
        rw [ExtTreeMap.getElem?_erase, if_neg]
        · exact hinfo'
        · rintro heq
          rw [← eq_of_compare heq, hid, Option.some.injEq] at hinfo'
          exact hne (by rw [hinfo'])

/-- What a transformation does to the directory. -/
inductive Changes (d : NodeDirectory E) : Transformation E → NodeDirectory E → Prop
  | register {nodeId : Uuid} {endpoint : E} {dc rack : String} (hnew : d.nodes[nodeId]? = none) :
    Changes d (.register nodeId endpoint dc rack) (d.register (.new nodeId endpoint dc rack []))
  | unregister {nodeId : Uuid} : Changes d (.unregister nodeId) (d.unregister nodeId)
  | assign {nodeId : Uuid} {tokens : List Token} {d' : NodeDirectory E}
    (h : d.update nodeId (fun info => { info with tokens, state := .normal }) = some d') :
    Changes d (.assignTokens nodeId tokens) d'
  | state {nodeId : Uuid} {state : NodeState} {d' : NodeDirectory E}
    (h : d.update nodeId (fun info => { info with state }) = some d') :
    Changes d (.updateNodeState nodeId state) d'
  | same {t : Transformation E} (h : ∀ d : NodeDirectory E, d.Admits t) : Changes d t d

theorem changes_of_transform (h : m.transform orders t = .ok m') :
    Changes m.directory t m'.directory ∧ m'.inProgress = m.inProgress := by
  cases t with
  | register nodeId endpoint dc rack =>
    simp only [transform] at h
    split at h
    · cases h
    · next hnew =>
      cases h
      exact ⟨.register (by simpa using hnew), rfl⟩
  | assignTokens nodeId tokens =>
    simp only [transform] at h
    split at h
    · next hupdate =>
      cases h
      exact ⟨.assign hupdate, rfl⟩
    · cases h
  | updateNodeState nodeId state =>
    simp only [transform] at h
    split at h
    · next hupdate =>
      cases h
      exact ⟨.state hupdate, rfl⟩
    · cases h
  | lockRanges operationId ranges =>
    simp only [transform] at h
    split at h
    · cases h
      exact ⟨.same fun _ => trivial, rfl⟩
    · cases h
  | unregister nodeId =>
    cases h
    exact ⟨.unregister, rfl⟩
  | _ =>
    cases h
    exact ⟨.same fun _ => trivial, rfl⟩

variable {d : NodeDirectory E} {infos : List (NodeInfo E)}

theorem Wf.changes (h : Wf m) (hchanges : Changes m.directory t d) :
    Wf { m with directory := d } := by
  cases hchanges with
  | register hnew => exact h.register hnew
  | unregister => exact h.unregister _
  | assign hupdate | state hupdate => exact h.update (fun _ => by rfl) (fun _ => by rfl) hupdate
  | same => exact h

theorem Wf.transform (h : Wf m) (htransform : m.transform orders t = .ok m') : Wf m' := by
  obtain ⟨hchanges, hprogress⟩ := changes_of_transform htransform
  have hwf := h.changes hchanges
  exact ⟨hwf.hostId, hwf.endpoint, hprogress ▸ h.operationId⟩

theorem Wf.applyAll (h : Wf m) (orders : Orders E) (ts : List (Transformation E × Uuid)) :
    Wf (m.applyAll orders ts).2 := by
  induction ts generalizing m with
  | nil => exact h
  | cons entry ts ih =>
    obtain ⟨t, committedBy⟩ := entry
    cases happly : m.apply orders t committedBy with
    | error e => simpa only [applyAll, happly] using ih h
    | ok result =>
      obtain ⟨changed, htransform, -, happlied⟩ := apply_eq_ok.mp happly
      have hchanged := h.transform htransform
      simp only [applyAll, happly]
      refine ih ?_
      rw [happlied]
      exact ⟨hchanged.hostId, hchanged.endpoint, hchanged.operationId⟩

omit [DecidableEq E] in
theorem wf_started (sequences : List InProgressSequence) :
    Wf (started sequences : TcmMetadata E) := by
  refine ⟨by simp [started, insertSequences, new, NodeDirectory.new],
    by simp [started, insertSequences, new, NodeDirectory.new], fun id seq h => ?_⟩
  rcases TreeMap.mem_of_insertAll_eq_some h with ⟨-, hid⟩ | h
  · exact hid
  · simp [new] at h

theorem foldl_register_nodes (d : NodeDirectory E) (infos : List (NodeInfo E)) :
    (infos.foldl register d).nodes = insertAll NodeInfo.hostId d.nodes infos := by
  induction infos generalizing d with
  | nil => rfl
  | cons info infos ih => exact ih (d.register info)

theorem foldl_register_endpoint {endpoint : E} {id : Uuid}
    (hfound : ∀ info ∈ infos, info.endpoint = endpoint → info.hostId = id)
    (h : (∃ info ∈ infos, info.endpoint = endpoint) ∨ d.endpointToId endpoint = some id) :
    (infos.foldl register d).endpointToId endpoint = some id := by
  induction infos generalizing d with
  | nil => exact h.resolve_left (by simp)
  | cons info infos ih =>
    refine ih (fun info' hinfo' => hfound info' (mem_cons_of_mem _ hinfo')) ?_
    by_cases heq : info.endpoint = endpoint
    · right
      simp [register, heq, hfound info mem_cons_self heq]
    · rcases h with ⟨info', hinfo', hendpoint⟩ | h
      · rcases mem_cons.mp hinfo' with rfl | hinfo'
        · exact absurd hendpoint heq
        · exact .inl ⟨info', hinfo', hendpoint⟩
      · right
        simpa [register, Function.update_apply, Ne.symm heq] using h

theorem foldl_register_endpoint_none {endpoint : E} (h : ∀ info ∈ infos, info.endpoint ≠ endpoint) :
    (infos.foldl register d).endpointToId endpoint = d.endpointToId endpoint := by
  induction infos generalizing d with
  | nil => rfl
  | cons info infos ih =>
    rw [foldl_cons, ih fun info' hinfo' => h info' (mem_cons_of_mem _ hinfo')]
    simp [register, (h info mem_cons_self).symm]

/-- Every registered node is found under its endpoint. -/
def FoundByEndpoint (d : NodeDirectory E) : Prop :=
  ∀ (id : Uuid) info, d.nodes[id]? = some info → d.endpointToId info.endpoint = some id

omit [DecidableEq E] in
theorem mem_snapshot_nodes {info : NodeInfo E} :
    info ∈ (m.snapshot orders).nodes ↔ ∃ id : Uuid, m.directory.nodes[id]? = some info := by
  simp [snapshot, (orders.nodes.perm _).mem_iff]

theorem restored_directory (orders : Orders E) (hwf : Wf m) (hfound : FoundByEndpoint m.directory) :
    ((m.snapshot orders).nodes.foldl register .new) = m.directory := by
  have hnodes : ((m.snapshot orders).nodes.foldl register .new).nodes =
      m.directory.nodes := by
    rw [foldl_register_nodes]
    exact TreeMap.insertAll_values hwf.hostId fun info => mem_snapshot_nodes
  have hendpoints : ((m.snapshot orders).nodes.foldl register .new).endpointToId =
      m.directory.endpointToId := by
    funext endpoint
    cases hid : m.directory.endpointToId endpoint with
    | some id =>
      obtain ⟨info, hinfo, rfl⟩ := hwf.endpoint endpoint id hid
      refine foldl_register_endpoint (fun info' hinfo' hendpoint => ?_)
        (.inl ⟨info, mem_snapshot_nodes.mpr ⟨id, hinfo⟩, rfl⟩)
      obtain ⟨id', hid'⟩ := mem_snapshot_nodes.mp hinfo'
      rw [hwf.hostId id' info' hid', ← Option.some.injEq, ← hfound id' info' hid', hendpoint, hid]
    | none =>
      refine foldl_register_endpoint_none fun info hinfo hendpoint => ?_
      obtain ⟨id, hinfo⟩ := mem_snapshot_nodes.mp hinfo
      rw [← hendpoint, hfound id info hinfo] at hid
      exact absurd hid nofun
  rw [← show NodeDirectory.mk _ _ = m.directory from rfl, ← hnodes, ← hendpoints]

theorem restoreFromSnapshot_eq (hwf : Wf m) (hlocks : m.lockedRanges = .new)
    (hfound : FoundByEndpoint m.directory) :
    restoreFromSnapshot (m.snapshot orders) = m.withLog m.epoch .new := by
  have hdirectory := restored_directory orders hwf hfound
  have hsequences : insertAll InProgressSequence.operationId ∅ (m.snapshot orders).inProgress =
      m.inProgress := by
    refine TreeMap.insertAll_values hwf.operationId fun seq => ?_
    simp [snapshot, (orders.inProgress.perm _).mem_iff]
  simp only [restoreFromSnapshot, insertSequences, withLog, new]
  rw [hdirectory, hlocks]
  exact congrArg (fun inProgress => mk _ _ _ inProgress _ _) hsequences

/-- The order that puts an entry last. -/
def lastOrder {α : Type} [DecidableEq α] (entry : α) : IterationOrder α where
  arrange entries := if entry ∈ entries then entries.erase entry ++ [entry] else entries
  perm entries := by
    split
    · next hmem =>
      exact (perm_append_singleton _ _).trans (perm_cons_erase hmem).symm
    · exact .refl _

theorem found_of_restored (hwf : Wf m)
    (h : ∀ orders, (restoreFromSnapshot (m.snapshot orders)).directory = m.directory) :
    FoundByEndpoint m.directory := by
  intro id info hinfo
  have hmem : (id, info) ∈ m.directory.nodes.toList :=
    ExtTreeMap.mem_toList_iff_getElem?_eq_some.mpr hinfo
  have hlast := h ⟨.same, lastOrder (id, info), .same⟩
  rw [← hlast]
  simp [restoreFromSnapshot, insertSequences, snapshot, lastOrder, hmem, register,
    hwf.hostId id info hinfo]

variable {sequences : List InProgressSequence} {before after : List (Transformation E × Uuid)}

theorem restoredRun_epoch_ne (hepoch : 0 < m.epoch) (hlog : m.epoch = m.log.currentEpoch)
    (haccepts : m.Accepts orders after) (hafter : after ≠ []) :
    (m.restoredRun orders after).2.epoch ≠ (m.compactedRun orders after).2.epoch := by
  have hrestored := epoch_applyAll_le orders (restoreFromSnapshot (m.compact orders).1) after
  obtain ⟨-, log', -, hcompacted⟩ := applyAll_withLog haccepts orders m.epoch
    (m.log.truncateBefore m.epoch)
  have hlen : 0 < after.length := length_pos_iff.mpr hafter
  have hend : (m.compactedRun orders after).2.epoch = m.log.currentEpoch + after.length := by
    rw [show m.compactedRun orders after = (m.withLog m.epoch
      (m.log.truncateBefore m.epoch)).applyAll orders after from rfl, hcompacted, if_neg hafter]
    rfl
  have hstart : (restoreFromSnapshot (m.compact orders).1).log.currentEpoch = 0 := rfl
  have hkept : (restoreFromSnapshot (m.compact orders).1).epoch = m.epoch := rfl
  rw [hstart, hkept] at hrestored
  rw [hend, restoredRun]
  omega

theorem faithful_of_restored (hlog : m.epoch = m.log.currentEpoch)
    (hrestore : restoreFromSnapshot (m.snapshot orders) = m.withLog m.epoch .new)
    (haccepts : m.Accepts orders after) (h : after = [] ∨ m.epoch = 0) :
    Faithful orders m after := by
  obtain ⟨hepochs, log₁, -, hrestored⟩ := applyAll_withLog haccepts orders m.epoch .new
  obtain ⟨-, log₂, -, hcompacted⟩ := applyAll_withLog haccepts orders m.epoch
    (m.log.truncateBefore m.epoch)
  have hrun : m.restoredRun orders after = (m.withLog m.epoch .new).applyAll orders after := by
    rw [restoredRun, compact, hrestore]
  have hrun' : (m.compactedRun orders after).2 = _ := hcompacted
  have hstart : (MetadataLog.new : MetadataLog E).currentEpoch = 0 := rfl
  have htruncated : (m.log.truncateBefore m.epoch).currentEpoch = m.epoch := hlog.symm
  rw [hstart] at hrestored hepochs
  rw [htruncated] at hrun'
  constructor
  · rw [hrun, hrestored, hrun']
    rcases h with rfl | h
    · rfl
    · simp only [h]
      rfl
  · rw [hrun, hrestored, hrun']
    rfl
  · rw [hrun, hrestored, hrun']
    rfl
  · rw [hrun, hrestored, hrun']
    rfl
  · rw [hrun, hrestored, hrun']
    rfl
  · intro epoch hepoch
    have hsnapshot : (m.compact orders).1.epoch = m.epoch := rfl
    rw [hrun, hepochs, mem_range'_1] at hepoch
    rw [hsnapshot]
    rcases h with rfl | h
    · simp at hepoch
      omega
    · omega

theorem Accepts.anyOrders (h : m.Accepts orders ts) (orders' : Orders E) : m.Accepts orders' ts := by
  induction ts generalizing m with
  | nil => trivial
  | cons entry ts ih =>
    obtain ⟨t, committedBy⟩ := entry
    obtain ⟨epoch, applied, happly, hrest⟩ := h
    obtain ⟨changed, htransform, hepoch, happlied⟩ := apply_eq_ok.mp happly
    exact ⟨epoch, applied,
      apply_eq_ok.mpr ⟨changed, transform_eq_ok_orders htransform, hepoch, happlied⟩, ih hrest⟩

theorem epoch_started (haccepts : (started sequences).Accepts orders before) :
    ((started sequences).applyAll orders before).2.epoch = before.length ∧
      ((started sequences).applyAll orders before).2.log.currentEpoch = before.length := by
  have hself : (started sequences : TcmMetadata E) = (started sequences).withLog 0 .new := rfl
  obtain ⟨-, log, hlog, hlast⟩ := applyAll_withLog haccepts orders 0 .new
  rw [← hself] at hlast
  have hstart : (MetadataLog.new : MetadataLog E).currentEpoch = 0 := rfl
  rw [hstart, Nat.zero_add] at hlog hlast
  refine ⟨?_, by rw [hlast]; exact hlog⟩
  rw [hlast]
  change (if before = [] then 0 else before.length) = before.length
  split
  · next hnil => simp [hnil]
  · rfl

/-- A snapshot is faithful iff nothing was applied before it, or nothing is applied after it, no
ranges are locked and nodes are found by endpoint. -/
theorem faithful_iff (haccepts : (started sequences).Accepts orders (before ++ after)) :
    (∀ orders', Faithful orders' ((started sequences).applyAll orders before).2 after) ↔
      before = [] ∨ after = [] ∧
        ((started sequences).applyAll orders before).2.lockedRanges = .new ∧
        FoundByEndpoint ((started sequences).applyAll orders before).2.directory := by
  obtain ⟨hbefore, hafter⟩ := haccepts.append
  obtain ⟨hepoch, hlog⟩ := epoch_started hbefore
  have hwf := (wf_started sequences).applyAll orders before
  constructor
  · intro h
    refine or_iff_not_imp_left.mpr fun hne => ?_
    have hpos : 0 < before.length := length_pos_iff.mpr hne
    have hnil : after = [] := by
      by_contra hne
      exact restoredRun_epoch_ne (by omega) (by omega) hafter hne (h orders).epoch
    subst hnil
    exact ⟨rfl, (h orders).lockedRanges.symm, found_of_restored hwf fun orders' =>
      (h orders').directory⟩
  · intro h orders'
    refine faithful_of_restored (by omega) (restoreFromSnapshot_eq hwf ?_ ?_)
      (hafter.anyOrders orders') ?_
    · rcases h with rfl | h
      · rfl
      · exact h.2.1
    · rcases h with rfl | h
      · intro id info hinfo
        simp [started, applyAll, insertSequences, new, NodeDirectory.new] at hinfo
      · exact h.2.2
    · rcases h with rfl | h
      · exact .inr hepoch
      · exact .inl h.1

instance (d : NodeDirectory E) : Decidable (FoundByEndpoint d) :=
  decidable_of_iff (∀ e ∈ d.nodes.toList, d.endpointToId e.2.endpoint = some e.1) <| by
    simp [FoundByEndpoint, ExtTreeMap.mem_toList_iff_getElem?_eq_some]

instance (orders : Orders E) : (m : TcmMetadata E) → (ts : List (Transformation E × Uuid)) →
    Decidable (m.Accepts orders ts)
  | _, [] => isTrue trivial
  | m, (t, committedBy) :: rest =>
    match happly : m.apply orders t committedBy with
    | .ok (epoch, applied) =>
      have := instDecidableAccepts orders applied rest
      decidable_of_iff (applied.Accepts orders rest)
        ⟨fun h => ⟨epoch, applied, happly, h⟩, fun ⟨_, _, heq, h⟩ => by
          cases happly.symm.trans heq
          exact h⟩
    | .error _ => isFalse fun ⟨_, _, heq, _⟩ => nomatch happly.symm.trans heq

/-- Two nodes are registered and given tokens, and one of them begins to leave. -/
def twoNodes : List (Transformation Nat × Uuid) :=
  [(.register 1 7001 "dc1" "rack1", 1), (.register 2 7002 "dc1" "rack2", 1),
    (.assignTokens 1 [10, 30], 1), (.assignTokens 2 [20], 2), (.schemaChange 5 "table t", 2),
    (.updateNodeState 1 .leaving, 1)]

/-- Nothing follows the snapshot, and no operation has locked a range. -/
theorem faithful_twoNodes :
    Faithful ⟨.same, .same, .same⟩ ((started [⟨9, 1, .decommission, 1, 3, 0⟩]).applyAll
      ⟨.same, .same, .same⟩ twoNodes).2 [] :=
  have haccepts : (started [⟨9, 1, .decommission, 1, 3, 0⟩]).Accepts ⟨.same, .same, .same⟩
      (twoNodes ++ []) := by decide +kernel
  (faithful_iff haccepts).mpr (.inr ⟨rfl, rfl, by decide +kernel⟩) _

/-- The snapshot is taken between two registrations: the restored instance gives the second node the
epoch 1 again. -/
theorem not_faithful_secondNode :
    ¬ Faithful ⟨.same, .same, .same⟩ ((started [] : TcmMetadata Nat).applyAll ⟨.same, .same, .same⟩
      [(.register 1 7001 "dc1" "rack1", 1)]).2 [(.register 2 7002 "dc1" "rack1", 1)] :=
  fun h => absurd h.epoch (by decide)

end TcmMetadata

end CassandraVerified.Cluster
