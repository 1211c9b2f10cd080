import CassandraVerified.Cluster.Locks

/-!
# Operations do not share locked tokens
-/

namespace CassandraVerified.Cluster

open List
open Std (ExtTreeMap)
open TreeMap (IterationOrder)
open Exclusion (Registry Situation Call Held)
open Exclusion.Held (mem_grant mem_release)
open EnhancedLockedRanges LockedRanges

theorem Shares.symm {a b : TokenRange} (h : Shares a b) : Shares b a :=
  let ⟨token, ha, hb⟩ := h
  ⟨token, hb, ha⟩

theorem LockScope.conflictsWith_comm (scope other : LockScope) :
    scope.conflictsWith other = other.conflictsWith scope := by
  cases scope <;> cases other <;> rfl

theorem EnhancedLockedRanges.Conflicts.symm {a b : Resource} (h : Conflicts a b) : Conflicts b a :=
  ⟨h.1.symm, by rw [LockScope.conflictsWith_comm]; exact h.2.1, h.2.2.symm⟩

theorem TokenRange.contains_of_plain {range : TokenRange} {token : Token}
    (hwraps : range.wrapsAround = false) (hfull : range ≠ .fullRing)
    (h : range.contains token = true) : range.start < token ∧ token ≤ range.stop := by
  simpa [TokenRange.contains, hwraps, hfull] using h

theorem rangesOverlap_of_shares {a b : TokenRange} (hseen : OverlapSeen a b) (h : Shares a b) :
    rangesOverlap a b = true := by
  unfold rangesOverlap
  split
  · rfl
  · next hwraps =>
    obtain ⟨ha, hb⟩ : a.wrapsAround = false ∧ b.wrapsAround = false := by simpa using hwraps
    obtain ⟨token, hta, htb⟩ := h
    have hta := TokenRange.contains_of_plain ha (fun h => by simp [hseen.1 h] at hb) hta
    have htb := TokenRange.contains_of_plain hb (fun h => by simp [hseen.2 h] at ha) htb
    simp only [Bool.and_eq_true, decide_eq_true_eq]
    exact ⟨Int64.lt_of_lt_of_le hta.1 htb.2, Int64.lt_of_lt_of_le htb.1 hta.2⟩

namespace LockedRanges

variable {order : IterationOrder (Uuid × List TokenRange)} {self locked : LockedRanges}
  {operationId : Uuid} {ranges : List TokenRange} {range conflict : TokenRange}

theorem conflictsWith_eq_some (h : self.conflictsWith order range = some conflict) :
    ∃ (op : Uuid) (held : List TokenRange), self.locks[op]? = some held ∧ conflict ∈ held ∧
      rangesOverlap conflict range = true := by
  obtain ⟨⟨op, held⟩, hmem, hfind⟩ := exists_of_findSome?_eq_some h
  have hmem := ExtTreeMap.mem_toList_iff_getElem?_eq_some.mp ((order.perm _).mem_iff.mp hmem)
  have hoverlap := List.find?_some hfind
  exact ⟨op, held, hmem, mem_of_find?_eq_some hfind, hoverlap⟩

theorem conflictsWith_eq_none :
    self.conflictsWith order range = none ↔ ∀ (op : Uuid) (held : List TokenRange),
      self.locks[op]? = some held → ∀ locked ∈ held, rangesOverlap locked range = false := by
  simp [conflictsWith, (order.perm _).mem_iff]

theorem lock_eq_ok (h : self.lock order operationId ranges = .ok locked) :
    locked = ⟨self.locks.insert operationId ranges⟩ ∧
      ∀ range ∈ ranges, self.conflictsWith order range = none := by
  unfold lock at h
  split at h
  · exact absurd h (by simp)
  · next hnone => exact ⟨(Except.ok.inj h).symm, List.findSome?_eq_none_iff.mp hnone⟩

theorem lock_eq_error (h : self.lock order operationId ranges = .error conflict) :
    ∃ range ∈ ranges, self.conflictsWith order range = some conflict := by
  unfold lock at h
  split at h
  · next hsome =>
    obtain rfl := Except.error.inj h
    exact exists_of_findSome?_eq_some hsome
  · exact absurd h (by simp)

/-- The map has what is held, and that does not overlap. -/
structure Inv (s : Situation LockedRanges Uuid TokenRange) : Prop where
  held : ∀ op range, (op, range) ∈ s.held ↔
    ∃ ranges, s.state.locks[op]? = some ranges ∧ range ∈ ranges
  excludes : s.held.Excludes Shares

variable {s : Situation LockedRanges Uuid TokenRange}

theorem Inv.lock (h : Inv s)
    (horderly : ∀ lock ∈ s.held, lock.1 ≠ operationId ∧ ∀ range ∈ ranges, OverlapSeen lock.2 range)
    (hok : s.state.lock order operationId ranges = .ok locked) :
    Inv ⟨locked, s.held.grant operationId ranges⟩ := by
  obtain ⟨rfl, hnone⟩ := lock_eq_ok hok
  refine ⟨fun op range => ?_, h.excludes.grant (fun _ _ => Shares.symm) ?_⟩
  · rw [mem_grant, h.held, ExtTreeMap.getElem?_insert]
    by_cases hop : operationId = op
    · subst hop
      have hnot : ¬ ∃ ranges, s.state.locks[operationId]? = some ranges ∧ range ∈ ranges :=
        fun hheld => (horderly _ ((h.held operationId range).mpr hheld)).1 rfl
      simp [hnot]
    · simp [hop, Ne.symm hop]
  · rintro range hrange ⟨op, held⟩ hheld - hshares
    obtain ⟨ranges, hranges, hmem⟩ := (h.held op held).mp hheld
    have hfalse := conflictsWith_eq_none.mp (hnone range hrange) op ranges hranges held hmem
    have htrue := rangesOverlap_of_shares ((horderly _ hheld).2 range hrange) hshares.symm
    exact absurd htrue (by simp [hfalse])

theorem Inv.unlock (h : Inv s) (operationId : Uuid) :
    Inv ⟨(s.state.unlock operationId).2, s.held.release operationId⟩ := by
  refine ⟨fun op range => ?_, h.excludes.release operationId⟩
  rw [mem_release, h.held, LockedRanges.unlock, ExtTreeMap.getElem?_erase]
  by_cases hop : operationId = op
  · simp [hop]
  · simp [hop, Ne.symm hop]

theorem Inv.step {call : Call Uuid Request} (horderly : Orderly s call) (h : Inv s) :
    Inv (registry.step s call) := by
  cases call with
  | unlock op => exact h.unlock op
  | lock request =>
    cases hlock : s.state.lock request.order request.operationId request.ranges with
    | ok locked =>
      have hgranted : registry.lock s.state request = (none, locked) := by simp [registry, hlock]
      rw [Registry.step_granted hgranted]
      exact h.lock horderly hlock
    | error conflict =>
      have hdenied : registry.lock s.state request = (some conflict, s.state) := by
        simp [registry, hlock]
      rw [Registry.step_denied hdenied]
      exact h

theorem inv_new : Inv ⟨new, []⟩ := ⟨fun op range => by simp [new], nofun⟩

theorem Inv.toExcludes (h : Inv s) : Excludes s where
  excludes := h.excludes
  denied order operationId ranges conflict herror := by
    obtain ⟨range, hrange, hconflict⟩ := lock_eq_error herror
    obtain ⟨op, held, hheld, hmem, hoverlap⟩ := conflictsWith_eq_some hconflict
    exact ⟨(op, conflict), (h.held op conflict).mpr ⟨held, hheld, hmem⟩, rfl, range, hrange,
      hoverlap⟩

end LockedRanges

namespace EnhancedLockedRanges

variable {self : EnhancedLockedRanges} {operationId : Uuid} {request : LockRequest}
  {entry : LockEntry} {result : LockResult} {reason : String}

theorem conflictWith_eq_none :
    conflictWith request entry = none ↔ (request.scope.conflictsWith entry.scope = true →
      ∀ range ∈ request.ranges, rangesOverlap entry.range range = false) := by
  unfold conflictWith
  split <;> simp_all

theorem denied_of_conflictWith (h : conflictWith request entry = some result) :
    ∃ reason op, result = .denied reason op := by
  unfold conflictWith at h
  split at h
  · obtain ⟨range, -, rfl⟩ := Option.map_eq_some_iff.mp h
    exact ⟨_, _, rfl⟩
  · exact absurd h nofun

theorem conflictWith_eq_denied
    (h : conflictWith request entry = some (.denied reason operationId)) :
    entry.operationId = operationId ∧ request.scope.conflictsWith entry.scope = true ∧
      ∃ range ∈ request.ranges, rangesOverlap entry.range range = true := by
  unfold conflictWith at h
  split at h
  · next hscope =>
    obtain ⟨range, hfind, hdenial⟩ := Option.map_eq_some_iff.mp h
    exact ⟨(LockResult.denied.inj hdenial).2, hscope, range, mem_of_find?_eq_some hfind,
      List.find?_some hfind⟩
  · exact absurd h nofun

theorem tryLock_granted
    (h : ∀ entry ∈ self.locksForKeyspace request.keyspace, conflictWith request entry = none) :
    self.tryLock request = (.granted,
        { locks := self.locks.insert request.operationId (request, request.scope)
          perKeyspace := self.perKeyspace.insert request.keyspace
            (self.locksForKeyspace request.keyspace ++
              request.ranges.map fun range => ⟨request.operationId, range, request.scope⟩) }) := by
  rw [tryLock, List.findSome?_eq_none_iff.mpr h]

theorem tryLock_denied
    (h : (self.locksForKeyspace request.keyspace).findSome? (conflictWith request) = some result) :
    self.tryLock request = (result, self) := by
  rw [tryLock, h]

/-- The locks of a keyspace after an operation is unlocked whose last request was in `keyspace`. -/
theorem unlock_of_locked {scope : LockScope} (h : self.locks[operationId]? = some (request, scope)) :
    ∃ unlocked, self.unlock operationId = .ok unlocked ∧
      unlocked.locks = self.locks.erase operationId ∧ ∀ keyspace,
        unlocked.locksForKeyspace keyspace =
          if keyspace = request.keyspace then
            (self.locksForKeyspace keyspace).filter fun entry => entry.operationId ≠ operationId
          else self.locksForKeyspace keyspace := by
  simp only [unlock, h]
  cases hks : self.perKeyspace[request.keyspace]? with
  | none =>
    refine ⟨_, rfl, rfl, fun keyspace => ?_⟩
    split
    · next heq => simp [locksForKeyspace, heq, hks]
    · rfl
  | some ksLocks =>
    refine ⟨_, rfl, rfl, fun keyspace => ?_⟩
    simp only [locksForKeyspace]
    split <;> split
    · next hempty heq => simpa [heq, hks] using hempty
    · next hempty hne => simp [ExtTreeMap.getElem?_erase, Ne.symm hne]
    · next hempty heq => simp [heq, hks]
    · next hempty hne => simp [ExtTreeMap.getElem?_insert, Ne.symm hne]

/-- The locks are what is held, and an operation has all its locks in the keyspace of its last
request. -/
structure Inv (s : Situation EnhancedLockedRanges Uuid Resource) : Prop where
  held : ∀ op keyspace range scope, (op, ⟨keyspace, range, scope⟩) ∈ s.held ↔
    ⟨op, range, scope⟩ ∈ s.state.locksForKeyspace keyspace
  keyspace : ∀ lock ∈ s.held, ∃ entry, s.state.locks[lock.1]? = some entry ∧
    lock.2.keyspace = entry.1.keyspace
  excludes : s.held.Excludes Conflicts

variable {s : Situation EnhancedLockedRanges Uuid Resource}

theorem Inv.unlock (h : Inv s) (operationId : Uuid) :
    Inv ⟨registry.unlock s.state operationId, s.held.release operationId⟩ := by
  cases hlocked : s.state.locks[operationId]? with
  | none =>
    have hunlock : registry.unlock s.state operationId = s.state := by
      simp [registry, EnhancedLockedRanges.unlock, hlocked]
    have hrelease : s.held.release operationId = s.held := by
      refine filter_eq_self.mpr fun lock hlock => decide_eq_true ?_
      rintro rfl
      obtain ⟨entry, hentry, -⟩ := h.keyspace lock hlock
      simp [hlocked] at hentry
    rw [hunlock, hrelease]
    exact h
  | some last =>
    obtain ⟨unlocked, hok, hlocks, hksLocks⟩ := unlock_of_locked hlocked
    have hunlock : registry.unlock s.state operationId = unlocked := by simp [registry, hok]
    rw [hunlock]
    refine ⟨fun op keyspace range scope => ?_, fun lock hlock => ?_, h.excludes.release _⟩
    · rw [mem_release, h.held, hksLocks]
      split
      · simp
      · next hne =>
        refine and_iff_left_of_imp fun hmem hop => hne ?_
        obtain ⟨entry, hentry, hkeyspace⟩ := h.keyspace _ ((h.held ..).mpr hmem)
        subst hop
        rw [hlocked, Option.some.injEq] at hentry
        rw [hentry]
        exact hkeyspace
    · obtain ⟨hlock, hop⟩ := mem_release.mp hlock
      obtain ⟨entry, hentry, hkeyspace⟩ := h.keyspace lock hlock
      refine ⟨entry, ?_, hkeyspace⟩
      rw [hlocks, ExtTreeMap.getElem?_erase, if_neg (by simpa using Ne.symm hop)]
      exact hentry

theorem Inv.tryLock (h : Inv s) (horderly : Orderly s (.lock request))
    (hnone : ∀ entry ∈ s.state.locksForKeyspace request.keyspace,
      conflictWith request entry = none) :
    Inv ⟨(s.state.tryLock request).2,
      s.held.grant request.operationId (registry.resources request)⟩ := by
  rw [tryLock_granted hnone]
  refine ⟨fun op keyspace range scope => ?_, fun lock hlock => ?_,
    h.excludes.grant (fun _ _ => Conflicts.symm) ?_⟩
  · rw [mem_grant, h.held]
    simp only [locksForKeyspace, ExtTreeMap.getElem?_insert, registry, mem_map]
    by_cases hks : request.keyspace = keyspace
    · subst hks
      simp
      grind
    · simp [hks]
  · simp only [ExtTreeMap.getElem?_insert]
    by_cases hop : request.operationId = lock.1
    · refine ⟨_, if_pos (by simp [hop]), ?_⟩
      rcases mem_grant.mp hlock with hlock | ⟨-, hlock⟩
      · exact (horderly lock hlock).1 hop.symm
      · obtain ⟨range, -, hrange⟩ := mem_map.mp hlock
        rw [← hrange]
    · rw [if_neg (by simpa using hop)]
      refine h.keyspace lock ((mem_grant.mp hlock).resolve_right ?_)
      exact fun hgranted => hop hgranted.1.symm
  · rintro resource hresource lock hlock hop ⟨hkeyspace, hscope, hshares⟩
    obtain ⟨range, hrange, rfl⟩ := mem_map.mp hresource
    have hentry := (h.held lock.1 lock.2.keyspace lock.2.range lock.2.scope).mp hlock
    rw [← hkeyspace] at hentry
    have hfalse := conflictWith_eq_none.mp (hnone _ hentry) hscope range hrange
    have hseen := (horderly lock hlock).2 hop hkeyspace.symm hscope range hrange
    exact absurd (rangesOverlap_of_shares hseen hshares.symm) (by simp [hfalse])

theorem Inv.step {call : Call Uuid LockRequest} (horderly : Orderly s call) (h : Inv s) :
    Inv (registry.step s call) := by
  cases call with
  | unlock op => exact h.unlock op
  | lock request =>
    cases hfind : (s.state.locksForKeyspace request.keyspace).findSome? (conflictWith request) with
    | none =>
      have hnone := List.findSome?_eq_none_iff.mp hfind
      have hgranted : registry.lock s.state request = (none, (s.state.tryLock request).2) := by
        simp [registry, tryLock_granted hnone]
      rw [Registry.step_granted hgranted]
      exact h.tryLock horderly hnone
    | some result =>
      obtain ⟨entry, -, hconflict⟩ := exists_of_findSome?_eq_some hfind
      obtain ⟨reason, op, rfl⟩ := denied_of_conflictWith hconflict
      have hdenied : registry.lock s.state request = (some (.denied reason op), s.state) := by
        simp [registry, tryLock_denied hfind]
      rw [Registry.step_denied hdenied]
      exact h

theorem inv_new : Inv ⟨new, []⟩ :=
  ⟨fun op keyspace range scope => by simp [new, locksForKeyspace], nofun, nofun⟩

theorem Inv.toExcludes (h : Inv s) : Excludes s where
  excludes := h.excludes
  denied request reason operationId hdenied := by
    cases hfind : (s.state.locksForKeyspace request.keyspace).findSome? (conflictWith request) with
    | none =>
      rw [tryLock_granted (List.findSome?_eq_none_iff.mp hfind)] at hdenied
      exact absurd hdenied (by simp)
    | some result =>
      rw [tryLock_denied hfind] at hdenied
      obtain ⟨⟨op, range, scope⟩, hmem, hconflict⟩ := exists_of_findSome?_eq_some hfind
      rw [show result = .denied reason operationId from hdenied] at hconflict
      obtain ⟨hop, hscope, hoverlap⟩ := conflictWith_eq_denied hconflict
      exact ⟨(op, ⟨request.keyspace, range, scope⟩), (h.held ..).mpr hmem, hop, rfl, hscope,
        hoverlap⟩

end EnhancedLockedRanges

/-- In both registries, operations exclude each other from the tokens they hold, and unlocking
forgets what an operation held: in every run in which an operation locks only once before it is
unlocked (or, with keyspaces, in one keyspace only), and the full ring and a range that does not
wrap around are not locked by two operations at once. -/
theorem locks_exclude_of_orderly {calls : List (Call Uuid LockedRanges.Request)}
    {enhancedCalls : List (Call Uuid LockRequest)}
    (hmeets : registry.Meets LockedRanges.Orderly ⟨.new, []⟩ calls)
    (henhanced : registry.Meets EnhancedLockedRanges.Orderly ⟨.new, []⟩ enhancedCalls) :
    LockedRanges.Excludes (registry.run ⟨.new, []⟩ calls) ∧
      EnhancedLockedRanges.Excludes (registry.run ⟨.new, []⟩ enhancedCalls) :=
  ⟨(Registry.run_induction (fun _ _ => LockedRanges.Inv.step) hmeets inv_new).toExcludes,
    (Registry.run_induction (fun _ _ => EnhancedLockedRanges.Inv.step) henhanced
      inv_new).toExcludes⟩

/-- Two operations lock neighbouring ranges, and the first one gives its range back. -/
theorem locks_exclude_neighbours : LockedRanges.Excludes (registry.run ⟨.new, []⟩
      [.lock ⟨.same, 1, [⟨0, 100⟩]⟩, .lock ⟨.same, 2, [⟨100, 200⟩]⟩, .unlock 1]) ∧
    EnhancedLockedRanges.Excludes (registry.run ⟨.new, []⟩
      [.lock ⟨1, "ks", [⟨0, 100⟩], .write, 7⟩, .lock ⟨2, "ks", [⟨100, 200⟩], .read, 7⟩,
        .unlock 1]) := by
  refine locks_exclude_of_orderly ⟨nofun, ?_, trivial, trivial⟩ ⟨nofun, ?_, trivial, trivial⟩
  · decide
  · decide

/-- The full ring and a part of it; two ranges one after the other, and again the first of them;
ranges in two keyspaces, and a request that is denied after the unlock. -/
theorem not_locks_exclude : ¬ LockedRanges.Excludes (registry.run ⟨.new, []⟩
      [.lock ⟨.same, 1, [.fullRing]⟩, .lock ⟨.same, 2, [⟨0, 100⟩]⟩]) ∧
    ¬ LockedRanges.Excludes (registry.run ⟨.new, []⟩
      [.lock ⟨.same, 1, [⟨0, 100⟩]⟩, .lock ⟨.same, 1, [⟨200, 300⟩]⟩,
        .lock ⟨.same, 2, [⟨0, 100⟩]⟩]) ∧
    ¬ EnhancedLockedRanges.Excludes (registry.run ⟨.new, []⟩
      [.lock ⟨1, "ks1", [⟨0, 100⟩], .write, 7⟩, .lock ⟨1, "ks2", [⟨0, 100⟩], .write, 7⟩,
        .unlock 1]) := by
  refine ⟨fun h => ?_, fun h => ?_, fun h => ?_⟩
  · exact h.excludes (1, .fullRing) (by decide) (2, ⟨0, 100⟩) (by decide) (by decide)
      ⟨50, by decide, by decide⟩
  · exact h.excludes (1, ⟨0, 100⟩) (by decide) (2, ⟨0, 100⟩) (by decide) (by decide)
      ⟨50, by decide, by decide⟩
  · obtain ⟨lock, hlock, -⟩ := h.denied ⟨2, "ks1", [⟨0, 100⟩], .write, 7⟩ _ 1 rfl
    exact not_mem_nil (show lock ∈ ([] : Held Uuid _) from hlock)

end CassandraVerified.Cluster
