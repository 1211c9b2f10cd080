import CassandraVerified.Cluster.Token
import CassandraVerified.Lib.Exclusion
import CassandraVerified.Lib.TreeMap

/-!
# Locks on token ranges

`tcm/mod.rs` and `tcm/locking.rs`: the ranges that topology operations have locked. `LockedRanges`
keeps the ranges of each operation; `EnhancedLockedRanges` also keeps keyspaces and scopes.
-/

namespace CassandraVerified.Cluster

open Std (ExtTreeMap)
open TreeMap (IterationOrder)
open Exclusion (Registry Situation Call)

abbrev Uuid := BitVec 128

/-- The overlap test of both registries. A wrapping range overlaps everything, but `wrapsAround` is
false for the full ring. -/
def rangesOverlap (a b : TokenRange) : Bool :=
  if a.wrapsAround || b.wrapsAround then true
  else a.start < b.stop && b.start < a.stop

/-- The ranges that operations have locked. -/
structure LockedRanges where
  /-- Operation to locked ranges. -/
  locks : ExtTreeMap Uuid (List TokenRange)

namespace LockedRanges

def new : LockedRanges := ⟨∅⟩

/-- A locked range that overlaps, if there is one. -/
def conflictsWith (order : IterationOrder (Uuid × List TokenRange)) (self : LockedRanges)
    (range : TokenRange) : Option TokenRange :=
  (order.arrange self.locks.toList).findSome? fun entry =>
    entry.2.find? fun locked => rangesOverlap locked range

def lock (order : IterationOrder (Uuid × List TokenRange)) (self : LockedRanges)
    (operationId : Uuid) (ranges : List TokenRange) : Except TokenRange LockedRanges :=
  match ranges.findSome? (self.conflictsWith order) with
  | some conflict => .error conflict
  | none => .ok ⟨self.locks.insert operationId ranges⟩

def unlock (self : LockedRanges) (operationId : Uuid) : Option (List TokenRange) × LockedRanges :=
  (self.locks[operationId]?, ⟨self.locks.erase operationId⟩)

/-- A call of `lock`, made while the map is iterated in the given order. -/
structure Request where
  order : IterationOrder (Uuid × List TokenRange)
  operationId : Uuid
  ranges : List TokenRange

def registry : Registry LockedRanges Uuid Request TokenRange TokenRange where
  owner := Request.operationId
  resources := Request.ranges
  lock self request :=
    match self.lock request.order request.operationId request.ranges with
    | .ok locked => (none, locked)
    | .error conflict => (some conflict, self)
  unlock self operationId := (self.unlock operationId).2

end LockedRanges

/-- What a lock is for. -/
inductive LockScope
  | read
  | write
  | exclusive
deriving Repr, DecidableEq

/-- Only two reads can coexist. -/
def LockScope.conflictsWith (scope other : LockScope) : Bool :=
  match scope, other with
  | .read, .read => false
  | _, _ => true

/-- A request to lock some ranges of a keyspace. -/
structure LockRequest where
  operationId : Uuid
  keyspace : String
  ranges : List TokenRange
  scope : LockScope
  requestedBy : Uuid

/-- The answer to a request. -/
inductive LockResult
  | granted
  | denied (reason : String) (conflictingOperation : Uuid)
deriving Repr, DecidableEq

/-- Why a call on the registry fails. -/
inductive LockError
  | operationNotFound (operationId : Uuid)
deriving Repr, DecidableEq

/-- A lock of a keyspace: the operation, the range and the scope. -/
structure LockEntry where
  operationId : Uuid
  range : TokenRange
  scope : LockScope
deriving Repr, DecidableEq

def TokenRange.display (range : TokenRange) : String :=
  "(" ++ toString range.start ++ ", " ++ toString range.stop ++ "]"

def LockScope.debug : LockScope → String
  | .read => "Read"
  | .write => "Write"
  | .exclusive => "Exclusive"

/-- The registry of locks by operation and by keyspace. -/
structure EnhancedLockedRanges where
  /-- Operation to its last request and scope. -/
  locks : ExtTreeMap Uuid (LockRequest × LockScope)
  perKeyspace : ExtTreeMap String (List LockEntry)

namespace EnhancedLockedRanges

def new : EnhancedLockedRanges := ⟨∅, ∅⟩

def locksForKeyspace (self : EnhancedLockedRanges) (keyspace : String) : List LockEntry :=
  self.perKeyspace[keyspace]?.getD []

def denial (request : LockRequest) (entry : LockEntry) (range : TokenRange) : LockResult :=
  .denied ("Range " ++ range.display ++ " conflicts with existing lock on " ++ entry.range.display ++
    " (scope " ++ request.scope.debug ++ " vs " ++ entry.scope.debug ++ ")") entry.operationId

/-- Denies the request if the entry conflicts with it, naming the first range that overlaps. -/
def conflictWith (request : LockRequest) (entry : LockEntry) : Option LockResult :=
  if request.scope.conflictsWith entry.scope then
    (request.ranges.find? (rangesOverlap entry.range)).map (denial request entry)
  else none

def tryLock (self : EnhancedLockedRanges) (request : LockRequest) :
    LockResult × EnhancedLockedRanges :=
  match (self.locksForKeyspace request.keyspace).findSome? (conflictWith request) with
  | some result => (result, self)
  | none =>
    (.granted,
      { locks := self.locks.insert request.operationId (request, request.scope)
        perKeyspace := self.perKeyspace.insert request.keyspace
          (self.locksForKeyspace request.keyspace ++
            request.ranges.map fun range => ⟨request.operationId, range, request.scope⟩) })

/-- Releases the locks of an operation in the keyspace of its last request. -/
def unlock (self : EnhancedLockedRanges) (operationId : Uuid) :
    Except LockError EnhancedLockedRanges :=
  match self.locks[operationId]? with
  | none => .error (.operationNotFound operationId)
  | some (request, _) =>
    let locks := self.locks.erase operationId
    match self.perKeyspace[request.keyspace]? with
    | none => .ok { self with locks }
    | some ksLocks =>
      let ksLocks := ksLocks.filter fun entry => entry.operationId ≠ operationId
      let perKeyspace :=
        if ksLocks = [] then self.perKeyspace.erase request.keyspace
        else self.perKeyspace.insert request.keyspace ksLocks
      .ok { locks, perKeyspace }

/-- What is locked: a range of a keyspace, in a scope. -/
structure Resource where
  keyspace : String
  range : TokenRange
  scope : LockScope
deriving Repr, DecidableEq

def registry : Registry EnhancedLockedRanges Uuid LockRequest Resource LockResult where
  owner := LockRequest.operationId
  resources request := request.ranges.map fun range => ⟨request.keyspace, range, request.scope⟩
  lock self request :=
    match self.tryLock request with
    | (.granted, locked) => (none, locked)
    | (result, locked) => (some result, locked)
  unlock self operationId :=
    match self.unlock operationId with
    | .ok unlocked => unlocked
    | .error _ => self

end EnhancedLockedRanges

/-- Some token is in both ranges. -/
def Shares (a b : TokenRange) : Prop := ∃ token, a.contains token ∧ b.contains token

/-- Locks in the same keyspace, not both reads, on ranges that share a token. -/
def EnhancedLockedRanges.Conflicts (a b : Resource) : Prop :=
  a.keyspace = b.keyspace ∧ a.scope.conflictsWith b.scope ∧ Shares a.range b.range

/-- No two operations hold ranges that share a token, and a range that a request is denied for is
held and overlaps it. -/
structure LockedRanges.Excludes (s : Situation LockedRanges Uuid TokenRange) : Prop where
  excludes : s.held.Excludes Shares
  denied : ∀ order operationId ranges conflict,
    s.state.lock order operationId ranges = .error conflict →
      ∃ lock ∈ s.held, lock.2 = conflict ∧ ∃ range ∈ ranges, rangesOverlap conflict range

/-- No two operations hold locks that conflict, and one because of which a request is denied holds a
lock that overlaps and does not go with the request. -/
structure EnhancedLockedRanges.Excludes (s : Situation EnhancedLockedRanges Uuid Resource) :
    Prop where
  excludes : s.held.Excludes Conflicts
  denied : ∀ request reason operationId, (s.state.tryLock request).1 = .denied reason operationId →
      ∃ lock ∈ s.held, lock.1 = operationId ∧ lock.2.keyspace = request.keyspace ∧
        request.scope.conflictsWith lock.2.scope ∧
          ∃ range ∈ request.ranges, rangesOverlap lock.2.range range

/-- The overlap test sees what the ranges share: if one of them is the full ring, the other wraps
around. -/
def OverlapSeen (a b : TokenRange) : Prop :=
  (a = .fullRing → b.wrapsAround) ∧ (b = .fullRing → a.wrapsAround)

instance (a b : TokenRange) : Decidable (OverlapSeen a b) := inferInstanceAs (Decidable (_ ∧ _))

/-- The operation holds nothing yet, and the overlaps with what others hold are seen. -/
def LockedRanges.Orderly (s : Situation LockedRanges Uuid TokenRange) : Call Uuid Request → Prop
  | .unlock _ => True
  | .lock request =>
    ∀ lock ∈ s.held, lock.1 ≠ request.operationId ∧
      ∀ range ∈ request.ranges, OverlapSeen lock.2 range

instance (s : Situation LockedRanges Uuid TokenRange) :
    (call : Call Uuid LockedRanges.Request) → Decidable (LockedRanges.Orderly s call)
  | .unlock _ => inferInstanceAs (Decidable True)
  | .lock request => inferInstanceAs (Decidable (∀ lock ∈ s.held,
      lock.1 ≠ request.operationId ∧ ∀ range ∈ request.ranges, OverlapSeen lock.2 range))

/-- What the operation holds is in the same keyspace, and the overlaps with conflicting locks of
others are seen. -/
def EnhancedLockedRanges.Orderly (s : Situation EnhancedLockedRanges Uuid Resource) :
    Call Uuid LockRequest → Prop
  | .unlock _ => True
  | .lock request =>
    ∀ lock ∈ s.held, (lock.1 = request.operationId → lock.2.keyspace = request.keyspace) ∧
      (lock.1 ≠ request.operationId → lock.2.keyspace = request.keyspace →
        request.scope.conflictsWith lock.2.scope → ∀ range ∈ request.ranges,
          OverlapSeen lock.2.range range)

instance (s : Situation EnhancedLockedRanges Uuid EnhancedLockedRanges.Resource) :
    (call : Call Uuid LockRequest) → Decidable (EnhancedLockedRanges.Orderly s call)
  | .unlock _ => inferInstanceAs (Decidable True)
  | .lock request => inferInstanceAs (Decidable (∀ lock ∈ s.held,
      (lock.1 = request.operationId → lock.2.keyspace = request.keyspace) ∧
        (lock.1 ≠ request.operationId → lock.2.keyspace = request.keyspace →
          request.scope.conflictsWith lock.2.scope → ∀ range ∈ request.ranges,
            OverlapSeen lock.2.range range)))

end CassandraVerified.Cluster
