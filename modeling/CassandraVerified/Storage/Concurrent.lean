import CassandraVerified.Storage.Run

/-!
# Concurrent writers and flushes

A `Thread` is one call of `apply_mutation` or `flush_cf`, between two of the atomic steps that the
locks of the engine leave. A `System` takes one step of one thread at a time, in any order. Nothing
keeps a writer from applying operations through a reference to a memtable that was switched out and
iterated in the meantime; `System.Quiet` says that this does not happen at a step.
-/

namespace CassandraVerified.Storage

/-- A call in progress. The flush of a writer that found memory short carries its mutation. -/
inductive Thread where
  /-- `apply_mutation` before its first step. -/
  | apply (m : Mutation)
  /-- The record of the mutation is in segment `segId`. -/
  | logged (m : Mutation) (segId : Nat)
  /-- The writer has the memtable `mt` and still has to apply `rest`. -/
  | writing (m : Mutation) (mt : Memtable) (rest : List Write)
  /-- `flush_cf` before its first step. -/
  | flush (cfName : String) (m : Option Mutation)
  | switched (cfName : String) (old : Memtable) (m : Option Mutation)
  | iterated (cfName : String) (old : Memtable) (partitions : List (Bytes × PartitionData))
      (m : Option Mutation)
  | registered (old : Memtable) (m : Option Mutation)
  /-- The flush was marked as complete. -/
  | completed (m : Option Mutation)
  /-- The SSTable could not be written, and the memtable stays switched out. -/
  | failed (old : Memtable) (m : Option Mutation) (e : EngineError)
  | returned (m : Option Mutation) (result : Except EngineError Unit)
deriving DecidableEq

namespace Thread

def Starts : Thread → Prop
  | apply _ => True
  | flush _ m => m = none
  | _ => False

def mutation? : Thread → Option Mutation
  | apply m => some m
  | logged m _ => some m
  | writing m _ _ => some m
  | flush _ m => m
  | switched _ _ m => m
  | iterated _ _ _ m => m
  | registered _ m => m
  | completed m => m
  | failed _ m _ => m
  | returned m _ => m

/-- The memtable that is switched out and that the thread has not brought to an SSTable. -/
def flushing? : Thread → Option Memtable
  | switched _ old _ => some old
  | iterated _ old _ _ => some old
  | failed old _ _ => some old
  | _ => none

def writesTo (id : Nat) : Thread → Bool
  | writing _ mt rest => mt.id = id ∧ rest ≠ []
  | _ => false

/-- The memtable that the next step of the thread iterates. -/
def iterates? : Thread → Option Memtable
  | switched _ old _ => some old
  | _ => none

def step (ext : LogExternal) (io : Io) (e : Store) : Thread → Store × Thread
  | apply m =>
    match e.commitlog.append ext m io.cdcUsed with
    | (log, .error err) => ({ e with commitlog := log }, returned m (.error (.commitLog err)))
    | (log, .ok (segId, _)) => ({ e with commitlog := log }, logged m segId)
  | logged m segId =>
    ({ e with memtables := (e.memtables.getOrCreate m.cfName segId).2 },
      writing m (e.memtables.getOrCreate m.cfName segId).1 m.writes)
  | writing m mt (w :: rest) =>
    ({ e with memtables := e.memtables.write mt m.partitionKey [w] }, writing m mt rest)
  | writing m _ [] =>
    (e, if e.memtables.shouldFlush then flush m.cfName (some m) else returned m (.ok ()))
  | flush cfName m =>
    match e.memtables.switchMemtable cfName e.commitlog.current.id with
    | (none, memtables) => ({ e with memtables := memtables }, returned m (.ok ()))
    | (some old, memtables) => ({ e with memtables := memtables }, switched cfName old m)
  | switched cfName old m =>
    (e, iterated cfName old (e.memtables.contents old.id).iterPartitions m)
  | iterated cfName old partitions m =>
    if partitions.isEmpty then (e.flushComplete old.id, returned m (.ok ()))
    else
      match e.writeSSTable contentLayer cfName partitions io with
      | (e, .error err) => (e, failed old m err)
      | (e, .ok _) => (e, registered old m)
  | registered old m => (e.flushComplete old.id, completed m)
  | completed m => (e.discardSegments io, returned m (.ok ()))
  | failed old m err => (e, failed old m err)
  | returned m result => (e, returned m result)

end Thread

/-- The engine and the threads that use it. -/
structure System where
  store : Store
  threads : List Thread

namespace System

/-- Calls to a new engine over empty directories. -/
def new (config : CommitLogConfig) (flushThreshold : Nat) (threads : List Thread) : System :=
  ⟨.new config flushThreshold, threads⟩

def step (ext : LogExternal) (s : System) (i : Nat) (io : Io) : System :=
  match s.threads[i]? with
  | none => s
  | some th =>
    { store := (th.step ext io s.store).1
      threads := s.threads.set i (th.step ext io s.store).2 }

/-- The steps of a schedule, each with what it meets outside the engine. -/
def run (ext : LogExternal) (s : System) (schedule : List (Nat × Io)) : System :=
  schedule.foldl (fun s i => s.step ext i.1 i.2) s

/-- If thread `i` iterates a memtable next, no writer still has to write to it. -/
def Quiet (s : System) (i : Nat) : Prop :=
  ∀ old ∈ s.threads[i]?.bind Thread.iterates?, ∀ th ∈ s.threads, th.writesTo old.id = false

instance (s : System) (i : Nat) : Decidable (s.Quiet i) :=
  inferInstanceAs (Decidable (∀ old ∈ s.threads[i]?.bind Thread.iterates?, ∀ th ∈ s.threads,
    th.writesTo old.id = false))

def QuietRun (ext : LogExternal) (s : System) : List (Nat × Io) → Prop
  | [] => True
  | (i, io) :: schedule => s.Quiet i ∧ (s.step ext i io).QuietRun ext schedule

instance decidableQuietRun (ext : LogExternal) (s : System) :
    (schedule : List (Nat × Io)) → Decidable (s.QuietRun ext schedule)
  | [] => inferInstanceAs (Decidable True)
  | (i, io) :: schedule =>
    have := decidableQuietRun ext (s.step ext i io) schedule
    inferInstanceAs (Decidable (s.Quiet i ∧ (s.step ext i io).QuietRun ext schedule))

/-- Every flush has finished, and brought its memtable to disk. -/
def Flushed (s : System) : Prop := ∀ th ∈ s.threads, th.flushing? = none

instance (s : System) : Decidable s.Flushed :=
  inferInstanceAs (Decidable (∀ th ∈ s.threads, th.flushing? = none))

end System

end CassandraVerified.Storage
