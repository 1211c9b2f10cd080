import CassandraVerified.Storage.Mutation

/-!
# The JSON text of a mutation

What `serde_json` writes for a `Mutation` of `commitlog/mod.rs`, field by field in the order of the
source. The log takes any text that is read back; this one is what its entries look like.
-/

namespace CassandraVerified.Storage

/-- A list, as `serde_json` writes it. -/
def jsonList {α : Type} (json : α → String) (l : List α) : String :=
  "[" ++ ",".intercalate (l.map json) ++ "]"

/-- `null` for nothing. -/
def jsonOption {α : Type} (json : α → String) (o : Option α) : String := (o.map json).getD "null"

/-- Bytes are written as numbers. -/
def jsonBytes : Bytes → String := jsonList fun b => toString b.toNat

/-- The text of a cell, for a column name that needs no escapes. -/
def Cell.json (c : Cell) : String :=
  "\x7b\"column\":\"" ++ c.column ++ "\",\"value\":" ++ jsonOption jsonBytes c.value ++
    ",\"timestamp\":" ++ toString c.timestamp.toInt ++ ",\"ttl\":" ++ toString c.ttl.toInt ++
    ",\"local_deletion_time\":" ++ jsonOption (fun t => toString t.toInt) c.localDeletionTime ++
    ",\"is_tombstone\":" ++ toString c.isTombstone ++ "\x7d"

/-- The text of a row. -/
def Row.json (r : Row) : String :=
  "\x7b\"clustering_key\":" ++ jsonBytes r.clusteringKey ++ ",\"cells\":" ++
    jsonList Cell.json r.cells ++ ",\"is_tombstone\":" ++ toString r.isTombstone ++
    ",\"local_deletion_time\":" ++ jsonOption (fun t => toString t.toInt) r.localDeletionTime ++
    "\x7d"

/-- The text of a partition tombstone. -/
def TombstoneMarker.json (t : TombstoneMarker) : String :=
  "\x7b\"timestamp\":" ++ toString t.timestamp.toInt ++ ",\"local_deletion_time\":" ++
    toString t.localDeletionTime.toInt ++ "\x7d"

/-- The text of a range tombstone. -/
def RangeTombstoneMarker.json (t : RangeTombstoneMarker) : String :=
  "\x7b\"start\":" ++ jsonBytes t.start ++ ",\"end\":" ++ jsonBytes t.end ++
    ",\"timestamp\":" ++ toString t.timestamp.toInt ++ ",\"local_deletion_time\":" ++
    toString t.localDeletionTime.toInt ++ "\x7d"

/-- The text of a mutation after its partition key. -/
def Mutation.jsonTail (m : Mutation) : String :=
  ",\"rows\":" ++ jsonList Row.json m.rows ++ ",\"timestamp\":" ++ toString m.timestamp.toInt ++
    ",\"cdc_enabled\":" ++ toString m.cdcEnabled ++ ",\"static_cells\":" ++
    jsonList Cell.json m.staticCells ++ ",\"partition_tombstone\":" ++
    jsonOption TombstoneMarker.json m.partitionTombstone ++ ",\"range_tombstones\":" ++
    jsonList RangeTombstoneMarker.json m.rangeTombstones ++ "\x7d"

/-- The JSON text of a mutation, for names that need no escapes. -/
def Mutation.json (m : Mutation) : String :=
  "\x7b\"keyspace\":\"" ++ m.keyspace ++ "\",\"table\":\"" ++ m.table ++
    "\",\"partition_key\":" ++ jsonBytes m.partitionKey ++ m.jsonTail

/-- The text in UTF-8. -/
def Mutation.jsonVec (m : Mutation) : Bytes := m.json.toByteArray.data.toList

end CassandraVerified.Storage
