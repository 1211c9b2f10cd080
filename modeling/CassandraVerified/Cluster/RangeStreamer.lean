import CassandraVerified.Cluster.Ring
import CassandraVerified.Lib.TreeMap

/-!
# Streaming ranges to a joining node

`range_streamer.rs`: every requested range is fetched from one replica of its end token.
-/

namespace CassandraVerified.Cluster

open TreeMap (IterationOrder)

/-- Where the nodes are, and in which order they are near. -/
structure Snitch (E : Type) where
  datacenter : E → String
  rack : E → String
  sortByProximity : E → List E → List E
  perm : ∀ source endpoints, (sortByProximity source endpoints).Perm endpoints

/-- `calculate_natural_endpoints` of a replication strategy. -/
abbrev ReplicationStrategy (E : Type) := Token → TokenRing E → Snitch E → List E

/-- A source and the range to fetch from it. -/
structure FetchReplica (E : Type) where
  source : E
  range : TokenRange

/-- Ranges to be streamed from one node to another. -/
structure StreamRangeRequest (E : Type) where
  source : E
  destination : E
  ranges : List (Token × Token)

/-- Plans what a node has to fetch. -/
structure RangeStreamer (E : Type) where
  localEndpoint : E
  ring : TokenRing E
  strategy : ReplicationStrategy E
  snitch : Snitch E
  /-- The source filters, which are true for an endpoint that they exclude. -/
  filters : List (E → Bool)
  rangesToFetch : List (FetchReplica E)

namespace RangeStreamer

variable {E : Type} [DecidableEq E]

def isValidSource (self : RangeStreamer E) (endpoint : E) : Bool :=
  endpoint ≠ self.localEndpoint && !self.filters.any (· endpoint)

/-- The endpoints that hold a token on the current ring. -/
def replicas (self : RangeStreamer E) (token : Token) : List E :=
  self.strategy token self.ring self.snitch

/-- The replica of the end token that is closest among the valid ones. -/
def sourceOf (self : RangeStreamer E) (range : TokenRange) : Option E :=
  (self.snitch.sortByProximity self.localEndpoint
    ((self.replicas range.stop).filter self.isValidSource)).head?

/-- A range without a valid source is left out. -/
def addRanges (self : RangeStreamer E) (ranges : List TokenRange) : RangeStreamer E :=
  { self with rangesToFetch := self.rangesToFetch ++
      ranges.filterMap fun range => (self.sourceOf range).map (⟨·, range⟩) }

/-- The requests of the plan: the ranges by source, and the sources in the order of a hash map. -/
def toStreamPlan (self : RangeStreamer E) (order : IterationOrder E) :
    List (StreamRangeRequest E) :=
  (order.arrange (self.rangesToFetch.map FetchReplica.source).dedup).map fun source =>
    { source
      destination := self.localEndpoint
      ranges := (self.rangesToFetch.filter (·.source = source)).map fun fetch =>
        (fetch.range.start, fetch.range.stop) }

/-- Every token of the ranges is requested from a valid source that is a replica of it. -/
def Covers (self : RangeStreamer E) (requests : List (StreamRangeRequest E))
    (ranges : List TokenRange) : Prop :=
  ∀ range ∈ ranges, ∀ token, range.contains token →
    ∃ request ∈ requests,
      (request.source ∈ self.replicas token ∧ self.isValidSource request.source) ∧
      ∃ bounds ∈ request.ranges, TokenRange.contains ⟨bounds.1, bounds.2⟩ token

/-- Every token of the ranges has a replica that is a valid source. -/
def Available (self : RangeStreamer E) (ranges : List TokenRange) : Prop :=
  ∀ range ∈ ranges, ∀ token, range.contains token →
    ∃ e ∈ self.replicas token, self.isValidSource e

/-- Ranges whose tokens all have a valid source are covered, whatever the order of the snitch and
the filters are. -/
def AlwaysCovers (self : RangeStreamer E) (ranges : List TokenRange) : Prop :=
  ∀ other : RangeStreamer E, other.localEndpoint = self.localEndpoint →
    other.replicas = self.replicas → other.rangesToFetch = [] → ∀ order, other.Available ranges →
      other.Covers ((other.addRanges ranges).toStreamPlan order) ranges

/-- Every token is in a range such that all replicas of its end token, the streaming endpoint apart,
are replicas of the token. -/
def HeldAtEnd (self : RangeStreamer E) (ranges : List TokenRange) : Prop :=
  ∀ range ∈ ranges, ∀ token, range.contains token → ∃ range' ∈ ranges, range'.contains token ∧
    ∀ e ∈ self.replicas range'.stop, e ≠ self.localEndpoint → e ∈ self.replicas token

end RangeStreamer

end CassandraVerified.Cluster
