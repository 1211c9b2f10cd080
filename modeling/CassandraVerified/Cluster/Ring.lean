import CassandraVerified.Cluster.Token
import CassandraVerified.Lib.Distinct
import CassandraVerified.Lib.Ring

/-!
# The token ring

`ring.rs`: which endpoints own a token now, and which will own it after a topology change.
-/

namespace CassandraVerified.Cluster

open Std (ExtTreeMap)

/-- The tokens with their owners, now and after the topology operation. -/
structure TokenRing (E : Type) where
  entries : ExtTreeMap Token E
  /-- Reverse map: endpoint to set of owned tokens. -/
  endpointTokens : E → Option (Finset Token)
  /-- Endpoints that will own a token after the topology operation. -/
  pendingRanges : ExtTreeMap Token (List E)

variable {E : Type} [DecidableEq E]

namespace TokenRing

def new : TokenRing E where
  entries := ∅
  endpointTokens := fun _ => none
  pendingRanges := ∅

/-- Takes a token from an endpoint, and the endpoint from the map if it was its last one. -/
def removeToken (endpointTokens : E → Option (Finset Token)) (e : E) (token : Token) :
    E → Option (Finset Token) :=
  match endpointTokens e with
  | none => endpointTokens
  | some tokens =>
    Function.update endpointTokens e
      (if tokens.erase token = ∅ then none else some (tokens.erase token))

/-- Takes a token from its old owner, if that is another endpoint. -/
def removeOwnership (endpointTokens : E → Option (Finset Token)) (old : Option E) (token : Token)
    (e : E) : E → Option (Finset Token) :=
  match old with
  | some old => if old ≠ e then removeToken endpointTokens old token else endpointTokens
  | none => endpointTokens

/-- Adds a mapping from a token to an endpoint. If the token already exists, it is reassigned. -/
def addToken (self : TokenRing E) (token : Token) (e : E) : TokenRing E :=
  let endpointTokens := removeOwnership self.endpointTokens self.entries[token]? token e
  { self with
    entries := self.entries.insert token e
    endpointTokens :=
      Function.update endpointTokens e (some (insert token ((endpointTokens e).getD ∅))) }

/-- Endpoints of the entries from the token up to the end, and then of all entries. -/
def walk (self : TokenRing E) (token : Token) : List E :=
  ((self.entries.toList.filter fun entry => token ≤ entry.1) ++ self.entries.toList).map Prod.snd

def naturalEndpoints (self : TokenRing E) (token : Token) (count : Nat) : List E :=
  if self.entries.isEmpty || count = 0 then [] else Distinct.collect count [] (self.walk token)

/-- During a topology operation, the endpoint will take ownership of the token. -/
def addPendingRange (self : TokenRing E) (token : Token) (e : E) : TokenRing E :=
  let endpoints := (self.pendingRanges[token]?).getD []
  { self with
    pendingRanges := self.pendingRanges.insert token
      (if e ∈ endpoints then endpoints else endpoints ++ [e]) }

/-- The endpoints of the first pending token from this one on. -/
def pendingEndpointsFor (self : TokenRing E) (token : Token) : List E :=
  if self.pendingRanges.isEmpty then []
  else
    match (self.pendingRanges.toList.filter fun entry => token ≤ entry.1).head? with
    | some entry => entry.2
    | none => (self.pendingRanges.toList.head?.map Prod.snd).getD []

def writeReplicas (self : TokenRing E) (token : Token) (naturalCount : Nat) : List E :=
  (self.pendingEndpointsFor token).foldl
    (fun replicas e => if e ∈ replicas then replicas else replicas ++ [e])
    (self.naturalEndpoints token naturalCount)

/-- The ring on which the tokens of joining endpoints are registered. -/
def register (self : TokenRing E) (joins : List (Token × E)) : TokenRing E :=
  joins.foldl (fun ring join => ring.addPendingRange join.1 join.2) self

/-- The ring after the tokens of joining endpoints have been added. -/
def join (self : TokenRing E) (joins : List (Token × E)) : TokenRing E :=
  joins.foldl (fun ring join => ring.addToken join.1 join.2) self

/-- Writes to the ring before reach the endpoints that own the token on the ring after. -/
def ReachesFutureOwners (self : TokenRing E) (joins : List (Token × E)) (token : Token)
    (rf : Nat) : Prop :=
  ∀ e ∈ ((self.register joins).join joins).naturalEndpoints token rf,
    e ∈ (self.register joins).writeReplicas token rf

/-- The endpoints that the walk from `token` meets before it comes to `t`. -/
def preceding (self : TokenRing E) (token t : Token) : Finset E :=
  ((self.entries.toList.filter fun entry =>
    Ring.dist token entry.1 < Ring.dist token t).map Prod.snd).toFinset

/-- The endpoint has a token. -/
def Owns (self : TokenRing E) (e : E) : Prop := ∃ t : Token, self.entries[t]? = some e

/-- The endpoint has a token that fewer than `rf` endpoints precede. -/
def IsNear (self : TokenRing E) (token : Token) (rf : Nat) (e : E) : Prop :=
  ∃ t, self.entries[t]? = some e ∧ (self.preceding token t).card < rf

/-- The endpoint is registered for the pending token that comes first on the walk. -/
def IsNextPending (self : TokenRing E) (token : Token) (e : E) : Prop :=
  ∃ t endpoints, self.pendingRanges[t]? = some endpoints ∧ e ∈ endpoints ∧
    ∀ t' ∈ self.pendingRanges, Ring.dist token t ≤ Ring.dist token t'

/-- The joining tokens are so far apart that writes to any token reach its future owners. -/
structure KnowsFutureOwners (self : TokenRing E) (joins : List (Token × E)) (rf : Nat) : Prop where
  /-- From each pending token on, at least `rf` endpoints come before a token of an endpoint that is
  new to the ring, unless that endpoint is registered for the pending token. -/
  joining : ∀ p endpoints, (self.register joins).pendingRanges[p]? = some endpoints →
    ∀ t e, (self.join joins).entries[t]? = some e → ¬ self.Owns e → e ∉ endpoints →
      rf ≤ ((self.join joins).preceding p t).card
  /-- Endpoints of the ring that come near by a token they take over, or behind one that is
  reassigned, are near or registered already. -/
  owners : ∀ token t e, (self.join joins).entries[t]? = some e → self.Owns e →
    (t ∈ joins.map Prod.fst ∨ ∃ t' ∈ joins.map Prod.fst, t' ∈ self.entries ∧
      Ring.dist token t' < Ring.dist token t) →
    ((self.join joins).preceding token t).card < rf →
      self.IsNear token rf e ∨ (self.register joins).IsNextPending token e

end TokenRing

end CassandraVerified.Cluster
