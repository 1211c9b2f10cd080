import CassandraVerified.Storage.Counter

/-!
# Proofs: counters

Merging is a join at every node. One context that sees all deltas is kept beside a run: every
context of the run is below it, and each node's own context agrees with it on the node's shard.
-/

namespace CassandraVerified.Storage

open Std (ExtTreeMap)
open Option

attribute [local instance] addCommGroupInt64

variable {c all : CounterContext}

namespace CounterShard

/-- The later of two shards: the higher clock, and the higher count at one clock. -/
def newer (s other : CounterShard) : CounterShard :=
  if other.clock > s.clock ∨ (other.clock = s.clock ∧ other.count > s.count) then other else s

theorem newer_comm (a b : CounterShard) : newer a b = newer b a := by
  grind [newer, CounterShard.ext_iff]

theorem newer_assoc (a b c : CounterShard) : newer (newer a b) c = newer a (newer b c) := by
  grind [newer, CounterShard.ext_iff]

instance : Std.Commutative newer := ⟨newer_comm⟩
instance : Std.Associative newer := ⟨newer_assoc⟩
instance : Std.IdempotentOp newer := ⟨fun a => ite_self a⟩

end CounterShard

namespace CounterContext

open CounterShard (newer)

theorem ext_shard {d : CounterContext} (h : ∀ x, c.shard x = d.shard x) : c = d := by
  cases c
  cases d
  rw [CounterContext.mk.injEq]
  exact ExtTreeMap.ext_getElem? h

theorem getElem?_mergeShard (m : ExtTreeMap NodeId CounterShard) (e : NodeId × CounterShard)
    (x : NodeId) :
    (mergeShard m e)[x]? = Option.merge newer m[x]? (if e.1 = x then some e.2 else none) := by
  unfold mergeShard newer
  by_cases hx : e.1 = x
  · subst hx
    rw [if_pos rfl]
    cases hm : m[e.1]? with
    | none => simp
    | some s =>
      simp only [merge_some_some]
      grind
  · rw [if_neg hx, merge_none_right]
    cases m[e.1]? with
    | none => simp [ExtTreeMap.getElem?_insert, hx]
    | some s =>
      simp only
      split_ifs <;> simp [ExtTreeMap.getElem?_insert, hx]

theorem shard_merge (c d : CounterContext) (x : NodeId) :
    (c.merge d).shard x = Option.merge newer (c.shard x) (d.shard x) := by
  have hfold : ∀ (l : List (NodeId × CounterShard)) (m : ExtTreeMap NodeId CounterShard),
      (l.map Prod.fst).Nodup →
        (l.foldl mergeShard m)[x]? = Option.merge newer m[x]? (l.lookup x) := by
    intro l
    induction l with
    | nil => simp
    | cons e l ih =>
      intro m hnodup
      rw [List.map_cons, List.nodup_cons] at hnodup
      rw [List.foldl_cons, ih _ hnodup.2, getElem?_mergeShard, List.lookup_cons]
      by_cases hx : e.1 = x
      · subst hx
        simp [TreeMap.lookup_eq_none_iff.mpr hnodup.1]
      · have hbeq : (x == e.1) = false := by simpa using Ne.symm hx
        simp [hx, hbeq]
  rw [merge, shard, hfold _ _ (TreeMap.nodup_map_fst_toList _), TreeMap.lookup_toList]
  rfl

theorem merge_comm (c d : CounterContext) : c.merge d = d.merge c := by
  refine ext_shard fun x => ?_
  rw [shard_merge, shard_merge]
  exact (commutative_merge newer).comm _ _

theorem merge_assoc (a b c : CounterContext) : (a.merge b).merge c = a.merge (b.merge c) := by
  refine ext_shard fun x => ?_
  simp only [shard_merge]
  exact (associative_merge newer).assoc _ _ _

theorem merge_self (c : CounterContext) : c.merge c = c := by
  refine ext_shard fun x => ?_
  rw [shard_merge]
  exact (idempotentOp_merge newer).idempotent _

theorem shard_applyLocal (c : CounterContext) (node : NodeId) (delta : Int64) (x : NodeId) :
    (c.applyLocal node delta).shard x =
      if node = x then
        some ⟨((c.shard node).getD ⟨0, 0⟩).clock + 1, ((c.shard node).getD ⟨0, 0⟩).count + delta⟩
      else c.shard x := by
  simp only [applyLocal, shard, ExtTreeMap.getElem?_alter, Std.compare_eq_iff_eq]

/-- The clock of a node's shard, as a number; zero if there is no shard. -/
def clockOf (c : CounterContext) (node : NodeId) : ℤ := ((c.shard node).getD ⟨0, 0⟩).clock.toInt

theorem clockOf_applyLocal {node : NodeId} (h : c.clockOf node + 1 < 2 ^ 63) (delta : Int64)
    (x : NodeId) :
    (c.applyLocal node delta).clockOf x = if node = x then c.clockOf node + 1 else c.clockOf x := by
  unfold clockOf
  rw [shard_applyLocal]
  split
  · exact Int64.toInt_add_one h
  · rfl

/-- A delta moves a context ahead, unless the clock is at its end. -/
theorem merge_applyLocal (h : c.merge all = all) {node : NodeId}
    (hclock : all.clockOf node + 1 < 2 ^ 63) (delta : Int64) :
    c.merge (all.applyLocal node delta) = all.applyLocal node delta := by
  have hself : all.merge (all.applyLocal node delta) = all.applyLocal node delta := by
    refine ext_shard fun x => ?_
    rw [shard_merge, shard_applyLocal]
    split
    · next hx =>
      subst hx
      cases hs : all.shard node with
      | none => rfl
      | some s =>
        rw [clockOf, hs, Option.getD_some] at hclock
        have hlt : s.clock < s.clock + 1 := by
          rw [Int64.lt_iff_toInt_lt, Int64.toInt_add_one hclock]
          exact lt_add_one _
        simp [newer, hlt]
    · exact (idempotentOp_merge newer).idempotent _
  rw [← hself, ← merge_assoc, h]

theorem applyLocal_merge_applyLocal (h : c.merge all = all) {node : NodeId}
    (hshard : c.shard node = all.shard node) (delta : Int64) :
    (c.applyLocal node delta).merge (all.applyLocal node delta) = all.applyLocal node delta := by
  refine ext_shard fun x => ?_
  rw [shard_merge, shard_applyLocal, shard_applyLocal, hshard]
  split
  · exact (idempotentOp_merge newer).idempotent _
  · rw [← shard_merge, h]

theorem total_applyLocal (c : CounterContext) (node : NodeId) (delta : Int64) :
    (c.applyLocal node delta).total = c.total + delta := by
  have h := TreeMap.sum_values_alter c.shards node (fun s =>
    some ⟨(s.getD ⟨0, 0⟩).clock + 1, (s.getD ⟨0, 0⟩).count + delta⟩) CounterShard.count
  simp only [total, applyLocal]
  cases hs : c.shards[node]? with
  | none =>
    rw [hs] at h
    simpa using h
  | some s =>
    rw [hs] at h
    refine add_right_cancel (b := s.count) (h.trans ?_)
    rw [add_assoc, add_comm delta]
    rfl

end CounterContext

namespace CounterStep

open CounterContext

/-- The context that sees every delta. -/
def track (all : CounterContext) : CounterStep → CounterContext
  | apply node delta => all.applyLocal node delta
  | merge _ _ => all

theorem total_foldl_track (steps : List CounterStep) (all : CounterContext) :
    (steps.foldl track all).total = all.total + (deltas steps).sum := by
  induction steps generalizing all with
  | nil => simp [deltas]
  | cons step steps ih =>
    rw [List.foldl_cons, ih]
    cases step with
    | apply node delta =>
      rw [track, total_applyLocal]
      exact add_assoc _ _ _
    | merge into source => rfl

/-- After `n` deltas: no context is ahead of what was applied, a node's own is not behind on its own
shard, and no clock is above `n`. -/
structure Tracks (n : ℕ) (contexts : Holder → CounterContext) (all : CounterContext) : Prop where
  own : ∀ x, (contexts (.node x)).shard x = all.shard x
  below : ∀ holder, (contexts holder).merge all = all
  clocks : ∀ x, all.clockOf x ≤ n

variable {n : ℕ} {contexts : Holder → CounterContext}

theorem Tracks.step (h : Tracks n contexts all) (step : CounterStep)
    (hn : n + (deltas [step]).length < 2 ^ 63) :
    Tracks (n + (deltas [step]).length) (step.run contexts) (step.track all) := by
  cases step with
  | apply node delta =>
    have hclock : all.clockOf node + 1 < 2 ^ 63 := by
      have hle := h.clocks node
      simp only [deltas, List.filterMap_cons, List.filterMap_nil, List.length_singleton] at hn
      omega
    refine ⟨fun x => ?_, fun holder => ?_, fun x => ?_⟩
    · simp only [run, track, Function.update_apply, shard_applyLocal, Holder.node.injEq]
      by_cases hx : x = node
      · subst hx
        rw [if_pos rfl, shard_applyLocal, h.own x]
      · rw [if_neg hx, if_neg (Ne.symm hx), h.own x]
    · simp only [run, track, Function.update_apply]
      split
      · exact applyLocal_merge_applyLocal (h.below _) (h.own node) delta
      · exact merge_applyLocal (h.below holder) hclock delta
    · rw [track, clockOf_applyLocal hclock]
      have hnode := h.clocks node
      have hx := h.clocks x
      simp only [deltas, List.filterMap_cons, List.filterMap_nil, List.length_singleton]
      split <;> omega
  | merge into source =>
    refine ⟨fun x => ?_, fun holder => ?_, h.clocks⟩
    · simp only [run, track, Function.update_apply]
      split
      · next hinto =>
        subst hinto
        rw [merge_comm, shard_merge, h.own x, ← shard_merge, h.below]
      · exact h.own x
    · simp only [run, track, Function.update_apply]
      split
      · rw [merge_assoc, h.below, h.below]
      · exact h.below holder

theorem Tracks.run (h : Tracks n contexts all) (steps : List CounterStep)
    (hn : n + (deltas steps).length < 2 ^ 63) :
    Tracks (n + (deltas steps).length) (steps.foldl CounterStep.run contexts)
      (steps.foldl track all) := by
  induction steps generalizing n contexts all with
  | nil => exact h
  | cons step steps ih =>
    have hlength : (deltas (step :: steps)).length =
        (deltas [step]).length + (deltas steps).length := by
      simp [deltas, ← List.length_append, ← List.filterMap_append]
    rw [hlength, ← Nat.add_assoc] at hn ⊢
    exact ih (h.step step (by omega)) hn

theorem tracks_runAll (steps : List CounterStep) (hn : (deltas steps).length < 2 ^ 63) :
    Tracks (deltas steps).length (runAll steps) (steps.foldl track .new) := by
  have hnew : Tracks 0 (fun _ => .new) .new := ⟨fun _ => rfl, fun _ => merge_self _, fun _ => le_rfl⟩
  simpa [runAll] using hnew.run steps (by simpa using hn)

/-- A context that has taken in each node's own context is the one that saw every delta. -/
theorem Tracks.eq_of_absorbs (h : Tracks n contexts all) {holder : Holder}
    (habsorbs : ∀ x, (contexts holder).merge (contexts (.node x)) = contexts holder) :
    contexts holder = all := by
  refine ext_shard fun x => ?_
  rw [← habsorbs x, shard_merge, h.own x, ← shard_merge, h.below]

/-- In every run a context that has taken in each node's own context has the sum of all deltas as
its total. The sums may wrap around, but no clock may. -/
theorem total_eq_sum_deltas (steps : List CounterStep) (hclocks : (deltas steps).length < 2 ^ 63) :
    (∀ a b c : CounterContext, a.merge b = b.merge a ∧
      (a.merge b).merge c = a.merge (b.merge c) ∧ a.merge a = a) ∧
    ∀ holder, (∀ x, (runAll steps holder).merge (runAll steps (.node x)) = runAll steps holder) →
      (runAll steps holder).total = (deltas steps).sum := by
  refine ⟨fun a b c => ⟨merge_comm a b, merge_assoc a b c, merge_self a⟩, fun holder habsorbs => ?_⟩
  rw [(tracks_runAll steps hclocks).eq_of_absorbs habsorbs, total_foldl_track]
  exact zero_add _

/-- Two nodes that hear of each other through a copy, twice. -/
def gossip : List CounterStep :=
  [.apply 1 5, .merge (.copy 0) (.node 1), .apply 2 (-2), .apply 1 4, .merge (.node 2) (.copy 0),
    .merge (.copy 0) (.node 2), .merge (.copy 0) (.node 1), .merge (.copy 0) (.node 2)]

theorem total_eq_sum_deltas_gossip : (runAll gossip (.copy 0)).total = 7 := by
  refine ((total_eq_sum_deltas gossip (by decide)).2 (.copy 0) fun x => ?_).trans (by decide)
  by_cases h1 : x = 1#128
  · subst h1
    exact congrArg CounterContext.mk (by decide)
  · by_cases h2 : x = 2#128
    · subst h2
      exact congrArg CounterContext.mk (by decide)
    · have hnew : runAll gossip (.node x) = .new := by
        simp [runAll, gossip, run, h1, h2]
      rw [hnew]
      rfl

end CounterStep

namespace CounterContext

open CounterShard (newer)

variable {d : CounterContext} {localNode : NodeId}

/-- The count of a shard that may be absent. -/
def countOf (s : Option CounterShard) : Int64 := s.elim 0 CounterShard.count

theorem total_eq (c : CounterContext) (x : NodeId) : c.total = countOf (c.shard x) +
      ((TreeMap.values (c.shards.erase x)).map CounterShard.count).sum :=
  TreeMap.sum_values_erase c.shards x CounterShard.count

/-- Contexts that agree on all other nodes have one total exactly if they have one count here. -/
theorem total_eq_iff (h : ∀ x ≠ localNode, c.shard x = d.shard x) :
    c.total = d.total ↔ countOf (c.shard localNode) = countOf (d.shard localNode) := by
  have herase : c.shards.erase localNode = d.shards.erase localNode := by
    refine ExtTreeMap.ext_getElem? fun x => ?_
    rw [ExtTreeMap.getElem?_erase, ExtTreeMap.getElem?_erase]
    split
    · rfl
    · next hx => exact h x fun heq => hx (Std.compare_eq_iff_eq.mpr heq.symm)
  rw [total_eq c localNode, total_eq d localNode, herase]
  exact add_left_inj _

/-- The highest clock that a context has seen, and the sum of its counts. -/
def folded (c : CounterContext) (localNode : NodeId) : CounterShard where
  clock := max ((c.shard localNode).getD ⟨0, 0⟩).clock (c.remoteMaxClock localNode)
  count := countOf (c.shard localNode) + c.remoteSum localNode

theorem shard_cleanup (c : CounterContext) (localNode x : NodeId) : (c.cleanup localNode).shard x =
      if x = localNode then
        if c.remoteSum localNode ≠ 0 ∨ c.shard localNode = none then
          some ⟨(c.folded localNode).clock + 1, (c.folded localNode).count⟩
        else c.shard localNode
      else none := by
  have hkept : ∀ y, (c.shards.filter fun id _ => id = localNode)[y]? =
      if y = localNode then c.shard localNode else none := by
    intro y
    rw [ExtTreeMap.getElem?_filter]
    split
    · next hy =>
      simp only [hy, shard, ExtTreeMap.getKey_eq, decide_true, pfilter_eq_filter]
      cases c.shards[localNode]? <;> rfl
    · next hy => simp [hy]
  have hmem : localNode ∉ (c.shards.filter fun id _ => decide (id = localNode)) ↔
      c.shard localNode = none := by
    rw [ExtTreeMap.mem_iff_isSome_getElem?, hkept, if_pos rfl, not_isSome_iff_eq_none]
  have hcount : ((c.shard localNode).getD ⟨0, 0⟩).count = countOf (c.shard localNode) := by
    cases c.shard localNode <;> rfl
  unfold cleanup folded
  simp only [hmem, hkept, if_true, hcount]
  by_cases hfolds : c.remoteSum localNode ≠ 0 ∨ c.shard localNode = none
  · rw [if_pos hfolds, if_pos hfolds]
    simp only [shard, ExtTreeMap.getElem?_insert, Std.compare_eq_iff_eq]
    split
    · next hx => rw [if_pos hx.symm]
    · next hx => rw [hkept, if_neg (Ne.symm hx), if_neg (Ne.symm hx)]
  · rw [if_neg hfolds, if_neg hfolds]
    exact hkept x

/-- Nothing is folded in, or `d` has a local shard that is later than what the cleanup makes of `c`
(and, should the clock of that wrap around, than the local shard of `c`, or has its count), or one
that is later than the local shard of `c` and has just the total of `c` as its count. -/
def CleansSafely (c d : CounterContext) (localNode : NodeId) : Prop :=
  (c.remoteSum localNode = 0 ∧ (c.shard localNode ≠ none ∨ d.shard localNode = none)) ∨
    ∃ s, d.shard localNode = some s ∧
      ((newer ⟨(c.folded localNode).clock + 1, (c.folded localNode).count⟩ s = s ∧
          ∀ own, c.shard localNode = some own → newer own s = s ∨ own.count = s.count) ∨
        ((∀ own, c.shard localNode = some own → newer own s = s) ∧
          s.count = (c.folded localNode).count))

/-- At the local node, a cleanup before the merge leaves the count as it is exactly then. -/
theorem countOf_cleanup_iff (c d : CounterContext) (localNode : NodeId) :
    countOf (((c.cleanup localNode).merge d).shard localNode) =
        countOf ((c.merge d).shard localNode) ↔ CleansSafely c d localNode := by
  rw [shard_merge, shard_merge, shard_cleanup, if_pos rfl]
  unfold CleansSafely
  have hfolded : (c.folded localNode).count = countOf (c.shard localNode) + c.remoteSum localNode :=
    rfl
  generalize c.folded localNode = folded at hfolded ⊢
  generalize c.remoteSum localNode = sum at hfolded ⊢
  generalize c.shard localNode = own at hfolded ⊢
  have hpick : ∀ a b : CounterShard, newer a b = a ∨ newer a b = b := by
    intro a b
    exact (ite_eq_or_eq _ b a).symm
  rcases own with _ | own <;> rcases d.shard localNode with _ | s
  · simp_all [countOf]
  · have hcleaned := hpick ⟨folded.clock + 1, folded.count⟩ s
    simp_all [countOf]
    grind
  · by_cases hsum : sum = 0 <;> simp_all [countOf]
  · have hcleaned := hpick ⟨folded.clock + 1, folded.count⟩ s
    have hown := hpick own s
    by_cases hsum : sum = 0 <;> simp_all [countOf]
    grind

/-- A cleanup is transparent to a later merge exactly if it is safe. -/
theorem total_cleanup_merge_iff
    (hlater : ∀ x ≠ localNode, Option.merge newer (c.shard x) (d.shard x) = d.shard x) :
    ((c.cleanup localNode).merge d).total = (c.merge d).total ↔ CleansSafely c d localNode := by
  rw [← countOf_cleanup_iff]
  refine total_eq_iff fun x hx => ?_
  rw [shard_merge, shard_merge, shard_cleanup, if_neg hx, hlater x hx, merge_none_left]

/-- Node 1 after it has heard of node 2. -/
def heardOf : CounterContext := (new.applyLocal 1 5).merge (new.applyLocal 2 3)

/-- Node 1 goes on and applies two more deltas. -/
theorem total_cleanup_merge_iff_ahead :
    ((heardOf.cleanup 1).merge ((heardOf.applyLocal 1 2).applyLocal 1 1)).total =
      (heardOf.merge ((heardOf.applyLocal 1 2).applyLocal 1 1)).total := by
  refine (total_cleanup_merge_iff fun x hx => ?_).mpr (.inr ⟨⟨3, 8⟩, by decide, .inl (by decide)⟩)
  rw [shard_applyLocal, if_neg (Ne.symm hx), shard_applyLocal, if_neg (Ne.symm hx)]
  exact (idempotentOp_merge newer).idempotent _

/-- Node 2 still has its own shard, which node 1 has folded into its own. -/
theorem total_cleanup_merge_twice : ((heardOf.cleanup 1).merge (new.applyLocal 2 3)).total = 11 ∧
      (heardOf.merge (new.applyLocal 2 3)).total = 8 := by
  decide +kernel

end CounterContext

end CassandraVerified.Storage
