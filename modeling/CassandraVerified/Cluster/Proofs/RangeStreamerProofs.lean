import CassandraVerified.Cluster.RangeStreamer

/-!
# Coverage of streamed ranges

A range is fetched whole from a replica of its end token, which need not hold its other tokens.
-/

namespace CassandraVerified.Cluster.RangeStreamer

open TreeMap (IterationOrder)

variable {E : Type} [DecidableEq E] {self : RangeStreamer E} {ranges : List TokenRange}
  {range : TokenRange} {e : E}

theorem mem_addRanges {fetch : FetchReplica E} : fetch ∈ (self.addRanges ranges).rangesToFetch ↔
    fetch ∈ self.rangesToFetch ∨
      fetch.range ∈ ranges ∧ self.sourceOf fetch.range = some fetch.source := by
  simp only [addRanges, List.mem_append, List.mem_filterMap, Option.map_eq_some_iff]
  grind [FetchReplica]

/-- The requests of the plan are what is to be fetched, by source. -/
theorem exists_mem_toStreamPlan {order : IterationOrder E} {p : E → Prop} {token : Token} :
    (∃ request ∈ self.toStreamPlan order, p request.source ∧
      ∃ bounds ∈ request.ranges, TokenRange.contains ⟨bounds.1, bounds.2⟩ token) ↔
      ∃ fetch ∈ self.rangesToFetch, p fetch.source ∧ fetch.range.contains token := by
  constructor
  · rintro ⟨request, hrequest, hp, bounds, hbounds, htoken⟩
    obtain ⟨source, -, rfl⟩ := List.mem_map.mp hrequest
    obtain ⟨fetch, hfetch, rfl⟩ := List.mem_map.mp hbounds
    obtain ⟨hfetch, hsource⟩ := List.mem_filter.mp hfetch
    exact ⟨fetch, hfetch, (of_decide_eq_true hsource).symm ▸ hp, htoken⟩
  · rintro ⟨fetch, hfetch, hp, htoken⟩
    have hsource := (order.perm _).mem_iff.mpr
      (List.mem_dedup.mpr (List.mem_map_of_mem (f := FetchReplica.source) hfetch))
    exact ⟨_, List.mem_map_of_mem hsource, hp, _, List.mem_map_of_mem
      (List.mem_filter.mpr ⟨hfetch, decide_eq_true rfl⟩), htoken⟩

theorem mem_of_sourceOf (h : self.sourceOf range = some e) :
    e ∈ self.replicas range.stop ∧ self.isValidSource e :=
  List.mem_filter.mp ((self.snitch.perm _ _).mem_iff.mp (List.mem_of_head? h))

theorem contains_stop (range : TokenRange) : range.contains range.stop := by
  grind [TokenRange.contains, TokenRange.wrapsAround, TokenRange.fullRing]

theorem exists_sourceOf (havailable : self.Available ranges) (hrange : range ∈ ranges) :
    ∃ source, self.sourceOf range = some source := by
  obtain ⟨e, he, hvalid⟩ := havailable range hrange range.stop (contains_stop range)
  have hmem := ((self.snitch.perm self.localEndpoint _).mem_iff).mpr
    (List.mem_filter.mpr ⟨he, hvalid⟩)
  exact ⟨_, List.head?_eq_some_head (List.ne_nil_of_mem hmem)⟩

/-- The plan covers the ranges just if each of their tokens is in one whose source is a replica of
the token. -/
theorem covers_iff_sourceOf (order : IterationOrder E) (hnew : self.rangesToFetch = []) :
    self.Covers ((self.addRanges ranges).toStreamPlan order) ranges ↔
      ∀ range ∈ ranges, ∀ token, range.contains token → ∃ range' ∈ ranges, range'.contains token ∧
        ∃ source ∈ self.replicas token, self.sourceOf range' = some source := by
  refine forall₄_congr fun range _ token _ => ?_
  rw [@exists_mem_toStreamPlan _ _ _ _ fun e => e ∈ self.replicas token ∧ self.isValidSource e]
  simp only [mem_addRanges, hnew, List.not_mem_nil, false_or]
  constructor
  · rintro ⟨fetch, ⟨hrange, hsource⟩, ⟨hreplica, -⟩, htoken⟩
    exact ⟨fetch.range, hrange, htoken, fetch.source, hreplica, hsource⟩
  · rintro ⟨range', hrange, htoken, source, hreplica, hsource⟩
    exact ⟨⟨source, range'⟩, ⟨hrange, hsource⟩, ⟨hreplica, (mem_of_sourceOf hsource).2⟩, htoken⟩

/-- A streamer without filters whose snitch puts the endpoints that do not hold `token` first. -/
def farFirst (self : RangeStreamer E) (token : Token) : RangeStreamer E where
  localEndpoint := self.localEndpoint
  ring := self.ring
  strategy stop _ _ := self.replicas stop
  snitch :=
    { self.snitch with
      sortByProximity := fun _ l =>
        l.filter (· ∉ self.replicas token) ++ l.filter (¬ · ∉ self.replicas token)
      perm := fun _ l => by
        simpa only [decide_not] using List.filter_append_perm (· ∉ self.replicas token) l }
  filters := []
  rangesToFetch := []

theorem not_mem_of_sourceOf_farFirst {token : Token} {other : E}
    (hother : other ∈ self.replicas range.stop) (hlocal : other ≠ self.localEndpoint)
    (hfar : other ∉ self.replicas token) (h : (self.farFirst token).sourceOf range = some e) :
    e ∉ self.replicas token := by
  let candidates := (self.replicas range.stop).filter (self.farFirst token).isValidSource
  have hmem : other ∈ candidates.filter (· ∉ self.replicas token) := by
    simp [candidates, hother, hfar, isValidSource, farFirst, hlocal]
  have hhead : e ∈ candidates.filter (· ∉ self.replicas token) := by
    refine List.mem_of_head? ?_
    rw [← h]
    exact (List.head?_append_of_ne_nil _ (List.ne_nil_of_mem hmem)).symm
  simpa using (List.mem_filter.mp hhead).2

/-- Ranges whose tokens all have a replica to stream from are covered under every snitch and filter
just if each token is in a range whose end is held by no other endpoints than the token. -/
theorem covers_iff (self : RangeStreamer E) (ranges : List TokenRange) :
    self.AlwaysCovers ranges ↔
      ((∀ range ∈ ranges, ∀ token, range.contains token →
        ∃ e ∈ self.replicas token, e ≠ self.localEndpoint) → self.HeldAtEnd ranges) := by
  constructor
  · intro h hsome range hrange token htoken
    by_contra hnone
    push Not at hnone
    have havailable : (self.farFirst token).Available ranges := by
      intro range' hrange' token' htoken'
      obtain ⟨e, he, hlocal⟩ := hsome range' hrange' token' htoken'
      exact ⟨e, he, by simp [isValidSource, farFirst, hlocal]⟩
    have hcovers := h (self.farFirst token) rfl rfl rfl .same havailable
    rw [covers_iff_sourceOf .same rfl] at hcovers
    obtain ⟨range', hrange', htoken', source, hreplica, hsource⟩ :=
      hcovers range hrange token htoken
    obtain ⟨other, hother, hlocal, hfar⟩ := hnone range' hrange' htoken'
    exact not_mem_of_sourceOf_farFirst hother hlocal hfar hsource hreplica
  · rintro h other hlocal hreplicas hnew order havailable
    rw [covers_iff_sourceOf order hnew]
    intro range hrange token htoken
    have hsome : ∀ range ∈ ranges, ∀ token, range.contains token →
        ∃ e ∈ self.replicas token, e ≠ self.localEndpoint := by
      intro range hrange token htoken
      obtain ⟨e, he, hvalid⟩ := havailable range hrange token htoken
      rw [isValidSource, Bool.and_eq_true, decide_eq_true_eq, hlocal] at hvalid
      exact ⟨e, hreplicas ▸ he, hvalid.1⟩
    obtain ⟨range', hrange', htoken', hheld⟩ := h hsome range hrange token htoken
    obtain ⟨source, hsource⟩ := exists_sourceOf havailable hrange'
    obtain ⟨hstop, hvalid⟩ := mem_of_sourceOf hsource
    rw [isValidSource, Bool.and_eq_true, decide_eq_true_eq, hlocal] at hvalid
    rw [hreplicas] at hstop ⊢
    exact ⟨range', hrange', htoken', source, hheld source hstop hvalid.1, hsource⟩

/-- Endpoint 3 joins a ring of two endpoints, where every token has one replica. -/
def twoTokens : RangeStreamer ℕ where
  localEndpoint := 3
  ring := (TokenRing.new.addToken 0 1).addToken 100 2
  strategy token ring _ := ring.naturalEndpoints token 1
  snitch := ⟨fun _ => "dc1", fun _ => "rack1", fun _ => id, fun _ _ => .refl _⟩
  filters := []
  rangesToFetch := []

theorem replicas_twoTokens (token : Token) :
    twoTokens.replicas token = if 0 < token ∧ token ≤ 100 then [2] else [1] := by
  have hentries : twoTokens.ring.entries.toList = [(0, 1), (100, 2)] := by decide
  have hwalk : twoTokens.replicas token = Distinct.collect 1 [] (twoTokens.ring.walk token) := by
    show twoTokens.ring.naturalEndpoints token 1 = _
    rw [TokenRing.naturalEndpoints, if_neg (by decide)]
  rw [hwalk, TokenRing.walk, hentries]
  by_cases hzero : token ≤ 0
  · simp [hzero, Distinct.collect]
  · by_cases hhundred : token ≤ 100 <;> simp [hzero, hhundred, Distinct.collect]

/-- The tokens up to 0 are requested from the endpoint that holds those up to 100. -/
theorem not_covers_twoOwners : twoTokens.Available [⟨-100, 100⟩] ∧
    ¬ twoTokens.Covers ((twoTokens.addRanges [⟨-100, 100⟩]).toStreamPlan .same) [⟨-100, 100⟩] := by
  refine ⟨fun range hrange token _ => ?_, fun h => ?_⟩
  · rw [replicas_twoTokens]
    split <;> decide
  · exact absurd (h ⟨-100, 100⟩ (by decide) 0 (by decide)) (by decide)

end CassandraVerified.Cluster.RangeStreamer
