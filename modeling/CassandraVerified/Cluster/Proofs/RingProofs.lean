import CassandraVerified.Cluster.Ring

/-!
# Owners after a topology change

A walk from a token meets the tokens of the ring by their distance from it, so that an endpoint is a
natural one if fewer than `rf` others precede one of its tokens.
-/

namespace CassandraVerified.Cluster

open List
open Std (ExtTreeMap)
open Ring (dist)

variable {E V : Type} {token t : Token}

/-- Entries from the token up to the end, and then those before it. -/
def rotate (token : Token) (m : ExtTreeMap Token V) : List (Token × V) :=
  (m.toList.filter fun entry => token ≤ entry.1) ++ m.toList.filter fun entry => entry.1 < token

theorem pairwise_toList (m : ExtTreeMap Token V) : m.toList.Pairwise fun p q => p.1 < q.1 :=
  m.ordered_keys_toList.imp fun h => Std.compare_eq_lt.1 h

theorem eq_append_of_pairwise (token : Token) {l : List (Token × V)}
    (h : l.Pairwise fun p q => p.1 < q.1) :
    l = (l.filter fun entry => entry.1 < token) ++ l.filter fun entry => token ≤ entry.1 := by
  induction l with
  | nil => rfl
  | cons p l ih =>
    obtain ⟨hfirst, hrest⟩ := pairwise_cons.1 h
    by_cases hp : p.1 < token
    · rw [filter_cons_of_pos (by simpa using hp),
        filter_cons_of_neg (by simpa using hp), cons_append, ← ih hrest]
    · -- from here on all entries are above the token
      have hall : ∀ q ∈ p :: l, token ≤ q.1 := by
        intro q hq
        rcases mem_cons.1 hq with rfl | hq
        · exact not_lt.1 hp
        · exact (not_lt.1 hp).trans (hfirst q hq).le
      rw [filter_eq_nil_iff.2, filter_eq_self.2, nil_append]
      · exact fun q hq => decide_eq_true (hall q hq)
      · exact fun q hq => by simpa using hall q hq

theorem mem_rotate {m : ExtTreeMap Token V} {entry : Token × V} :
    entry ∈ rotate token m ↔ m[entry.1]? = some entry.2 := by
  rw [← ExtTreeMap.mem_toList_iff_getElem?_eq_some, rotate, mem_append, mem_filter,
    mem_filter, ← and_or_left]
  simp [le_or_gt]

theorem pairwise_rotate (token : Token) (m : ExtTreeMap Token V) :
    (rotate token m).Pairwise fun p q => dist token p.1 < dist token q.1 := by
  rw [rotate, pairwise_append]
  have hsorted := pairwise_toList m
  refine ⟨(hsorted.filter _).imp_of_mem ?_, (hsorted.filter _).imp_of_mem ?_, ?_⟩
  · intro p q hp _ hlt
    exact Ring.dist_lt_dist_of_le_of_lt (of_decide_eq_true (mem_filter.1 hp).2) hlt
  · intro p q _ hq hlt
    exact Ring.dist_lt_dist_of_lt_of_lt hlt (of_decide_eq_true (mem_filter.1 hq).2)
  · intro p hp q hq
    exact Ring.dist_lt_dist_of_le_of_gt (of_decide_eq_true (mem_filter.1 hp).2)
      (of_decide_eq_true (mem_filter.1 hq).2)

variable [DecidableEq E]

namespace TokenRing

variable {ring ring' : TokenRing E} {joins : List (Token × E)} {e : E} {rf : Nat}

/-- The natural endpoints are those with a token that fewer than `rf` endpoints precede. -/
theorem mem_naturalEndpoints : e ∈ ring.naturalEndpoints token rf ↔ ring.IsNear token rf e := by
  unfold naturalEndpoints
  split_ifs with hnone
  · refine ⟨fun h => absurd h not_mem_nil, ?_⟩
    rintro ⟨t, hentry, hcard⟩
    simp only [Bool.or_eq_true, decide_eq_true_eq] at hnone
    rcases hnone with hempty | rfl
    · rw [ExtTreeMap.isEmpty_iff.1 hempty] at hentry
      simp at hentry
    · exact absurd hcard (Nat.not_lt_zero _)
  · have hrf : 0 < rf := by
      by_contra hzero
      simp [Nat.eq_zero_of_not_pos hzero] at hnone
    have hwalk : ring.walk token = (rotate token ring.entries).map Prod.snd ++
        (ring.entries.toList.filter fun entry => token ≤ entry.1).map Prod.snd := by
      rw [walk, rotate, ← map_append, append_assoc,
        ← eq_append_of_pairwise token (pairwise_toList ring.entries)]
    rw [hwalk, Distinct.mem_collect_append hrf ?_,
      Distinct.mem_collect_map hrf (pairwise_rotate token ring.entries)]
    · have hpreceding : ∀ t, (((rotate token ring.entries).filter fun q =>
          dist token q.1 < dist token t).map Prod.snd).toFinset = ring.preceding token t := by
        intro t
        ext e'
        simp [preceding, mem_rotate]
      simp only [hpreceding, mem_rotate]
      constructor
      · rintro ⟨p, hp, rfl, hcard⟩
        exact ⟨p.1, hp, hcard⟩
      · rintro ⟨t, ht, hcard⟩
        exact ⟨(t, e), ht, rfl, hcard⟩
    · intro e' he'
      obtain ⟨p, hp, rfl⟩ := mem_map.1 he'
      exact mem_map_of_mem (mem_append_left _ hp)

omit [DecidableEq E] in
/-- The pending endpoints are those of the first pending token on the walk. -/
theorem mem_pendingEndpointsFor :
    e ∈ ring.pendingEndpointsFor token ↔ ring.IsNextPending token e := by
  have hhead : ring.pendingEndpointsFor token =
      ((rotate token ring.pendingRanges).head?.map Prod.snd).getD [] := by
    unfold pendingEndpointsFor
    split_ifs with hempty
    · have hnil := isEmpty_iff.1 (ExtTreeMap.isEmpty_toList.trans hempty)
      simp [rotate, hnil]
    · rw [rotate, List.head?_append]
      split
      · next entry hentry => simp [hentry]
      · next hnone =>
        have hall := eq_append_of_pairwise token (pairwise_toList ring.pendingRanges)
        rw [List.head?_eq_none_iff] at hnone
        rw [hnone, append_nil] at hall
        rw [hnone, ← hall]
        rfl
  have hsorted := pairwise_rotate token ring.pendingRanges
  rw [hhead]
  cases hrotate : rotate token ring.pendingRanges with
  | nil =>
    refine ⟨fun h => absurd h not_mem_nil, ?_⟩
    rintro ⟨t, endpoints, hentry, -⟩
    have hin : (t, endpoints) ∈ [] := hrotate ▸ mem_rotate.2 hentry
    exact absurd hin not_mem_nil
  | cons first rest =>
    rw [hrotate] at hsorted
    have hfirst : ring.pendingRanges[first.1]? = some first.2 :=
      mem_rotate.1 (hrotate ▸ mem_cons_self)
    have hleast : ∀ t ∈ ring.pendingRanges, dist token first.1 ≤ dist token t := by
      intro t ht
      obtain ⟨endpoints, hentry⟩ :=
        Option.isSome_iff_exists.1 (ExtTreeMap.mem_iff_isSome_getElem?.1 ht)
      have hin : (t, endpoints) ∈ first :: rest := hrotate ▸ mem_rotate.2 hentry
      rcases mem_cons.1 hin with heq | hin
      · rw [← heq]
      · exact ((pairwise_cons.1 hsorted).1 _ hin).le
    constructor
    · intro he
      exact ⟨first.1, first.2, hfirst, he, hleast⟩
    · rintro ⟨t, endpoints, hentry, he, hnext⟩
      have hsame : t = first.1 := Ring.dist_injective token (le_antisymm
        (hnext first.1 (ExtTreeMap.mem_iff_isSome_getElem?.2 (by simp [hfirst])))
        (hleast t (ExtTreeMap.mem_iff_isSome_getElem?.2 (by simp [hentry]))))
      rw [hsame, hfirst, Option.some.injEq] at hentry
      rw [← hentry] at he
      exact he

theorem mem_writeReplicas : e ∈ ring.writeReplicas token rf ↔
      ring.IsNear token rf e ∨ ring.IsNextPending token e := by
  have hfold : ∀ (pending replicas : List E), e ∈ pending.foldl
      (fun replicas e => if e ∈ replicas then replicas else replicas ++ [e]) replicas ↔
      e ∈ replicas ∨ e ∈ pending := by
    intro pending
    induction pending with
    | nil => simp
    | cons e' pending ih =>
      intro replicas
      rw [foldl_cons, ih]
      split_ifs with hin
      · constructor
        · exact Or.imp_right (mem_cons_of_mem _)
        · rintro (h | h)
          · exact .inl h
          · rcases mem_cons.1 h with rfl | h
            · exact .inl hin
            · exact .inr h
      · simp [or_assoc]
  rw [writeReplicas, hfold, mem_naturalEndpoints, mem_pendingEndpointsFor]

theorem entries_register : (ring.register joins).entries = ring.entries := by
  unfold register
  induction joins generalizing ring with
  | nil => rfl
  | cons join joins ih => exact ih

theorem entries_join_congr (h : ring.entries = ring'.entries) :
    (ring.join joins).entries = (ring'.join joins).entries := by
  unfold TokenRing.join
  induction joins generalizing ring ring' with
  | nil => exact h
  | cons join joins ih =>
    refine ih ?_
    simp only [addToken]
    rw [h]

theorem isNear_congr (h : ring.entries = ring'.entries) :
    ring.IsNear token rf e ↔ ring'.IsNear token rf e := by
  simp only [IsNear, preceding, h]

theorem reachesFutureOwners_iff_isNear :
    ring.ReachesFutureOwners joins token rf ↔ ∀ e, (ring.join joins).IsNear token rf e →
      ring.IsNear token rf e ∨ (ring.register joins).IsNextPending token e := by
  refine forall_congr' fun e => ?_
  rw [mem_naturalEndpoints, mem_writeReplicas, isNear_congr (entries_join_congr entries_register),
    isNear_congr entries_register]

theorem mem_preceding {e' : E} : e' ∈ ring.preceding token t ↔
    ∃ t', ring.entries[t']? = some e' ∧ dist token t' < dist token t := by
  simp [preceding]

/-- A token that is not a joining one keeps its owner. -/
theorem getElem?_join (h : t ∉ joins.map Prod.fst) :
    (ring.join joins).entries[t]? = ring.entries[t]? := by
  unfold TokenRing.join
  induction joins generalizing ring with
  | nil => rfl
  | cons join joins ih =>
    rw [map_cons, mem_cons, not_or] at h
    rw [foldl_cons, ih h.2]
    simp [addToken, ExtTreeMap.getElem?_insert, Ne.symm h.1]

theorem mem_register (h : t ∈ joins.map Prod.fst ∨ t ∈ ring.pendingRanges) :
    t ∈ (ring.register joins).pendingRanges := by
  unfold register
  induction joins generalizing ring with
  | nil => simpa using h
  | cons join joins ih =>
    refine ih ?_
    simp only [addPendingRange, ExtTreeMap.mem_insert, Std.compare_eq_iff_eq]
    grind

omit [DecidableEq E] in
/-- There is a first pending token on the walk, unless nothing is pending. -/
theorem exists_nextPending (h : t ∈ ring.pendingRanges) (token : Token) :
    ∃ p endpoints, ring.pendingRanges[p]? = some endpoints ∧
      ∀ t' ∈ ring.pendingRanges, dist token p ≤ dist token t' := by
  obtain ⟨p, hp, hfirst⟩ := ring.pendingRanges.keys.toFinset.exists_min_image (dist token)
    ⟨t, by simpa using h⟩
  simp only [mem_toFinset, ExtTreeMap.mem_keys] at hp hfirst
  obtain ⟨endpoints, hentry⟩ := Option.isSome_iff_exists.1 (ExtTreeMap.mem_iff_isSome_getElem?.1 hp)
  exact ⟨p, endpoints, hentry, hfirst⟩

/-- An endpoint of the ring comes no nearer by a token that it keeps, unless a token before it is
reassigned. -/
theorem isNear_of_not_reassigned (hentry : (ring.join joins).entries[t]? = some e)
    (hkept : t ∉ joins.map Prod.fst)
    (hbefore : ¬ ∃ t' ∈ joins.map Prod.fst, t' ∈ ring.entries ∧ dist token t' < dist token t)
    (hcard : ((ring.join joins).preceding token t).card < rf) : ring.IsNear token rf e := by
  rw [getElem?_join hkept] at hentry
  refine ⟨t, hentry, (Finset.card_le_card fun e' he' => ?_).trans_lt hcard⟩
  obtain ⟨t', ht', hdist⟩ := mem_preceding.1 he'
  refine mem_preceding.2 ⟨t', ?_, hdist⟩
  rwa [getElem?_join fun hjoins => hbefore
    ⟨t', hjoins, ExtTreeMap.mem_iff_isSome_getElem?.2 (by simp [ht']), hdist⟩]

/-- On the walk from `token`, an endpoint precedes `t` if it does on the walk from a pending token
that comes before. -/
theorem preceding_subset {p : Token} (h : dist token p ≤ dist token t) :
    ring.preceding p t ⊆ ring.preceding token t := by
  intro e' he'
  obtain ⟨t', ht', hdist⟩ := mem_preceding.1 he'
  exact mem_preceding.2 ⟨t', ht', Ring.dist_lt_dist_of_dist_le h hdist⟩

/-- Writes to every token reach its future owners just if the joining tokens are far enough apart,
and owners of the ring do not come near by reassigned tokens. -/
theorem reachesFutureOwners_iff (ring : TokenRing E) (joins : List (Token × E)) (rf : Nat) :
    (∀ token, ring.ReachesFutureOwners joins token rf) ↔ ring.KnowsFutureOwners joins rf := by
  simp only [reachesFutureOwners_iff_isNear]
  constructor
  · refine fun h => ⟨fun p endpoints hp t e hentry hnew hout => ?_, fun token t e hentry _ _ hcard =>
      h token e ⟨t, hentry, hcard⟩⟩
    by_contra hcard
    rcases h p e ⟨t, hentry, not_le.1 hcard⟩ with ⟨t', ht', -⟩ | ⟨q, endpoints', hq, hin, hfirst⟩
    · exact hnew ⟨t', ht'⟩
    · -- the first pending token from `p` on is `p`
      have hle := hfirst p (ExtTreeMap.mem_iff_isSome_getElem?.2 (by simp [hp]))
      have hqp : q = p := Ring.dist_injective p (by rw [Ring.dist_self] at hle ⊢; omega)
      rw [hqp, hp, Option.some.injEq] at hq
      exact hout (hq ▸ hin)
  · rintro ⟨hjoining, howners⟩ token e ⟨t, hentry, hcard⟩
    by_cases howns : ring.Owns e
    · by_cases htaken : t ∈ joins.map Prod.fst ∨
          ∃ t' ∈ joins.map Prod.fst, t' ∈ ring.entries ∧ dist token t' < dist token t
      · exact howners token t e hentry howns htaken hcard
      · rw [not_or] at htaken
        exact .inl (isNear_of_not_reassigned hentry htaken.1 htaken.2 hcard)
    · have hjoins : t ∈ joins.map Prod.fst := by
        by_contra hkept
        exact howns ⟨t, getElem?_join hkept ▸ hentry⟩
      have hpending : t ∈ (ring.register joins).pendingRanges := mem_register (.inl hjoins)
      obtain ⟨p, endpoints, hp, hfirst⟩ := exists_nextPending hpending token
      by_cases hin : e ∈ endpoints
      · exact .inr ⟨p, endpoints, hp, hin, hfirst⟩
      · have hmany := hjoining p endpoints hp t e hentry howns hin
        have hsub : (ring.join joins).preceding p t ⊆ (ring.join joins).preceding token t :=
          preceding_subset (hfirst t hpending)
        have hle := Finset.card_le_card hsub
        omega

def threeTokens : TokenRing ℕ := ((TokenRing.new.addToken 100 1).addToken 200 2).addToken 300 3

/-- Two endpoints join at neighbouring tokens; the second one is not written to. -/
theorem not_reachesFutureOwners_twoJoining :
    ¬ threeTokens.ReachesFutureOwners [(110, 4), (120, 5)] 50 3 := by
  intro h
  exact absurd (h 5 (by decide)) (by decide)

end TokenRing

end CassandraVerified.Cluster
