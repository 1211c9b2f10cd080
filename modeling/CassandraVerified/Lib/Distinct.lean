import Mathlib

/-!
# The first distinct elements of a list

A scan that collects elements it has not seen before, until it has enough of them. An element is
collected if it has an occurrence with few enough distinct elements before it.
-/

namespace Distinct

open List

variable {α κ : Type*} [DecidableEq α] {count : ℕ} {result l l' : List α} {a : α}

/-- Appends the elements of a list that are not there yet, up to a number of them. -/
def collect (count : ℕ) (result : List α) : List α → List α
  | [] => result
  | a :: l =>
    if a ∈ result then collect count result l
    else if (result ++ [a]).length ≥ count then result ++ [a]
    else collect count (result ++ [a]) l

theorem mem_collect (hnodup : result.Nodup) (hlength : result.length < count) :
    a ∈ collect count result l ↔ a ∈ result ∨ ∃ front back, l = front ++ a :: back ∧
        (result ++ front).toFinset.card < count := by
  induction l generalizing result with
  | nil => simp [collect]
  | cons b l ih =>
    -- an occurrence in `b :: l` is the first element or one behind it
    have hsplit : (∃ front back, b :: l = front ++ a :: back ∧
        (result ++ front).toFinset.card < count) ↔
        a = b ∨ ∃ front back, l = front ++ a :: back ∧
          (result ++ [b] ++ front).toFinset.card < count := by
      constructor
      · rintro ⟨front, back, heq, hcard⟩
        cases front with
        | nil =>
          rw [nil_append, List.cons.injEq] at heq
          exact .inl heq.1.symm
        | cons c front =>
          rw [cons_append, List.cons.injEq] at heq
          obtain ⟨rfl, rfl⟩ := heq
          refine .inr ⟨front, back, rfl, ?_⟩
          rwa [append_assoc, singleton_append]
      · rintro (rfl | ⟨front, back, rfl, hcard⟩)
        · refine ⟨[], l, rfl, ?_⟩
          rwa [append_nil, toFinset_card_of_nodup hnodup]
        · refine ⟨b :: front, back, rfl, ?_⟩
          rwa [append_assoc, singleton_append] at hcard
    rw [hsplit]
    unfold collect
    by_cases hb : b ∈ result
    · rw [if_pos hb, ih hnodup hlength]
      have hsame : ∀ front : List α,
          (result ++ [b] ++ front).toFinset = (result ++ front).toFinset := by
        intro front
        ext x
        simp only [mem_toFinset, mem_append, mem_singleton]
        constructor
        · rintro ((hx | rfl) | hx)
          · exact .inl hx
          · exact .inl hb
          · exact .inr hx
        · rintro (hx | hx)
          · exact .inl (.inl hx)
          · exact .inr hx
      simp only [hsame]
      constructor
      · rintro (hin | hocc)
        · exact .inl hin
        · exact .inr (.inr hocc)
      · rintro (hin | rfl | hocc)
        · exact .inl hin
        · exact .inl hb
        · exact .inr hocc
    · have hnodup' : (result ++ [b]).Nodup := by
        rw [nodup_append]
        refine ⟨hnodup, nodup_singleton b, ?_⟩
        rintro x hx _ hy rfl
        exact hb (mem_singleton.1 hy ▸ hx)
      rw [if_neg hb, ← or_assoc, ← mem_singleton, ← mem_append]
      split_ifs with hfull
      · refine ⟨.inl, fun h => h.resolve_right ?_⟩
        rintro ⟨front, back, -, hcard⟩
        have hle : (result ++ [b]).toFinset.card ≤ (result ++ [b] ++ front).toFinset.card := by
          refine Finset.card_le_card ?_
          conv_rhs => rw [toFinset_append]
          exact Finset.subset_union_left
        rw [toFinset_card_of_nodup hnodup'] at hle
        omega
      · exact ih hnodup' (not_le.1 hfull)

/-- Elements that are repeated at the end are not collected again. -/
theorem mem_collect_append (hcount : 0 < count) (hsub : ∀ b ∈ l', b ∈ l) :
    a ∈ collect count [] (l ++ l') ↔ a ∈ collect count [] l := by
  rw [mem_collect nodup_nil hcount, mem_collect nodup_nil hcount]
  simp only [not_mem_nil, false_or, nil_append]
  constructor
  · rintro ⟨front, back, heq, hcard⟩
    rcases append_eq_append_iff.1 heq with ⟨rest, rfl, hback⟩ | ⟨rest, rfl, hback⟩
    · -- the occurrence is behind the list, so there is one in it with fewer elements before
      have hin : a ∈ l := hsub a (hback ▸ mem_append_right _ mem_cons_self)
      obtain ⟨front', back', rfl⟩ := append_of_mem hin
      refine ⟨front', back', rfl, lt_of_le_of_lt (Finset.card_le_card fun x hx => ?_) hcard⟩
      simp only [mem_toFinset, mem_append] at hx ⊢
      exact .inl (.inl hx)
    · cases rest with
      | nil =>
        rw [nil_append] at hback
        have hin : a ∈ front := by
          have := hsub a (hback ▸ mem_cons_self)
          simpa using this
        obtain ⟨front', back', rfl⟩ := append_of_mem hin
        refine ⟨front', back', by simp, lt_of_le_of_lt (Finset.card_le_card fun x hx => ?_) hcard⟩
        simp only [mem_toFinset, mem_append] at hx ⊢
        exact .inl hx
      | cons c rest =>
        rw [cons_append, List.cons.injEq] at hback
        exact ⟨front, rest, by rw [hback.1], hcard⟩
  · rintro ⟨front, back, rfl, hcard⟩
    exact ⟨front, back ++ l', by simp, hcard⟩

/-- Values by ascending keys: one is collected if it has a key with few enough distinct values at
smaller keys. -/
theorem mem_collect_map {f : κ → ℕ} {w : List (κ × α)} (hcount : 0 < count)
    (hw : w.Pairwise fun p q => f p.1 < f q.1) :
    a ∈ collect count [] (w.map Prod.snd) ↔ ∃ p ∈ w, p.2 = a ∧
      ((w.filter fun q => f q.1 < f p.1).map Prod.snd).toFinset.card < count := by
  have hfront : ∀ {front p back}, w = front ++ p :: back →
      (w.filter fun q => f q.1 < f p.1) = front := by
    rintro front p back rfl
    obtain ⟨hfront, hback, hlt⟩ := pairwise_append.1 hw
    have hback' : ∀ q ∈ p :: back, ¬ f q.1 < f p.1 := by
      intro q hq
      rcases mem_cons.1 hq with rfl | hq
      · exact lt_irrefl _
      · exact lt_asymm ((pairwise_cons.1 hback).1 q hq)
    rw [filter_append, filter_eq_self.2, filter_eq_nil_iff.2, append_nil]
    · exact fun q hq => by simpa using hback' q hq
    · exact fun q hq => by simpa using hlt q hq p mem_cons_self
  rw [mem_collect nodup_nil hcount]
  simp only [not_mem_nil, false_or, nil_append]
  constructor
  · rintro ⟨front, back, heq, hcard⟩
    obtain ⟨front', rest, rfl, rfl, hrest⟩ := map_eq_append_iff.1 heq
    obtain ⟨p, back', rfl, hp, -⟩ := map_eq_cons_iff.1 hrest
    refine ⟨p, by simp, hp, ?_⟩
    rwa [hfront rfl]
  · rintro ⟨p, hp, rfl, hcard⟩
    obtain ⟨front, back, hsplit⟩ := append_of_mem hp
    refine ⟨front.map Prod.snd, back.map Prod.snd, by simp [hsplit], ?_⟩
    rwa [hfront hsplit] at hcard

end Distinct
