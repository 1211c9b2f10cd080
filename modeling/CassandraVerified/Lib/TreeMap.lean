import Mathlib

/-!
# Comparing ordered maps key by key

`ExtTreeMap` lists its values in key order. If two maps are related at every key, then their value
lists are related position by position.
-/

namespace TreeMap

open List
open Std (ExtTreeMap TransCmp LawfulEqCmp)

instance transOrdBitVec128 : Std.TransOrd (BitVec 128) := inferInstance

variable {K V W : Type*} {cmp : K → K → Ordering}

/-- Some arrangement of the entries of a hash map, which may differ from one call to the next. -/
structure IterationOrder (α : Type*) where
  arrange : List α → List α
  perm : ∀ entries, (arrange entries).Perm entries

def IterationOrder.same {α : Type*} : IterationOrder α := ⟨id, fun _ => .refl _⟩

def values [TransCmp cmp] (m : ExtTreeMap K V cmp) : List V := m.toList.map Prod.snd

variable {R : V → W → Prop} {v : V} {m' : ExtTreeMap K W cmp} {l : List (K × V)}

theorem forall₂_map_snd :
    ∀ {l : List (K × V)} {l' : List (K × W)}, l.map Prod.fst = l'.map Prod.fst →
      (∀ k v w, (k, v) ∈ l → (k, w) ∈ l' → R v w) →
      List.Forall₂ R (l.map Prod.snd) (l'.map Prod.snd)
  | [], [], _, _ => List.Forall₂.nil
  | (k, v) :: l, (k', w) :: l', hkeys, hrel => by
    obtain ⟨rfl, htl⟩ : k = k' ∧ l.map Prod.fst = l'.map Prod.fst := by simpa using hkeys
    refine List.Forall₂.cons (hrel k v w (by simp) (by simp)) (forall₂_map_snd htl ?_)
    exact fun k v w hv hw => hrel k v w (mem_cons_of_mem _ hv) (mem_cons_of_mem _ hw)
  | [], _ :: _, hkeys, _ => by simp at hkeys
  | _ :: _, [], hkeys, _ => by simp at hkeys

theorem exists_of_forall₂ {l : List V} {l' : List W} (h : List.Forall₂ R l l') (hv : v ∈ l) :
    ∃ w ∈ l', R v w := by
  induction h with
  | nil => exact absurd hv (by simp)
  | @cons a b l l' hab _ ih =>
    rcases mem_cons.mp hv with rfl | hv
    · exact ⟨b, by simp, hab⟩
    · obtain ⟨w, hw, hr⟩ := ih hv
      exact ⟨w, mem_cons_of_mem _ hw, hr⟩

variable [TransCmp cmp] [LawfulEqCmp cmp] {m : ExtTreeMap K V cmp}

theorem mem_values : v ∈ values m ↔ ∃ k : K, m[k]? = some v := by
  simp [values]

/-- The keys are listed in order: they are any ordered list of them. -/
theorem keys_eq_of_pairwise {l : List K}
    (hl : l.Pairwise fun a b => cmp a b = .lt) (hmem : ∀ k, k ∈ m ↔ k ∈ l) : m.keys = l := by
  have hnodup : l.Nodup := hl.imp fun {a b} hlt heq => by
    subst heq
    exact absurd hlt (by simp [Std.ReflCmp.compare_self])
  have hperm : m.keys.Perm l := by
    rw [perm_ext_iff_of_nodup ExtTreeMap.nodup_keys hnodup]
    exact fun k => ExtTreeMap.mem_keys.trans (hmem k)
  refine hperm.eq_of_pairwise (fun a b _ _ hab hba => ?_) ExtTreeMap.ordered_keys hl
  rw [Std.OrientedCmp.gt_of_lt hab] at hba
  exact absurd hba (by simp)

theorem map_fst_toList_eq (h : ∀ k : K, m[k]?.isSome = m'[k]?.isSome) :
    m.toList.map Prod.fst = m'.toList.map Prod.fst := by
  have hunit : m.map (fun _ _ => ()) = m'.map (fun _ _ => ()) := by
    apply ExtTreeMap.ext_getElem?
    intro k
    have hk := h k
    rw [ExtTreeMap.getElem?_map, ExtTreeMap.getElem?_map]
    cases hm : m[k]? <;> cases hm' : m'[k]? <;> simp_all
  have hlist := congrArg (fun t => t.toList.map Prod.fst) hunit
  simpa [Function.comp_def] using hlist

theorem forall₂_values (h : ∀ k : K, Option.Rel R m[k]? m'[k]?) :
    List.Forall₂ R (values m) (values m') := by
  refine forall₂_map_snd (map_fst_toList_eq fun k => ?_) fun k v w hv hw => ?_
  · have hk := h k
    revert hk
    generalize m[k]? = o
    generalize m'[k]? = o'
    rintro (_ | _) <;> rfl
  · rw [ExtTreeMap.mem_toList_iff_getElem?_eq_some] at hv hw
    have hk := h k
    rw [hv, hw] at hk
    cases hk with
    | some hr => exact hr

variable {k : K} {key : V → K}

theorem lookup_eq_none_iff [BEq K] [LawfulBEq K] :
    l.lookup k = none ↔ k ∉ l.map Prod.fst := by
  rw [List.lookup_eq_none_iff]
  constructor
  · intro h hk
    obtain ⟨x, hx, rfl⟩ := List.mem_map.mp hk
    simpa using h x hx
  · intro h x hx
    exact bne_iff_ne.mpr fun hk => h (List.mem_map.mpr ⟨x, hx, hk.symm⟩)

theorem lookup_eq_some_iff [BEq K] [LawfulBEq K]
    (hkeys : (l.map Prod.fst).Nodup) : l.lookup k = some v ↔ (k, v) ∈ l := by
  induction l with
  | nil => simp
  | cons e l ih =>
    obtain ⟨k', w⟩ := e
    obtain ⟨hnot, hl⟩ := nodup_cons.mp hkeys
    by_cases hk : k = k'
    · subst hk
      have hmem : (k, v) ∉ l := fun h => hnot (mem_map.mpr ⟨_, h, rfl⟩)
      simp [List.lookup, hmem, eq_comm]
    · simp [List.lookup, hk, ih hl, beq_eq_false_iff_ne.mpr hk]

omit [LawfulEqCmp cmp] in
theorem nodup_map_fst_toList (m : ExtTreeMap K V cmp) : (m.toList.map Prod.fst).Nodup := by
  rw [ExtTreeMap.map_fst_toList_eq_keys]
  refine ExtTreeMap.distinct_keys.imp fun hne heq => hne ?_
  rw [heq]
  exact Std.ReflCmp.compare_self

theorem lookup_toList [BEq K] [LawfulBEq K] (m : ExtTreeMap K V cmp) (k : K) :
    m.toList.lookup k = m[k]? := by
  ext v
  rw [lookup_eq_some_iff (nodup_map_fst_toList m), ExtTreeMap.mem_toList_iff_getElem?_eq_some]

theorem isEmpty_iff_getElem? :
    m.isEmpty = true ↔ ∀ k : K, m[k]? = none := by
  rw [ExtTreeMap.isEmpty_iff]
  constructor
  · rintro rfl k
    simp
  · intro h
    exact ExtTreeMap.ext_getElem? fun k => by simp [h k]

/-- The entries are listed in order: they are any ordered list of them. -/
theorem toList_eq_of_pairwise (hl : l.Pairwise fun a b => cmp a.1 b.1 = .lt)
    (hmem : ∀ k v, (k, v) ∈ l ↔ m[k]? = some v) : m.toList = l := by
  have hne : ∀ {a b : K × V}, cmp a.1 b.1 = .lt → a ≠ b := by
    rintro a b hlt rfl
    simp [Std.ReflCmp.compare_self] at hlt
  have hperm : m.toList.Perm l := by
    rw [perm_ext_iff_of_nodup (ExtTreeMap.ordered_keys_toList.imp hne) (hl.imp hne)]
    rintro ⟨k, v⟩
    rw [ExtTreeMap.mem_toList_iff_getElem?_eq_some, hmem]
  refine hperm.eq_of_pairwise (fun a b _ _ hab hba => ?_) ExtTreeMap.ordered_keys_toList hl
  exact absurd (Std.TransCmp.lt_trans hab hba) (by simp [Std.ReflCmp.compare_self])

/-- Any list of the pairs of a map, sorted by key, is the list of the map. -/
theorem mergeSort_eq_toList (h : l.Perm m.toList) :
    l.mergeSort (fun a b => (cmp a.1 b.1).isLE) = m.toList := by
  have hperm : (l.mergeSort fun a b => (cmp a.1 b.1).isLE).Perm m.toList :=
    (mergeSort_perm _ _).trans h
  have htotal : ∀ a b : K × V, ((cmp a.1 b.1).isLE || (cmp b.1 a.1).isLE) = true := fun a b => by
    have hswap : cmp b.1 a.1 = (cmp a.1 b.1).swap := Std.OrientedCmp.eq_swap
    rw [hswap]
    cases cmp a.1 b.1 <;> rfl
  have hle : (l.mergeSort fun a b => (cmp a.1 b.1).isLE).Pairwise
      fun a b => (cmp a.1 b.1).isLE = true :=
    pairwise_mergeSort (fun _ _ _ => TransCmp.isLE_trans) htotal l
  have hne : (l.mergeSort fun a b => (cmp a.1 b.1).isLE).Pairwise fun a b => ¬cmp a.1 b.1 = .eq :=
    (hperm.pairwise_iff fun hab hba => hab (Std.OrientedCmp.eq_symm hba)).2 m.distinct_keys_toList
  refine (toList_eq_of_pairwise ?_ fun k v => ?_).symm
  · refine (hle.and hne).imp fun {a b} hab => ?_
    obtain ⟨hle, hne⟩ := hab
    cases hcmp : cmp a.1 b.1 with
    | lt => rfl
    | eq => exact absurd hcmp hne
    | gt => simp [hcmp] at hle
  · rw [hperm.mem_iff, ExtTreeMap.mem_toList_iff_getElem?_eq_some]

/-- Among what all values give, what belongs to a key is what the value of the key gives. -/
theorem filter_flatMap_values [DecidableEq K] {X : Type*} (m : ExtTreeMap K V cmp) (f : V → List X)
    (key : X → K) (h : ∀ (k : K) (v : V), m[k]? = some v → ∀ x ∈ f v, key x = k) (k : K) :
    ((values m).flatMap f).filter (key · = k) = m[k]?.elim [] f := by
  have hlist : ∀ l : List (K × V), (l.map Prod.fst).Nodup → (∀ e ∈ l, ∀ x ∈ f e.2, key x = e.1) →
      ((l.map Prod.snd).flatMap f).filter (key · = k) = (l.lookup k).elim [] f := by
    intro l
    induction l with
    | nil => intros; rfl
    | cons e l ih =>
      intro hnodup hkey
      obtain ⟨hnotMem, hrest⟩ := nodup_cons.mp hnodup
      have htail := ih hrest fun e' he' => hkey e' (mem_cons_of_mem _ he')
      rw [map_cons, flatMap_cons, filter_append, htail]
      by_cases hk : e.1 = k
      · subst hk
        have hnone : l.lookup e.1 = none := lookup_eq_none_iff.mpr hnotMem
        have hall : (f e.2).filter (key · = e.1) = f e.2 :=
          filter_eq_self.mpr fun x hx => by simpa using hkey e mem_cons_self x hx
        rw [hnone, hall, lookup_cons_self]
        exact append_nil _
      · have hempty : (f e.2).filter (key · = k) = [] :=
          filter_eq_nil_iff.mpr fun x hx => by
            simpa [hkey e mem_cons_self x hx] using hk
        have hskip : (e :: l).lookup k = l.lookup k := by
          rw [lookup_cons, beq_false_of_ne fun heq => hk heq.symm]
        rw [hempty, nil_append, hskip]
  have hnodup : (m.toList.map Prod.fst).Nodup := by
    simpa using ExtTreeMap.nodup_keys (t := m)
  rw [values, hlist _ hnodup, lookup_toList]
  exact fun e he => h e.1 e.2 (ExtTreeMap.mem_toList_iff_getElem?_eq_some.mp he)

/-! ## Sums over a map -/

theorem toList_perm_erase (m : ExtTreeMap K V cmp) (k : K) :
    m.toList.Perm ((m[k]?.map (Prod.mk k)).toList ++ (m.erase k).toList) := by
  have hnodup : ∀ m : ExtTreeMap K V cmp, m.toList.Nodup := fun m =>
    List.Nodup.of_map Prod.fst (by simpa using ExtTreeMap.nodup_keys (t := m))
  have hrest : ∀ e ∈ (m.erase k).toList, e.1 ≠ k := by
    rintro ⟨k', v⟩ he rfl
    simp at he
  have hfirst : ∀ e ∈ (m[k]?.map (Prod.mk k)).toList, e.1 = k := by
    intro e he
    obtain ⟨v, -, rfl⟩ : ∃ v, m[k]? = some v ∧ (k, v) = e := by simpa using he
    rfl
  have happ : ((m[k]?.map (Prod.mk k)).toList ++ (m.erase k).toList).Nodup := by
    refine List.Nodup.append ?_ (hnodup _) fun e he he' => hrest e he' (hfirst e he)
    cases m[k]? <;> simp
  rw [perm_ext_iff_of_nodup (hnodup m) happ]
  rintro ⟨k', v⟩
  by_cases hk : k = k'
  · subst hk
    simp
  · simp [ExtTreeMap.getElem?_erase, hk]

theorem erase_alter (m : ExtTreeMap K V cmp) (k : K) (f : Option V → Option V) :
    (m.alter k f).erase k = m.erase k := by
  refine ExtTreeMap.ext_getElem? fun k' => ?_
  by_cases hk : cmp k k' = .eq <;> simp [ExtTreeMap.getElem?_erase, ExtTreeMap.getElem?_alter, hk]

theorem sum_values_erase {M : Type*} [AddCommMonoid M] (m : ExtTreeMap K V cmp) (k : K)
    (w : V → M) :
    ((values m).map w).sum = m[k]?.elim 0 w + ((values (m.erase k)).map w).sum := by
  have hperm := ((toList_perm_erase m k).map Prod.snd).map w
  rw [values, hperm.sum_eq]
  cases m[k]? <;> simp [values]

/-- What changing one entry does to a sum over all. -/
theorem sum_values_alter {M : Type*} [AddCommMonoid M] (m : ExtTreeMap K V cmp) (k : K)
    (f : Option V → Option V) (w : V → M) :
    ((values (m.alter k f)).map w).sum + m[k]?.elim 0 w =
      ((values m).map w).sum + (f m[k]?).elim 0 w := by
  rw [sum_values_erase (m.alter k f) k, sum_values_erase m k, erase_alter,
    ExtTreeMap.getElem?_alter_self]
  ac_rfl

/-! ## Maps filled from a list -/

omit [LawfulEqCmp cmp] in
/-- Puts values under their keys, later ones in place of earlier ones. -/
def insertAll (key : V → K) (m : ExtTreeMap K V cmp) (values : List V) : ExtTreeMap K V cmp :=
  values.foldl (fun m v => m.insert (key v) v) m

theorem mem_of_insertAll_eq_some {values : List V}
    (h : (insertAll key m values)[k]? = some v) :
    (v ∈ values ∧ key v = k) ∨ m[k]? = some v := by
  induction values generalizing m with
  | nil => exact .inr h
  | cons w values ih =>
    rcases ih h with ⟨hv, hk⟩ | h
    · exact .inl ⟨mem_cons_of_mem _ hv, hk⟩
    · rw [ExtTreeMap.getElem?_insert] at h
      split at h
      · next heq =>
        obtain rfl := Option.some.inj h
        exact .inl ⟨mem_cons_self, Std.LawfulEqCmp.eq_of_compare heq⟩
      · exact .inr h

theorem insertAll_ne_none {values : List V}
    (h : (∃ v ∈ values, key v = k) ∨ m[k]? ≠ none) : (insertAll key m values)[k]? ≠ none := by
  induction values generalizing m with
  | nil => exact h.resolve_left (by simp)
  | cons w values ih =>
    refine ih ?_
    rcases h with ⟨v, hv, hk⟩ | h
    · rcases mem_cons.mp hv with rfl | hv
      · exact .inr (by simp [hk])
      · exact .inl ⟨v, hv, hk⟩
    · refine .inr ?_
      rw [ExtTreeMap.getElem?_insert]
      split
      · nofun
      · exact h

/-- A map in which every value stands under its key is filled from its values, in whatever order
they come. -/
theorem insertAll_values {values : List V}
    (hkey : ∀ (k : K) (v : V), m[k]? = some v → key v = k)
    (hvalues : ∀ v, v ∈ values ↔ ∃ k : K, m[k]? = some v) :
    insertAll key (∅ : ExtTreeMap K V cmp) values = m := by
  refine ExtTreeMap.ext_getElem? fun k => ?_
  cases hw : (insertAll key (∅ : ExtTreeMap K V cmp) values)[k]? with
  | some w =>
    rcases mem_of_insertAll_eq_some hw with ⟨hmem, rfl⟩ | hmem
    · obtain ⟨k', hk'⟩ := (hvalues w).mp hmem
      rw [hkey k' w hk', hk']
    · simp at hmem
  | none =>
    refine (Option.eq_none_iff_forall_ne_some.mpr fun v hk => ?_).symm
    exact insertAll_ne_none (.inl ⟨v, (hvalues v).mpr ⟨k, hk⟩, hkey k v hk⟩) hw

end TreeMap
