import CassandraVerified.Lib.TreeMap

/-!
# Tries

A map from strings over an ordered alphabet. A walk through the whole trie lists the strings in
lexicographic order, so that a trie is the ordered map that has the same values.
-/

open Std (ExtTreeMap TransOrd LawfulEqOrd)

mutual

/-- A node of a trie, with its content and its children. -/
inductive Trie (α V : Type) where
  | node (content : Option V) (children : TrieForest α V)

/-- The children of a node, each with its label. -/
inductive TrieForest (α V : Type) where
  | nil
  | cons (label : α) (child : Trie α V) (rest : TrieForest α V)

end

variable {α V : Type} [Ord α]

namespace TrieForest

/-- The children with their labels, in the order in which they are kept. -/
def toList : TrieForest α V → List (α × Trie α V)
  | nil => []
  | cons label child rest => (label, child) :: rest.toList

def labels (ts : TrieForest α V) : List α := ts.toList.map Prod.fst

def isEmpty : TrieForest α V → Bool
  | nil => true
  | cons _ _ _ => false

def get? (a : α) : TrieForest α V → Option (Trie α V)
  | nil => none
  | cons label child rest => if compare a label = .eq then some child else rest.get? a

/-- Replaces the child of a label, or puts one in its place. -/
def alter (a : α) (f : Option (Trie α V) → Trie α V) : TrieForest α V → TrieForest α V
  | nil => cons a (f none) nil
  | cons label child rest =>
    match compare a label with
    | .lt => cons a (f none) (cons label child rest)
    | .eq => cons label (f (some child)) rest
    | .gt => cons label child (rest.alter a f)

/-- Children that come in any order. -/
def ofList (children : List (α × Trie α V)) : TrieForest α V :=
  children.foldl (fun ts e => ts.alter e.1 fun _ => e.2) nil

end TrieForest

namespace Trie

def content : Trie α V → Option V
  | node content _ => content

def children : Trie α V → TrieForest α V
  | node _ children => children

def empty : Trie α V := node none .nil

def get : List α → Trie α V → Option V
  | [], t => t.content
  | a :: key, t => (t.children.get? a).bind (get key)

/-- Replaces the value of a string, or gives it one. -/
def alter (f : Option V → V) : List α → Trie α V → Trie α V
  | [], t => node (some (f t.content)) t.children
  | a :: key, t => node t.content (t.children.alter a fun child => alter f key (child.getD empty))

end Trie

mutual

/-- All strings with their values; `key` is the string that leads to the trie. -/
def Trie.collect (key : List α) : Trie α V → List (List α × V)
  | .node content children => (content.map (Prod.mk key)).toList ++ children.collect key

def TrieForest.collect (key : List α) : TrieForest α V → List (List α × V)
  | .nil => []
  | .cons label child rest => child.collect (key ++ [label]) ++ rest.collect key

end

mutual

def Trie.size : Trie α V → Nat
  | .node content children => (if content.isSome then 1 else 0) + children.size

def TrieForest.size : TrieForest α V → Nat
  | .nil => 0
  | .cons _ child rest => child.size + rest.size

end

mutual

/-- The children of every node are in the order of their labels. -/
def Trie.WellFormed : Trie α V → Prop
  | .node _ children => children.WellFormed

def TrieForest.WellFormed : TrieForest α V → Prop
  | .nil => True
  | .cons label child rest =>
    child.WellFormed ∧ (∀ a ∈ rest.labels, compare label a = .lt) ∧ rest.WellFormed

end

/-! ## Children -/

namespace TrieForest

theorem get?_eq_none : ∀ {ts : TrieForest α V} {a : α}, (∀ b ∈ ts.labels, compare a b = .lt) →
    ts.get? a = none
  | nil, _, _ => rfl
  | cons label child rest, a, h => by
    have hlt : compare a label = .lt := h label List.mem_cons_self
    rw [get?, hlt, if_neg (by simp)]
    exact get?_eq_none fun b hb => h b (List.mem_cons_of_mem _ hb)

theorem mem_labels_alter : ∀ {ts : TrieForest α V} {a b : α} {f : Option (Trie α V) → Trie α V},
    b ∈ (ts.alter a f).labels → b = a ∨ b ∈ ts.labels
  | nil, _, _, _, h => .inl (List.mem_singleton.mp h)
  | cons label child rest, a, b, f, h => by
    rw [alter] at h
    split at h
    · exact List.mem_cons.mp h
    · exact .inr h
    · rcases List.mem_cons.mp h with rfl | h
      · exact .inr List.mem_cons_self
      · exact (mem_labels_alter h).imp_right (List.mem_cons_of_mem _)

theorem wellFormed_of_get? : ∀ {ts : TrieForest α V} (_ : ts.WellFormed) {a : α} {t : Trie α V},
    ts.get? a = some t → t.WellFormed
  | cons label child rest, hw, a, t, h => by
    rw [get?] at h
    split at h
    · exact Option.some.inj h ▸ hw.1
    · exact wellFormed_of_get? hw.2.2 h

theorem isEmpty_alter (ts : TrieForest α V) (a : α) (f : Option (Trie α V) → Trie α V) :
    (ts.alter a f).isEmpty = false := by
  cases ts with
  | nil => rfl
  | cons label child rest =>
    rw [alter]
    split <;> rfl

theorem pairwise_toList : ∀ {ts : TrieForest α V}, ts.WellFormed →
    ts.toList.Pairwise fun a b => compare a.1 b.1 = .lt
  | nil, _ => .nil
  | cons _ _ _, h => .cons (fun _ he => h.2.1 _ (List.mem_map_of_mem he)) (pairwise_toList h.2.2)

omit [Ord α] in
theorem toList_injective : ∀ {ts ts' : TrieForest α V}, ts.toList = ts'.toList → ts = ts'
  | nil, nil, _ => rfl
  | nil, cons _ _ _, h => nomatch h
  | cons _ _ _, nil, h => nomatch h
  | cons a t rest, cons a' t' rest', h => by
    rw [toList, toList, List.cons.injEq, Prod.mk.injEq] at h
    rw [h.1.1, h.1.2, toList_injective h.2]

section

variable [LawfulEqOrd α]

theorem get?_cons_self (a : α) (child : Trie α V) (rest : TrieForest α V) :
    (cons a child rest).get? a = some child := by
  rw [get?, if_pos (Std.ReflCmp.compare_self)]

theorem get?_cons_of_ne {a label : α} (h : a ≠ label) (child : Trie α V) (rest : TrieForest α V) :
    (cons label child rest).get? a = rest.get? a := by
  rw [get?, if_neg (fun heq => h (Std.compare_eq_iff_eq.mp heq))]

theorem get?_alter_of_ne {a b : α} (hne : b ≠ a) (f : Option (Trie α V) → Trie α V) :
    ∀ ts : TrieForest α V, (ts.alter a f).get? b = ts.get? b
  | nil => get?_cons_of_ne hne _ _
  | cons label child rest => by
    rw [alter]
    split
    · exact get?_cons_of_ne hne _ _
    · next ha =>
      obtain rfl := Std.compare_eq_iff_eq.mp ha
      rw [get?_cons_of_ne hne, get?_cons_of_ne hne]
    · by_cases hb : b = label
      · rw [hb, get?_cons_self, get?_cons_self]
      · rw [get?_cons_of_ne hb, get?_cons_of_ne hb, get?_alter_of_ne hne f rest]

end

variable [TransOrd α]

/-- A child whose label is greater than the others' goes to the end. -/
theorem toList_alter : ∀ {ts : TrieForest α V} {a : α} {f : Option (Trie α V) → Trie α V},
    (∀ e ∈ ts.toList, compare e.1 a = .lt) → (ts.alter a f).toList = ts.toList ++ [(a, f none)]
  | nil, _, _, _ => rfl
  | cons label child rest, a, f, h => by
    have hlt : compare label a = .lt := h (label, child) List.mem_cons_self
    rw [alter, Std.OrientedCmp.gt_of_lt hlt]
    simp only [toList, toList_alter fun e he => h e (List.mem_cons_of_mem _ he), List.cons_append]

theorem toList_ofList {l : List (α × Trie α V)} (h : l.Pairwise fun a b => compare a.1 b.1 = .lt) :
    (ofList l).toList = l := by
  induction l using List.reverseRecOn with
  | nil => rfl
  | append_singleton l e ih =>
    rw [List.pairwise_append] at h
    have hih := ih h.1
    rw [ofList, List.foldl_append, List.foldl_cons, List.foldl_nil]
    change (alter e.1 (fun _ => e.2) (ofList l)).toList = _
    rw [toList_alter, hih]
    intro x hx
    rw [hih] at hx
    exact h.2.2 x hx e List.mem_cons_self

/-- Children that were listed are put back as they were. -/
theorem ofList_toList {ts : TrieForest α V} (h : ts.WellFormed) : ofList ts.toList = ts :=
  toList_injective (toList_ofList (pairwise_toList h))

theorem wellFormed_alter : ∀ {ts : TrieForest α V} (_ : ts.WellFormed) (a : α)
    {f : Option (Trie α V) → Trie α V},
    (∀ o : Option (Trie α V), (∀ t ∈ o, t.WellFormed) → (f o).WellFormed) →
    (ts.alter a f).WellFormed
  | nil, _, a, f, hf => ⟨hf none (by simp), by simp [labels, toList], trivial⟩
  | cons label child rest, hw, a, f, hf => by
    have hw' := hw
    obtain ⟨hchild, hlt, hrest⟩ := hw
    rw [alter]
    split
    · next ha =>
      refine ⟨hf none (by simp), fun b hb => ?_, hw'⟩
      rcases List.mem_cons.mp hb with rfl | hb
      · exact ha
      · exact Std.TransCmp.lt_trans ha (hlt b hb)
    · exact ⟨hf (some child) (by simpa using hchild), hlt, hrest⟩
    · next ha =>
      refine ⟨hchild, fun b hb => ?_, wellFormed_alter hrest a hf⟩
      rcases mem_labels_alter hb with rfl | hb
      · exact Std.OrientedCmp.lt_of_gt ha
      · exact hlt b hb

theorem get?_alter_self [LawfulEqOrd α] : ∀ {ts : TrieForest α V} (_ : ts.WellFormed) (a : α)
    (f : Option (Trie α V) → Trie α V), (ts.alter a f).get? a = some (f (ts.get? a))
  | nil, _, a, f => get?_cons_self a _ _
  | cons label child rest, hw, a, f => by
    obtain ⟨-, hlt, hrest⟩ := hw
    rw [alter]
    split
    · next ha =>
      have hnone : (cons label child rest).get? a = none := by
        refine get?_eq_none fun b hb => ?_
        rcases List.mem_cons.mp hb with rfl | hb
        · exact ha
        · exact Std.TransCmp.lt_trans ha (hlt b hb)
      rw [hnone, get?_cons_self]
    · next ha =>
      obtain rfl := Std.compare_eq_iff_eq.mp ha
      rw [get?_cons_self, get?_cons_self]
    · next ha =>
      have hne : a ≠ label := fun h => by simp [h] at ha
      rw [get?_cons_of_ne hne, get?_cons_of_ne hne, get?_alter_self hrest]

end TrieForest

/-! ## Values -/

namespace Trie

theorem get_empty (key : List α) : (empty : Trie α V).get key = none := by
  cases key <;> rfl

theorem wellFormed_empty : (empty : Trie α V).WellFormed := trivial

variable [TransOrd α] {t : Trie α V}

theorem wellFormed_alter (f : Option V → V) (key : List α) (h : t.WellFormed) :
    (t.alter f key).WellFormed := by
  induction key generalizing t with
  | nil =>
    cases t
    exact h
  | cons a key ih =>
    cases t with
    | node content children =>
      refine TrieForest.wellFormed_alter h a fun o ho => ih ?_
      cases o with
      | none => exact wellFormed_empty
      | some child => exact ho child rfl

variable [LawfulEqOrd α]

theorem get_alter_self (f : Option V → V) (key : List α) (h : t.WellFormed) :
    (t.alter f key).get key = some (f (t.get key)) := by
  induction key generalizing t with
  | nil => rfl
  | cons a key ih =>
    cases t with
    | node content children =>
      change ((children.alter a _).get? a).bind (get key) =
        some (f ((children.get? a).bind (get key)))
      rw [TrieForest.get?_alter_self h, Option.bind_some]
      cases hget : children.get? a with
      | none => rw [Option.getD_none, ih wellFormed_empty, get_empty, Option.bind_none]
      | some child =>
        rw [Option.getD_some, ih (TrieForest.wellFormed_of_get? h hget), Option.bind_some]

theorem get_alter_of_ne (f : Option V → V) {key k : List α} (hne : k ≠ key) (h : t.WellFormed) :
    (t.alter f key).get k = t.get k := by
  induction key generalizing t k with
  | nil =>
    cases k with
    | nil => exact absurd rfl hne
    | cons b k => rfl
  | cons a key ih =>
    cases k with
    | nil => rfl
    | cons b k =>
      cases t with
      | node content children =>
        change ((children.alter a _).get? b).bind (get k) = (children.get? b).bind (get k)
        by_cases hb : b = a
        · subst hb
          have hk : k ≠ key := fun heq => hne (by rw [heq])
          rw [TrieForest.get?_alter_self h, Option.bind_some]
          cases hget : children.get? b with
          | none => rw [Option.getD_none, ih hk wellFormed_empty, get_empty, Option.bind_none]
          | some child =>
            rw [Option.getD_some, ih hk (TrieForest.wellFormed_of_get? h hget), Option.bind_some]
        · rw [TrieForest.get?_alter_of_ne hb]

end Trie

/-! ## The whole trie -/

theorem List.compare_append_left [LawfulEqOrd α] (key k l : List α) :
    compare (key ++ k) (key ++ l) = compare k l := by
  induction key with
  | nil => rfl
  | cons a key ih =>
    have hself : compare a a = .eq := Std.compare_self
    rw [List.cons_append, List.cons_append, List.compare_cons_cons, hself, ih]
    rfl

mutual

theorem Trie.mem_collect [LawfulEqOrd α] : ∀ (t : Trie α V) (_ : t.WellFormed)
    (key k' : List α) (v : V), (k', v) ∈ t.collect key ↔ ∃ k, k' = key ++ k ∧ t.get k = some v
  | .node content children, hw, key, k', v => by
    have hchildren := TrieForest.mem_collect children hw key k' v
    rw [Trie.collect, List.mem_append, hchildren]
    constructor
    · rintro (h | ⟨a, k, rfl, h⟩)
      · obtain ⟨v', hv', heq⟩ : ∃ v', content = some v' ∧ (key, v') = (k', v) := by simpa using h
        obtain ⟨rfl, rfl⟩ := Prod.mk.inj heq
        exact ⟨[], by simp, hv'⟩
      · exact ⟨a :: k, rfl, h⟩
    · rintro ⟨k, rfl, h⟩
      cases k with
      | nil =>
        have hcontent : content = some v := h
        exact .inl (by simp [hcontent])
      | cons a k => exact .inr ⟨a, k, rfl, h⟩

theorem TrieForest.mem_collect [LawfulEqOrd α] : ∀ (ts : TrieForest α V) (_ : ts.WellFormed)
    (key k' : List α) (v : V), (k', v) ∈ ts.collect key ↔
      ∃ a k, k' = key ++ a :: k ∧ (ts.get? a).bind (Trie.get k) = some v
  | .nil, _, key, k', v => by simp [TrieForest.collect, TrieForest.get?]
  | .cons label child rest, hw, key, k', v => by
    obtain ⟨hchild, hlt, hrest⟩ := hw
    have hnone : rest.get? label = none := TrieForest.get?_eq_none hlt
    rw [TrieForest.collect, List.mem_append, Trie.mem_collect child hchild,
      TrieForest.mem_collect rest hrest]
    constructor
    · rintro (⟨k, rfl, h⟩ | ⟨a, k, rfl, h⟩)
      · refine ⟨label, k, by simp, ?_⟩
        rw [TrieForest.get?_cons_self, Option.bind_some, h]
      · refine ⟨a, k, rfl, ?_⟩
        have hne : a ≠ label := by
          rintro rfl
          simp [hnone] at h
        rwa [TrieForest.get?_cons_of_ne hne]
    · rintro ⟨a, k, rfl, h⟩
      by_cases ha : a = label
      · subst ha
        rw [TrieForest.get?_cons_self, Option.bind_some] at h
        exact .inl ⟨k, by simp, h⟩
      · rw [TrieForest.get?_cons_of_ne ha] at h
        exact .inr ⟨a, k, rfl, h⟩

end

theorem TrieForest.mem_labels_of_get? [LawfulEqOrd α] : ∀ {ts : TrieForest α V} {a : α}
    {t : Trie α V}, ts.get? a = some t → a ∈ ts.labels
  | .cons label child rest, a, t, h => by
    by_cases ha : a = label
    · exact ha ▸ List.mem_cons_self
    · rw [get?_cons_of_ne ha] at h
      exact List.mem_cons_of_mem _ (mem_labels_of_get? h)

mutual

theorem Trie.pairwise_collect [LawfulEqOrd α] : ∀ (t : Trie α V) (_ : t.WellFormed) (key : List α),
    (t.collect key).Pairwise fun a b => compare a.1 b.1 = .lt
  | .node content children, hw, key => by
    rw [Trie.collect, List.pairwise_append]
    refine ⟨by cases content <;> simp, TrieForest.pairwise_collect children hw key, ?_⟩
    rintro e he ⟨k', v⟩ hk'
    obtain ⟨a, k, rfl, -⟩ := (TrieForest.mem_collect children hw key k' v).mp hk'
    obtain ⟨v', -, rfl⟩ : ∃ v', content = some v' ∧ (key, v') = e := by simpa using he
    have hcompare := List.compare_append_left key [] (a :: k)
    rw [List.append_nil] at hcompare
    exact hcompare.trans List.compare_nil_cons

theorem TrieForest.pairwise_collect [LawfulEqOrd α] : ∀ (ts : TrieForest α V) (_ : ts.WellFormed)
    (key : List α), (ts.collect key).Pairwise fun a b => compare a.1 b.1 = .lt
  | .nil, _, _ => List.Pairwise.nil
  | .cons label child rest, hw, key => by
    obtain ⟨hchild, hlt, hrest⟩ := hw
    rw [TrieForest.collect, List.pairwise_append]
    refine ⟨Trie.pairwise_collect child hchild _, TrieForest.pairwise_collect rest hrest key, ?_⟩
    rintro ⟨k₁, v₁⟩ h₁ ⟨k₂, v₂⟩ h₂
    obtain ⟨k, rfl, -⟩ := (Trie.mem_collect child hchild _ _ _).mp h₁
    obtain ⟨a, l, rfl, hget⟩ := (TrieForest.mem_collect rest hrest _ _ _).mp h₂
    obtain ⟨t, ht, -⟩ := Option.bind_eq_some_iff.mp hget
    have hlabel := hlt a (TrieForest.mem_labels_of_get? ht)
    rw [List.append_assoc, List.compare_append_left, List.singleton_append, List.compare_cons_cons,
      hlabel]
    rfl

end

omit [Ord α] in
mutual

theorem Trie.length_collect : ∀ (t : Trie α V) (key : List α), (t.collect key).length = t.size
  | .node content children, key => by
    rw [Trie.collect, Trie.size, List.length_append, children.length_collect key]
    cases content <;> rfl

theorem TrieForest.length_collect :
    ∀ (ts : TrieForest α V) (key : List α), (ts.collect key).length = ts.size
  | .nil, _ => rfl
  | .cons label child rest, key => by
    rw [TrieForest.collect, TrieForest.size, List.length_append, child.length_collect,
      rest.length_collect]

end

/-- A trie lists what the ordered map with the same values lists. -/
theorem Trie.collect_eq_toList [TransOrd α] [LawfulEqOrd α] {t : Trie α V} (hw : t.WellFormed)
    {m : ExtTreeMap (List α) V} (h : ∀ k, t.get k = m[k]?) : t.collect [] = m.toList := by
  refine (TreeMap.toList_eq_of_pairwise (Trie.pairwise_collect t hw []) fun k v => ?_).symm
  rw [Trie.mem_collect t hw, ← h]
  simp
