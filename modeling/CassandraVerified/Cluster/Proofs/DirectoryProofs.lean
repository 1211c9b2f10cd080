import CassandraVerified.Cluster.Proofs.MetadataProofs

/-!
# When the directory of nodes is consistent

A registered node is found under its endpoint until another node is registered there.
-/

namespace CassandraVerified.Cluster

open Std (ExtTreeMap)
open NodeDirectory Std.LawfulEqCmp TcmMetadata

variable {E : Type} [DecidableEq E] {m : TcmMetadata E} {d d' : NodeDirectory E}
  {t : Transformation E} {orders : Orders E} {ts : List (Transformation E × Uuid)}

namespace NodeDirectory

/-- Every node is found under its endpoint, and owns its tokens alone. -/
structure Found (d : NodeDirectory E) : Prop where
  endpoint : ∀ (id : Uuid) info, d.nodes[id]? = some info → d.endpointToId info.endpoint = some id
  tokens : ∀ (id id' : Uuid) info info', d.nodes[id]? = some info → d.nodes[id']? = some info' →
    ∀ token ∈ info.tokens, token ∈ info'.tokens → id = id'

theorem Found.register (h : d.Found) {info : NodeInfo E} (htokens : info.tokens = [])
    (hnone : ∀ (id : Uuid) old, d.nodes[id]? = some old → old.endpoint ≠ info.endpoint) :
    (d.register info).Found := by
  obtain ⟨hendpoint, hown⟩ := h
  constructor <;> simp only [NodeDirectory.register, ExtTreeMap.getElem?_insert,
    Std.compare_eq_iff_eq, Function.update_apply]
  · grind
  · -- the new node has no tokens
    grind

theorem Found.unregister (h : d.Found) (id : Uuid) : (d.unregister id).Found := by
  unfold NodeDirectory.unregister
  split
  · next info hinfo =>
    obtain ⟨hendpoint, hown⟩ := h
    constructor <;> simp only [ExtTreeMap.getElem?_erase, Std.compare_eq_iff_eq,
      Function.update_apply]
    · -- another node at the endpoint would be found in place of this one
      have hthis := hendpoint id info hinfo
      intro id' old hold
      have hother := hendpoint id' old
      grind
    · grind
  · exact h

omit [DecidableEq E] in
theorem Found.update (h : d.Found) {id : Uuid} {f : NodeInfo E → NodeInfo E}
    (hupdate : d.update id f = some d') (hkeep : ∀ info, (f info).endpoint = info.endpoint)
    (htokens : ∀ (id' : Uuid) info other, d.nodes[id]? = some info → d.nodes[id']? = some other →
      ∀ token ∈ (f info).tokens, token ∈ other.tokens → id' = id) : d'.Found := by
  obtain ⟨info, hinfo, rfl⟩ := Option.map_eq_some_iff.mp hupdate
  obtain ⟨hendpoint, hown⟩ := h
  constructor <;> simp only [ExtTreeMap.getElem?_insert, Std.compare_eq_iff_eq]
  · grind
  · intro a b x y hx hy token htx hty
    split at hx <;> split at hy
    · next ha hb => exact ha.symm.trans hb
    · next ha _ =>
      obtain rfl := Option.some.inj hx
      exact ha.symm.trans (htokens b info y hinfo hy token htx hty).symm
    · next hb =>
      obtain rfl := Option.some.inj hy
      exact (htokens a info x hinfo hx token hty htx).trans hb
    · exact hown a b x y hx hy token htx hty

omit [DecidableEq E] in
/-- A node that is found has the endpoint by the well-formedness of the reverse lookup. -/
theorem Found.consistent (hwf : Wf m) (h : m.directory.Found) : m.directory.Consistent := by
  have hlookup : ∀ ep info, m.directory.getByEndpoint ep = some info ↔
      ∃ id : Uuid, m.directory.nodes[id]? = some info ∧ info.endpoint = ep := by
    intro ep info
    rw [getByEndpoint, Option.bind_eq_some_iff]
    constructor
    · rintro ⟨id, hid, hinfo⟩
      obtain ⟨info', hinfo', hep⟩ := hwf.endpoint ep id hid
      obtain rfl := Option.some.inj (hinfo.symm.trans hinfo')
      exact ⟨id, hinfo, hep⟩
    · rintro ⟨id, hinfo, rfl⟩
      exact ⟨id, h.endpoint id info hinfo, hinfo⟩
  refine ⟨fun id id' info info' hinfo hinfo' hep => ?_, ?_, hlookup⟩
  · have hid := h.endpoint id info hinfo
    rw [hep, h.endpoint id' info' hinfo'] at hid
    exact (Option.some.inj hid).symm
  · rintro id id' info info' hinfo hinfo' ⟨token, htoken, htoken'⟩
    exact h.tokens id id' info info' hinfo hinfo' token htoken htoken'

theorem Found.changes (h : d.Found) (hchanges : Changes d t d') (hadmits : d.Admits t) :
    d'.Found := by
  cases hchanges with
  | register => exact h.register rfl hadmits
  | unregister => exact h.unregister _
  | assign hupdate =>
    refine h.update hupdate (fun _ => rfl) fun id' info other _ hother token htoken hshared => ?_
    by_contra hne
    exact hadmits id' other hother hne token htoken hshared
  | state hupdate =>
    exact h.update hupdate (fun _ => rfl) fun id' info other hinfo hother token htoken hshared =>
      h.tokens id' _ other info hother hinfo token hshared htoken
  | same => exact h

theorem Consistent.admits (h : d'.Consistent) (hchanges : Changes d t d') : d.Admits t := by
  cases hchanges with
  | @register nodeId endpoint dc rack hnew =>
    intro id info hinfo hep
    have hne : ¬ compare nodeId id = .eq := by
      intro heq
      rw [eq_of_compare heq, hinfo] at hnew
      cases hnew
    have hold : (d.register (.new nodeId endpoint dc rack [])).nodes[id]? = some info := by
      rw [NodeDirectory.register, ExtTreeMap.getElem?_insert]
      exact (if_neg hne).trans hinfo
    have hself := ExtTreeMap.getElem?_insert_self (t := d.nodes) (k := nodeId)
      (v := NodeInfo.new nodeId endpoint dc rack [])
    exact hne (Std.compare_eq_iff_eq.mpr (h.endpoint id nodeId info _ hold hself hep).symm)
  | @assign nodeId tokens d' hupdate =>
    intro id other hother hne token htoken hshared
    obtain ⟨info, hinfo, rfl⟩ := Option.map_eq_some_iff.mp hupdate
    refine hne (h.tokens id nodeId other { info with tokens, state := .normal } ?_ ?_
      ⟨token, hshared, htoken⟩)
    · rw [ExtTreeMap.getElem?_insert, if_neg fun heq => hne (eq_of_compare heq).symm]
      exact hother
    · exact ExtTreeMap.getElem?_insert_self
  | unregister => trivial
  | state => trivial
  | same hall => exact hall d

end NodeDirectory

namespace TcmMetadata

theorem applyAll_concat {before : List (Transformation E × Uuid)} {by' : Uuid}
    (h : m.Accepts orders (before ++ [(t, by')])) :
    Changes (m.applyAll orders before).2.directory t
      (m.applyAll orders (before ++ [(t, by')])).2.directory := by
  induction before generalizing m with
  | nil =>
    obtain ⟨epoch, applied, happly, -⟩ := h
    obtain ⟨changed, htransform, -, rfl⟩ := apply_eq_ok.mp happly
    simp only [List.nil_append, applyAll, happly]
    exact (changes_of_transform htransform).1
  | cons entry before ih =>
    obtain ⟨epoch, applied, happly, hrest⟩ := h
    simp only [List.cons_append, applyAll, happly]
    exact ih hrest

/-- The directory is consistent at every point of a run iff no transformation of the run gives a
node the endpoint or a token that another one has then. -/
theorem directory_consistent_iff (h : (new : TcmMetadata E).Accepts orders ts) :
    (∀ before, before <+: ts → (new.applyAll orders before).2.directory.Consistent) ↔
      ∀ before t by', before ++ [(t, by')] <+: ts →
        (new.applyAll orders before).2.directory.Admits t := by
  have haccepts {before : List (Transformation E × Uuid)} (hts : before <+: ts) :
      (new : TcmMetadata E).Accepts orders before := by
    obtain ⟨rest, rfl⟩ := hts
    exact h.append.1
  constructor
  · intro hall before t by' hts
    exact (hall _ hts).admits (applyAll_concat (haccepts hts))
  · intro hall before hts
    have hwf : Wf ((new : TcmMetadata E).applyAll orders before).2 :=
      (wf_started []).applyAll orders before
    refine Found.consistent hwf ?_
    clear hwf
    induction before using List.reverseRecOn with
    | nil => exact ⟨by simp [applyAll, new, NodeDirectory.new], by simp [applyAll, new,
        NodeDirectory.new]⟩
    | append_singleton before entry ih =>
      have hfound := ih ((List.prefix_append _ _).trans hts)
      exact hfound.changes (applyAll_concat (haccepts hts)) (hall _ _ _ hts)

instance (d : NodeDirectory E) : (t : Transformation E) → Decidable (d.Admits t)
  | .register _ endpoint _ _ =>
    decidable_of_iff (∀ e ∈ d.nodes.toList, e.2.endpoint ≠ endpoint) <| by
      simp [NodeDirectory.Admits, ExtTreeMap.mem_toList_iff_getElem?_eq_some]
  | .assignTokens nodeId tokens =>
    -- Tokens are a finite type, and a bounded quantifier over them would go through all of them.
    decidable_of_iff (∀ e ∈ d.nodes.toList, e.1 ≠ nodeId → tokens.all (· ∉ e.2.tokens) = true) <| by
      simp [NodeDirectory.Admits, ExtTreeMap.mem_toList_iff_getElem?_eq_some]
  | .unregister _ | .updateNodeState _ _ | .schemaChange _ _ | .lockRanges _ _ | .unlockRanges _
  | .forceSnapshot => isTrue trivial

/-- One of two nodes leaves, and a third one takes over its endpoint and its tokens. -/
def handedOver : List (Transformation Nat × Uuid) :=
  twoNodes ++
    [(.unregister 1, 1), (.register 3 7001 "dc1" "rack1", 2), (.assignTokens 3 [10, 30], 2)]

theorem directory_consistent_handedOver : handedOver.inits.Forall fun before =>
    ((new : TcmMetadata Nat).applyAll ⟨.same, .same, .same⟩ before).2.directory.Consistent := by
  have haccepts : (new : TcmMetadata Nat).Accepts ⟨.same, .same, .same⟩ handedOver := by
    decide +kernel
  have hall : ∀ i : Fin handedOver.length, ((new : TcmMetadata Nat).applyAll ⟨.same, .same, .same⟩
      (handedOver.take i)).2.directory.Admits handedOver[i].1 := by decide +kernel
  rw [List.forall_iff_forall_mem]
  simp only [List.mem_inits]
  refine (directory_consistent_iff haccepts).mpr fun before t by' hts => ?_
  obtain ⟨rest, hsplit⟩ := hts
  rw [List.append_assoc] at hsplit
  have hi : before.length < handedOver.length := by simp [← hsplit]
  have hadmits := hall ⟨before.length, hi⟩
  simpa [← hsplit] using hadmits

/-- Two nodes are registered at one endpoint. -/
theorem not_directory_consistent_twoNodes :
    (new : TcmMetadata Nat).Accepts ⟨.same, .same, .same⟩
      [(.register 1 7001 "dc1" "rack1", 1), (.register 2 7001 "dc1" "rack1", 1)] ∧
    ¬ ((new : TcmMetadata Nat).applyAll ⟨.same, .same, .same⟩
      [(.register 1 7001 "dc1" "rack1", 1),
        (.register 2 7001 "dc1" "rack1", 1)]).2.directory.Consistent := by
  refine ⟨⟨1, _, rfl, 2, _, rfl, trivial⟩, fun h => ?_⟩
  exact absurd (h.endpoint 1 2 (.new 1 7001 "dc1" "rack1" []) (.new 2 7001 "dc1" "rack1" [])
    (by decide +kernel) (by decide +kernel) rfl) (by decide)

end TcmMetadata

end CassandraVerified.Cluster
