import InventoryGraph.Proofs.Serializer.DataReferences
import InventoryGraph.Proofs.Serializer.Relationships
import InventoryGraph.Proofs.Serializer.RoundTrip
import InventoryGraph.Proofs.Serializer.DistinctAddresses
import InventoryGraph.Proofs.Uri.Refresh

/-!
The stages of a write that a second write of the same object finds done. References: a store that
shows every vertex of another as references read it (its id, type, tree parent and the
properties of the keys they look at) resolves every reference that resolves in both to the same
vertex, the one candidate of a lookup by data and the one vertex at an address staying candidates
in the larger store. Relationships: once joined (`Serializer.Joined`), reconciling them again in
a store that covers the one they were resolved in changes nothing (`Joined.settles`). Stamps: the
bookkeeping every write renews, and what a stamp keeps of a vertex that holds a synthetic id.
-/
namespace InventoryGraph

namespace Graph

variable (K : String → Prop)

/-- Vertex `v'` shows `v` to a reader of the keys `K`: the same id and type, and every property
    `v` has on such a key. -/
def Shows (v v' : Vertex) : Prop :=
  v'.id = v.id ∧ v'.nodeType = v.nodeType ∧ ∀ k, K k → ∀ x, v.property? k = some x → v'.property? k = some x

/-- Store `g'` shows every stored vertex of `g` to a reader of the keys `K`, under the same tree
    parent. -/
structure Covers (g g' : Graph) : Prop where
  vertex : ∀ v ∈ g.vertices, ∃ v' ∈ g'.vertices, Shows K v v'
  parent : ∀ v ∈ g.vertices, g'.treeParent? v.id = g.treeParent? v.id

variable {K} {g g' : Graph}

theorem Covers.lineage (h : g.Covers K g') (hc' : g'.VertexIndexed) {v v' a : Vertex}
    (hv : v ∈ g.vertices) (hv' : v' ∈ g'.vertices) (hshow : Shows K v v')
    (hwalk : Relation.ReflTransGen g.LineageStep v a) :
    ∃ a' ∈ g'.vertices, Relation.ReflTransGen g'.LineageStep v' a' ∧ Shows K a a' := by
  -- the walk is followed edge by edge; each vertex reached is stored, so it is shown
  suffices hwalk' : a ∈ g.vertices ∧
      ∃ a' ∈ g'.vertices, Relation.ReflTransGen g'.LineageStep v' a' ∧ Shows K a a' from hwalk'.2
  induction hwalk with
  | refl => exact ⟨hv, v', hv', .refl, hshow⟩
  | tail _ hstep ih =>
    obtain ⟨hb, b', hb', hwalk', hshowb⟩ := ih
    obtain ⟨hparent, hstored⟩ := hstep
    have hcm := (mem_of_vertex? hstored).1
    obtain ⟨c', hcm', hshowc⟩ := h.vertex _ hcm
    refine ⟨hcm, c', hcm', hwalk'.tail ⟨?_, ?_⟩, hshowc⟩
    · rw [hshowb.1, h.parent _ hb, hparent, hshowc.1]
    · exact vertex?_self (vertex?_of_mem hc' hcm')

end Graph

namespace RelationshipRef

/-- The reference reads only keys `K`: the address, and the property named by each entry. -/
def ReadsOnly (K : String → Prop) (r : RelationshipRef) : Prop :=
  K Bookkeeping.uri ∧ ∀ d ∈ r.data, ∀ t k, d.splitKey? = some (t, k) → K k

theorem ReadsOnly.everything (r : RelationshipRef) : r.ReadsOnly fun _ => True :=
  ⟨trivial, fun _ _ _ _ _ => trivial⟩

end RelationshipRef

namespace Graph

variable {K : String → Prop} {g g' : Graph} {r : RelationshipRef}

theorem Covers.matchesData (h : g.Covers K g') (hc' : g'.VertexIndexed) (hK : r.ReadsOnly K)
    {v v' : Vertex} (hv : v ∈ g.vertices) (hv' : v' ∈ g'.vertices) (hshow : Shows K v v')
    (hm : g.MatchesData v r) : g'.MatchesData v' r := by
  intro d hd
  obtain ⟨t, k, hsplit, a, hwalk, htype, hval⟩ := hm d hd
  obtain ⟨a', -, hwalk', hshowa⟩ := h.lineage hc' hv hv' hshow hwalk
  refine ⟨t, k, hsplit, a', hwalk', hshowa.2.1 ▸ htype, ?_⟩
  obtain ⟨x, hx, hdisp⟩ := Option.map_eq_some_iff.mp hval
  rw [hshowa.2.2 k (hK.2 d hd t k hsplit) x hx]
  exact congrArg some hdisp

theorem Covers.candidate (h : g.Covers K g') (hc' : g'.VertexIndexed) (hK : r.ReadsOnly K)
    {k x : String} (hk : K k) {v : Vertex} (hv : g.Candidate r k x v) :
    ∃ v', g'.Candidate r k x v' ∧ Shows K v v' := by
  obtain ⟨v', hv', hshow⟩ := h.vertex v hv.stored
  exact ⟨v', ⟨hv', hshow.2.1.trans hv.typed, hshow.2.2 k hk _ hv.probed,
    h.matchesData hc' hK hv.stored hv' hshow hv.matching⟩, hshow⟩

theorem Shows.refl (v : Vertex) : Shows K v v := ⟨rfl, rfl, fun _ _ _ hx => hx⟩

theorem Covers.congr {g'' : Graph} (h : g.Covers K g') (hc' : g'.Consistent) (hc'' : g''.Consistent)
    (hv : ∀ x, g''.vertex? x = g'.vertex? x) (he : g''.edges = g'.edges) : g.Covers K g'' where
  vertex v hmem := by
    obtain ⟨v', hv', hshow⟩ := h.vertex v hmem
    have hfound := (hv v'.id).trans (vertex?_of_mem hc'.vertexIndexed hv')
    exact ⟨v', (mem_of_vertex? hfound).1, hshow⟩
  parent v hmem := by
    rw [treeParent?_congr hc'.edgeIndexed hc''.edgeIndexed he]
    exact h.parent v hmem

/-- Every stored edge touching the vertex of id `x` is a cousin edge: the vertex stands in no
    tree. -/
def OffTree (g : Graph) (x : VertexId) : Prop :=
  ∀ e ∈ g.edges, e.touches x = true → e.edgeType = .cousin

theorem OffTree.treeParent? {x : VertexId} (hg : g.EdgeIndexed) (h : g.OffTree x) :
    g.treeParent? x = none := by
  rw [Graph.treeParent?, List.findSome?_eq_none_iff]
  intro e he
  obtain ⟨hmem, htouch⟩ := (mem_edgesOf_both hg).mp he
  simp [h e hmem htouch]

theorem OffTree.treeChildren {x : VertexId} (hg : g.EdgeIndexed) (h : g.OffTree x) :
    g.treeChildren x = [] := by
  rw [Graph.treeChildren, List.filterMap_eq_nil_iff]
  intro e he
  obtain ⟨hmem, htouch⟩ := (mem_edgesOf_both hg).mp he
  simp [h e hmem htouch]

theorem touches_of_not_live (hc : g.Consistent) {x : VertexId} (hx : ¬ g.Live x) :
    ∀ e ∈ g.edges, e.touches x = false := by
  intro e he
  obtain ⟨hout, hin⟩ := hc.ends_live e he
  simp only [Edge.touches, Bool.or_eq_false_iff, beq_eq_false_iff_ne]
  exact ⟨fun h => hx (h ▸ hout), fun h => hx (h ▸ hin)⟩

end Graph

namespace Vertex

theorem ext_property? {v w : Vertex} (hid : v.id = w.id) (hnt : v.nodeType = w.nodeType)
    (hcr : v.createdAt = w.createdAt) (hp : ∀ k, v.property? k = w.property? k) : v = w := by
  have hm : v.properties = w.properties := PropertyMap.ext_get? hp
  cases v
  cases w
  simp only at hid hnt hcr hm
  subst hid hnt hcr hm
  rfl

theorem set_of_property? {v : Vertex} {k : String} {x : PropertyValue} (h : v.property? k = some x) :
    v.set k x = v := by
  have hm : v.properties.insert k x = v.properties := PropertyMap.ext_get? fun k' => by
    rw [PropertyMap.get?_insert]
    split
    · next hk => exact hk ▸ h.symm
    · rfl
  show { v with properties := _ } = v
  rw [hm]

theorem remove_of_property? {v : Vertex} {k : String} (h : v.property? k = none) :
    v.remove k = v := by
  have hm : v.properties.erase k = v.properties := PropertyMap.ext_get? fun k' => by
    rw [PropertyMap.get?_erase]
    split
    · next hk => exact hk ▸ h.symm
    · rfl
  show { v with properties := _ } = v
  rw [hm]

end Vertex

namespace Serializer

theorem applyProperties_eq_self {t : NodeType} {v : Vertex} {props : PropertyMap}
    (h : ∀ d ∈ t.properties, v.property? d.name.text = props.get? d.name.text) :
    applyProperties t v props = v := by
  unfold applyProperties
  generalize t.properties = ds at h
  induction ds with
  | nil => rfl
  | cons d ds ih =>
    rw [List.foldl_cons]
    have hv := h d List.mem_cons_self
    have hrest := ih fun d' hd' => h d' (List.mem_cons_of_mem _ hd')
    split
    · next x hx =>
      rw [Vertex.set_of_property? (hv.trans hx)]
      exact hrest
    · next hx =>
      rw [Vertex.remove_of_property? (hv.trans hx)]
      exact hrest

end Serializer

namespace Scope

variable {sc : Scope}

theorem cousinRule_congr_target (a : Vertex) {b b' : Vertex} (h : b.nodeType = b'.nodeType)
    (l : Option String) : sc.cousinRule a b l = sc.cousinRule a b' l := by
  unfold cousinRule
  rw [h]

end Scope

namespace Serializer

variable {s : Serializer} {g g' : Graph} {r : RelationshipRef}

theorem findByData_eq_some {v : Vertex} (h : s.findByData g r = .ok (some v)) :
    ∃ t k x, s.scope.nodeType? r.relatedTo.text = some t ∧
      r.probe t.keyProperties = some (k, x) := by
  unfold findByData at h
  split at h
  · cases h
  · next t ht =>
    split at h
    · cases h
    · next k x hp => exact ⟨t, k, x, ht, hp⟩

theorem locateTarget_eq_ok {v : Vertex} (h : s.locateTarget g r = .ok v) :
    v.nodeType = r.relatedTo ∧
      (match r.relatedLink with
        | some link => Scope.findByUri g link
        | none => s.findByData g r) = .ok (some v) := by
  unfold locateTarget at h
  cases hl : r.relatedLink
  all_goals
    simp only [hl, Except.bind_eq_ok] at h ⊢
    obtain ⟨found, hfound, h⟩ := h
    split at h
    · cases h
    · split at h
      · cases h
      · next htype =>
        cases h
        exact ⟨not_not.mp htype, hfound⟩

variable {K : String → Prop}

theorem findByUri_eq_some {u : String} {x : Vertex} (h : Scope.findByUri g u = .ok (some x)) :
    g.verticesWith Bookkeeping.uri (.str (Scope.normalizeUri u)) = [x] := by
  unfold Scope.findByUri at h
  dsimp only at h
  split at h
  · cases h
  · generalize g.verticesWith Bookkeeping.uri (.str (Scope.normalizeUri u)) = l at h
    rcases l with _ | ⟨v, _ | ⟨w, rest⟩⟩
    · cases h
    · cases h
      rfl
    · cases h

theorem findByUri_covers (hc : g.VertexIndexed) (hc' : g'.VertexIndexed) (h : g.Covers K g')
    (hK : K Bookkeeping.uri) {u : String} {x y : Vertex}
    (hx : Scope.findByUri g u = .ok (some x)) (hy : Scope.findByUri g' u = .ok (some y)) :
    Graph.Shows K x y := by
  have hxs : x ∈ g.verticesWith Bookkeeping.uri (.str (Scope.normalizeUri u)) := by
    rw [findByUri_eq_some hx]
    exact List.mem_singleton_self x
  rw [Graph.verticesWith_eq hc, List.mem_filter, beq_iff_eq] at hxs
  obtain ⟨x', hx', hshow⟩ := h.vertex x hxs.1
  have hx's : x' ∈ g'.verticesWith Bookkeeping.uri (.str (Scope.normalizeUri u)) := by
    rw [Graph.verticesWith_eq hc', List.mem_filter, beq_iff_eq]
    exact ⟨hx', hshow.2.2 _ hK _ hxs.2⟩
  rw [findByUri_eq_some hy, List.mem_singleton] at hx's
  exact hx's ▸ hshow

theorem findByData_covers (hc : g.VertexIndexed) (hc' : g'.VertexIndexed) (h : g.Covers K g')
    (hK : r.ReadsOnly K) {x y : Vertex} (hx : s.findByData g r = .ok (some x))
    (hy : s.findByData g' r = .ok (some y)) : Graph.Shows K x y := by
  obtain ⟨t, k, v, ht, hp⟩ := findByData_eq_some hx
  have hxc := ((findByData_spec hc ht hp).1 x).mp hx
  have hyc := ((findByData_spec hc' ht hp).1 y).mp hy
  have hk : K k := by
    obtain ⟨pre, d, post, hdata, hnames, -⟩ := (RelationshipRef.probe_eq_some hp).first_entry
    exact hK.2 d (hdata ▸ List.mem_append_right _ List.mem_cons_self) _ k hnames
  obtain ⟨x', hx', hshow⟩ := h.candidate hc' hK hk hxc.1
  exact hyc.2 x' hx' ▸ hshow

theorem locateTarget_covers (hc : g.VertexIndexed) (hc' : g'.VertexIndexed) (h : g.Covers K g')
    (hK : r.ReadsOnly K) {x y : Vertex} (hx : s.locateTarget g r = .ok x)
    (hy : s.locateTarget g' r = .ok y) : Graph.Shows K x y := by
  obtain ⟨-, hx⟩ := locateTarget_eq_ok hx
  obtain ⟨-, hy⟩ := locateTarget_eq_ok hy
  cases hl : r.relatedLink with
  | some link =>
    simp only [hl] at hx hy
    exact findByUri_covers hc hc' h hK.1 hx hy
  | none =>
    simp only [hl] at hx hy
    exact findByData_covers hc hc' h hK hx hy

theorem reconcile_settled {v : Vertex} {rels : List RelationshipRef} (hc : g.Consistent)
    (honce : g.JoinsOnce v.id)
    (hjoined : ∀ r ∈ rels, ∀ t rule, s.Resolves g v r t rule →
      ∃ e ∈ g.edges, e.Joins v.id t.id rule.label)
    (hnamed : ∀ e ∈ g.edges, e.edgeType = .cousin → e.touches v.id = true →
      ∃ r ∈ rels, ∀ t rule, s.Resolves g v r t rule → e.Joins v.id t.id rule.label)
    (h : (s.reconcile v rels).run g = .ok ((), g')) : g' = g := by
  obtain ⟨resolved, hentry, hcover, f₁, g₁, hdrop, hremove, f₂, hadds, hadd⟩ :=
    reconcile_run_inv h
  have hfound : ∀ x ∈ resolved, ∃ e, x.2.2.2 = some e ∧ e ∈ g.edges ∧
      e.Joins v.id x.2.1.id x.2.2.1.label := by
    intro x hx
    obtain ⟨hr, hres, hx₂⟩ := hentry x hx
    obtain ⟨e, he, hj⟩ := hjoined x.1 hr x.2.1 x.2.2.1 hres
    cases hb : g.edgeBetween? .cousin v x.2.1 (some x.2.2.1.label.text) with
    | none => exact absurd hj (Graph.edgeBetween?_none hc.edgeIndexed hb e he)
    | some e' =>
      obtain ⟨he', hj'⟩ := Graph.edgeBetween?_some hc.edgeIndexed hb
      exact ⟨e', hx₂.trans hb, he', hj'⟩
  have h₁ : g₁ = g := by
    refine GraphM.forIn_run_preserves (· = g) f₁ _ (fun e he b g₂ r g₂' hP hrun => ?_) rfl
      hremove
    rw [(hdrop e b g₂ r g₂' hrun).2, if_neg, hP]
    rintro ⟨hcous, hout⟩
    have he' := (Graph.mem_edgesOf_both hc.edgeIndexed).mp he
    obtain ⟨r, hr, hjr⟩ := hnamed e he'.1 hcous he'.2
    obtain ⟨x, hx, rfl, hres⟩ := hcover r hr
    obtain ⟨e', hfe, he'', hj'⟩ := hfound x hx
    have heq := honce e he'.1 e' he'' _ _ (hjr _ _ hres) hj'
    exact hout (List.mem_filterMap.mpr ⟨x, hx, by rw [hfe, ← heq]; rfl⟩)
  subst h₁
  refine GraphM.forIn_run_preserves (· = g₁) f₂ resolved (fun x hx b g₂ r g₂' hP hrun => ?_) rfl
    hadd
  rcases (hadds x b g₂ r g₂' hrun).2 with ⟨rfl, -⟩ | ⟨hnone, -⟩
  · exact hP
  · subst hP
    obtain ⟨e, -, he, hj⟩ := hfound x hx
    exact absurd hj (Graph.edgeBetween?_none hc.edgeIndexed hnone e he)

theorem Resolves.covers {g₀ : Graph} (hc₀ : g₀.VertexIndexed) (hc : g.VertexIndexed)
    (h : g₀.Covers K g) (hK : r.ReadsOnly K) {v t t' : Vertex} {rule rule' : Rule}
    (hr : s.Resolves g₀ v r t rule) (hr' : s.Resolves g v r t' rule') :
    t'.id = t.id ∧ rule' = rule := by
  have hshow := locateTarget_covers hc₀ hc h hK hr.1 hr'.1
  have hrule : (.ok rule' : Outcome Rule) = .ok rule := by
    rw [← hr'.2, ← hr.2, s.scope.cousinRule_congr_target v hshow.2.1]
  exact ⟨hshow.1, Except.ok.inj hrule⟩

/-- What reconciling the references `rels` of `v`, resolved in `g₀`, leaves of the cousin edges
    of `v` in `g`, as a later reconcile reads them: every reference resolves, each pair of target
    and label named is joined by an edge, by one edge only, and every cousin edge of `v` is
    named. -/
structure Joined (s : Serializer) (g₀ : Graph) (v : Vertex) (rels : List RelationshipRef)
    (g : Graph) : Prop where
  resolves : ∀ r ∈ rels, ∃ t rule, s.Resolves g₀ v r t rule
  named_joined : ∀ t l, s.Names g₀ v rels t l → ∃ e ∈ g.edges, e.Joins v.id t l
  once : g.JoinsOnce v.id
  joined_named : ∀ e ∈ g.edges, e.edgeType = .cousin → e.touches v.id = true →
    ∃ t, e.otherEnd? v.id = some t ∧ s.Names g₀ v rels t e.label

section Joined

variable {g₀ : Graph} {v : Vertex} {rels : List RelationshipRef}

theorem Reconciled.joined (h : s.Reconciled g₀ v rels g) : s.Joined g₀ v rels g :=
  ⟨h.resolves, h.named_joined, h.once, h.joined_named⟩

theorem Joined.congr {w : Vertex} (hid : w.id = v.id) (hnt : w.nodeType = v.nodeType)
    (h : s.Joined g₀ v rels g) : s.Joined g₀ w rels g := by
  have hres : ∀ r t rule, s.Resolves g₀ w r t rule ↔ s.Resolves g₀ v r t rule := fun r t rule => by
    rw [Resolves, Resolves, s.scope.cousinRule_congr hnt]
  have hnames : s.Names g₀ w rels = s.Names g₀ v rels := by
    funext t l
    simp only [Names, hres]
  refine ⟨fun r hr => ?_, fun t l hn => ?_, hid ▸ h.once, fun e he hcous ht => ?_⟩
  · obtain ⟨t, rule, hr'⟩ := h.resolves r hr
    exact ⟨t, rule, (hres r t rule).mpr hr'⟩
  · rw [hid]
    exact h.named_joined t l (hnames ▸ hn)
  · rw [hid] at ht ⊢
    rw [hnames]
    exact h.joined_named e he hcous ht

/-- The cousin edges of `v` stay joined in a store that keeps every edge and adds no cousin
    edge. -/
theorem Joined.extend (h : s.Joined g₀ v rels g) (hkept : ∀ e ∈ g.edges, e ∈ g'.edges)
    (hcous : ∀ e ∈ g'.edges, e.edgeType = .cousin → e ∈ g.edges) : s.Joined g₀ v rels g' where
  resolves := h.resolves
  named_joined t l hn := by
    obtain ⟨e, he, hj⟩ := h.named_joined t l hn
    exact ⟨e, hkept e he, hj⟩
  once e he f hf t l hje hjf := h.once e (hcous e he hje.1) f (hcous f hf hjf.1) t l hje hjf
  joined_named e he hc := h.joined_named e (hcous e he hc) hc

theorem Joined.settles (hc₀ : g₀.Consistent) (hc : g.Consistent)
    (hcov : g₀.Covers (fun _ => True) g) (hr : s.Joined g₀ v rels g)
    (h : (s.reconcile v rels).run g = .ok ((), g')) : g' = g := by
  -- each reference resolves in `g` to the target and rule it resolved to in `g₀`
  have hsame : ∀ r t rule t' rule', s.Resolves g₀ v r t rule → s.Resolves g v r t' rule' →
      t'.id = t.id ∧ rule' = rule := fun r _ _ _ _ h₀ h₁ =>
    h₀.covers hc₀.vertexIndexed hc.vertexIndexed hcov (RelationshipRef.ReadsOnly.everything r) h₁
  refine reconcile_settled hc hr.once (fun r hrm t rule hres => ?_) (fun e he hcous htouch => ?_) h
  · obtain ⟨t₀, rule₀, hres₀⟩ := hr.resolves r hrm
    obtain ⟨hid, rfl⟩ := hsame r t₀ rule₀ t rule hres₀ hres
    rw [hid]
    exact hr.named_joined t₀.id rule.label ⟨r, hrm, t₀, rule, hres₀, rfl, rfl⟩
  · obtain ⟨_, hother, r, hrm, t₀, rule₀, hres₀, rfl, hlabel⟩ := hr.joined_named e he hcous htouch
    refine ⟨r, hrm, fun t rule hres => ?_⟩
    obtain ⟨hid, rfl⟩ := hsame r t₀ rule₀ t rule hres₀ hres
    exact ⟨hcous, hid ▸ hother, hlabel.symm⟩

end Joined

end Serializer

/-! ### Stamps -/

namespace Bookkeeping

/-- The bookkeeping a write stamps: every bookkeeping name but the node type and the address. -/
def Stamped (k : String) : Prop :=
  contains k = true ∧ k ≠ nodeType ∧ k ≠ uri

/-- The bookkeeping every write stamps anew: the time and the writer of the last change, and the
    resource version. -/
def Restamped (k : String) : Prop :=
  k = lastModTs ∨ k = lastModSourceOfTruth ∨ k = resourceVersion

end Bookkeeping

namespace NodeType

/-- A node type whose objects a write stores as they are: it declares no bookkeeping name, so
    stamping overwrites none of its properties, and it fills none by data copy. -/
def Replayable (t : NodeType) : Prop :=
  ∀ d ∈ t.properties, Bookkeeping.contains d.name.text = false ∧ d.dataCopy = none

theorem Replayable.outside {t : NodeType} (h : t.Replayable) {k : String}
    (hk : t.declares k = true) : Bookkeeping.contains k = false := by
  obtain ⟨d, hd, rfl⟩ := (NodeType.declares_iff t k).mp hk
  exact (h d hd).1

end NodeType

namespace Serializer

variable {s : Serializer} {v w : Vertex} {isNew : Bool} {g g' : Graph}

theorem touch_run_unstamped (h : (s.touch v isNew).run g = .ok (w, g')) (k : String)
    (hk : ¬ Bookkeeping.Stamped k) : w.property? k = v.property? k := by
  obtain ⟨c, -, -, -, -, -, hp, -⟩ := touch_run_inv h
  refine hp k ?_
  simp only [Bookkeeping.Stamped, not_and_or, not_not, Bool.not_eq_true] at hk
  rcases hk with hk | hk | hk
  · exact .inr (.inr hk)
  · exact .inl hk
  · exact .inr (.inl hk)

theorem touch_run_syntheticId (h : (s.touch v isNew).run g = .ok (w, g')) :
    (w.property? Bookkeeping.syntheticId).isSome := by
  obtain ⟨sid, c, hrun, -, hd⟩ := touch_run s v isNew g
  rw [hrun] at h
  obtain ⟨rfl, -⟩ := Prod.mk.inj (Except.ok.inj h)
  cases sid <;> cases isNew <;> simp_all [stamp, Option.isSome_iff_ne_none, Bookkeeping.syntheticId,
    Bookkeeping.createdTs, Bookkeeping.sourceOfTruth, Bookkeeping.lastModTs,
    Bookkeeping.lastModSourceOfTruth, Bookkeeping.resourceVersion]

theorem stamp_unrestamped (now : Int) (version : String) {k : String}
    (hk : ¬ Bookkeeping.Restamped k) : (s.stamp v false now none version).property? k = v.property? k := by
  simp only [Bookkeeping.Restamped, not_or] at hk
  obtain ⟨h₁, h₂, h₃⟩ := hk
  simp [stamp, h₁, h₂, h₃]

theorem touch_run_restamps (hsid : (v.property? Bookkeeping.syntheticId).isSome)
    (h : (s.touch v false).run g = .ok (w, g')) (k : String) (hk : ¬ Bookkeeping.Restamped k) :
    w.property? k = v.property? k := by
  obtain ⟨sid, c, hrun, -, hd⟩ := touch_run s v false g
  have hnone : sid = none := by
    rw [← Option.not_isSome_iff_eq_none, ← hd]
    simpa [Option.isSome_iff_ne_none] using hsid
  rw [hrun, hnone] at h
  obtain ⟨rfl, -⟩ := Prod.mk.inj (Except.ok.inj h)
  exact stamp_unrestamped _ _ hk

variable {o working : SchemaObject} {t : NodeType}

theorem prepare_of_no_templates {parent existing : Option Vertex}
    (ht : s.nodeType o.nodeType = .ok t) (hcopy : ∀ d ∈ t.properties, d.dataCopy = none)
    (h : (s.prepare parent o existing).run g = .ok ((working, v, isNew), g')) :
    working = o ∧ ∃ v₀ g₁, (s.target parent o existing).run g = .ok ((v₀, isNew), g₁) ∧
      (s.store t parent o v₀ isNew).run g₁ = .ok (v, g') := by
  obtain ⟨t', hval, v₀, g₁, htarget, v₁, hstore, hse⟩ := prepare_run_inv h
  obtain rfl : t = t' := Except.ok.inj (ht.symm.trans (validateObject_inv hval).1)
  rw [runSideEffects_of_no_templates hcopy] at hse
  obtain ⟨rfl, rfl⟩ := Prod.mk.inj (Except.ok.inj hse)
  exact ⟨rfl, v₀, g₁, htarget, hstore⟩

end Serializer

end InventoryGraph
