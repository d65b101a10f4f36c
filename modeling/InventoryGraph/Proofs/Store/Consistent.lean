import InventoryGraph.Proofs.Store.Slots

/-!
The consistency of a graph store. A store is consistent when its ids ascend in creation
order, below the next ids it will hand out, every edge joins two live vertices, and each
index slot holds exactly the ids of the vertices or edges it stands for. The queries of a
consistent store then answer what the store holds: an index neither loses a vertex or an
edge nor keeps a stale one, and no answer lists anything twice.
-/
namespace InventoryGraph

attribute [ext] VertexId EdgeId

namespace PropertyMap

theorem get?_eq_some_iff (m : PropertyMap) (k : String) (x : PropertyValue) :
    m.get? k = some x ↔ (k, x) ∈ m.toList := by
  have hnodup : (m.entries.map (·.1)).Nodup := m.ascending.nodup
  constructor
  · intro h
    obtain ⟨e, he, rfl⟩ := Option.map_eq_some_iff.mp h
    have hk : e.1 = k := by simpa using List.find?_some he
    have hmem := List.mem_of_find?_eq_some he
    rw [← hk]
    exact hmem
  · intro h
    obtain ⟨e, he⟩ := Option.isSome_iff_exists.mp
      (List.find?_isSome.mpr ⟨(k, x), h, by simp⟩ : (m.entries.find? fun e => e.1 == k).isSome)
    have hk : e.1 = k := by simpa using List.find?_some he
    have heq : e = (k, x) :=
      List.inj_on_of_nodup_map hnodup (List.mem_of_find?_eq_some he) h hk
    simp [get?, he, heq]

theorem nodup_toList (m : PropertyMap) : m.toList.Nodup := m.ascending.nodup.of_map _

end PropertyMap

namespace Graph

/-- A live vertex has the id. -/
def Live (g : Graph) (x : VertexId) : Prop := ∃ v ∈ g.vertices, v.id = x

/-- The edge index: edge ids ascend, and the slot of a vertex in the out and in indexes
    holds the ids of the edges that leave it and that enter it. -/
structure EdgeIndexed (g : Graph) : Prop where
  ascending : (g.edges.map (·.id.index)).Pairwise (· < ·)
  out_slot : ∀ x, Slots.get g.outEdges x = (g.edges.filter (·.outV == x)).map (·.id.index)
  in_slot : ∀ x, Slots.get g.inEdges x = (g.edges.filter (·.inV == x)).map (·.id.index)

/-- The vertex index: vertex ids ascend, and the slots of a node type and of a property
    entry hold the ids of the vertices of that type and with that entry. -/
structure VertexIndexed (g : Graph) : Prop where
  ascending : (g.vertices.map (·.id.index)).Pairwise (· < ·)
  type_slot : ∀ t, Slots.get g.byType t =
    (g.vertices.filter (·.nodeType == t)).map (·.id.index)
  property_slot : ∀ p, Slots.get g.byProperty p =
    (g.vertices.filter (·.properties.toList.contains p)).map (·.id.index)

/-- A consistent store: both indexes hold, every id is below the next one to be handed out,
    and every edge joins two live vertices. -/
structure Consistent (g : Graph) : Prop where
  vertexIndexed : g.VertexIndexed
  edgeIndexed : g.EdgeIndexed
  vertex_fresh : ∀ v ∈ g.vertices, v.id.index < g.nextVertex
  edge_fresh : ∀ e ∈ g.edges, e.id.index < g.nextEdge
  ends_live : ∀ e ∈ g.edges, g.Live e.outV ∧ g.Live e.inV

theorem vertex?_isSome_iff (g : Graph) (x : VertexId) : (g.vertex? x).isSome ↔ g.Live x := by
  simp [vertex?, Live]

theorem mem_of_vertex? {g : Graph} {x : VertexId} {v : Vertex} (h : g.vertex? x = some v) :
    v ∈ g.vertices ∧ v.id = x :=
  ⟨List.mem_of_find?_eq_some h, by simpa using List.find?_some h⟩

theorem mem_of_edge? {g : Graph} {i : EdgeId} {e : Edge} (h : g.edge? i = some e) :
    e ∈ g.edges ∧ e.id = i :=
  ⟨List.mem_of_find?_eq_some h, by simpa using List.find?_some h⟩

theorem vertex?_of_mem {g : Graph} (h : g.VertexIndexed) {v : Vertex} (hv : v ∈ g.vertices) :
    g.vertex? v.id = some v := by
  obtain ⟨w, hw⟩ := Option.isSome_iff_exists.mp ((g.vertex?_isSome_iff v.id).mpr ⟨v, hv, rfl⟩)
  obtain ⟨hwm, hwid⟩ := mem_of_vertex? hw
  rw [hw, IdSet.eq_of_ids_eq h.ascending hwm hv (by rw [hwid])]

theorem edge?_of_mem {g : Graph} (h : g.EdgeIndexed) {e : Edge} (he : e ∈ g.edges) :
    g.edge? e.id = some e := by
  have hsome : (g.edge? e.id).isSome := by simpa [edge?] using ⟨e, he, rfl⟩
  obtain ⟨f, hf⟩ := Option.isSome_iff_exists.mp hsome
  obtain ⟨hfm, hfid⟩ := mem_of_edge? hf
  rw [hf, IdSet.eq_of_ids_eq h.ascending hfm he (by rw [hfid])]

theorem collect_ids {g : Graph} (h : g.VertexIndexed) (p : Vertex → Bool) :
    g.collect ((g.vertices.filter p).map (·.id.index)) = g.vertices.filter p := by
  rw [collect, List.filterMap_map]
  conv => rhs; rw [← List.filterMap_some (l := g.vertices.filter p)]
  refine List.filterMap_congr fun v hv => ?_
  exact vertex?_of_mem h (List.mem_filter.mp hv).1

theorem edges_of_ids {g : Graph} (h : g.EdgeIndexed) (p : Edge → Bool) :
    ((g.edges.filter p).map (·.id.index)).filterMap (fun i => g.edge? ⟨i⟩) =
      g.edges.filter p := by
  rw [List.filterMap_map]
  conv => rhs; rw [← List.filterMap_some (l := g.edges.filter p)]
  refine List.filterMap_congr fun e he => ?_
  exact edge?_of_mem h (List.mem_filter.mp he).1

theorem verticesOfType_eq {g : Graph} (h : g.VertexIndexed) (t : Identifier) :
    g.verticesOfType t = g.vertices.filter (·.nodeType == t) := by
  rw [verticesOfType, h.type_slot, collect_ids h]

theorem verticesWith_eq {g : Graph} (h : g.VertexIndexed) (k : String) (x : PropertyValue) :
    g.verticesWith k x = g.vertices.filter (·.property? k == some x) := by
  rw [verticesWith, h.property_slot, collect_ids h]
  congr 1
  funext v
  apply Bool.eq_iff_iff.mpr
  simp [Vertex.property?, PropertyMap.get?_eq_some_iff]

theorem edges_of_edgeIds {g : Graph} (h : g.EdgeIndexed) (p : Edge → Bool) :
    ((g.edges.filter p).map (·.id)).filterMap g.edge? = g.edges.filter p := by
  rw [List.filterMap_map]
  conv => rhs; rw [← List.filterMap_some (l := g.edges.filter p)]
  refine List.filterMap_congr fun e he => ?_
  exact edge?_of_mem h (List.mem_filter.mp he).1

theorem edges_of_id_set {g : Graph} (h : g.EdgeIndexed) {x : VertexId} {d : EdgeDirection}
    {s : List Nat} (hs : s.Pairwise (· < ·))
    (hmem : ∀ j, j ∈ s ↔ ∃ e ∈ g.edges, e.runs x d ∧ e.id.index = j) :
    s.filterMap (fun i => g.edge? ⟨i⟩) = g.edges.filter (·.runs x d) := by
  rw [IdSet.eq_ids_of_mem _ hs h.ascending hmem, edges_of_ids h]

theorem edgesOf_eq {g : Graph} (h : g.EdgeIndexed) (x : VertexId) (d : EdgeDirection) :
    g.edgesOf x d = g.edges.filter (·.runs x d) := by
  have hout := IdSet.ids_ascending (·.outV == x) h.ascending
  cases d with
  | outbound =>
    refine edges_of_id_set h (by simpa [IdSet.union, h.out_slot] using hout) fun j => ?_
    simp [IdSet.union, h.out_slot, Edge.runs, and_assoc]
  | inbound =>
    refine edges_of_id_set h (IdSet.union_ascending List.Pairwise.nil) fun j => ?_
    simp [h.in_slot, Edge.runs, and_assoc]
  | both =>
    refine edges_of_id_set h (IdSet.union_ascending (by simpa [h.out_slot] using hout))
      fun j => ?_
    simp only [IdSet.mem_union, h.out_slot, h.in_slot, List.mem_map, List.mem_filter,
      Edge.runs, Bool.or_eq_true, beq_iff_eq]
    grind

theorem EdgeIndexed.of_eq {g g' : Graph} (h : g.EdgeIndexed) (he : g'.edges = g.edges)
    (ho : g'.outEdges = g.outEdges) (hi : g'.inEdges = g.inEdges) : g'.EdgeIndexed where
  ascending := he ▸ h.ascending
  out_slot x := by rw [ho, he]; exact h.out_slot x
  in_slot x := by rw [hi, he]; exact h.in_slot x

theorem VertexIndexed.of_eq {g g' : Graph} (h : g.VertexIndexed) (hv : g'.vertices = g.vertices)
    (ht : g'.byType = g.byType) (hp : g'.byProperty = g.byProperty) : g'.VertexIndexed where
  ascending := hv ▸ h.ascending
  type_slot t := by rw [ht, hv]; exact h.type_slot t
  property_slot p := by rw [hp, hv]; exact h.property_slot p

/-! The type and property slots after a vertex is entered in or taken out of them. -/

theorem get_byType_indexVertex (g : Graph) (v : Vertex) (t : Identifier) :
    Slots.get (g.indexVertex v).byType t =
      if v.nodeType = t then IdSet.insert v.id.index (Slots.get g.byType t)
      else Slots.get g.byType t := by
  rw [indexVertex, Slots.get_add]
  split
  · next ht => rw [ht]
  · rfl

theorem get_byProperty_indexVertex (g : Graph) (v : Vertex) (p : String × PropertyValue) :
    Slots.get (g.indexVertex v).byProperty p =
      if p ∈ v.properties.toList then IdSet.insert v.id.index (Slots.get g.byProperty p)
      else Slots.get g.byProperty p := by
  convert Slots.get_foldl_add _ _ _ v.properties.nodup_toList
  rfl

theorem get_byType_unindexVertex (g : Graph) (v : Vertex) (t : Identifier) :
    Slots.get (g.unindexVertex v).byType t =
      if v.nodeType = t then (Slots.get g.byType t).erase v.id.index
      else Slots.get g.byType t := by
  rw [unindexVertex, Slots.get_remove]
  split
  · next ht => rw [ht]
  · rfl

theorem get_byProperty_unindexVertex (g : Graph) (v : Vertex) (p : String × PropertyValue) :
    Slots.get (g.unindexVertex v).byProperty p =
      if p ∈ v.properties.toList then (Slots.get g.byProperty p).erase v.id.index
      else Slots.get g.byProperty p := by
  convert Slots.get_foldl_removeDropEmpty _ _ _ v.properties.nodup_toList
  rfl

/-! Adding a vertex. -/

theorem addVertex_vertexIndexed {g : Graph} (h : g.Consistent) (t : Identifier) :
    (g.addVertex t).2.VertexIndexed := by
  let v := Vertex.new ⟨g.nextVertex⟩ t g.clock.read.1
  have hfresh : ∀ w ∈ g.vertices, w.id.index < v.id.index := h.vertex_fresh
  have hv : (g.addVertex t).2.vertices = g.vertices ++ [v] := rfl
  constructor
  · rw [hv, List.map_append, List.pairwise_append]
    refine ⟨h.vertexIndexed.ascending, by simp, fun a ha b hb => ?_⟩
    obtain ⟨w, hw, rfl⟩ := List.mem_map.mp ha
    simp only [List.map_cons, List.map_nil, List.mem_singleton] at hb
    exact hb ▸ hfresh w hw
  · intro t'
    rw [hv, IdSet.ids_append_fresh _ hfresh, ← h.vertexIndexed.type_slot t']
    exact (get_byType_indexVertex g v t').trans (by simp)
  · intro p
    rw [hv, IdSet.ids_append_fresh _ hfresh, ← h.vertexIndexed.property_slot p]
    exact (get_byProperty_indexVertex g v p).trans (by simp)

theorem addVertex_consistent {g : Graph} (h : g.Consistent) (t : Identifier) :
    (g.addVertex t).2.Consistent where
  vertexIndexed := addVertex_vertexIndexed h t
  edgeIndexed := h.edgeIndexed.of_eq rfl rfl rfl
  vertex_fresh w hw := by
    rcases List.mem_append.mp hw with hw | hw
    · exact Nat.lt_succ_of_lt (h.vertex_fresh w hw)
    · simp only [List.mem_singleton] at hw
      subst hw
      exact Nat.lt_succ_self _
  edge_fresh := h.edge_fresh
  ends_live e he := by
    obtain ⟨⟨a, ha, hao⟩, ⟨b, hb, hbi⟩⟩ := h.ends_live e he
    exact ⟨⟨a, List.mem_append_left _ ha, hao⟩, ⟨b, List.mem_append_left _ hb, hbi⟩⟩

/-! Updating a vertex. -/

def updated (old v : Vertex) : Vertex := { v with createdAt := old.createdAt }

def replaceVertex (vs : List Vertex) (v : Vertex) : List Vertex :=
  vs.map fun w => if w.id = v.id then v else w

theorem updateVertex_eq {g g' : Graph} {v : Vertex} (hup : g.updateVertex v = .ok g') :
    ∃ old, g.vertex? v.id = some old ∧ old.nodeType = v.nodeType ∧
      g' = { (g.unindexVertex old).indexVertex (updated old v) with
        vertices := replaceVertex g.vertices (updated old v) } := by
  unfold updateVertex at hup
  split at hup
  · cases hup
  · next old hold =>
    split at hup
    · next htype =>
      cases hup
      exact ⟨old, hold, htype, rfl⟩
    · cases hup

theorem replaceVertex_ids (vs : List Vertex) (v : Vertex) :
    (replaceVertex vs v).map (·.id) = vs.map (·.id) := by
  rw [replaceVertex, List.map_map]
  refine List.map_congr_left fun w _ => ?_
  by_cases hw : w.id = v.id <;> simp [hw]

theorem updateVertex_consistent {g g' : Graph} {v : Vertex} (h : g.Consistent)
    (hup : g.updateVertex v = .ok g') : g'.Consistent := by
  obtain ⟨old, hold, _, rfl⟩ := updateVertex_eq hup
  obtain ⟨holdm, holdid⟩ := mem_of_vertex? hold
  let r : Vertex → Vertex := fun w => if w.id = (updated old v).id then updated old v else w
  have hasc := h.vertexIndexed.ascending
  have hid : (updated old v).id.index = old.id.index := by
    show v.id.index = old.id.index
    rw [holdid]
  have hrold : r old = updated old v := if_pos holdid
  have hr : ∀ b ∈ g.vertices, b.id.index ≠ old.id.index → r b = b := fun b _ hb =>
    if_neg fun hbv => hb (by rw [hbv, ← hid])
  have hidx : ((replaceVertex g.vertices (updated old v)).map (·.id.index)) =
      g.vertices.map (·.id.index) := by
    rw [replaceVertex, List.map_map]
    refine List.map_congr_left fun w _ => ?_
    by_cases hw : w.id = v.id <;> simp [updated, hw]
  have hlive : ∀ x, g.Live x → Live { (g.unindexVertex old).indexVertex (updated old v) with
      vertices := replaceVertex g.vertices (updated old v) } x := by
    rintro x ⟨w, hw, rfl⟩
    have hmem : w.id ∈ (replaceVertex g.vertices (updated old v)).map (·.id) := by
      rw [replaceVertex_ids]
      exact List.mem_map_of_mem hw
    obtain ⟨u, hu, hux⟩ := List.mem_map.mp hmem
    exact ⟨u, hu, hux⟩
  refine ⟨⟨hidx ▸ hasc, fun t => ?_, fun p => ?_⟩, h.edgeIndexed.of_eq rfl rfl rfl,
    fun w hw => ?_, h.edge_fresh, fun e he => ?_⟩
  · have key := IdSet.ids_replace (fun w : Vertex => w.nodeType == t) r hasc holdm hid hrold hr
    rw [get_byType_indexVertex, get_byType_unindexVertex, h.vertexIndexed.type_slot t, hid]
    change _ = ((g.vertices.map r).filter _).map _
    rw [← key]
    simp
  · have key := IdSet.ids_replace (fun w : Vertex => w.properties.toList.contains p) r hasc
      holdm hid hrold hr
    rw [get_byProperty_indexVertex, get_byProperty_unindexVertex,
      h.vertexIndexed.property_slot p, hid]
    change _ = ((g.vertices.map r).filter _).map _
    rw [← key]
    simp
  · have hmem : w.id.index ∈ g.vertices.map (·.id.index) := hidx ▸ List.mem_map_of_mem hw
    obtain ⟨u, hu, hui⟩ := List.mem_map.mp hmem
    exact hui ▸ h.vertex_fresh u hu
  · exact ⟨hlive _ (h.ends_live e he).1, hlive _ (h.ends_live e he).2⟩

/-! Removing edges. -/

/-- Two stores that differ at most in their edges and the edge index. -/
structure SameVertices (g g' : Graph) : Prop where
  vertices : g'.vertices = g.vertices
  byType : g'.byType = g.byType
  byProperty : g'.byProperty = g.byProperty
  nextVertex : g'.nextVertex = g.nextVertex
  nextEdge : g'.nextEdge = g.nextEdge

theorem SameVertices.refl (g : Graph) : SameVertices g g := ⟨rfl, rfl, rfl, rfl, rfl⟩

theorem SameVertices.trans {g g' g'' : Graph} (h : SameVertices g g') (h' : SameVertices g' g'') :
    SameVertices g g'' :=
  ⟨h'.vertices.trans h.vertices, h'.byType.trans h.byType, h'.byProperty.trans h.byProperty,
    h'.nextVertex.trans h.nextVertex, h'.nextEdge.trans h.nextEdge⟩

theorem removeEdge_fst (g : Graph) (i : EdgeId) : (g.removeEdge i).1 = g.edge? i := by
  unfold removeEdge
  split <;> simp_all

theorem removeEdge_sameVertices (g : Graph) (i : EdgeId) : SameVertices g (g.removeEdge i).2 := by
  unfold removeEdge
  split
  · exact SameVertices.refl g
  · exact ⟨rfl, rfl, rfl, rfl, rfl⟩

theorem removeEdge_edges (g : Graph) (i : EdgeId) :
    (g.removeEdge i).2.edges = g.edges.filter (·.id != i) := by
  unfold removeEdge
  split
  · next hnone =>
    refine (List.filter_eq_self.mpr fun e he => ?_).symm
    have := List.find?_eq_none.mp hnone e he
    simpa using this
  · rfl

theorem removeEdge_edgeIndexed {g : Graph} (h : g.EdgeIndexed) (i : EdgeId) :
    (g.removeEdge i).2.EdgeIndexed := by
  unfold removeEdge
  split
  · exact h
  · next e he =>
    obtain ⟨hem, rfl⟩ := mem_of_edge? he
    have hq : ∀ b ∈ g.edges, (b.id != e.id) = true ↔ b.id.index ≠ e.id.index := by
      intro b _
      simp [EdgeId.ext_iff]
    refine ⟨IdSet.ids_ascending _ h.ascending, fun x => ?_, fun x => ?_⟩
    · rw [Slots.get_remove, ← IdSet.ids_drop (fun b : Edge => b.outV == x) _ h.ascending hem hq,
        h.out_slot]
      by_cases hx : e.outV = x <;> simp [hx, h.out_slot]
    · rw [Slots.get_remove, ← IdSet.ids_drop (fun b : Edge => b.inV == x) _ h.ascending hem hq,
        h.in_slot]
      by_cases hx : e.inV = x <;> simp [hx, h.in_slot]

theorem removeEdges_spec {g : Graph} (h : g.EdgeIndexed) :
    ∀ {ids : List EdgeId}, ids.Nodup →
      (g.removeEdges ids).1 = ids.filterMap g.edge? ∧
      (g.removeEdges ids).2.edges = g.edges.filter (·.id ∉ ids) ∧
      (g.removeEdges ids).2.EdgeIndexed ∧ SameVertices g (g.removeEdges ids).2
  | [], _ => by simp [removeEdges, h, SameVertices.refl]
  | i :: ids, hnd => by
    obtain ⟨hi, hids⟩ := List.nodup_cons.mp hnd
    obtain ⟨hfst, hedges, hidx, hsame⟩ :=
      removeEdges_spec (g := (g.removeEdge i).2) (removeEdge_edgeIndexed h i) hids
    have hlook : ∀ j ∈ ids, (g.removeEdge i).2.edge? j = g.edge? j := by
      intro j hj
      have hji : j ≠ i := fun e => hi (e ▸ hj)
      simp only [edge?, removeEdge_edges, List.find?_filter]
      congr 1
      funext b
      by_cases hb : b.id = j <;> simp [hb, hji]
    refine ⟨?_, ?_, hidx, (removeEdge_sameVertices g i).trans hsame⟩
    · simp only [removeEdges, hfst, removeEdge_fst, List.filterMap_cons]
      rw [List.filterMap_congr hlook]
      cases g.edge? i <;> rfl
    · simp only [removeEdges, hedges, removeEdge_edges, List.filter_filter, List.mem_cons]
      congr 1
      funext b
      by_cases hb : b.id = i <;> simp [hb]

theorem removeEdge_consistent {g : Graph} (h : g.Consistent) (i : EdgeId) :
    (g.removeEdge i).2.Consistent := by
  have hsame := removeEdge_sameVertices g i
  have hsub : ∀ e ∈ (g.removeEdge i).2.edges, e ∈ g.edges := by
    intro e he
    rw [removeEdge_edges] at he
    exact (List.mem_filter.mp he).1
  refine ⟨h.vertexIndexed.of_eq hsame.vertices hsame.byType hsame.byProperty,
    removeEdge_edgeIndexed h.edgeIndexed i, fun v hv => ?_, fun e he => ?_, fun e he => ?_⟩
  · rw [hsame.nextVertex]
    exact h.vertex_fresh v (hsame.vertices ▸ hv)
  · rw [hsame.nextEdge]
    exact h.edge_fresh e (hsub e he)
  · simp only [Live, hsame.vertices]
    exact h.ends_live e (hsub e he)

/-! Removing a vertex. -/

theorem detach_vertexIndexed {g : Graph} (h : g.VertexIndexed) {old : Vertex}
    (hold : old ∈ g.vertices) :
    ({ g with vertices := g.vertices.filter (·.id != old.id) } : Graph).unindexVertex old
      |>.VertexIndexed := by
  have hq : ∀ b ∈ g.vertices, (b.id != old.id) = true ↔ b.id.index ≠ old.id.index := by
    intro b _
    simp [VertexId.ext_iff]
  refine ⟨IdSet.ids_ascending _ h.ascending, fun t => ?_, fun p => ?_⟩
  · rw [get_byType_unindexVertex, h.type_slot]
    change _ = (((g.vertices.filter (·.id != old.id)).filter (·.nodeType == t)).map _)
    rw [← IdSet.ids_drop (fun b : Vertex => b.nodeType == t) _ h.ascending hold hq]
    simp
  · rw [get_byProperty_unindexVertex, h.property_slot]
    change _ = (((g.vertices.filter (·.id != old.id)).filter
      (·.properties.toList.contains p)).map _)
    rw [← IdSet.ids_drop (fun b : Vertex => b.properties.toList.contains p) _ h.ascending hold hq]
    simp

theorem erase_edgeIndexed {g : Graph} (h : g.EdgeIndexed) {x : VertexId}
    (hx : ∀ e ∈ g.edges, e.touches x = false) :
    ({ g with outEdges := g.outEdges.erase x, inEdges := g.inEdges.erase x } : Graph)
      |>.EdgeIndexed := by
  have hnone : ∀ e ∈ g.edges, e.outV ≠ x ∧ e.inV ≠ x := by
    intro e he
    simpa [Edge.touches] using hx e he
  refine ⟨h.ascending, fun y => ?_, fun y => ?_⟩
  · rw [Slots.get_erase]
    split
    · next hxy =>
      subst hxy
      rw [List.filter_eq_nil_iff.mpr fun e he => by simpa using (hnone e he).1]
      rfl
    · exact h.out_slot y
  · rw [Slots.get_erase]
    split
    · next hxy =>
      subst hxy
      rw [List.filter_eq_nil_iff.mpr fun e he => by simpa using (hnone e he).2]
      rfl
    · exact h.in_slot y

theorem removeVertex_spec {g g' : Graph} {x : VertexId} {es : List Edge} (h : g.Consistent)
    (hrm : g.removeVertex x = .ok (es, g')) :
    es = g.edges.filter (·.touches x) ∧ g'.vertices = g.vertices.filter (·.id != x) ∧
      g'.edges = g.edges.filter (!·.touches x) ∧ g'.nextVertex = g.nextVertex ∧
      g'.Consistent := by
  unfold removeVertex at hrm
  split at hrm
  · cases hrm
  · next old hold =>
    obtain ⟨holdm, rfl⟩ := mem_of_vertex? hold
    let g1 := ({ g with vertices := g.vertices.filter (·.id != old.id) } : Graph).unindexVertex old
    have hg1 : g1.EdgeIndexed := h.edgeIndexed.of_eq rfl rfl rfl
    have hids : ((g.edges.filter (·.touches old.id)).map (·.id)).Nodup := by
      have := (IdSet.ids_ascending (·.touches old.id) h.edgeIndexed.ascending).nodup
      refine List.Nodup.of_map EdgeId.index ?_
      rw [List.map_map]
      exact this
    have hL : (g1.edgesOf old.id .both).map (·.id) = (g.edges.filter (·.touches old.id)).map (·.id) := by
      rw [edgesOf_eq hg1]
      rfl
    obtain ⟨hfst, hedges, hidx, hsame⟩ := removeEdges_spec hg1 hids
    simp only [g1, hL] at hrm hfst hedges hidx hsame
    generalize hp : Graph.removeEdges _ _ = p at hrm hfst hedges hidx hsame
    obtain ⟨rem, g2⟩ := p
    cases hrm
    have hkeep : g2.edges = g.edges.filter (!·.touches old.id) := by
      rw [hedges]
      refine List.filter_congr fun e he => ?_
      have hmem : e.id ∈ (g.edges.filter (·.touches old.id)).map (·.id) ↔ e.touches old.id := by
        constructor
        · intro hm
          obtain ⟨f, hf, hfe⟩ := List.mem_map.mp hm
          have hfe' := IdSet.eq_of_ids_eq h.edgeIndexed.ascending (List.mem_filter.mp hf).1 he
            (by rw [hfe])
          exact hfe' ▸ (List.mem_filter.mp hf).2
        · intro ht
          exact List.mem_map_of_mem (List.mem_filter.mpr ⟨he, ht⟩)
      by_cases ht : e.touches old.id <;> simp [hmem, ht]
    have hv : g2.vertices = g.vertices.filter (·.id != old.id) := hsame.vertices
    refine ⟨?_, hv, hkeep, hsame.nextVertex, ?_⟩
    · exact hfst.trans (edges_of_edgeIds hg1 _)
    · refine ⟨(detach_vertexIndexed h.vertexIndexed holdm).of_eq hsame.vertices hsame.byType
        hsame.byProperty, erase_edgeIndexed hidx fun e he => ?_, fun v hv' => ?_,
        fun e he => ?_, fun e he => ?_⟩
      · rw [hkeep] at he
        simpa using (List.mem_filter.mp he).2
      · rw [hv] at hv'
        exact hsame.nextVertex ▸ h.vertex_fresh v (List.mem_filter.mp hv').1
      · rw [hkeep] at he
        exact hsame.nextEdge ▸ h.edge_fresh e (List.mem_filter.mp he).1
      · rw [hkeep] at he
        obtain ⟨he, hnt⟩ := List.mem_filter.mp he
        have hends : e.outV ≠ old.id ∧ e.inV ≠ old.id := by simpa [Edge.touches] using hnt
        obtain ⟨⟨a, ha, hao⟩, ⟨b, hb, hbi⟩⟩ := h.ends_live e he
        refine ⟨⟨a, ?_, hao⟩, ⟨b, ?_, hbi⟩⟩
        · show a ∈ g2.vertices
          rw [hv]
          exact List.mem_filter.mpr ⟨ha, by simpa [hao] using hends.1⟩
        · show b ∈ g2.vertices
          rw [hv]
          exact List.mem_filter.mpr ⟨hb, by simpa [hbi] using hends.2⟩

/-! Adding an edge. -/

theorem addEdge_eq {g g' : Graph} {e e' : Edge} (hadd : g.addEdge e = .ok (e', g')) :
    g.Live e.outV ∧ g.Live e.inV ∧ e' = { e with id := ⟨g.nextEdge⟩ } ∧
      g' = { g with
        edges := g.edges ++ [e']
        outEdges := Slots.add g.outEdges e'.outV g.nextEdge
        inEdges := Slots.add g.inEdges e'.inV g.nextEdge
        nextEdge := g.nextEdge + 1 } := by
  unfold addEdge at hadd
  split at hadd
  · cases hadd
  · next hout =>
    split at hadd
    · cases hadd
    · next hin =>
      cases hadd
      simp only [Option.isNone_iff_eq_none, ← ne_eq, Option.ne_none_iff_isSome,
        vertex?_isSome_iff] at hout hin
      exact ⟨hout, hin, rfl, rfl⟩

theorem addEdge_consistent {g g' : Graph} {e e' : Edge} (h : g.Consistent)
    (hadd : g.addEdge e = .ok (e', g')) : g'.Consistent := by
  obtain ⟨hout, hin, rfl, rfl⟩ := addEdge_eq hadd
  have hfresh : ∀ f ∈ g.edges, f.id.index < g.nextEdge := h.edge_fresh
  have hasc := h.edgeIndexed.ascending
  refine ⟨h.vertexIndexed.of_eq rfl rfl rfl, ⟨?_, fun x => ?_, fun x => ?_⟩, h.vertex_fresh,
    fun f hf => ?_, fun f hf => ?_⟩
  · rw [List.map_append, List.pairwise_append]
    refine ⟨hasc, by simp, fun a ha b hb => ?_⟩
    obtain ⟨f, hf, rfl⟩ := List.mem_map.mp ha
    simp only [List.map_cons, List.map_nil, List.mem_singleton] at hb
    exact hb ▸ hfresh f hf
  · rw [IdSet.ids_append_fresh _ hfresh, Slots.get_add, h.edgeIndexed.out_slot]
    by_cases hx : e.outV = x
    · subst hx
      simp
    · simp [hx, h.edgeIndexed.out_slot]
  · rw [IdSet.ids_append_fresh _ hfresh, Slots.get_add, h.edgeIndexed.in_slot]
    by_cases hx : e.inV = x
    · subst hx
      simp
    · simp [hx, h.edgeIndexed.in_slot]
  · rcases List.mem_append.mp hf with hf | hf
    · exact Nat.lt_succ_of_lt (hfresh f hf)
    · simp only [List.mem_singleton] at hf
      subst hf
      exact Nat.lt_succ_self _
  · rcases List.mem_append.mp hf with hf | hf
    · exact h.ends_live f hf
    · simp only [List.mem_singleton] at hf
      subst hf
      exact ⟨hout, hin⟩

end Graph
end InventoryGraph
