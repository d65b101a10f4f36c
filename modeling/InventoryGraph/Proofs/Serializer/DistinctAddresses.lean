import InventoryGraph.Proofs.Serializer.Addresses
import InventoryGraph.Proofs.Serializer.RoundTrip

/-!
Stored addresses are distinct. A node type is addressable when it has a key, its keys are
strings outside the bookkeeping that data copy never fills, it declares nothing under the name
of the address, and its name holds no slash. Under a catalog version of addressable types, the
writes that make their own vertex keep four facts of the store (`AddressInv`): the tree edges
form a forest, every stored address is the address of its vertex, two vertices under one parent
never share a segment, and keys hold strings.

A write looks for a vertex with the object's keys where the object would go before it makes
one, and onto a child it finds it writes the keys the child has, so no two siblings come to
share a segment. An address then names one vertex, and looking an address up never finds two
(`stored_uris_are_distinct`). A type without keys gives all its roots one segment, and nothing
stops a second root.
-/

namespace InventoryGraph

namespace Edge

theorem runs_of_parentEnd? {e : Edge} {x : VertexId} (h : e.parentEnd? = some x) :
    e.runs x .both = true := by
  unfold parentEnd? at h
  split at h <;> simp_all [runs]

end Edge

namespace Graph

theorem treeParent?_addEdge {g g' : Graph} {e e' : Edge} (hc : g.Consistent)
    (hadd : g.addEdge e = .ok (e', g')) (x : VertexId) :
    g'.treeParent? x = (g.treeParent? x).or (e.treeParentOf? x) := by
  obtain ⟨hedges, -, ht, hch, hp⟩ := addEdge_edges hadd
  rw [treeParent?_eq (addEdge_consistent hc hadd).edgeIndexed, treeParent?_eq hc.edgeIndexed,
    hedges, List.findSome?_append, List.findSome?_singleton]
  unfold Edge.treeParentOf?
  rw [ht, hch, hp]

theorem treeParent?_removeEdge {g : Graph} (hc : g.EdgeIndexed) {i : EdgeId}
    (hi : ∀ e ∈ g.edges, e.id = i → e.edgeType ≠ .tree) :
    (g.removeEdge i).2.treeParent? = g.treeParent? := by
  funext x
  rw [treeParent?_eq (removeEdge_edgeIndexed hc i), treeParent?_eq hc, removeEdge_edges]
  refine findSome?_filter_of_imp fun e he hs => ?_
  have htree := (Edge.treeParentOf?_isSome.mp hs).1
  simpa using fun h => hi e he h htree

theorem mem_treeChildren_of_parentOf {g : Graph} (hc : g.EdgeIndexed) {p x : VertexId}
    (h : g.ParentOf p x) : x ∈ g.treeChildren p := by
  rw [ParentOf, treeParent?_eq hc] at h
  obtain ⟨e, he, hx⟩ := List.exists_of_findSome?_eq_some h
  unfold Edge.treeParentOf? at hx
  split at hx
  · next htc =>
    refine List.mem_filterMap.mpr ⟨e, ?_, ?_⟩
    · rw [edgesOf_eq hc]
      exact List.mem_filter.mpr ⟨he, Edge.runs_of_parentEnd? hx⟩
    · simp [htc.1, hx, htc.2]
  · cases hx

theorem addVertex_vertices (g : Graph) (t : Identifier) :
    (g.addVertex t).2.vertices = g.vertices ++ [(g.addVertex t).1] := rfl

theorem vertex?_addVertex {g : Graph} (hc : g.Consistent) (t : Identifier) (z : VertexId) :
    (g.addVertex t).2.vertex? z =
      if z = (g.addVertex t).1.id then some (g.addVertex t).1 else g.vertex? z := by
  have hnone : g.vertex? (g.addVertex t).1.id = none := by
    cases h : g.vertex? (g.addVertex t).1.id with
    | none => rfl
    | some w => exact absurd ((vertex?_isSome_iff g _).mp (by simp [h])) (addVertex_fresh hc t)
  unfold vertex? at hnone ⊢
  rw [addVertex_vertices, List.find?_append]
  by_cases hz : z = (g.addVertex t).1.id
  · subst hz
    rw [if_pos rfl, hnone]
    simp
  · rw [if_neg hz]
    cases hf : g.vertices.find? (·.id == z) with
    | some w => rfl
    | none => simp [Ne.symm hz]

theorem addVertex_uri (g : Graph) (t : Identifier) :
    (g.addVertex t).1.property? Bookkeeping.uri = none := by
  simp [addVertex, Vertex.new, Vertex.property?, PropertyMap.get?_insert, PropertyMap.get?_empty,
    Bookkeeping.uri, Bookkeeping.nodeType]

/-- A store with the vertices and tree parents of `g` that holds, besides edges of `g`, only
    cousin edges. -/
structure CousinsBeside (g g₁ : Graph) : Prop where
  consistent : g₁.Consistent
  vertices : g₁.vertices = g.vertices
  treeParent : g₁.treeParent? = g.treeParent?
  edges : ∀ f ∈ g₁.edges, f ∈ g.edges ∨ f.edgeType = .cousin

theorem CousinsBeside.refl {g : Graph} (hc : g.Consistent) : CousinsBeside g g :=
  ⟨hc, rfl, rfl, fun _ hf => .inl hf⟩

theorem CousinsBeside.removeEdge {g g₁ : Graph} {e : Edge} (hc : g.Consistent)
    (h : CousinsBeside g g₁) (he : e ∈ g.edges) (hcous : e.edgeType = .cousin) :
    CousinsBeside g (g₁.removeEdge e.id).2 := by
  have hi : ∀ f ∈ g₁.edges, f.id = e.id → f.edgeType ≠ .tree := by
    intro f hf hid
    rcases h.edges f hf with hf | hf
    · rw [IdSet.eq_of_ids_eq hc.edgeIndexed.ascending hf he (by rw [hid]), hcous]
      exact nofun
    · rw [hf]
      exact nofun
  refine ⟨removeEdge_consistent h.consistent e.id,
    (removeEdge_sameVertices g₁ e.id).vertices.trans h.vertices,
    (treeParent?_removeEdge h.consistent.edgeIndexed hi).trans h.treeParent, fun f hf => ?_⟩
  rw [removeEdge_edges] at hf
  exact h.edges f (List.mem_filter.mp hf).1

theorem CousinsBeside.addEdge {g g₁ g₂ : Graph} {e e' : Edge} (h : CousinsBeside g g₁)
    (hadd : g₁.addEdge e = .ok (e', g₂)) (hcous : e.edgeType = .cousin) : CousinsBeside g g₂ := by
  obtain ⟨hedges, -, ht', -, -⟩ := addEdge_edges hadd
  refine ⟨addEdge_consistent h.consistent hadd, (addEdge_vertices hadd).trans h.vertices, ?_,
    fun f hf => ?_⟩
  · funext z
    have hnone : e.treeParentOf? z = none := by
      simp [Edge.treeParentOf?, hcous]
    rw [treeParent?_addEdge h.consistent hadd, hnone, Option.or_none, h.treeParent]
  · rw [hedges, List.mem_append, List.mem_singleton] at hf
    rcases hf with hf | rfl
    · exact h.edges f hf
    · exact .inr (ht'.trans hcous)

/-- No two vertices store one address. -/
def UrisDistinct (g : Graph) : Prop :=
  ∀ x y vx vy p, g.vertex? x = some vx → g.vertex? y = some vy →
    vx.property? Bookkeeping.uri = some p → vy.property? Bookkeeping.uri = some p → x = y

theorem length_verticesWith_uri_le {g : Graph} (hc : g.Consistent) (hd : g.UrisDistinct)
    (u : String) : (g.verticesWith Bookkeeping.uri (.str u)).length ≤ 1 := by
  rw [verticesWith_eq hc.vertexIndexed]
  have hasc := IdSet.ids_ascending (fun v : Vertex => v.property? Bookkeeping.uri == some (.str u))
    hc.vertexIndexed.ascending
  generalize hl : g.vertices.filter _ = l at hasc
  rcases l with _ | ⟨v, _ | ⟨w, rest⟩⟩
  · simp
  · simp
  · -- two vertices found store the address, so they are one, yet their ids ascend
    exfalso
    have hv := List.mem_filter.mp (hl ▸ List.mem_cons_self : v ∈ g.vertices.filter _)
    have hw := List.mem_filter.mp
      (hl ▸ List.mem_cons_of_mem v List.mem_cons_self : w ∈ g.vertices.filter _)
    have hid := hd v.id w.id v w _ (vertex?_of_mem hc.vertexIndexed hv.1)
      (vertex?_of_mem hc.vertexIndexed hw.1) (eq_of_beq hv.2) (eq_of_beq hw.2)
    have hlt : v.id.index < w.id.index := List.rel_of_pairwise_cons hasc List.mem_cons_self
    rw [hid] at hlt
    exact Nat.lt_irrefl _ hlt

end Graph

theorem Scope.nodeType?_name {s : Scope} {n : String} {t : NodeType} (h : s.nodeType? n = some t) :
    t.name.text = n := by
  have := List.find?_some h
  simp only [Bool.and_eq_true, beq_iff_eq] at this
  exact this.2

theorem PropertyDef.validate_string {d : PropertyDef} {x : PropertyValue}
    (hd : d.dataType = .string) (h : d.validate x = .ok ()) (hx : ∀ l, x ≠ .list l) :
    ∃ a, x = .str a := by
  cases x with
  | str a => exact ⟨a, rfl⟩
  | list l => exact absurd rfl (hx l)
  | _ => cases hc : d.cardinality <;> simp_all [PropertyDef.validate, PrimitiveType.accepts]

/-- A node type whose vertices writes keep at distinct addresses: it has a key; its keys are
    declared as strings, carry no bookkeeping name and are never filled by data copy; it declares
    nothing under the name of the address; and its own name holds no slash. -/
structure NodeType.Addressable (t : NodeType) : Prop where
  keyed : t.keyProperties ≠ []
  stringKeys : ∀ k ∈ t.keyProperties, ∀ d, t.property? k.text = some d → d.dataType = .string
  keysOutsideBookkeeping : ∀ k ∈ t.keyProperties, Bookkeeping.contains k.text = false
  keysNotCopied : ∀ d ∈ t.properties, d.dataCopy ≠ none → d.name ∉ t.keyProperties
  uriUndeclared : ∀ d ∈ t.properties, d.name.text ≠ Bookkeeping.uri
  slashFree : '/' ∉ t.name.text.toList

namespace Scope

variable (s : Scope)

/-- Every node type of the scope's version is addressable. -/
def Addressable : Prop := ∀ n t, s.nodeType? n = some t → t.Addressable

/-- Every value of a key of the vertex that is not a list is a string. -/
def StringKeys (v : Vertex) : Prop :=
  ∀ t, s.nodeType? v.nodeType.text = some t → ∀ k ∈ t.keyProperties, ∀ x,
    v.property? k.text = some x → (∀ l, x ≠ .list l) → ∃ a, x = .str a

/-- What writes keep of a store for its addresses: the tree edges form a forest, every stored
    address is right, two vertices under one parent never share a segment, and keys hold
    strings. -/
structure AddressInv (g : Graph) : Prop where
  forest : g.Forest
  uris : s.UrisCorrect g
  siblings : s.SiblingsDistinct g
  stringKeys : ∀ x v, g.vertex? x = some v → s.StringKeys v

/-- The later store holds every vertex of the earlier one, under the same tree parent and with
    the same segment. -/
structure KeepsPlaces (g g' : Graph) : Prop where
  grows : g.Grows g'
  stays : ∀ z, g.Live z → s.Stays g g' z

variable {s}

theorem Addressable.slashFree (hs : s.Addressable) : s.SlashFreeTypes := fun n t ht =>
  nodeType?_name ht ▸ (hs n t ht).slashFree

theorem Addressable.uriNotKey (hs : s.Addressable) : s.UriNotKey := fun n t ht k hk hu => by
  have hb := (hs n t ht).keysOutsideBookkeeping k hk
  rw [hu] at hb
  exact absurd hb (by decide)

theorem KeepsPlaces.refl (g : Graph) : s.KeepsPlaces g g :=
  ⟨Graph.Grows.refl g, fun _ _ => ⟨rfl, rfl⟩⟩

theorem KeepsPlaces.trans {g g' g'' : Graph} (h : s.KeepsPlaces g g') (h' : s.KeepsPlaces g' g'') :
    s.KeepsPlaces g g'' := by
  refine ⟨h.grows.trans h'.grows, fun z hz => ?_⟩
  obtain ⟨hp, hseg⟩ := h.stays z hz
  obtain ⟨hp', hseg'⟩ := h'.stays z (h.grows.live hz)
  exact ⟨hp'.trans hp, hseg'.trans hseg⟩

theorem StringKeys.congr {v w : Vertex} (h : s.StringKeys v) (ht : w.nodeType = v.nodeType)
    (hk : ∀ t, s.nodeType? v.nodeType.text = some t → ∀ k ∈ t.keyProperties,
      w.property? k.text = v.property? k.text) :
    s.StringKeys w := by
  intro t hnt k hkey x hx
  rw [ht] at hnt
  rw [hk t hnt k hkey] at hx
  exact h t hnt k hkey x hx

theorem AddressInv.frame {g g' : Graph} (h : s.AddressInv g) (hf : g'.Forest)
    (hv : g'.vertices = g.vertices) (hp : g'.treeParent? = g.treeParent?) :
    s.AddressInv g' ∧ s.KeepsPlaces g g' := by
  have hvertex : g'.vertex? = g.vertex? := by
    funext x
    simp only [Graph.vertex?, hv]
  have hseg : s.segAt g' = s.segAt g := by
    funext x
    simp only [segAt, hvertex]
  have hkeep : s.KeepsPlaces g g' := ⟨Graph.Grows.of_vertices hv, fun z _ => ⟨by rw [hp], by rw [hseg]⟩⟩
  refine ⟨⟨hf, UrisCorrect.frame hkeep.stays fun x v hx => ?_, ?_, fun x v hx => ?_⟩, hkeep⟩
  · rw [hvertex] at hx
    exact h.uris x v hx
  · refine h.siblings.frame hkeep.stays fun z hz => ?_
    obtain ⟨v, hmem, hid⟩ := hz
    exact ⟨v, hv ▸ hmem, hid⟩
  · rw [hvertex] at hx
    exact h.stringKeys x v hx

theorem live_of_updateVertex {g g' : Graph} {w : Vertex} (hup : g.updateVertex w = .ok g')
    {z : VertexId} (hz : g'.Live z) : g.Live z := by
  obtain ⟨old, hold, hx⟩ := Graph.vertex?_updateVertex hup z
  rw [← Graph.vertex?_isSome_iff] at hz ⊢
  rw [hx] at hz
  split at hz
  · next hzw => rw [hzw, hold]; rfl
  · exact hz

theorem keepsPlaces_updateVertex {g g' : Graph} {w : Vertex} (hc : g.Consistent)
    (hup : g.updateVertex w = .ok g') (hseg : s.segment? w = s.segAt g w.id) :
    s.KeepsPlaces g g' :=
  ⟨Graph.updateVertex_grows hup, fun _ _ =>
    ⟨by rw [treeParent?_updateVertex hc hup], by rw [segAt_updateVertex hup hseg]⟩⟩

theorem stringKeys_updateVertex {g g' : Graph} {w : Vertex} (hup : g.updateVertex w = .ok g')
    (hsk : ∀ x v, g.vertex? x = some v → s.StringKeys v) (hkeys : s.StringKeys w) :
    ∀ x v, g'.vertex? x = some v → s.StringKeys v := by
  intro x v hx
  obtain ⟨old, -, hx'⟩ := Graph.vertex?_updateVertex hup x
  rw [hx'] at hx
  split at hx
  · cases hx
    exact hkeys
  · exact hsk x v hx

theorem AddressInv.updateVertex {g g' : Graph} {w : Vertex} (h : s.AddressInv g)
    (hup : g.updateVertex w = .ok g') (hseg : s.segment? w = s.segAt g w.id)
    (hkeys : s.StringKeys w)
    (huri : ∀ p, w.property? Bookkeeping.uri = some p → ∃ u, p = .str u ∧ s.Address g w.id u) :
    s.AddressInv g' ∧ s.KeepsPlaces g g' := by
  have hc := h.forest.consistent
  have hkeep := keepsPlaces_updateVertex hc hup hseg
  exact ⟨⟨h.forest.updateVertex hup, h.uris.updateVertex hc hup hseg huri,
    h.siblings.frame hkeep.stays fun z hz => live_of_updateVertex hup hz,
    stringKeys_updateVertex hup h.stringKeys hkeys⟩, hkeep⟩

theorem AddressInv.refreshUri (hk : s.UriNotKey) {g g' : Graph} {x : VertexId}
    {r : Option String} (h : s.AddressInv g) (hr : (s.refreshUri x).run g = .ok (r, g')) :
    s.AddressInv g' ∧ s.KeepsPlaces g g' := by
  -- each visit stores a state that differs from the stored one at most in its address
  have hstep : ∀ {g₁ g₂ : Graph} {v w : Vertex},
      (g₁.Consistent ∧ s.SiblingsDistinct g₁ ∧ (∀ x v, g₁.vertex? x = some v → s.StringKeys v) ∧
        s.KeepsPlaces g g₁) →
      g₁.updateVertex w = .ok g₂ → g₁.vertex? w.id = some v → w.nodeType = v.nodeType →
      (∀ k, k ≠ Bookkeeping.uri → w.property? k = v.property? k) →
      g₂.Consistent ∧ s.SiblingsDistinct g₂ ∧ (∀ x v, g₂.vertex? x = some v → s.StringKeys v) ∧
        s.KeepsPlaces g g₂ := by
    intro g₁ g₂ v w hP hup hv hty hprop
    obtain ⟨hc, hd, hsk, hkeep⟩ := hP
    have hseg : s.segment? w = s.segAt g₁ w.id := by
      rw [segAt_of_vertex? hv]
      exact segment?_eq_of_agree hk hty hprop
    have hkeep₁ := keepsPlaces_updateVertex hc hup hseg
    have hkeys : s.StringKeys w :=
      (hsk _ v hv).congr hty fun t hnt k hkey => hprop k.text (hk _ t hnt k hkey)
    exact ⟨Graph.updateVertex_consistent hc hup,
      hd.frame hkeep₁.stays fun z hz => live_of_updateVertex hup hz,
      stringKeys_updateVertex hup hsk hkeys, hkeep.trans hkeep₁⟩
  obtain ⟨-, hd, hsk, hkeep⟩ := refreshUri_preserves _ hstep
    ⟨h.forest.consistent, h.siblings, h.stringKeys, KeepsPlaces.refl g⟩ hr
  exact ⟨⟨Serializer.refreshUri_forest h.forest hr,
    h.uris.refreshUri hk h.forest.consistent hr, hd, hsk⟩, hkeep⟩

theorem AddressInv.refreshed (hk : s.UriNotKey) {g g' : Graph} {x : VertexId} (h : s.AddressInv g)
    (hr : g = g' ∨ ∃ u, (s.refreshUri x).run g = .ok (u, g')) :
    s.AddressInv g' ∧ s.KeepsPlaces g g' := by
  rcases hr with rfl | ⟨u, hr⟩
  · exact ⟨h, KeepsPlaces.refl g⟩
  · exact h.refreshUri hk hr

theorem AddressInv.insert {g g' : Graph} {x : VertexId} {w : Vertex} (h : s.AddressInv g)
    (hf : g'.Forest) (hx : ¬ g.Live x) (hgrow : g.Grows g') (hw : g'.vertex? x = some w)
    (hother : ∀ z, z ≠ x → g'.vertex? z = g.vertex? z ∧ g'.treeParent? z = g.treeParent? z)
    (hkeys : s.StringKeys w) (huri : w.property? Bookkeeping.uri = none)
    (hsib : ∀ y seg, y ≠ x → g'.treeParent? y = g'.treeParent? x → s.segAt g' y = some seg →
      s.segAt g' x ≠ some seg) :
    s.AddressInv g' ∧ s.KeepsPlaces g g' := by
  have hrec : ∀ z v, g'.vertex? z = some v → (z = x ∧ v = w) ∨ g.vertex? z = some v := by
    intro z v hz
    by_cases hzx : z = x
    · subst hzx
      exact .inl ⟨rfl, Option.some.inj (hz.symm.trans hw)⟩
    · exact .inr ((hother z hzx).1 ▸ hz)
  have hkeep : s.KeepsPlaces g g' := by
    refine ⟨hgrow, fun z hz => ?_⟩
    obtain ⟨hv, hp⟩ := hother z fun e => hx (e ▸ hz)
    exact ⟨hp, by simp only [segAt, hv]⟩
  have hlive : ∀ z, g'.Live z → g.Live z ∨ z = x := by
    intro z hz
    obtain ⟨v, hv⟩ := Option.isSome_iff_exists.mp ((Graph.vertex?_isSome_iff g' z).mpr hz)
    rcases hrec z v hv with ⟨rfl, -⟩ | hv
    · exact .inr rfl
    · exact .inl ((Graph.vertex?_isSome_iff g z).mp (by simp [hv]))
  refine ⟨⟨hf, UrisCorrect.frame hkeep.stays fun z v hz p hp => ?_,
    h.siblings.extend hkeep.stays hlive hsib, fun z v hz => ?_⟩, hkeep⟩
  · rcases hrec z v hz with ⟨-, rfl⟩ | hz
    · rw [huri] at hp
      cases hp
    · exact h.uris z v hz p hp
  · rcases hrec z v hz with ⟨-, rfl⟩ | hz
    · exact hkeys
    · exact h.stringKeys z v hz

theorem AddressInv.restore {g₂ g₅ g' : Graph} {v₁ w : Vertex} (h₂ : s.AddressInv g₂)
    (h₅ : s.AddressInv g₅) (hk : s.KeepsPlaces g₂ g₅) (hv₁ : g₂.vertex? v₁.id = some v₁)
    (hid : w.id = v₁.id) (hty : w.nodeType = v₁.nodeType)
    (hkeys : ∀ t, s.nodeType? v₁.nodeType.text = some t → ∀ k ∈ t.keyProperties,
      w.property? k.text = v₁.property? k.text)
    (huri : w.property? Bookkeeping.uri = v₁.property? Bookkeeping.uri)
    (hup : g₅.updateVertex w = .ok g') : s.AddressInv g' ∧ s.KeepsPlaces g₅ g' := by
  have hlive : g₂.Live v₁.id := ⟨v₁, (Graph.mem_of_vertex? hv₁).1, rfl⟩
  have hseg : s.segment? w = s.segAt g₅ w.id := by
    rw [hid, (hk.stays v₁.id hlive).2, segAt_of_vertex? hv₁]
    exact segment?_congr hty hkeys
  refine h₅.updateVertex hup hseg ((h₂.stringKeys _ _ hv₁).congr hty hkeys) fun p hp => ?_
  rw [huri] at hp
  obtain ⟨u, rfl, hu⟩ := h₂.uris _ _ hv₁ p hp
  exact ⟨u, rfl, hid ▸ hu.frame hk.stays⟩

theorem startingAt_addressInv (c : Clock) : s.AddressInv (Graph.startingAt c) := by
  have hnone : ∀ x, (Graph.startingAt c).vertex? x = none := fun x => rfl
  refine ⟨Graph.startingAt_forest c, fun x v hv => ?_, fun a b seg _ ha => ?_, fun x v hv => ?_⟩
  · rw [hnone] at hv
    cases hv
  · rw [segAt, hnone] at ha
    cases ha
  · rw [hnone] at hv
    cases hv

theorem AddressInv.urisDistinct (hn : s.SlashFreeTypes) {g : Graph} (h : s.AddressInv g) :
    g.UrisDistinct := by
  intro x y vx vy p hx hy hpx hpy
  obtain ⟨u, rfl, hu⟩ := h.uris x vx hx p hpx
  obtain ⟨u', hu', hu'addr⟩ := h.uris y vy hy _ hpy
  cases hu'
  exact Address.unique hn h.siblings hu hu'addr

theorem findByUri_ok {g : Graph} (hc : g.Consistent) (hd : g.UrisDistinct) (u : String) :
    ∃ r, findByUri g u = .ok r := by
  unfold findByUri
  dsimp only
  split
  · exact ⟨_, rfl⟩
  · have hle := Graph.length_verticesWith_uri_le hc hd (normalizeUri u)
    generalize g.verticesWith Bookkeeping.uri (.str (normalizeUri u)) = l at hle
    rcases l with _ | ⟨v, _ | ⟨w, rest⟩⟩
    · exact ⟨_, rfl⟩
    · exact ⟨_, rfl⟩
    · simp at hle

end Scope

namespace Serializer

theorem sameKeys_iff {t : NodeType} {v : Vertex} {o : SchemaObject} :
    sameKeys t v o = true ↔ ∀ k ∈ t.keyProperties, v.property? k.text = o.properties.get? k.text := by
  simp [sameKeys]

theorem findExisting_ne_none {s : Serializer} {g : Graph} {parent : Option Vertex}
    {o : SchemaObject} {t : NodeType} {y : VertexId} {yv : Vertex} (hc : g.Consistent)
    (ht : s.nodeType o.nodeType = .ok t) (hkeyed : t.keyProperties ≠ [])
    (hpresent : ∀ k ∈ t.keyProperties, (o.properties.get? k.text).isSome)
    (hy : g.vertex? y = some yv) (hyt : yv.nodeType = o.nodeType)
    (hyk : ∀ k ∈ t.keyProperties, yv.property? k.text = o.properties.get? k.text)
    (hyp : g.treeParent? y = parent.map (·.id)) : s.findExisting g parent o ≠ .ok none := by
  have hsame : sameKeys t yv o = true := sameKeys_iff.mpr hyk
  obtain ⟨hymem, rfl⟩ := Graph.mem_of_vertex? hy
  intro h
  unfold findExisting at h
  cases parent with
  | some p =>
    unfold findChild at h
    rw [Except.bind_eq_ok] at h
    obtain ⟨t', ht', h⟩ := h
    rw [ht] at ht'
    cases ht'
    have hnone := List.findSome?_eq_none_iff.mp (Except.ok.inj h) yv.id
      (Graph.mem_treeChildren_of_parentOf hc.edgeIndexed hyp)
    simp [hy, Option.filter, hyt, hsame] at hnone
  | none =>
    dsimp only at h
    rw [Except.bind_eq_ok] at h
    obtain ⟨t', ht', h⟩ := h
    rw [ht] at ht'
    cases ht'
    obtain ⟨k, ks, hks⟩ := List.exists_cons_of_ne_nil hkeyed
    have hk : k ∈ t.keyProperties := hks ▸ List.mem_cons_self
    obtain ⟨x, hx⟩ := Option.isSome_iff_exists.mp (hpresent k hk)
    rw [hks, List.head?_cons] at h
    dsimp only at h
    rw [hx] at h
    have hnone := List.find?_eq_none.mp (Except.ok.inj h) yv
    rw [Graph.verticesWith_eq hc.vertexIndexed] at hnone
    have hroot : g.treeParent? yv.id = none := hyp
    simp [hymem, hyk k hk, hx, hyt, hsame, hroot] at hnone

theorem nodeType_eq_ok {s : Serializer} {n : Identifier} {t : NodeType} :
    s.nodeType n = .ok t ↔ s.scope.nodeType? n.text = some t := by
  unfold Serializer.nodeType
  split <;> simp_all

theorem findChild_eq_some {s : Serializer} {g : Graph} {p e : Vertex} {o : SchemaObject}
    {t : NodeType} (ht : s.nodeType o.nodeType = .ok t) (h : s.findChild g p o = .ok (some e)) :
    g.vertex? e.id = some e ∧ e.nodeType = o.nodeType ∧
      ∀ k ∈ t.keyProperties, e.property? k.text = o.properties.get? k.text := by
  unfold findChild at h
  rw [Except.bind_eq_ok] at h
  obtain ⟨t', ht', h⟩ := h
  rw [ht] at ht'
  cases ht'
  obtain ⟨x, -, hfx⟩ := List.exists_of_findSome?_eq_some (Except.ok.inj h)
  obtain ⟨hv, hp⟩ := Option.filter_eq_some_iff.mp hfx
  simp only [Bool.and_eq_true, beq_iff_eq] at hp
  obtain ⟨-, rfl⟩ := Graph.mem_of_vertex? hv
  exact ⟨hv, hp.1, sameKeys_iff.mp hp.2⟩

section Stored

variable {s : Serializer} {o : SchemaObject} {t : NodeType}

theorem applyProperties_key (hval : s.validateObject o = .ok t) (v : Vertex) {k : Identifier}
    (hk : k ∈ t.keyProperties) :
    (applyProperties t v o.properties).property? k.text = o.properties.get? k.text := by
  rw [applyProperties_property?,
    if_pos ((validateObject_declares hval).2 k.text ((validateObject_inv hval).2.2 k hk))]

theorem applyProperties_uri (ht : t.Addressable) (v : Vertex) (props : PropertyMap) :
    (applyProperties t v props).property? Bookkeeping.uri = v.property? Bookkeeping.uri := by
  rw [applyProperties_property?, if_neg]
  intro hdecl
  obtain ⟨d, hd, hname⟩ := (NodeType.declares_iff t _).mp hdecl
  exact ht.uriUndeclared d hd hname

theorem key_value_string (hval : s.validateObject o = .ok t) (ht : t.Addressable)
    {k : Identifier} (hk : k ∈ t.keyProperties) {x : PropertyValue}
    (hx : o.properties.get? k.text = some x) (hl : ∀ l, x ≠ .list l) : ∃ a, x = .str a := by
  obtain ⟨d, hd, hv⟩ := (validateObject_inv hval).2.1 k.text x hx
  exact PropertyDef.validate_string (ht.stringKeys k hk d hd) hv hl

theorem stringKeys_applyProperties (hval : s.validateObject o = .ok t) (ht : t.Addressable)
    {v : Vertex} (htype : s.scope.nodeType? v.nodeType.text = some t) :
    s.scope.StringKeys (applyProperties t v o.properties) := by
  intro t' ht' k hk x hx hl
  rw [applyProperties_nodeType, htype] at ht'
  cases ht'
  rw [applyProperties_key hval v hk] at hx
  exact key_value_string hval ht hk hx hl

theorem store_found_addresses (hs : s.scope.Addressable) {g g' : Graph} {p e v' : Vertex}
    (h : s.scope.AddressInv g) (hval : s.validateObject o = .ok t)
    (hfind : s.findChild g p o = .ok (some e))
    (hstore : (s.store t (some p) o e false).run g = .ok (v', g')) :
    s.scope.AddressInv g' ∧ s.scope.KeepsPlaces g g' ∧ g'.vertex? e.id = some v' := by
  have ht := (validateObject_inv hval).1
  obtain ⟨he, hety, hekeys⟩ := findChild_eq_some ht hfind
  have htype : s.scope.nodeType? e.nodeType.text = some t := hety ▸ nodeType_eq_ok.mp ht
  have hta := hs _ t htype
  obtain ⟨g₁, hup, added, g₂, hplace, hrefresh, -, hv'⟩ := store_run_inv hstore
  have hseg : s.scope.segment? (applyProperties t e o.properties) =
      s.scope.segAt g (applyProperties t e o.properties).id := by
    rw [applyProperties_id, Scope.segAt_of_vertex? he]
    refine Scope.segment?_congr (applyProperties_nodeType _ _ _) fun t' ht' k hk => ?_
    rw [htype] at ht'
    cases ht'
    exact (applyProperties_key hval e hk).trans (hekeys k hk).symm
  have huri : ∀ q, (applyProperties t e o.properties).property? Bookkeeping.uri = some q →
      ∃ u, q = .str u ∧ s.scope.Address g (applyProperties t e o.properties).id u := by
    intro q hq
    rw [applyProperties_uri hta] at hq
    rw [applyProperties_id]
    exact h.uris e.id e he q hq
  obtain ⟨h₁, hk₁⟩ := h.updateVertex hup hseg (stringKeys_applyProperties hval hta htype) huri
  have hparent : g₁.treeParent? e.id = some p.id := by
    rw [(hk₁.stays e.id ⟨e, (Graph.mem_of_vertex? he).1, rfl⟩).1]
    exact findChild_parentOf h.forest hfind
  rcases ensureTreeEdge_run_inv hplace with ⟨-, -, rfl⟩ | ⟨hroot, -⟩
  · obtain ⟨h₂, hk₂⟩ := h₁.refreshed hs.uriNotKey hrefresh
    exact ⟨h₂, hk₁.trans hk₂, hv'⟩
  · rw [hparent] at hroot
    cases hroot

theorem place_new_vertex {parent : Option Vertex} {nt : Identifier} {v w : Vertex}
    {g g₁ g₂ g₃ : Graph} {added : Bool} (hf : g.Forest) (hlive : ∀ p ∈ parent, g.Live p.id)
    (hadd : g.addVertex nt = (v, g₁)) (hup : g₁.updateVertex w = .ok g₂) (hwid : w.id = v.id)
    (hplace : (parent.elim (pure false) fun p => s.ensureTreeEdge p v.id).run g₂ = .ok (added, g₃)) :
    g₃.Forest ∧ g.Grows g₃ ∧ ¬ g.Live v.id ∧ g₃.vertex? v.id = some (Graph.updated v w) ∧
      (∀ z, z ≠ v.id → g₃.vertex? z = g.vertex? z ∧ g₃.treeParent? z = g.treeParent? z) ∧
      g₃.treeParent? v.id = parent.map (·.id) := by
  have hv : (g.addVertex nt).1 = v := congrArg Prod.fst hadd
  have hg₁ : (g.addVertex nt).2 = g₁ := congrArg Prod.snd hadd
  subst hv hg₁
  have hc := hf.consistent
  have hc₁ := Graph.addVertex_consistent hc nt
  have hfresh := Graph.addVertex_fresh hc nt
  have hf₂ := (hf.addVertex nt).updateVertex hup
  have hrec₂ : ∀ z, g₂.vertex? z =
      if z = (g.addVertex nt).1.id then some (Graph.updated (g.addVertex nt).1 w) else g.vertex? z := by
    intro z
    obtain ⟨old, hold, hz⟩ := Graph.vertex?_updateVertex hup z
    rw [hwid, Graph.vertex?_addVertex hc, if_pos rfl] at hold
    cases hold
    rw [hz, hwid]
    split
    · rfl
    · next hzv => rw [Graph.vertex?_addVertex hc, if_neg hzv]
  have htp₂ : g₂.treeParent? = g.treeParent? :=
    (Scope.treeParent?_updateVertex hc₁ hup).trans
      (Graph.treeParent?_congr hc.edgeIndexed hc₁.edgeIndexed rfl)
  have hroot : g.treeParent? (g.addVertex nt).1.id = none := by
    cases hq : g.treeParent? (g.addVertex nt).1.id with
    | none => rfl
    | some q => exact absurd (hf.live_of_parentOf hq).2 hfresh
  have hgrow₂ : g.Grows g₂ := (Graph.addVertex_grows g nt).trans (Graph.updateVertex_grows hup)
  cases parent with
  | none =>
    obtain ⟨-, rfl⟩ := GraphM.run_pure_eq_ok.mp hplace
    refine ⟨hf₂, hgrow₂, hfresh, by rw [hrec₂, if_pos rfl], fun z hz => ?_, ?_⟩
    · exact ⟨by rw [hrec₂, if_neg hz], by rw [htp₂]⟩
    · rw [htp₂, hroot]
      rfl
  | some p =>
    rcases ensureTreeEdge_run_inv hplace with ⟨hsome, -, -⟩ | ⟨-, -, c, e, hcv, hedge⟩
    · rw [htp₂, hroot] at hsome
      cases hsome
    · obtain ⟨e₀, ht, hpe, hce, hadd'⟩ := Scope.addTreeEdge_adds hedge
      have hcid : c.id = (g.addVertex nt).1.id := (Graph.mem_of_vertex? hcv).2
      have hnot : ¬ Relation.ReflTransGen g₂.ParentOf (g.addVertex nt).1.id p.id := by
        rw [Graph.parentOf_congr hc.edgeIndexed hf₂.consistent.edgeIndexed
          ((Graph.updateVertex_edges hup).trans rfl)]
        exact hf.not_above_of_not_live hfresh fun e => hfresh (e ▸ hlive p rfl)
      have hvert : g₃.vertices = g₂.vertices := Graph.addEdge_vertices hadd'
      have hrec₃ : g₃.vertex? = g₂.vertex? := by
        funext z
        simp only [Graph.vertex?, hvert]
      have he₀ : ∀ z, e₀.treeParentOf? z = if z = (g.addVertex nt).1.id then some p.id else none := by
        intro z
        unfold Edge.treeParentOf?
        by_cases hz : z = (g.addVertex nt).1.id
        · simp [ht, hce, hcid, hpe, hz]
        · simp [hce, hcid, Ne.symm hz, hz]
      have htp₃ := Graph.treeParent?_addEdge hf₂.consistent hadd'
      refine ⟨ensureTreeEdge_forest hf₂ hnot hplace, hgrow₂.trans (Graph.Grows.of_vertices hvert),
        hfresh, by rw [hrec₃, hrec₂, if_pos rfl], fun z hz => ?_, ?_⟩
      · refine ⟨by rw [hrec₃, hrec₂, if_neg hz], ?_⟩
        rw [htp₃, he₀, if_neg hz, htp₂]
        exact Option.or_none
      · rw [htp₃, he₀, if_pos rfl, htp₂, hroot]
        rfl

theorem segment_unshared (hs : s.scope.Addressable) {g : Graph} {parent : Option Vertex}
    {w yv : Vertex} {y : VertexId} {seg : String} (h : s.scope.AddressInv g)
    (hval : s.validateObject o = .ok t) (hfind : s.findExisting g parent o = .ok none)
    (hwt : w.nodeType = o.nodeType)
    (hwk : ∀ k ∈ t.keyProperties, w.property? k.text = o.properties.get? k.text)
    (hy : g.vertex? y = some yv) (hyp : g.treeParent? y = parent.map (·.id))
    (hsy : s.scope.segment? yv = some seg) (hsw : s.scope.segment? w = some seg) : False := by
  have ht := (validateObject_inv hval).1
  have htype : s.scope.nodeType? o.nodeType.text = some t := nodeType_eq_ok.mp ht
  have hta := hs _ t htype
  obtain ⟨hty, t', ht', hkeys⟩ := Scope.segment?_inj hs.slashFree hsy hsw
  have hyt : yv.nodeType = o.nodeType := hty.trans hwt
  rw [hyt, htype] at ht'
  cases ht'
  -- one display text means one value, since both are strings
  have hyk : ∀ k ∈ t.keyProperties, yv.property? k.text = o.properties.get? k.text := by
    intro k hk
    obtain ⟨a, b, ha, hb, hal, hbl, hab⟩ := hkeys k hk
    rw [hwk k hk] at hb
    obtain ⟨a', rfl⟩ := h.stringKeys y yv hy t (hyt ▸ htype) k hk a ha hal
    obtain ⟨b', rfl⟩ := key_value_string hval hta hk hb hbl
    have hab' : a' = b' := hab
    rw [ha, hb, hab']
  exact findExisting_ne_none h.forest.consistent ht hta.keyed (validateObject_inv hval).2.2 hy hyt
    hyk hyp hfind

theorem store_new_addresses (hs : s.scope.Addressable) {parent : Option Vertex} {g g₁ g' : Graph}
    {v v' : Vertex} (h : s.scope.AddressInv g) (hlive : ∀ p ∈ parent, g.Live p.id)
    (hval : s.validateObject o = .ok t) (hfind : s.findExisting g parent o = .ok none)
    (hadd : g.addVertex o.nodeType = (v, g₁))
    (hstore : (s.store t parent o v true).run g₁ = .ok (v', g')) :
    s.scope.AddressInv g' ∧ s.scope.KeepsPlaces g g' ∧ g'.vertex? v.id = some v' := by
  have htype : s.scope.nodeType? o.nodeType.text = some t :=
    nodeType_eq_ok.mp (validateObject_inv hval).1
  have hta := hs _ t htype
  have hv : (g.addVertex o.nodeType).1 = v := congrArg Prod.fst hadd
  have hvt : v.nodeType = o.nodeType := hv ▸ rfl
  have hvuri : v.property? Bookkeeping.uri = none := hv ▸ Graph.addVertex_uri g o.nodeType
  obtain ⟨g₂, hup, added, g₃, hplace, hrefresh, -, hv'⟩ := store_run_inv hstore
  obtain ⟨hf₃, hgrow, hfresh, hw, hother, hroot⟩ :=
    place_new_vertex h.forest hlive hadd hup (applyProperties_id _ _ _) hplace
  have hwk : ∀ k ∈ t.keyProperties, (Graph.updated v (applyProperties t v o.properties)).property? k.text =
      o.properties.get? k.text := fun k hk => applyProperties_key hval v hk
  -- a sibling with the new vertex's segment was there before, under the same parent
  have hsib : ∀ y seg, y ≠ v.id → g₃.treeParent? y = g₃.treeParent? v.id →
      s.scope.segAt g₃ y = some seg → s.scope.segAt g₃ v.id ≠ some seg := by
    intro y seg hyx hpy hsy hsx
    obtain ⟨hyv, hyp⟩ := hother y hyx
    obtain ⟨yv, hy, hsegy⟩ := Option.bind_eq_some_iff.mp hsy
    rw [hyv] at hy
    rw [Scope.segAt_of_vertex? hw] at hsx
    exact segment_unshared hs h hval hfind ((applyProperties_nodeType _ _ _).trans hvt) hwk hy
      (hyp ▸ hpy.trans hroot) hsegy hsx
  obtain ⟨h₃, hk₃⟩ := h.insert hf₃ hfresh hgrow hw hother
    (stringKeys_applyProperties hval hta (hvt ▸ htype)) ((applyProperties_uri hta v _).trans hvuri)
    hsib
  obtain ⟨h₄, hk₄⟩ := h₃.refreshed hs.uriNotKey hrefresh
  exact ⟨h₄, hk₃.trans hk₄, hv'⟩

end Stored

/-- What a write may be handed to write onto: nothing, or the child that the parent holds with the
    object's keys. -/
def Creates (s : Serializer) (g : Graph) (parent : Option Vertex) (o : SchemaObject)
    (existing : Option Vertex) : Prop :=
  existing = none ∨ ∃ p e, parent = some p ∧ s.findChild g p o = .ok (some e) ∧ existing = some e

theorem target_store_addresses {s : Serializer} (hs : s.scope.Addressable)
    {parent existing : Option Vertex} {o : SchemaObject} {t : NodeType} {v v' : Vertex}
    {isNew : Bool} {g g₁ g' : Graph} (h : s.scope.AddressInv g) (hlive : ∀ p ∈ parent, g.Live p.id)
    (hcreates : s.Creates g parent o existing) (hval : s.validateObject o = .ok t)
    (htarget : (s.target parent o existing).run g = .ok ((v, isNew), g₁))
    (hstore : (s.store t parent o v isNew).run g₁ = .ok (v', g')) :
    s.scope.AddressInv g' ∧ s.scope.KeepsPlaces g g' ∧ g'.vertex? v'.id = some v' ∧
      v'.nodeType = o.nodeType := by
  obtain ⟨-, hnt, -⟩ := store_holds hstore
  rcases target_run_inv htarget with ⟨e, rfl, -, hv, rfl, rfl⟩ | ⟨rfl, hfind, hadd, rfl⟩
  · rcases hcreates with hnone | ⟨p, e', rfl, hfind, he'⟩
    · cases hnone
    · cases he'
      obtain ⟨he, hety, -⟩ := findChild_eq_some (validateObject_inv hval).1 hfind
      rw [he] at hv
      cases hv
      obtain ⟨h', hk, hv'⟩ := store_found_addresses hs h hval hfind hstore
      exact ⟨h', hk, (Graph.mem_of_vertex? hv').2 ▸ hv', hnt.trans hety⟩
  · obtain ⟨h', hk, hv'⟩ := store_new_addresses hs h hlive hval hfind hadd hstore
    have hv : (g.addVertex o.nodeType).1 = v := congrArg Prod.fst hadd
    have hvt : v.nodeType = o.nodeType := hv ▸ rfl
    exact ⟨h', hk, (Graph.mem_of_vertex? hv').2 ▸ hv', hnt.trans hvt⟩

theorem reconcileListed_cousinsBeside {s : Serializer} {v : Vertex}
    {rels : Option (List RelationshipRef)} {g g' : Graph} (hc : g.Consistent)
    (hr : (rels.elim (pure ()) (s.reconcile v)).run g = .ok ((), g')) : Graph.CousinsBeside g g' :=
  reconcileListed_preserves (Graph.CousinsBeside g)
    (fun g₁ e he hcous hP => by
      rw [Graph.edgesOf_eq hc.edgeIndexed] at he
      exact hP.removeEdge hc (List.mem_filter.mp he).1 hcous)
    (fun hcous hP hadd => by
      obtain ⟨e₀, ht, -, hadd'⟩ := Scope.addEdgeForRule_adds hadd
      exact hP.addEdge hadd' (ht.trans hcous))
    (Graph.CousinsBeside.refl hc) hr

theorem reconcileListed_addresses {s : Serializer} {v : Vertex}
    {rels : Option (List RelationshipRef)} {g g' : Graph} (h : s.scope.AddressInv g)
    (hr : (rels.elim (pure ()) (s.reconcile v)).run g = .ok ((), g')) :
    s.scope.AddressInv g' ∧ s.scope.KeepsPlaces g g' := by
  obtain ⟨-, hv, hp, -⟩ := reconcileListed_cousinsBeside h.forest.consistent hr
  exact h.frame (reconcileListed_forest h.forest hr) hv hp

/-! ### Runs of writes -/

theorem touch_addresses {s : Serializer} {v w : Vertex} {isNew : Bool} {g g' : Graph}
    (h : s.scope.AddressInv g) (ht : (s.touch v isNew).run g = .ok (w, g')) :
    s.scope.AddressInv g' ∧ s.scope.KeepsPlaces g g' := by
  obtain ⟨c, rfl, -⟩ := touch_run_inv ht
  exact h.frame (h.forest.withClock c) rfl rfl

theorem write_addresses {s : Serializer} (hs : s.scope.Addressable) :
    ∀ parent o existing {g g' : Graph} {w : Vertex}, s.scope.AddressInv g →
      (∀ p ∈ parent, g.Live p.id) → s.Creates g parent o existing →
      (s.write parent o existing).run g = .ok (w, g') →
      s.scope.AddressInv g' ∧ s.scope.KeepsPlaces g g' := by
  refine write.induct (fun parent o existing => ∀ {g g' : Graph} {w : Vertex},
      s.scope.AddressInv g → (∀ p ∈ parent, g.Live p.id) → s.Creates g parent o existing →
      (s.write parent o existing).run g = .ok (w, g') →
      s.scope.AddressInv g' ∧ s.scope.KeepsPlaces g g')
    (fun v cs => ∀ {g g' : Graph}, s.scope.AddressInv g → g.Live v.id →
      (s.writeChildren v cs).run g = .ok ((), g') →
      s.scope.AddressInv g' ∧ s.scope.KeepsPlaces g g')
    ?_ ?_ ?_
  · intro parent existing nt props rv rels children ih g g' w h hlive hcreates hw
    obtain ⟨t, hval, v, isNew, g₁, htarget, v₁, g₂, hstore, working, v₂, hside, g₃, hrel, g₄, hch,
      g₅, htouch, hup⟩ := write_run_inv hw
    obtain ⟨h₂, hk₂, hv₁, hnt⟩ := target_store_addresses hs h hlive hcreates hval htarget hstore
    obtain ⟨h₃, hk₃⟩ := reconcileListed_addresses h₂ hrel
    obtain ⟨hid₂, hty₂, -⟩ := runSideEffects_keeps hside
    have hlive₃ : g₃.Live v₂.id := hk₃.grows.live ⟨v₁, (Graph.mem_of_vertex? hv₁).1, hid₂.symm⟩
    obtain ⟨h₄, hk₄⟩ := ih v₂ h₃ hlive₃ hch
    obtain ⟨h₅, hk₅⟩ := touch_addresses h₄ htouch
    obtain ⟨-, -, -, hidw, htyw, -, hpropw, -⟩ := touch_run_inv htouch
    have htype : s.scope.nodeType? v₁.nodeType.text = some t :=
      hnt ▸ nodeType_eq_ok.mp (validateObject_inv hval).1
    have hta := hs _ t htype
    have hkeys : ∀ t', s.scope.nodeType? v₁.nodeType.text = some t' → ∀ k ∈ t'.keyProperties,
        w.property? k.text = v₁.property? k.text := by
      intro t' ht' k hk
      rw [htype] at ht'
      cases ht'
      rw [hpropw k.text (.inr (.inr (hta.keysOutsideBookkeeping k hk)))]
      exact runSideEffects_property? hside fun d hd hcopy hname =>
        hta.keysNotCopied d hd hcopy (Identifier.eq_of_text_eq hname ▸ hk)
    have huri : w.property? Bookkeeping.uri = v₁.property? Bookkeeping.uri := by
      rw [hpropw _ (.inr (.inl rfl))]
      exact runSideEffects_property? hside fun d hd _ => hta.uriUndeclared d hd
    obtain ⟨h', hk'⟩ := h₂.restore h₅ (hk₃.trans (hk₄.trans hk₅)) hv₁ (hidw.trans hid₂)
      (htyw.trans hty₂) hkeys huri hup
    exact ⟨h', hk₂.trans (hk₃.trans (hk₄.trans (hk₅.trans hk')))⟩
  · intro p g g' h _ hw
    rw [writeChildren_nil_run] at hw
    cases hw
    exact ⟨h, Scope.KeepsPlaces.refl g⟩
  · intro p c cs ihc ihs g g' h hp hw
    obtain ⟨found, hfind, w, g₁, hw₁, hrest⟩ := writeChildren_cons_run_inv hw
    have hcreates : s.Creates g (some p) c found := by
      cases found with
      | none => exact .inl rfl
      | some e => exact .inr ⟨p, e, rfl, hfind, rfl⟩
    obtain ⟨h₁, hk₁⟩ := ihc found h (fun q hq => Option.mem_some_iff.mp hq ▸ hp) hcreates hw₁
    obtain ⟨h₂, hk₂⟩ := ihs h₁ (hk₁.grows.live hp) hrest
    exact ⟨h₂, hk₁.trans hk₂⟩

/-- What a caller promises a write so that stored addresses stay distinct: it hands the write no
    vertex to write onto, so the write makes its vertex unless one with its keys stands where it
    would go. -/
def Creating (_ : Graph) (_ : Option Vertex) (existing : Option Vertex) : Prop := existing = none

theorem Reaches.addressInv {s : Serializer} {g : Graph} (hs : s.scope.Addressable)
    (h : s.Reaches Creating g) : s.scope.AddressInv g := by
  induction h with
  | start n => exact Scope.startingAt_addressInv n
  | write _ hlive hcreate hw ih => exact (write_addresses hs _ _ _ ih hlive (.inl hcreate) hw).1

/-- In every store that creating writes reach under a catalog version whose types are
    addressable, no two vertices store one address, so looking an address up never fails. -/
theorem stored_uris_are_distinct {s : Serializer} {g : Graph} (hs : s.scope.Addressable)
    (hg : s.Reaches Creating g) :
    (∀ x y vx vy p, g.vertex? x = some vx → g.vertex? y = some vy →
      vx.property? Bookkeeping.uri = some p → vy.property? Bookkeeping.uri = some p → x = y) ∧
    ∀ u, ∃ r, Scope.findByUri g u = .ok r := by
  have h := hg.addressInv hs
  have hd := h.urisDistinct hs.slashFree
  exact ⟨hd, Scope.findByUri_ok h.forest.consistent hd⟩

/-! ### Keyless roots

A type without keys gives every root of it the same segment, and nothing stops a second root:
the search for an existing root goes by the first key. -/

namespace KeylessShelves

def shelf : Identifier := ⟨"shelf", by decide⟩

def serializer : Serializer where
  scope := ⟨⟨[NodeType.new shelf SchemaVersion.v12], []⟩, SchemaVersion.v12⟩
  config := {}
  sourceOfTruth := "inventory"

def twoShelves : Except (GraphError × Clock) Graph := do
  let (_, g₁) ← (serializer.write none (SchemaObject.new shelf) none).run (Graph.startingAt (.steady 0 ""))
  let (_, g₂) ← (serializer.write none (SchemaObject.new shelf) none).run g₁
  pure g₂

theorem keyless_roots_share_an_address :
    (twoShelves.toOption.map fun g =>
      (g.vertices.map (·.uri?), (Scope.findByUri g "/shelf").isOk)) =
      some ([some "/shelf", some "/shelf"], false) := by
  decide +kernel

end KeylessShelves

/-! ### Each other condition

Each remaining condition on a type, and the promise to hand no vertex, has a run that breaks
it. A write onto a root that gives it its neighbour's key moves it to its neighbour's address;
an integer and a float key print alike; a slash in a type name makes its segment read as two;
the stamp overwrites a key named like a bookkeeping property, as data copy overwrites a copied
key, so the next root with the key given is not found and is made again; and a declared address
written onto a child found by its keys is kept, since the child is neither new nor moved. -/

namespace RewrittenBarrels

def barrel : Identifier := ⟨"barrel", by decide⟩
def mark : Identifier := ⟨"mark", by decide⟩

def serializer : Serializer where
  scope := ⟨⟨[(NodeType.new barrel SchemaVersion.v12).withKey mark], []⟩, SchemaVersion.v12⟩
  config := {}
  sourceOfTruth := "inventory"

def marked (m : String) : SchemaObject := (SchemaObject.new barrel).withProperty "mark" (.str m)

def rewritten : Except (GraphError × Clock) Graph := do
  let (_, g₁) ← (serializer.write none (marked "1") none).run (Graph.startingAt (.steady 0 ""))
  let (w₂, g₂) ← (serializer.write none (marked "2") none).run g₁
  let (_, g₃) ← (serializer.write none (marked "1") (some w₂)).run g₂
  pure g₃

theorem rewrite_onto_a_root_takes_its_neighbour_address :
    (rewritten.toOption.map fun g =>
      (g.vertices.map (·.uri?), (Scope.findByUri g "/barrel/1").isOk)) =
      some ([some "/barrel/1", some "/barrel/1"], false) := by
  decide +kernel

end RewrittenBarrels

namespace FloatGauges

def gauge : Identifier := ⟨"gauge", by decide⟩
def reading : Identifier := ⟨"reading", by decide⟩

def serializer : Serializer where
  scope := ⟨⟨[((NodeType.new gauge SchemaVersion.v12).withProperty
    (PropertyDef.new reading .float)).withKey reading], []⟩, SchemaVersion.v12⟩
  config := {}
  sourceOfTruth := "inventory"

def reads (x : PropertyValue) : SchemaObject := (SchemaObject.new gauge).withProperty "reading" x

def twoGauges : Except (GraphError × Clock) Graph := do
  let (_, g₁) ← (serializer.write none (reads (.int 5)) none).run (Graph.startingAt (.steady 0 ""))
  let (_, g₂) ← (serializer.write none (reads (.float (Binary64.ofNat 5))) none).run g₁
  pure g₂

theorem int_and_float_keys_share_an_address :
    (twoGauges.toOption.map fun g =>
      (g.vertices.map (·.uri?), (Scope.findByUri g "/gauge/5").isOk)) =
      some ([some "/gauge/5", some "/gauge/5"], false) := by
  decide +kernel

end FloatGauges

namespace SlashedRigs

def rig : Identifier := ⟨"rig", by decide⟩
def rigPump : Identifier := ⟨"rig/pump", by decide⟩
def hose : Identifier := ⟨"hose", by decide⟩
def slot : Identifier := ⟨"slot", by decide⟩
def unit : Identifier := ⟨"unit", by decide⟩
def joins : Identifier := ⟨"joins", by decide⟩

def serializer : Serializer where
  scope := ⟨⟨[(NodeType.new rig SchemaVersion.v12).withKey slot,
    ((NodeType.new rigPump SchemaVersion.v12).withKey slot).withKey unit,
    (NodeType.new hose SchemaVersion.v12).withKey slot],
    [{ Rule.new rig hose joins SchemaVersion.v12 with contains := .out }]⟩, SchemaVersion.v12⟩
  config := {}
  sourceOfTruth := "inventory"

def slotted (t : Identifier) (s : String) : SchemaObject :=
  (SchemaObject.new t).withProperty "slot" (.str s)

def pumpAndHose : Except (GraphError × Clock) Graph := do
  let (w₁, g₁) ← (serializer.write none (slotted rig "pump") none).run (Graph.startingAt (.steady 0 ""))
  let (_, g₂) ← (serializer.write (some w₁) (slotted hose "x") none).run g₁
  let (_, g₃) ← (serializer.write none ((slotted rigPump "hose").withProperty "unit" (.str "x")) none).run g₂
  pure g₃

theorem slashed_type_shares_a_nested_address :
    (pumpAndHose.toOption.map fun g =>
      (g.vertices.map (·.uri?), (Scope.findByUri g "/rig/pump/hose/x").isOk)) =
      some ([some "/rig/pump", some "/rig/pump/hose/x", some "/rig/pump/hose/x"], false) := by
  decide +kernel

end SlashedRigs

namespace StampedUrns

def urn : Identifier := ⟨"urn", by decide⟩
def stampKey : Identifier := ⟨"created-ts", by decide⟩

def serializer : Serializer where
  scope := ⟨⟨[(NodeType.new urn SchemaVersion.v12).withKey stampKey], []⟩, SchemaVersion.v12⟩
  config := {}
  sourceOfTruth := "inventory"

def dated : SchemaObject := (SchemaObject.new urn).withProperty "created-ts" (.str "x")

def twoUrns : Except (GraphError × Clock) Graph := do
  let (_, g₁) ← (serializer.write none dated none).run (Graph.startingAt (.steady 0 ""))
  let (_, g₂) ← (serializer.write none dated none).run g₁
  pure g₂

theorem stamped_keys_share_an_address :
    (twoUrns.toOption.map fun g =>
      (g.vertices.map (·.uri?), (Scope.findByUri g "/urn/x").isOk)) =
      some ([some "/urn/x", some "/urn/x"], false) := by
  decide +kernel

end StampedUrns

namespace CopiedSilos

def yard : Identifier := ⟨"yard", by decide⟩
def plot : Identifier := ⟨"plot", by decide⟩
def zone : Identifier := ⟨"zone", by decide⟩
def silo : Identifier := ⟨"silo", by decide⟩
def row : Identifier := ⟨"row", by decide⟩

def serializer : Serializer where
  scope := ⟨⟨[((NodeType.new yard SchemaVersion.v12).withKey plot).withProperty
      (PropertyDef.new zone .string),
    ((NodeType.new silo SchemaVersion.v12).withKey row).withProperty
      ((PropertyDef.new row .string).withDataCopy "/yard/1#zone")], []⟩, SchemaVersion.v12⟩
  config := {}
  sourceOfTruth := "inventory"

def siloRow : SchemaObject := (SchemaObject.new silo).withProperty "row" (.str "1")

def twoSilos : Except (GraphError × Clock) Graph := do
  let yardOne := ((SchemaObject.new yard).withProperty "plot" (.str "1")).withProperty "zone" (.str "7")
  let (_, g₁) ← (serializer.write none yardOne none).run (Graph.startingAt (.steady 0 ""))
  let (_, g₂) ← (serializer.write none siloRow none).run g₁
  let (_, g₃) ← (serializer.write none siloRow none).run g₂
  pure g₃

theorem copied_keys_share_an_address :
    (twoSilos.toOption.map fun g =>
      (g.vertices.map (·.uri?), (Scope.findByUri g "/silo/1").isOk)) =
      some ([some "/yard/1", some "/silo/1", some "/silo/1"], false) := by
  decide +kernel

end CopiedSilos

namespace DeclaredAddressCots

def loft : Identifier := ⟨"loft", by decide⟩
def wing : Identifier := ⟨"wing", by decide⟩
def cot : Identifier := ⟨"cot", by decide⟩
def bed : Identifier := ⟨"bed", by decide⟩
def address : Identifier := ⟨"uri", by decide⟩
def sleeps : Identifier := ⟨"sleeps", by decide⟩

def serializer : Serializer where
  scope := ⟨⟨[(NodeType.new loft SchemaVersion.v12).withKey wing,
    ((NodeType.new cot SchemaVersion.v12).withKey bed).withProperty (PropertyDef.new address .string)],
    [{ Rule.new loft cot sleeps SchemaVersion.v12 with contains := .out }]⟩, SchemaVersion.v12⟩
  config := {}
  sourceOfTruth := "inventory"

def cotX : SchemaObject := (SchemaObject.new cot).withProperty "bed" (.str "x")

def loftWithCots : SchemaObject :=
  (((SchemaObject.new loft).withProperty "wing" (.str "1")).withChild cotX).withChild
    (cotX.withProperty "uri" (.str "/loft/1"))

def written : Except (GraphError × Clock) Graph := do
  let (_, g) ← (serializer.write none loftWithCots none).run (Graph.startingAt (.steady 0 ""))
  pure g

theorem declared_address_shares_its_parent_address :
    (written.toOption.map fun g =>
      (g.vertices.map (·.uri?), (Scope.findByUri g "/loft/1").isOk)) =
      some ([some "/loft/1", some "/loft/1"], false) := by
  decide +kernel

end DeclaredAddressCots

/-! ### Two keyed roots -/

namespace TwoCrates

def crate : Identifier := ⟨"crate", by decide⟩
def label : Identifier := ⟨"label", by decide⟩

def crateType : NodeType := (NodeType.new crate SchemaVersion.v12).withKey label

def serializer : Serializer where
  scope := ⟨⟨[crateType], []⟩, SchemaVersion.v12⟩
  config := {}
  sourceOfTruth := "inventory"

def labelled (l : String) : SchemaObject := (SchemaObject.new crate).withProperty "label" (.str l)

def first : Vertex × Graph :=
  ((serializer.write none (labelled "a") none).run (Graph.startingAt (.steady 0 ""))).toOption.getD
    (Vertex.new ⟨0⟩ crate 0, Graph.startingAt (.steady 0 ""))

def second : Vertex × Graph :=
  ((serializer.write none (labelled "b") none).run first.2).toOption.getD first

theorem serializer_addressable : serializer.scope.Addressable := by
  intro n t ht
  have ht' : t = crateType := by
    have hmem := List.mem_of_find?_eq_some ht
    simpa [serializer] using hmem
  subst ht'
  refine ⟨by decide, fun k hk d hd => ?_, by decide, by decide, by decide, by decide⟩
  simp only [crateType, NodeType.withKey, NodeType.new, List.any_nil, Bool.false_eq_true,
    if_false, List.nil_append, List.mem_singleton] at hk
  subst hk
  have hlabel : crateType.property? label.text = some (PropertyDef.new label .string) := by decide
  rw [hlabel] at hd
  cases hd
  rfl

theorem reaches_second : serializer.Reaches Creating second.2 := by
  have h₁ : (serializer.write none (labelled "a") none).run (Graph.startingAt (.steady 0 "")) =
      .ok (first.1, first.2) :=
    Except.eq_ok_getD (by decide +kernel) (Vertex.new ⟨0⟩ crate 0, Graph.startingAt (.steady 0 ""))
  have h₂ : (serializer.write none (labelled "b") none).run first.2 = .ok (second.1, second.2) :=
    Except.eq_ok_getD (by decide +kernel) first
  exact .write (.write (.start _) (by simp) rfl h₁) (by simp) rfl h₂

theorem two_crates_have_distinct_uris :
    second.2.vertices.map (·.uri?) = [some "/crate/a", some "/crate/b"] ∧
    (∀ x y vx vy p, second.2.vertex? x = some vx → second.2.vertex? y = some vy →
      vx.property? Bookkeeping.uri = some p → vy.property? Bookkeeping.uri = some p → x = y) ∧
    ∀ u, ∃ r, Scope.findByUri second.2 u = .ok r :=
  ⟨by decide +kernel, stored_uris_are_distinct serializer_addressable reaches_second⟩

end TwoCrates

end Serializer

end InventoryGraph
