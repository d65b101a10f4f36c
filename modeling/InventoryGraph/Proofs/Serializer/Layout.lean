import InventoryGraph.Proofs.Serializer.Rewrite
import InventoryGraph.Proofs.Rules.Orientation

/-!
The layout a first write leaves of an object with nested children, and the stores that keep it.
Each object lies on a vertex new since the write began, holding the object's declared
properties, a synthetic id and its address, or none when that is unknown; each child lies under
its parent, the vertex's tree children being its children's vertices in order (`Serializer.Laid`).
A store that agrees with another at every laid vertex (the vertex at most restamped, the same
tree neighbours and addresses) keeps the layout, whether it grew new vertices below elsewhere
(`Graph.Extends`) or restamped laid ones.

An address refresh that meets only vertices holding their addresses stores them again, so it
changes nothing; a refresh of a vertex that contains nothing stores its own address only.
-/
namespace InventoryGraph

namespace Bookkeeping

theorem contains_of_restamped {k : String} (h : Restamped k) : contains k = true := by
  rcases h with rfl | rfl | rfl <;> decide

theorem uri_unrestamped : ¬ Restamped uri := by
  simp only [Restamped]
  decide

theorem syntheticId_unrestamped : ¬ Restamped syntheticId := by
  simp only [Restamped]
  decide

end Bookkeeping

namespace Vertex

/-- `v'` is `v` restamped: the same id, node type and creation instant, and every property but
    the time and the writer of the last change and the resource version. -/
def Restamps (v v' : Vertex) : Prop :=
  v'.id = v.id ∧ v'.nodeType = v.nodeType ∧ v'.createdAt = v.createdAt ∧
    ∀ k, ¬ Bookkeeping.Restamped k → v'.property? k = v.property? k

theorem Restamps.refl (v : Vertex) : v.Restamps v := ⟨rfl, rfl, rfl, fun _ _ => rfl⟩

theorem Restamps.trans {v v' v'' : Vertex} (h : v.Restamps v') (h' : v'.Restamps v'') :
    v.Restamps v'' :=
  ⟨h'.1.trans h.1, h'.2.1.trans h.2.1, h'.2.2.1.trans h.2.2.1,
    fun k hk => (h'.2.2.2 k hk).trans (h.2.2.2 k hk)⟩

theorem Restamps.property? {v v' : Vertex} (h : v.Restamps v') {k : String}
    (hk : Bookkeeping.contains k = false) : v'.property? k = v.property? k :=
  h.2.2.2 k fun hr => Bool.false_ne_true (hk.symm.trans (Bookkeeping.contains_of_restamped hr))

theorem Restamps.uri?_eq {v v' : Vertex} (h : v.Restamps v') : v'.uri? = v.uri? := by
  simp only [Vertex.uri?, Vertex.str?, h.2.2.2 _ Bookkeeping.uri_unrestamped]

theorem restamps_rel_refl (o : Option Vertex) : Option.Rel Restamps o o := by
  cases o with
  | none => exact .none
  | some v => exact .some (Restamps.refl v)

end Vertex

namespace Graph

/-- Two stores that hold the same vertices and the same edges. -/
structure Same (g g' : Graph) : Prop where
  consistent : g'.Consistent
  edges : g'.edges = g.edges
  vertex : ∀ x, g'.vertex? x = g.vertex? x

theorem Same.refl {g : Graph} (hc : g.Consistent) : g.Same g := ⟨hc, rfl, fun _ => rfl⟩

theorem Same.trans {g g' g'' : Graph} (h : g.Same g') (h' : g'.Same g'') : g.Same g'' :=
  ⟨h'.consistent, h'.edges.trans h.edges, fun x => (h'.vertex x).trans (h.vertex x)⟩

theorem live_of_vertex? {g : Graph} {x : VertexId} {v : Vertex} (h : g.vertex? x = some v) :
    g.Live x :=
  ⟨v, (mem_of_vertex? h).1, (mem_of_vertex? h).2⟩

/-- `g'` grows `g` below `p`: every vertex of `g` stands as it was, with its tree parent, and
    with its tree children unless it is `p`; every edge of `g` stays, and no cousin edge is
    added. -/
structure Extends (g : Graph) (p : VertexId) (g' : Graph) : Prop where
  consistent : g'.Consistent
  grows : g.Grows g'
  vertex : ∀ x, g.Live x → g'.vertex? x = g.vertex? x
  parent : ∀ x, g.Live x → g'.treeParent? x = g.treeParent? x
  children : ∀ x, g.Live x → x ≠ p → g'.treeChildren x = g.treeChildren x
  kept : ∀ e ∈ g.edges, e ∈ g'.edges
  cousins : ∀ e ∈ g'.edges, e.edgeType = .cousin → e ∈ g.edges

section Extends

variable {g g₁ g₂ : Graph} {p x : VertexId}

theorem Extends.refl (hc : g.Consistent) (p : VertexId) : g.Extends p g :=
  ⟨hc, .refl g, fun _ _ => rfl, fun _ _ => rfl, fun _ _ _ => rfl, fun _ he => he,
    fun _ he _ => he⟩

/-- Growing below `p`, then below `p` again or below a vertex new since `g`, grows `g` below
    `p`. -/
theorem Extends.trans (h : g.Extends p g₁) (h' : g₁.Extends x g₂) (hx : x = p ∨ ¬ g.Live x) :
    g.Extends p g₂ where
  consistent := h'.consistent
  grows := h.grows.trans h'.grows
  vertex y hy := (h'.vertex y (h.grows.live hy)).trans (h.vertex y hy)
  parent y hy := (h'.parent y (h.grows.live hy)).trans (h.parent y hy)
  children y hy hyp := by
    have hyx : y ≠ x := by
      rintro rfl
      rcases hx with rfl | hx
      · exact hyp rfl
      · exact hx hy
    exact (h'.children y (h.grows.live hy) hyx).trans (h.children y hy hyp)
  kept e he := h'.kept e (h.kept e he)
  cousins e he hcous := h.cousins e (h'.cousins e he hcous) hcous

/-- Changing a vertex new since `g`, and no edge, keeps `g` grown below `p`. -/
theorem Extends.change (h : g.Extends p g₁) (hc : g₂.Consistent) (hg : g₁.Grows g₂)
    (he : g₂.edges = g₁.edges) (hv : ∀ y, y ≠ x → g₂.vertex? y = g₁.vertex? y)
    (hx : ¬ g.Live x) : g.Extends p g₂ where
  consistent := hc
  grows := h.grows.trans hg
  vertex y hy := (hv y fun hyx => hx (hyx ▸ hy)).trans (h.vertex y hy)
  parent y hy := by
    rw [treeParent?_congr h.consistent.edgeIndexed hc.edgeIndexed he]
    exact h.parent y hy
  children y hy hyp := by
    rw [treeChildren_congr h.consistent.edgeIndexed hc.edgeIndexed he]
    exact h.children y hy hyp
  kept e he' := he ▸ h.kept e he'
  cousins e he' hcous := h.cousins e (he ▸ he') hcous

theorem Extends.addVertex (h : g.Extends p g₁) (t : Identifier) :
    g.Extends p (g₁.addVertex t).2 :=
  h.change (addVertex_consistent h.consistent t) (addVertex_grows g₁ t) rfl
    (fun y hy => by rw [vertex?_addVertex h.consistent, if_neg hy])
    fun hl => addVertex_fresh h.consistent t (h.grows.live hl)

theorem Extends.updateVertex (h : g.Extends p g₁) {w : Vertex} (hup : g₁.updateVertex w = .ok g₂)
    (hw : ¬ g.Live w.id) : g.Extends p g₂ := by
  refine h.change (updateVertex_consistent h.consistent hup) (updateVertex_grows hup)
    (updateVertex_edges hup) (fun y hy => ?_) hw
  obtain ⟨old, -, hv⟩ := vertex?_updateVertex hup y
  rw [hv, if_neg hy]

/-- Placing a vertex new since `g` under `p` by a tree edge keeps `g` grown below `p`. -/
theorem Extends.attach (h : g.Extends p g₁) {e₀ e : Edge} (hadd : g₁.addEdge e₀ = .ok (e, g₂))
    (ht : e₀.edgeType = .tree) (hp : e₀.parentEnd? = some p) (hch : e₀.childEnd? = some x)
    (hx : ¬ g.Live x) : g.Extends p g₂ := by
  obtain ⟨hedges, -, ht', hch', hp'⟩ := addEdge_edges hadd
  obtain ⟨-, -, -, rfl⟩ := addEdge_eq hadd
  refine ⟨addEdge_consistent h.consistent hadd, h.grows.trans (addEdge_grows hadd),
    fun y hy => h.vertex y hy, fun y hy => ?_, fun y hy hyp => ?_, fun f hf => ?_,
    fun f hf hcous => ?_⟩
  · have hnot : e₀.treeParentOf? y = none := by
      rw [Edge.treeParentOf?, if_neg]
      rintro ⟨-, hxy⟩
      rw [hch] at hxy
      obtain rfl := Option.some.inj hxy
      exact hx hy
    rw [treeParent?_addEdge h.consistent hadd, hnot, Option.or_none]
    exact h.parent y hy
  · rw [treeChildren_addEdge h.consistent hadd, if_neg, List.append_nil]
    · exact h.children y hy hyp
    · rintro ⟨-, hpy⟩
      rw [hp', hp] at hpy
      exact hyp (Option.some.inj hpy).symm
  · exact hedges ▸ List.mem_append_left _ (h.kept f hf)
  · rw [hedges] at hf
    rcases List.mem_append.mp hf with hf | hf
    · exact h.cousins f hf hcous
    · rw [List.mem_singleton.mp hf, ht', ht] at hcous
      cases hcous

/-- A tree edge from `p` to a vertex off every tree places it last among the tree children of
    `p`, with no tree children of its own. -/
theorem attach_offTree (hc : g.Consistent) {e₀ e : Edge} (hoff : g.OffTree x) (hpx : p ≠ x)
    (hadd : g.addEdge e₀ = .ok (e, g₁)) (ht : e₀.edgeType = .tree) (hp : e₀.parentEnd? = some p)
    (hch : e₀.childEnd? = some x) :
    g₁.treeParent? x = some p ∧ g₁.treeChildren x = [] ∧
      g₁.treeChildren p = g.treeChildren p ++ [x] := by
  obtain ⟨-, -, ht', hch', hp'⟩ := addEdge_edges hadd
  refine ⟨?_, ?_, ?_⟩
  · rw [treeParent?_addEdge hc hadd, hoff.treeParent? hc.edgeIndexed]
    simp [Edge.treeParentOf?, ht, hch, hp]
  · rw [treeChildren_addEdge hc hadd, hoff.treeChildren hc.edgeIndexed, if_neg]
    · rfl
    · rintro ⟨-, hpe⟩
      rw [hp', hp] at hpe
      exact hpx (Option.some.inj hpe)
  · rw [treeChildren_addEdge hc hadd, if_pos ⟨ht'.trans ht, hp'.trans hp⟩, hch', hch]
    rfl

/-- The ancestors of a vertex of `g` are its ancestors in a store that grows `g`. -/
theorem Extends.transGen_parentOf (hc : g.Consistent) (h : g.Extends p g₁) {y : VertexId}
    (hx : g.Live x) (hyx : Relation.TransGen g₁.ParentOf y x) :
    Relation.TransGen g.ParentOf y x := by
  induction hyx with
  | single hb =>
    rw [ParentOf, h.parent _ hx] at hb
    exact .single hb
  | tail _ hbc ih =>
    rw [ParentOf, h.parent _ hx] at hbc
    exact .tail (ih (hc.live_of_parentOf hbc).1) hbc

end Extends

end Graph

namespace Scope

variable (s : Scope)

/-- The keys of the vertex's type are no bookkeeping names. -/
def KeysOutside (v : Vertex) : Prop :=
  ∀ t, s.nodeType? v.nodeType.text = some t → ∀ k ∈ t.keyProperties,
    Bookkeeping.contains k.text = false

variable {s} {g g' : Graph}

theorem segment?_of_bookkeeping {v w : Vertex} (hk : s.KeysOutside v) (ht : w.nodeType = v.nodeType)
    (hp : ∀ k, Bookkeeping.contains k = false → w.property? k = v.property? k) :
    s.segment? w = s.segment? v :=
  segment?_congr ht fun t hnt k hkey => hp k.text (hk t hnt k hkey)

theorem uri_bookkeeping : Bookkeeping.contains Bookkeeping.uri = true := by decide

theorem KeysOutside.offUri {v w : Vertex} (hk : s.KeysOutside v) (h : w.OffUri v) :
    s.segment? w = s.segment? v := by
  obtain ⟨-, ht, -, hp⟩ := Vertex.offUri_iff.mp h
  refine segment?_of_bookkeeping hk ht fun k hb => hp k fun hu => ?_
  rw [hu, uri_bookkeeping] at hb
  cases hb

theorem KeysOutside.congr {v w : Vertex} (hk : s.KeysOutside v) (ht : w.nodeType = v.nodeType) :
    s.KeysOutside w := by
  intro t hnt
  rw [ht] at hnt
  exact hk t hnt

theorem Address.iff_of_edges (hc : g.Consistent) (hc' : g'.Consistent) (he : g'.edges = g.edges)
    (hseg : s.segAt g' = s.segAt g) (x : VertexId) (u : String) :
    s.Address g' x u ↔ s.Address g x u :=
  address_iff_of_above (Graph.treeParent?_congr hc.edgeIndexed hc'.edgeIndexed he)
    fun z _ => by rw [hseg]

/-- Cached addresses above a vertex stay right in a store with the same edges and segments
    whose every known cached address was cached in the earlier store. -/
theorem CachedRightAbove.congr {y : VertexId} (h : s.CachedRightAbove g y) (hc : g.Consistent)
    (hc' : g'.Consistent) (he : g'.edges = g.edges) (hseg : s.segAt g' = s.segAt g)
    (huri : ∀ p pv', g'.vertex? p = some pv' → ∀ u, pv'.uri? = some u → u ≠ unknownUri →
      ∃ pv, g.vertex? p = some pv ∧ pv.uri? = some u) :
    s.CachedRightAbove g' y := by
  intro p pv' hpy hpv' u hu hne
  obtain ⟨pv, hpv, hu'⟩ := huri p pv' hpv' u hu hne
  rw [Graph.parentOf_congr hc.edgeIndexed hc'.edgeIndexed he] at hpy
  have hup := h p pv hpy hpv u hu' hne
  have hpid : pv.id = p := (Graph.mem_of_vertex? hpv).2
  have hpid' : pv'.id = p := (Graph.mem_of_vertex? hpv').2
  rw [← hpid] at hpv
  rw [← hpid'] at hpv'
  have haddr := (upwardUri_iff_address hpv u).mp hup
  rw [hpid, ← Address.iff_of_edges hc hc' he hseg, ← hpid'] at haddr
  exact (upwardUri_iff_address hpv' u).mpr haddr

/-! ### One visit of a refresh -/

/-- A visit of a vertex whose keys are no bookkeeping names, with right cached addresses above
    it, stores its address, or none when that is unknown, and changes nothing else. -/
theorem refreshQueue_visit {root y : VertexId} {fuel : Nat} {queue seen : List VertexId}
    {own : Option String} {v : Vertex} (hc : g.Consistent) (hy : y ∉ seen)
    (hv : g.vertex? y = some v) (hcache : s.CachedRightAbove g y) (hk : s.KeysOutside v) :
    ∃ own' g' v', (s.refreshQueue root (fuel + 1) (y :: queue) seen own).run g =
        (s.refreshQueue root fuel (queue ++ g.treeChildren y) (y :: seen) own').run g' ∧
      g'.edges = g.edges ∧ g'.Consistent ∧ s.segAt g' = s.segAt g ∧
      (∀ z, z ≠ y → g'.vertex? z = g.vertex? z) ∧ g'.vertex? y = some v' ∧ v'.OffUri v ∧
      s.StoresAddress g' y v' := by
  have hvid : v.id = y := (Graph.mem_of_vertex? hv).2
  subst hvid
  obtain ⟨g₁, hup, he₁, hc₁, hv₁⟩ :=
    @Graph.updateVertex_spec g (v.remove Bookkeeping.uri) v hc hv rfl rfl
  simp only [Vertex.remove_id] at hv₁
  have hseg₁ : s.segAt g₁ = s.segAt g := by
    funext z
    by_cases hz : z = v.id
    · subst hz
      simp [segAt, hv₁, hv, hk.offUri (Vertex.offUri_remove v)]
    · simp [segAt, hv₁, hz]
  have hch₁ : g₁.treeChildren v.id = g.treeChildren v.id := by
    rw [Graph.treeChildren_congr hc.edgeIndexed hc₁.edgeIndexed he₁]
  have hcache₁ : s.CachedRightAbove g₁ v.id := by
    refine hcache.congr hc hc₁ he₁ hseg₁ fun p pv' hpv' u hu _ => ?_
    by_cases hp : p = v.id
    · simp [hv₁, hp] at hpv'
      subst hpv'
      simp [Vertex.uri?, Vertex.str?, Vertex.property?_remove] at hu
    · simp only [hv₁, hp, if_false] at hpv'
      exact ⟨pv', hpv', hu⟩
  have hw₁ : g₁.vertex? (v.remove Bookkeeping.uri).id = some (v.remove Bookkeeping.uri) := by
    simp [hv₁]
  have hknown := computeUri_known_iff hw₁ hcache₁
  simp only [Vertex.remove_id] at hknown
  have haddr₁ := Address.iff_of_edges hc hc₁ he₁ hseg₁ v.id
  by_cases hunk : s.computeUri g₁ (v.remove Bookkeeping.uri) = unknownUri
  · refine ⟨_, g₁, v.remove Bookkeeping.uri,
      by rw [run_refreshQueue_unknown hy hv hup hunk, hch₁], he₁, hc₁, hseg₁,
      fun z hz => by simp [hv₁, hz], by simp [hv₁], Vertex.offUri_remove v, fun p => ?_⟩
    rw [Vertex.property?_remove, if_pos rfl]
    simp only [reduceCtorEq, false_iff, not_exists, not_and]
    rintro u - ha hne
    exact hne (((hknown u).mpr ⟨ha, hne⟩).1.symm.trans hunk)
  · obtain ⟨g₂, hup₂, he₂, hc₂, hv₂⟩ := @Graph.updateVertex_spec g₁
      ((v.remove Bookkeeping.uri).set Bookkeeping.uri
        (.str (s.computeUri g₁ (v.remove Bookkeeping.uri)))) _ hc₁ hw₁ rfl rfl
    simp only [Vertex.set_id, Vertex.remove_id] at hv₂
    have hseg₂ : s.segAt g₂ = s.segAt g₁ := by
      funext z
      by_cases hz : z = v.id
      · subst hz
        simp [segAt, hv₂, hv₁, hk.offUri (Vertex.offUri_set v _),
          hk.offUri (Vertex.offUri_remove v)]
      · simp [segAt, hv₂, hv₁, hz]
    have hch₂ : g₂.treeChildren v.id = g.treeChildren v.id := by
      rw [Graph.treeChildren_congr hc₁.edgeIndexed hc₂.edgeIndexed he₂, hch₁]
    refine ⟨_, g₂, (v.remove Bookkeeping.uri).set Bookkeeping.uri
      (.str (s.computeUri g₁ (v.remove Bookkeeping.uri))),
      by rw [run_refreshQueue_known hy hv hup rfl hunk hup₂, hch₂], he₂.trans he₁, hc₂,
      hseg₂.trans hseg₁, fun z hz => by simp [hv₂, hv₁, hz], by simp [hv₂],
      Vertex.offUri_set v _, fun p => ?_⟩
    have haddr₂ := Address.iff_of_edges hc₁ hc₂ he₂ hseg₂ v.id
    rw [Vertex.property?_set, if_pos rfl, Option.some.injEq]
    constructor
    · rintro rfl
      exact ⟨_, rfl, (haddr₂ _).mpr ((hknown _).mp ⟨rfl, hunk⟩).1, hunk⟩
    · rintro ⟨u, rfl, ha, hne⟩
      rw [((hknown u).mpr ⟨(haddr₂ u).mp ha, hne⟩).1]

theorem segAt_congr (hv : ∀ x, g'.vertex? x = g.vertex? x) : s.segAt g' = s.segAt g := by
  funext x
  simp only [segAt, hv]

theorem address_iff_of_same (hc : g.Consistent) (h : g.Same g') (x : VertexId) (u : String) :
    s.Address g' x u ↔ s.Address g x u :=
  Address.iff_of_edges hc h.consistent h.edges (segAt_congr h.vertex) x u

theorem CachedRightAbove.same {y : VertexId} (hcache : s.CachedRightAbove g y) (hc : g.Consistent)
    (h : g.Same g') : s.CachedRightAbove g' y :=
  hcache.congr hc h.consistent h.edges (segAt_congr h.vertex) fun p pv' hpv' _ hu _ =>
    ⟨pv', (h.vertex p).symm.trans hpv', hu⟩

/-- Two vertices alike but for their addresses, each holding the address of one vertex in stores
    where that vertex has the same addresses, are one. -/
theorem StoresAddress.eq_of_offUri {y : VertexId} {v v' : Vertex} (h : s.StoresAddress g y v)
    (h' : s.StoresAddress g' y v') (haddr : ∀ u, s.Address g' y u ↔ s.Address g y u)
    (hoff : v'.OffUri v) : v' = v := by
  obtain ⟨hid, ht, hcr, hp⟩ := Vertex.offUri_iff.mp hoff
  refine Vertex.ext_property? hid ht hcr fun k => ?_
  by_cases hk : k = Bookkeeping.uri
  · subst hk
    refine Option.ext fun p => ?_
    rw [h' p, h p]
    simp only [haddr]
  · exact hp k hk

/-! ### Addresses in a grown store -/

section Extends

variable {p : VertexId}

theorem stays_of_extends (h : g.Extends p g') {z : VertexId} (hz : g.Live z) : s.Stays g g' z :=
  ⟨h.parent z hz, by simp only [segAt, h.vertex z hz]⟩

theorem AddressBelow.frame_back {q : Option VertexId} {x : VertexId} {u : String}
    (h : s.AddressBelow g' q x u) (hc : g.Consistent) (hx : g.Live x)
    (hkeep : ∀ z, g.Live z → s.Stays g g' z) : s.AddressBelow g q x u := by
  induction h with
  | here hp hs =>
    obtain ⟨ht, hseg⟩ := hkeep _ hx
    exact .here (ht.symm.trans hp) (hseg.symm.trans hs)
  | down hp hs _ ih =>
    have hrest := ih hx
    -- the vertex read from above `x` is a tree parent in `g`, so it is stored there
    obtain ⟨b, hb, -⟩ := Relation.TransGen.head'_iff.mp hrest.above
    obtain ⟨ht, hseg⟩ := hkeep _ (hc.live_of_parentOf hb).1
    exact .down (ht.symm.trans hp) (hseg.symm.trans hs) hrest

theorem address_iff_of_extends (hc : g.Consistent) (h : g.Extends p g') {x : VertexId}
    (hx : g.Live x) (u : String) : s.Address g' x u ↔ s.Address g x u :=
  ⟨fun ha => ha.frame_back hc hx fun _ hz => stays_of_extends h hz,
    fun ha => ha.frame fun _ hz => stays_of_extends h hz⟩

theorem StoresAddress.extend {x : VertexId} {v : Vertex} (hs : s.StoresAddress g x v)
    (hc : g.Consistent) (h : g.Extends p g') (hx : g.Live x) : s.StoresAddress g' x v := fun q => by
  simpa only [address_iff_of_extends hc h hx] using hs q

theorem CachedRightAbove.extend {x : VertexId} (hcache : s.CachedRightAbove g x)
    (hc : g.Consistent) (h : g.Extends p g') (hx : g.Live x) : s.CachedRightAbove g' x := by
  intro q qv hq hqv u hu hne
  have hq' := h.transGen_parentOf hc hx hq
  obtain ⟨b, hb, -⟩ := Relation.TransGen.head'_iff.mp hq'
  have hql := (hc.live_of_parentOf hb).1
  have hqv₀ : g.vertex? q = some qv := (h.vertex q hql).symm.trans hqv
  have hid : qv.id = q := (Graph.mem_of_vertex? hqv).2
  have ha : s.Address g q u := by
    have hup := hcache q qv hq' hqv₀ u hu hne
    rw [← hid] at hqv₀ ⊢
    exact (upwardUri_iff_address hqv₀ u).mp hup
  rw [← hid] at hqv
  rw [upwardUri_iff_address hqv, hid]
  exact (address_iff_of_extends hc h hql u).mpr ha

end Extends

/-- The cached addresses above a vertex are right when its parent holds its own address and
    the cached addresses above the parent are right. -/
theorem cachedRightAbove_of_parent {p x : VertexId} {pv : Vertex} (hv : g.vertex? p = some pv)
    (hstores : s.StoresAddress g p pv) (habove : s.CachedRightAbove g p) (hx : g.ParentOf p x) :
    s.CachedRightAbove g x := by
  intro q qv hq hqv u hu hne
  obtain ⟨b, hqb, hbx⟩ := Relation.TransGen.tail'_iff.mp hq
  obtain rfl : b = p := Option.some.inj (hbx.symm.trans hx)
  rcases Relation.reflTransGen_iff_eq_or_transGen.mp hqb with hpq | hqb
  · subst hpq
    have hqv' : qv = pv := Option.some.inj (hqv.symm.trans hv)
    subst hqv'
    obtain ⟨u', hu', ha, -⟩ := (hstores _).mp (Vertex.property?_of_uri? hu)
    cases hu'
    obtain ⟨-, hid⟩ := Graph.mem_of_vertex? hv
    rw [← hid] at hv ha
    exact (upwardUri_iff_address hv u).mpr ha
  · exact habove q qv hqb hqv u hu hne

theorem cachedRightAbove_of_root {x : VertexId} (hx : g.treeParent? x = none) :
    s.CachedRightAbove g x := by
  intro q qv hq
  obtain ⟨b, -, hbx⟩ := Relation.TransGen.tail'_iff.mp hq
  rw [Graph.ParentOf, hx] at hbx
  cases hbx

variable (s) in
/-- Two stores agree at a vertex as a laid object reads it: the vertex at most restamped, the
    same tree children and tree parent, the same addresses, and right cached addresses above it
    kept right. -/
structure Agrees (g g' : Graph) (y : VertexId) : Prop where
  vertex : Option.Rel Vertex.Restamps (g.vertex? y) (g'.vertex? y)
  children : g'.treeChildren y = g.treeChildren y
  parent : g'.treeParent? y = g.treeParent? y
  address : ∀ u, s.Address g' y u ↔ s.Address g y u
  above : s.CachedRightAbove g y → s.CachedRightAbove g' y

theorem Agrees.refl (g : Graph) (y : VertexId) : s.Agrees g g y :=
  ⟨Vertex.restamps_rel_refl _, rfl, rfl, fun _ => Iff.rfl, id⟩

theorem agrees_of_extends {p y : VertexId} (hc : g.Consistent) (h : g.Extends p g')
    (hy : g.Live y) (hyp : y ≠ p) : s.Agrees g g' y where
  vertex := by
    rw [h.vertex y hy]
    exact Vertex.restamps_rel_refl _
  children := h.children y hy hyp
  parent := h.parent y hy
  address := address_iff_of_extends hc h hy
  above hca := hca.extend hc h hy

theorem agrees_of_edges {y : VertexId} (hc : g.Consistent) (hc' : g'.Consistent)
    (he : g'.edges = g.edges) (hseg : s.segAt g' = s.segAt g)
    (huri : ∀ p pv', g'.vertex? p = some pv' → ∀ u, pv'.uri? = some u → u ≠ unknownUri →
      ∃ pv, g.vertex? p = some pv ∧ pv.uri? = some u)
    (hv : Option.Rel Vertex.Restamps (g.vertex? y) (g'.vertex? y)) : s.Agrees g g' y where
  vertex := hv
  children := by rw [Graph.treeChildren_congr hc.edgeIndexed hc'.edgeIndexed he]
  parent := by rw [Graph.treeParent?_congr hc.edgeIndexed hc'.edgeIndexed he]
  address := Address.iff_of_edges hc hc' he hseg y
  above hca := hca.congr hc hc' he hseg huri

variable (s) in
/-- The store `g'` is `g` with the vertex `v` stamped into `w`: the same edges, the other
    vertices as they were, and the stamped vertex with the segment and the cached address of
    `v`. -/
structure Stamps (g : Graph) (v w : Vertex) (g' : Graph) : Prop where
  consistent : g'.Consistent
  grows : g.Grows g'
  edges : g'.edges = g.edges
  stored : g'.vertex? v.id = some w
  others : ∀ y, y ≠ v.id → g'.vertex? y = g.vertex? y
  segAt : s.segAt g' = s.segAt g
  uri : w.property? Bookkeeping.uri = v.property? Bookkeeping.uri

section Stamps

variable {v w : Vertex}

/-- Every address cached after a stamp was cached before it. -/
theorem Stamps.cached (h : s.Stamps g v w g') (hv : g.vertex? v.id = some v) :
    ∀ p pv', g'.vertex? p = some pv' → ∀ u, pv'.uri? = some u → u ≠ unknownUri →
      ∃ pv, g.vertex? p = some pv ∧ pv.uri? = some u := by
  intro p pv' hpv' u hu _
  by_cases hp : p = v.id
  · rw [hp, h.stored, Option.some.injEq] at hpv'
    subst hpv'
    refine ⟨v, hp ▸ hv, ?_⟩
    simpa only [Vertex.uri?, Vertex.str?, h.uri] using hu
  · rw [h.others p hp] at hpv'
    exact ⟨pv', hpv', hu⟩

theorem Stamps.agrees (h : s.Stamps g v w g') (hc : g.Consistent) (hv : g.vertex? v.id = some v)
    {y : VertexId} (hy : Option.Rel Vertex.Restamps (g.vertex? y) (g'.vertex? y)) :
    s.Agrees g g' y :=
  agrees_of_edges hc h.consistent h.edges h.segAt (h.cached hv) hy

theorem Stamps.agrees_of_ne (h : s.Stamps g v w g') (hc : g.Consistent)
    (hv : g.vertex? v.id = some v) {y : VertexId} (hy : y ≠ v.id) : s.Agrees g g' y :=
  h.agrees hc hv (by rw [h.others y hy]; exact Vertex.restamps_rel_refl _)

theorem Stamps.above (h : s.Stamps g v w g') (hc : g.Consistent) (hv : g.vertex? v.id = some v)
    {y : VertexId} (hy : s.CachedRightAbove g y) : s.CachedRightAbove g' y :=
  hy.congr hc h.consistent h.edges h.segAt (h.cached hv)

/-- A stamp of a vertex new since `g₀` keeps what a write below `p` left of `g₀`. -/
theorem Stamps.extends (h : s.Stamps g v w g') {g₀ : Graph} {p : VertexId} (h₀ : g₀.Extends p g)
    (hx : ¬ g₀.Live v.id) : g₀.Extends p g' :=
  h₀.change h.consistent h.grows h.edges h.others hx

theorem Stamps.storesAddress (h : s.Stamps g v w g') (hc : g.Consistent)
    (hs : s.StoresAddress g v.id v) : s.StoresAddress g' v.id w := by
  intro q
  rw [h.uri, hs q]
  simp only [Address.iff_of_edges hc h.consistent h.edges h.segAt]

end Stamps

/-! ### A refresh that finds every address stored -/

section Settled

variable {S : VertexId → Prop} {root : VertexId}

/-- A refresh whose queue holds only vertices of `S`, a set closed under containment whose every
    vertex is stored with keys outside the bookkeeping, holds its address and has right cached
    addresses above it, stores nothing new: whatever its fuel, it ends in a store with the
    vertices and edges it started from. -/
theorem refreshQueue_settled (hc : g.Consistent)
    (hS : ∀ y, S y → ∃ v, g.vertex? y = some v ∧ s.KeysOutside v ∧ s.StoresAddress g y v ∧
      s.CachedRightAbove g y)
    (hclosed : ∀ y, S y → ∀ z ∈ g.treeChildren y, S z) :
    ∀ (fuel : Nat) (queue seen : List VertexId) (own : Option String) (g' : Graph), g.Same g' →
      (∀ y ∈ queue, S y) →
      ∃ own' g'', (s.refreshQueue root fuel queue seen own).run g' = .ok (own', g'') ∧ g.Same g''
  | 0, _, _, own, g', hsame, _ => ⟨own, g', by rw [refreshQueue.eq_1]; rfl, hsame⟩
  | _ + 1, [], _, own, g', hsame, _ => ⟨own, g', by rw [refreshQueue.eq_2]; rfl, hsame⟩
  | fuel + 1, y :: queue, seen, own, g', hsame, hq => by
    by_cases hy : y ∈ seen
    · rw [refreshQueue_skip root fuel queue own hy]
      exact refreshQueue_settled hc hS hclosed fuel queue seen own g' hsame
        fun z hz => hq z (List.mem_cons_of_mem y hz)
    · obtain ⟨v, hv, hk, hstores, hcache⟩ := hS y (hq y List.mem_cons_self)
      obtain ⟨own₁, g'', v', hrun, he, hc'', hseg, hother, hv'', hoff, hstores''⟩ :=
        @refreshQueue_visit _ _ root _ fuel queue _ own _ hsame.consistent hy
          ((hsame.vertex y).trans hv) (hcache.same hc hsame) hk
      -- the visit stores the address `y` already held, so nothing changed
      have hsame'' : g.Same g'' := by
        have heq : v' = v := hstores.eq_of_offUri hstores''
          (Address.iff_of_edges hc hc'' (he.trans hsame.edges)
            (hseg.trans (segAt_congr hsame.vertex)) y) hoff
        refine ⟨hc'', he.trans hsame.edges, fun z => ?_⟩
        by_cases hz : z = y
        · rw [hz, hv'', heq, hv]
        · rw [hother z hz, hsame.vertex z]
      rw [hrun]
      refine refreshQueue_settled hc hS hclosed fuel _ _ own₁ g'' hsame'' fun z hz => ?_
      rcases List.mem_append.mp hz with hz | hz
      · exact hq z (List.mem_cons_of_mem y hz)
      · rw [Graph.treeChildren_congr hc.edgeIndexed hsame.consistent.edgeIndexed hsame.edges]
          at hz
        exact hclosed y (hq y List.mem_cons_self) z hz

theorem refreshUri_settled {x : VertexId} {u : Option String} (hc : g.Consistent)
    (hS : ∀ y, S y → ∃ v, g.vertex? y = some v ∧ s.KeysOutside v ∧ s.StoresAddress g y v ∧
      s.CachedRightAbove g y)
    (hclosed : ∀ y, S y → ∀ z ∈ g.treeChildren y, S z) (hx : S x)
    (h : (s.refreshUri x).run g = .ok (u, g')) : g.Same g' := by
  obtain ⟨own, g'', hrun, hsame⟩ := @refreshQueue_settled _ _ _ x hc hS hclosed
    (g.vertices.length + g.edges.length + 2) [x] [] none g (.refl hc)
    fun y hy => List.mem_singleton.mp hy ▸ hx
  rw [refreshUri, GraphM.run_get_bind_eq_ok, hrun] at h
  cases h
  exact hsame

end Settled

/-- Refreshing a vertex that contains nothing stores its address, or none when that is unknown,
    and changes nothing else. -/
theorem refreshUri_childless {x : VertexId} {v : Vertex} {u : Option String} (hc : g.Consistent)
    (hv : g.vertex? x = some v) (hch : g.treeChildren x = []) (hcache : s.CachedRightAbove g x)
    (hk : s.KeysOutside v) (h : (s.refreshUri x).run g = .ok (u, g')) :
    ∃ v', g'.edges = g.edges ∧ g'.Consistent ∧ s.segAt g' = s.segAt g ∧
      (∀ z, z ≠ x → g'.vertex? z = g.vertex? z) ∧ g'.vertex? x = some v' ∧ v'.OffUri v ∧
      s.StoresAddress g' x v' := by
  obtain ⟨own, g₁, v', hrun, he, hc₁, hseg, hother, hv₁, hoff, hstores⟩ :=
    @refreshQueue_visit _ _ x _ (g.vertices.length + g.edges.length + 1) [] _ none _ hc
      List.not_mem_nil hv hcache hk
  rw [refreshUri, GraphM.run_get_bind_eq_ok] at h
  change (s.refreshQueue x (g.vertices.length + g.edges.length + 1 + 1) [x] [] none).run g = _
    at h
  rw [hrun, hch, List.append_nil, refreshQueue.eq_2] at h
  cases h
  exact ⟨v', he, hc₁, hseg, hother, hv₁, hoff, hstores⟩

end Scope

namespace Serializer

variable (s : Serializer)

/-- Two objects that land on one vertex when written under one parent: the same node type, and
    the same value of each key. -/
def Twins (a b : SchemaObject) : Prop :=
  a.nodeType = b.nodeType ∧ ∀ t, s.nodeType a.nodeType = .ok t → ∀ k ∈ t.keyProperties,
    a.properties.get? k.text = b.properties.get? k.text

instance (a b : SchemaObject) : Decidable (s.Twins a b) :=
  match h : s.nodeType a.nodeType with
  | .ok t => decidable_of_iff (a.nodeType = b.nodeType ∧ ∀ k ∈ t.keyProperties,
      a.properties.get? k.text = b.properties.get? k.text) (by simp [Twins, h])
  | .error _ => decidable_of_iff (a.nodeType = b.nodeType) (by simp [Twins, h])

/-- An object whose second write replays its first: its type declares no bookkeeping name and
    copies no data, and its children, each such an object in turn, list no relationships and
    are pairwise no twins. -/
inductive Replays : SchemaObject → Prop
  | intro {o : SchemaObject} {t : NodeType} : s.nodeType o.nodeType = .ok t → t.Replayable →
      o.children.Pairwise (fun a b => ¬ s.Twins a b) → (∀ c ∈ o.children, c.relationships = none) →
      (∀ c ∈ o.children, Replays c) → Replays o

/-- What the first write of `o` left at the vertex `v` of id `x`, under `parent`: the vertex is
    new since `g₀`; it has the object's type, its value of each declared property and of each
    key, a synthetic id and keys outside the bookkeeping; it holds its address, or none when
    that is unknown, and the cached addresses above it are right. -/
structure Lays (g₀ g : Graph) (parent : Option VertexId) (o : SchemaObject) (x : VertexId)
    (v : Vertex) : Prop where
  fresh : ¬ g₀.Live x
  stored : g.vertex? x = some v
  typed : v.nodeType = o.nodeType
  declared : ∀ t, s.nodeType o.nodeType = .ok t → ∀ d ∈ t.properties,
    v.property? d.name.text = o.properties.get? d.name.text
  keyed : ∀ t, s.nodeType o.nodeType = .ok t → ∀ k ∈ t.keyProperties,
    v.property? k.text = o.properties.get? k.text
  identified : (v.property? Bookkeeping.syntheticId).isSome
  keys : s.scope.KeysOutside v
  parent : g.treeParent? x = parent
  addressed : s.scope.StoresAddress g x v
  above : s.scope.CachedRightAbove g x

/-- The first write of `o` laid it out from the vertex of id `x`: the vertex lays `o`, and its
    tree children, in order, are the vertices its children were laid on. -/
inductive Laid (g₀ g : Graph) : Option VertexId → SchemaObject → VertexId → Prop
  | intro {parent : Option VertexId} {o : SchemaObject} {x : VertexId} {v : Vertex} :
      s.Lays g₀ g parent o x v → o.children.length = (g.treeChildren x).length →
      (∀ c y, (c, y) ∈ o.children.zip (g.treeChildren x) → Laid g₀ g (some x) c y) →
      Laid g₀ g parent o x

variable {s} {g₀ g₀' g g' : Graph} {o : SchemaObject}

theorem Replays.inv (h : s.Replays o) :
    ∃ t, s.nodeType o.nodeType = .ok t ∧ t.Replayable ∧
      o.children.Pairwise (fun a b => ¬ s.Twins a b) ∧
      (∀ c ∈ o.children, c.relationships = none) ∧ ∀ c ∈ o.children, s.Replays c := by
  cases h with
  | intro ht hrep hpw hrel hch => exact ⟨_, ht, hrep, hpw, hrel, hch⟩

section Laid

variable {p : Option VertexId} {x : VertexId}

theorem Laid.lays (h : s.Laid g₀ g p o x) : ∃ v, s.Lays g₀ g p o x v := by
  cases h with
  | intro hv _ _ => exact ⟨_, hv⟩

theorem Laid.children (h : s.Laid g₀ g p o x) :
    List.Forall₂ (s.Laid g₀ g (some x)) o.children (g.treeChildren x) := by
  cases h with
  | intro _ hlen hch => exact List.forall₂_iff_zip.mpr ⟨hlen, fun hm => hch _ _ hm⟩

theorem Laid.of_children {v : Vertex} (hv : s.Lays g₀ g p o x v)
    (hch : List.Forall₂ (s.Laid g₀ g (some x)) o.children (g.treeChildren x)) :
    s.Laid g₀ g p o x := by
  obtain ⟨hlen, hz⟩ := List.forall₂_iff_zip.mp hch
  exact .intro hv hlen fun _ _ hm => hz hm

theorem Lays.transport {v : Vertex} (h : s.Lays g₀ g p o x v) (ho : s.Replays o)
    (hfresh : ¬ g₀'.Live x) (ha : s.scope.Agrees g g' x) : ∃ v', s.Lays g₀' g' p o x v' := by
  obtain ⟨t, ht, hrep, -⟩ := ho.inv
  have hrel := ha.vertex
  rw [h.stored] at hrel
  cases hv' : g'.vertex? x with
  | none => rw [hv'] at hrel; cases hrel
  | some v' =>
    rw [hv'] at hrel
    obtain ⟨-, hnt, -, hp⟩ := Option.rel_some_some.mp hrel
    have hr : v.Restamps v' := Option.rel_some_some.mp hrel
    refine ⟨v', ⟨hfresh, hv', hnt.trans h.typed, fun t' ht' d hd => ?_, fun t' ht' k hk => ?_,
      ?_, h.keys.congr hnt, ha.parent.trans h.parent, fun q => ?_, ha.above h.above⟩⟩
    · have htt : t' = t := Except.ok.inj (ht'.symm.trans ht)
      exact (hr.property? (hrep d (htt ▸ hd)).1).trans (h.declared t' ht' d hd)
    · have hkt : s.scope.nodeType? v.nodeType.text = some t' := by
        rw [h.typed, ← nodeType_eq_ok]
        exact ht'
      exact (hr.property? (h.keys t' hkt k hk)).trans (h.keyed t' ht' k hk)
    · rw [hp _ Bookkeeping.syntheticId_unrestamped]
      exact h.identified
    · rw [hp _ Bookkeeping.uri_unrestamped]
      simpa only [ha.address] using h.addressed q

/-- A laid object stays laid in a store that agrees with this one at every vertex laid, with
    every vertex new since `g₀` new since `g₀'`. -/
theorem Laid.transport (hfresh : ∀ y, ¬ g₀.Live y → ¬ g₀'.Live y)
    (hagree : ∀ q c y, s.Laid g₀ g q c y → s.scope.Agrees g g' y) (h : s.Laid g₀ g p o x)
    (ho : s.Replays o) : s.Laid g₀' g' p o x := by
  induction h with
  | @intro p o x v hv hlen hch ih =>
    obtain ⟨t, -, -, -, -, hrc⟩ := ho.inv
    have ha := hagree p o x (.intro hv hlen hch)
    obtain ⟨v', hv'⟩ := hv.transport ho (hfresh x hv.fresh) ha
    refine .intro hv' (by rw [ha.children]; exact hlen) fun c y hm => ?_
    rw [ha.children] at hm
    exact ih c y hm (hrc c (List.of_mem_zip hm).1)

theorem Laid.transport_forall₂ {ds : List SchemaObject} {ys : List VertexId}
    (hfresh : ∀ y, ¬ g₀.Live y → ¬ g₀'.Live y)
    (hagree : ∀ q c y, s.Laid g₀ g q c y → s.scope.Agrees g g' y)
    (h : List.Forall₂ (s.Laid g₀ g p) ds ys) (hds : ∀ d ∈ ds, s.Replays d) :
    List.Forall₂ (s.Laid g₀' g' p) ds ys := by
  induction h with
  | nil => exact .nil
  | cons hd _ ih =>
    exact .cons (hd.transport hfresh hagree (hds _ List.mem_cons_self))
      (ih fun d hd' => hds d (List.mem_cons_of_mem _ hd'))

theorem Laid.of_mem {ds : List SchemaObject} {ys : List VertexId}
    (h : List.Forall₂ (s.Laid g₀ g p) ds ys) {y : VertexId} (hy : y ∈ ys) :
    ∃ d ∈ ds, s.Laid g₀ g p d y := by
  induction h with
  | nil => cases hy
  | cons hd _ ih =>
    rcases List.mem_cons.mp hy with rfl | hy
    · exact ⟨_, List.mem_cons_self, hd⟩
    · obtain ⟨d, hd', hdy⟩ := ih hy
      exact ⟨d, List.mem_cons_of_mem _ hd', hdy⟩

end Laid

end Serializer

end InventoryGraph
