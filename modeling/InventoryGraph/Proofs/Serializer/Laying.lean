import InventoryGraph.Proofs.Serializer.Layout

/-!
What a first write lays out. Written under no parent and onto no given vertex, an object gets a
new vertex, and so does each child below it, in order: a child's vertex is placed under its
parent's by a tree edge, stores its address when that is known, and is stamped with a synthetic
id once its own children are written. The object's relationships add cousin edges at its root;
nothing else stored before the write changes (`write_lays`).
-/
namespace InventoryGraph

namespace Graph

variable {g g' : Graph}

theorem CousinsBeside.vertex? (hb : g.CousinsBeside g') (x : VertexId) :
    g'.vertex? x = g.vertex? x := by
  simp only [Graph.vertex?, hb.vertices]

/-- A vertex off every tree stays off when only cousin edges come and go. -/
theorem CousinsBeside.offTree (hb : g.CousinsBeside g') {x : VertexId} (h : g.OffTree x) :
    g'.OffTree x := by
  intro e he htouch
  rcases hb.edges e he with he | hcous
  · exact h e he htouch
  · exact hcous

end Graph

namespace Serializer

variable {s : Serializer} {g₀ g h h' : Graph} {o : SchemaObject} {t : NodeType}

/-! ### The vertex a first write prepares -/

variable (s) in
/-- The vertex `v` a first write prepared for `o` of type `t`: new since `g₀`, stored with the
    object's type and its value of each declared property, no stamp, and its address, or none
    when that is unknown. -/
structure Prepared (g₀ h : Graph) (o : SchemaObject) (t : NodeType) (v : Vertex) : Prop where
  fresh : ¬ g₀.Live v.id
  stored : h.vertex? v.id = some v
  typed : v.nodeType = o.nodeType
  declared : ∀ d ∈ t.properties, v.property? d.name.text = o.properties.get? d.name.text
  unstamped : ∀ k, Bookkeeping.Stamped k → v.property? k = none
  addressed : s.scope.StoresAddress h v.id v

theorem Prepared.keyed {g₀ h : Graph} {v : Vertex} (hp : s.Prepared g₀ h o t v)
    (hval : s.validateObject o = .ok t) :
    ∀ k ∈ t.keyProperties, v.property? k.text = o.properties.get? k.text := by
  intro k hk
  obtain ⟨d, hd, hdk⟩ := (NodeType.declares_iff t k.text).mp
    ((validateObject_declares hval).2 k.text ((validateObject_inv hval).2.2 k hk))
  rw [← hdk]
  exact hp.declared d hd

/-- Relationships reconciled after the preparation keep the prepared vertex as it was. -/
theorem Prepared.beside {g₀ h h' : Graph} {v : Vertex} (hp : s.Prepared g₀ h o t v)
    (hb : Graph.CousinsBeside h h') : s.Prepared g₀ h' o t v where
  fresh := hp.fresh
  stored := (hb.vertex? v.id).trans hp.stored
  typed := hp.typed
  declared := hp.declared
  unstamped := hp.unstamped
  addressed q := by
    rw [hp.addressed q]
    simp only [Scope.address_iff_of_above (s := s.scope) hb.treeParent fun z _ => by
      rw [Scope.segAt_congr hb.vertex?]]

theorem keysOutside_of_valid {v : Vertex} (hval : s.validateObject o = .ok t)
    (hrep : t.Replayable) (hnt : v.nodeType = o.nodeType) : s.scope.KeysOutside v := by
  intro t' ht' k hk
  rw [hnt, ← nodeType_eq_ok, (validateObject_inv hval).1] at ht'
  cases ht'
  exact hrep.outside ((validateObject_declares hval).2 k.text ((validateObject_inv hval).2.2 k hk))

section NewVertex

variable {n : Identifier} {props : PropertyMap} {v : Vertex}

theorem declared_of_offUri_new (hrep : t.Replayable)
    (hoff : v.OffUri (applyProperties t (g.addVertex n).1 props)) {d : PropertyDef}
    (hd : d ∈ t.properties) : v.property? d.name.text = props.get? d.name.text := by
  have hu : d.name.text ≠ Bookkeeping.uri := fun hu => by
    have hb := (hrep d hd).1
    rw [hu] at hb
    cases hb
  rw [(Vertex.offUri_iff.mp hoff).2.2.2 _ hu, applyProperties_property?,
    if_pos ((NodeType.declares_iff t _).mpr ⟨d, hd, rfl⟩)]

theorem unstamped_of_offUri_new (hrep : t.Replayable)
    (hoff : v.OffUri (applyProperties t (g.addVertex n).1 props)) {k : String}
    (hk : Bookkeeping.Stamped k) : v.property? k = none := by
  obtain ⟨hb, hnt, hu⟩ := hk
  have hnd : t.declares k = false := by
    cases hd : t.declares k
    · rfl
    · rw [hrep.outside hd] at hb
      cases hb
  rw [(Vertex.offUri_iff.mp hoff).2.2.2 _ hu, applyProperties_property?, hnd]
  simp [Graph.addVertex, Vertex.new, Vertex.property?, PropertyMap.get?_insert,
    PropertyMap.get?_empty, hnt]

/-- Storing the declared properties of an object on the vertex just added for it changes no
    edge and nothing stored before, and leaves the vertex off every tree. -/
theorem store_new_vertex {h₂ : Graph} (hc : g.Consistent) (p : VertexId)
    (hup : (g.addVertex n).2.updateVertex (applyProperties t (g.addVertex n).1 props) = .ok h₂) :
    g.Extends p h₂ ∧ h₂.edges = g.edges ∧ h₂.OffTree (g.addVertex n).1.id ∧
      h₂.vertex? (g.addVertex n).1.id = some (applyProperties t (g.addVertex n).1 props) := by
  have hfresh := Graph.addVertex_fresh hc n
  obtain ⟨h₂', hup', he₂, hc₂, hv₂⟩ := @Graph.updateVertex_spec (g.addVertex n).2
    (applyProperties t (g.addVertex n).1 props) (g.addVertex n).1
    (Graph.addVertex_consistent hc _)
    (by rw [applyProperties_id, Graph.vertex?_addVertex hc, if_pos rfl]) (by simp) (by simp)
  obtain rfl : h₂ = h₂' := Except.ok.inj (hup.symm.trans hup')
  refine ⟨((Graph.Extends.refl hc p).addVertex n).updateVertex hup (by simpa using hfresh), he₂,
    fun e he htouch => ?_, ?_⟩
  · rw [he₂] at he
    rw [Graph.touches_of_not_live hc hfresh e he] at htouch
    cases htouch
  · have hA := hv₂ (g.addVertex n).1.id
    rw [applyProperties_id, if_pos rfl] at hA
    exact hA

end NewVertex

/-- The refresh that ends a first preparation stores the new vertex's address, or none when that
    is unknown, and leaves the vertex prepared. -/
theorem prepared_of_refresh {p : VertexId} {h₃ : Graph} {v : Vertex} {u : Option String}
    (hc : g.Consistent) (hval : s.validateObject o = .ok t) (hrep : t.Replayable)
    (hext : g.Extends p h₃)
    (hv : h₃.vertex? (g.addVertex o.nodeType).1.id =
      some (applyProperties t (g.addVertex o.nodeType).1 o.properties))
    (hch : h₃.treeChildren (g.addVertex o.nodeType).1.id = [])
    (hcache : s.scope.CachedRightAbove h₃ (g.addVertex o.nodeType).1.id)
    (hr : (s.scope.refreshUri (g.addVertex o.nodeType).1.id).run h₃ = .ok (u, h'))
    (hfin : h'.vertex? (g.addVertex o.nodeType).1.id = some v) :
    v.id = (g.addVertex o.nodeType).1.id ∧ s.Prepared g h' o t v ∧ g.Extends p h' ∧
      h'.edges = h₃.edges := by
  have hfresh := Graph.addVertex_fresh hc o.nodeType
  obtain ⟨v₁, he, hc', -, hother, hv₁, hoff, hstores⟩ := Scope.refreshUri_childless
    hext.consistent hv hch hcache
    (keysOutside_of_valid hval hrep (by simp [Graph.addVertex, Vertex.new])) hr
  obtain rfl : v = v₁ := Option.some.inj (hfin.symm.trans hv₁)
  obtain ⟨hid, hnt, -, -⟩ := Vertex.offUri_iff.mp hoff
  simp only [applyProperties_id] at hid
  refine ⟨hid, ⟨hid ▸ hfresh, hid ▸ hv₁, ?_, fun d hd => declared_of_offUri_new hrep hoff hd,
    fun k hk => unstamped_of_offUri_new hrep hoff hk, hid ▸ hstores⟩,
    hext.change hc' (refreshUri_grows hr) he hother hfresh, he⟩
  simp [hnt, Graph.addVertex, Vertex.new]

/-- Cached addresses are right above a vertex whose parent stored its address and had right
    cached addresses above it in a store this one grows. -/
theorem cachedRightAbove_below {p x : VertexId} {pv : Vertex} (hc : h.Consistent)
    (hext : h.Extends p h') (hpv : h.vertex? p = some pv) (hps : s.scope.StoresAddress h p pv)
    (hpa : s.scope.CachedRightAbove h p) (hpar : h'.treeParent? x = some p) :
    s.scope.CachedRightAbove h' x :=
  have hpl := Graph.live_of_vertex? hpv
  Scope.cachedRightAbove_of_parent ((hext.vertex p hpl).trans hpv) (hps.extend hc hext hpl)
    (hpa.extend hc hext hpl) hpar

/-- The first write's preparation of a child: the object lands on a new vertex, placed last under
    its parent and holding the object's declared properties and its address; nothing stored
    before changes. -/
theorem prepare_first_child {p pv v : Vertex} {working : SchemaObject} {isNew : Bool}
    (hc : h.Consistent) (hval : s.validateObject o = .ok t) (hrep : t.Replayable)
    (hpv : h.vertex? p.id = some pv) (hps : s.scope.StoresAddress h p.id pv)
    (hpa : s.scope.CachedRightAbove h p.id)
    (hrun : (s.prepare (some p) o none).run h = .ok ((working, v, isNew), h')) :
    working = o ∧ isNew = true ∧ s.Prepared h h' o t v ∧ h.Extends p.id h' ∧
      h'.treeChildren p.id = h.treeChildren p.id ++ [v.id] ∧ h'.treeChildren v.id = [] ∧
      h'.treeParent? v.id = some p.id ∧ s.scope.CachedRightAbove h' v.id := by
  obtain ⟨hwork, v₀, h₁, htarget, hstore⟩ :=
    prepare_of_no_templates (validateObject_inv hval).1 (fun d hd => (hrep d hd).2) hrun
  rcases target_run_inv htarget with ⟨_, he, -⟩ | ⟨-, -, hadd, rfl⟩
  · cases he
  obtain rfl : (h.addVertex o.nodeType).1 = v₀ := congrArg Prod.fst hadd
  obtain rfl : (h.addVertex o.nodeType).2 = h₁ := congrArg Prod.snd hadd
  have hfresh := Graph.addVertex_fresh hc o.nodeType
  have hpl := Graph.live_of_vertex? hpv
  obtain ⟨h₂, hup, added, h₃, hplace, -, hrefresh, hv⟩ := store_run_inv hstore
  obtain ⟨u, hr⟩ := hrefresh rfl
  obtain ⟨hext₂, he₂, hoff, hv₂⟩ := store_new_vertex hc p.id hup
  -- the tree edge from the parent is the new vertex's only edge
  rcases ensureTreeEdge_run_inv hplace with ⟨hpar, -, -⟩ | ⟨-, rfl, c, e, hcv, hattach⟩
  · rw [hoff.treeParent? hext₂.consistent.edgeIndexed] at hpar
    cases hpar
  obtain ⟨e₀, het, hep, hec, hadd₃⟩ := Scope.addTreeEdge_adds hattach
  obtain ⟨-, hcid⟩ := Graph.mem_of_vertex? hcv
  rw [hcid] at hec
  have hext₃ : h.Extends p.id h₃ := hext₂.attach hadd₃ het hep hec hfresh
  obtain ⟨hpar₃, hch₃, hpc₃⟩ := Graph.attach_offTree hext₂.consistent hoff
    (fun hpx => hfresh (hpx ▸ hpl)) hadd₃ het hep hec
  rw [Graph.treeChildren_congr hc.edgeIndexed hext₂.consistent.edgeIndexed he₂] at hpc₃
  have hv₃ : h₃.vertex? (h.addVertex o.nodeType).1.id =
      some (applyProperties t (h.addVertex o.nodeType).1 o.properties) := by
    simp only [Graph.vertex?, Graph.addEdge_vertices hadd₃]
    exact hv₂
  -- the refresh stores the new vertex's address, read off its parent's
  obtain ⟨hid, hpd, hext, he⟩ := prepared_of_refresh hc hval hrep hext₃ hv₃ hch₃
    (cachedRightAbove_below hc hext₃ hpv hps hpa hpar₃) hr hv
  have hch := Graph.treeChildren_congr hext₃.consistent.edgeIndexed hext.consistent.edgeIndexed he
  have hpar := Graph.treeParent?_congr hext₃.consistent.edgeIndexed hext.consistent.edgeIndexed he
  refine ⟨hwork, rfl, hpd, hext, ?_, ?_, ?_, cachedRightAbove_below hc hext hpv hps hpa ?_⟩ <;>
    rw [hid]
  · rw [hch, hpc₃]
  · rw [hch, hch₃]
  all_goals rw [hpar, hpar₃]

/-- The first write's preparation of a root: the object lands on a new vertex, holding the
    object's declared properties and its segment as its address; nothing stored before
    changes. -/
theorem prepare_first_root {v : Vertex} {working : SchemaObject} {isNew : Bool}
    (hc : g.Consistent) (hval : s.validateObject o = .ok t) (hrep : t.Replayable)
    (hrun : (s.prepare none o none).run g = .ok ((working, v, isNew), h')) :
    working = o ∧ isNew = true ∧ s.Prepared g h' o t v ∧ g.Extends v.id h' ∧
      h'.OffTree v.id := by
  obtain ⟨hwork, v₀, h₁, htarget, hstore⟩ :=
    prepare_of_no_templates (validateObject_inv hval).1 (fun d hd => (hrep d hd).2) hrun
  rcases target_run_inv htarget with ⟨_, he, -⟩ | ⟨-, -, hadd, rfl⟩
  · cases he
  obtain rfl : (g.addVertex o.nodeType).1 = v₀ := congrArg Prod.fst hadd
  obtain rfl : (g.addVertex o.nodeType).2 = h₁ := congrArg Prod.snd hadd
  obtain ⟨h₂, hup, added, h₃, hplace, -, hrefresh, hv⟩ := store_run_inv hstore
  obtain ⟨u, hr⟩ := hrefresh rfl
  obtain ⟨-, rfl⟩ := GraphM.run_pure_eq_ok.mp hplace
  obtain ⟨hext₂, -, hoff, hv₂⟩ := store_new_vertex hc (g.addVertex o.nodeType).1.id hup
  -- no edge touches the new vertex: it stands in no tree
  have hroot := hoff.treeParent? hext₂.consistent.edgeIndexed
  obtain ⟨hid, hpd, hext, he⟩ := prepared_of_refresh hc hval hrep hext₂ hv₂
    (hoff.treeChildren hext₂.consistent.edgeIndexed) (Scope.cachedRightAbove_of_root hroot) hr hv
  refine ⟨hwork, rfl, hpd, hid ▸ hext, ?_⟩
  rw [hid]
  exact fun e he' => hoff e (he ▸ he')

/-! ### The stamp that ends a write -/

/-- Stamping a written vertex whose keys are no bookkeeping names, and storing it, changes that
    vertex only, and neither its segment nor its cached address. -/
theorem touch_update_stamps {v w : Vertex} {isNew : Bool} {h₁ h₂ : Graph} (hc : h.Consistent)
    (hv : h.vertex? v.id = some v) (hk : s.scope.KeysOutside v)
    (ht : (s.touch v isNew).run h = .ok (w, h₁)) (hup : h₁.updateVertex w = .ok h₂) :
    s.scope.Stamps h v w h₂ := by
  obtain ⟨c, rfl, -, hid, hnt, hcr, hp, -⟩ := touch_run_inv ht
  obtain ⟨h₂', hup', he, hc₂, hv₂⟩ := @Graph.updateVertex_spec { h with clock := c } w v
    (hc.withClock c) (by rw [hid]; exact hv) hnt.symm hcr
  obtain rfl : h₂ = h₂' := Except.ok.inj (hup.symm.trans hup')
  have hstored : h₂.vertex? v.id = some w := by rw [hv₂, if_pos hid.symm]
  have hothers : ∀ y, y ≠ v.id → h₂.vertex? y = h.vertex? y := fun y hy => by
    rw [hv₂, if_neg (hid ▸ hy)]
    rfl
  refine ⟨hc₂, (touch_grows ht).trans (Graph.updateVertex_grows hup), he, hstored, hothers, ?_,
    hp _ (.inr (.inl rfl))⟩
  funext y
  by_cases hy : y = v.id
  · rw [hy]
    simp only [Scope.segAt, hstored, hv, Option.bind_some]
    exact Scope.segment?_of_bookkeeping hk hnt fun k hb => hp k (.inr (.inr hb))
  · simp only [Scope.segAt, hothers y hy]

/-- A prepared vertex, stamped once the writes below it are done, lays its object. -/
theorem Prepared.lays_of_stamp {parent : Option VertexId} {v w : Vertex} {isNew : Bool}
    {h₁ h₁' h₂ : Graph} (hp : s.Prepared g₀ h o t v) (hval : s.validateObject o = .ok t)
    (hrep : t.Replayable) (hc : h.Consistent) (hext : h.Extends v.id h₁)
    (hpar : h.treeParent? v.id = parent) (habove : s.scope.CachedRightAbove h v.id)
    (ht : (s.touch v isNew).run h₁ = .ok (w, h₁')) (hup : h₁'.updateVertex w = .ok h₂) :
    s.Lays g₀ h₂ parent o w.id w ∧ s.scope.Stamps h₁ v w h₂ := by
  have hlive := Graph.live_of_vertex? hp.stored
  have hv₁ : h₁.vertex? v.id = some v := (hext.vertex v.id hlive).trans hp.stored
  have hk := keysOutside_of_valid hval hrep hp.typed
  have hst := touch_update_stamps hext.consistent hv₁ hk ht hup
  obtain ⟨-, -, -, hid, hnt, -, -, -⟩ := touch_run_inv ht
  have htt : ∀ t', s.nodeType o.nodeType = .ok t' → t' = t := fun t' ht' =>
    Except.ok.inj (ht'.symm.trans (validateObject_inv hval).1)
  -- the declared properties, keys among them, are outside the bookkeeping a stamp writes
  have hkept : ∀ k, t.declares k = true → w.property? k = v.property? k := fun k hd =>
    touch_run_unstamped ht k fun hs => Bool.false_ne_true ((hrep.outside hd).symm.trans hs.1)
  refine ⟨⟨hid ▸ hp.fresh, hid ▸ hst.stored, hnt.trans hp.typed, fun t' ht' d hd => ?_,
    fun t' ht' k hk' => ?_, touch_run_syntheticId ht, hk.congr hnt, ?_,
    hid ▸ hst.storesAddress hext.consistent (hp.addressed.extend hc hext hlive),
    hid ▸ hst.above hext.consistent hv₁ (habove.extend hc hext hlive)⟩, hst⟩
  · obtain rfl := htt t' ht'
    rw [hkept _ ((NodeType.declares_iff t' _).mpr ⟨d, hd, rfl⟩)]
    exact hp.declared d hd
  · obtain rfl := htt t' ht'
    rw [hkept _ ((validateObject_declares hval).2 k.text ((validateObject_inv hval).2.2 k hk'))]
    exact hp.keyed hval k hk'
  · rw [Graph.treeParent?_congr hext.consistent.edgeIndexed hst.consistent.edgeIndexed hst.edges,
      hid, hext.parent v.id hlive, hpar]

/-- Children laid below a vertex stay laid below it through the vertex's stamp, and are new with
    respect to any store that the one they were laid from grows out of. -/
theorem Laid.children_of_stamp {h₃ h₄ : Graph} {v w : Vertex} {cs : List SchemaObject}
    (hst : s.scope.Stamps h₄ v w h') (hc : h₄.Consistent) (hv : h₄.vertex? v.id = some v)
    (hid : w.id = v.id) (hlive : h₃.Live v.id) (hg : g.Grows h₃)
    (hlaid : List.Forall₂ (s.Laid h₃ h₄ (some v.id)) cs (h₄.treeChildren v.id))
    (hcs : ∀ c ∈ cs, s.Replays c) :
    List.Forall₂ (s.Laid g h' (some w.id)) cs (h'.treeChildren w.id) := by
  rw [Graph.treeChildren_congr hc.edgeIndexed hst.consistent.edgeIndexed hst.edges, hid]
  refine Laid.transport_forall₂ (fun y hy hy' => hy (hg.live hy'))
    (fun q c y hy => hst.agrees_of_ne hc hv ?_) hlaid hcs
  -- a laid child is new since the store its parent was prepared in, so it is not the parent
  obtain ⟨u, hu⟩ := hy.lays
  exact fun hyv => hu.fresh (hyv ▸ hlive)

/-! ### Children written below a new vertex -/

/-- A vertex laid from `d` that matches `c` by type and keys makes `d` and `c` twins. -/
theorem Laid.twins_of_match {q : Option VertexId} {d c : SchemaObject} {y : VertexId} {v : Vertex}
    (hy : s.Laid g₀ h q d y) (ht : s.nodeType c.nodeType = .ok t) (hv : h.vertex? y = some v)
    (hm : (v.nodeType == c.nodeType && sameKeys t v c) = true) : s.Twins d c := by
  obtain ⟨u, hu⟩ := hy.lays
  obtain rfl : u = v := Option.some.inj (hu.stored.symm.trans hv)
  simp only [Bool.and_eq_true, beq_iff_eq] at hm
  obtain ⟨hnt, hkeys⟩ := hm
  have hdc : d.nodeType = c.nodeType := hu.typed.symm.trans hnt
  refine ⟨hdc, fun t' ht' k hk => ?_⟩
  obtain rfl : t' = t := Except.ok.inj (ht'.symm.trans (hdc ▸ ht))
  rw [← hu.keyed t' ht' k hk]
  exact beq_iff_eq.mp (List.all_eq_true.mp hkeys k hk)

/-- Among vertices laid from objects none of which is a twin of `c`, none matches `c`. -/
theorem findSome?_laid_none {q : Option VertexId} {c : SchemaObject} {ds : List SchemaObject}
    {ys : List VertexId} (hds : List.Forall₂ (s.Laid g₀ h q) ds ys)
    (htw : ∀ d ∈ ds, ¬ s.Twins d c) (ht : s.nodeType c.nodeType = .ok t) :
    ys.findSome? (fun id => (h.vertex? id).filter fun v =>
      v.nodeType == c.nodeType && sameKeys t v c) = none := by
  rw [List.findSome?_eq_none_iff]
  intro y hy
  obtain ⟨d, hd, hdy⟩ := Laid.of_mem hds hy
  cases hv : h.vertex? y with
  | none => rfl
  | some v => rw [Option.filter_some, if_neg fun hm => htw d hd (hdy.twins_of_match ht hv hm)]

/-- Among children laid from objects none of which is a twin of `c`, no child is found for `c`. -/
theorem findChild_laid_none {p : Vertex} {c : SchemaObject} {done : List SchemaObject}
    {found : Option Vertex} (hlaid : List.Forall₂ (s.Laid g₀ h (some p.id)) done
      (h.treeChildren p.id)) (htw : ∀ d ∈ done, ¬ s.Twins d c)
    (hfind : s.findChild h p c = .ok found) : found = none := by
  unfold findChild at hfind
  obtain ⟨t, ht, hfind⟩ := Except.bind_eq_ok.mp hfind
  rw [← Except.ok.inj hfind]
  exact findSome?_laid_none hlaid htw ht

variable (s) in
/-- What a first write of `o` below `p` leaves, where `o` replays and lists no relationships:
    `o` laid out from a new vertex placed last under `p`, and the rest of the store as a write
    below `p` leaves it. -/
def ChildLaid (parent : Option Vertex) (o : SchemaObject) (existing : Option Vertex) : Prop :=
  ∀ {p pv w : Vertex} {h h' : Graph}, parent = some p → existing = none → h.Consistent →
    s.Replays o → o.relationships = none → h.vertex? p.id = some pv →
    s.scope.StoresAddress h p.id pv → s.scope.CachedRightAbove h p.id →
    (s.write parent o existing).run h = .ok (w, h') →
    s.Laid h h' (some p.id) o w.id ∧ h.Extends p.id h' ∧
      h'.treeChildren p.id = h.treeChildren p.id ++ [w.id]

variable (s) in
/-- What a first write of the children `cs` below `p` leaves, after the children `done` were
    laid since `g₀` as the tree children of `p`: all of them laid, in order, as its tree
    children. -/
def ChildrenLaid (p : Vertex) (cs : List SchemaObject) : Prop :=
  ∀ {g₀ h h' : Graph} {pv : Vertex} {done : List SchemaObject}, h.Consistent → g₀.Grows h →
    g₀.Live p.id → h.vertex? p.id = some pv → s.scope.StoresAddress h p.id pv →
    s.scope.CachedRightAbove h p.id →
    List.Forall₂ (s.Laid g₀ h (some p.id)) done (h.treeChildren p.id) →
    (done ++ cs).Pairwise (fun a b => ¬ s.Twins a b) → (∀ c ∈ done ++ cs, s.Replays c) →
    (∀ c ∈ cs, c.relationships = none) → (s.writeChildren p cs).run h = .ok ((), h') →
    List.Forall₂ (s.Laid g₀ h' (some p.id)) (done ++ cs) (h'.treeChildren p.id) ∧
      h.Extends p.id h'

theorem childLaid_write {parent existing : Option Vertex} {nt : Identifier} {props : PropertyMap}
    {rv : Option String} {rels : Option (List RelationshipRef)} {children : List SchemaObject}
    (ih : ∀ v, s.ChildrenLaid v children) :
    s.ChildLaid parent ⟨nt, props, rv, rels, children⟩ existing := by
  intro p pv w h h' hparent hexisting hc ho hrel hpv hps hpa hrun
  subst hparent hexisting
  obtain ⟨working, v, isNew, h₂, hprep, h₃, hrec, h₄, hch, h₅, htouch, hup⟩ :=
    write_prepare_run_inv hrun
  obtain ⟨t, hval, -⟩ := prepare_run_inv hprep
  obtain ⟨t', ht', hrep, hpw, hcrel, hcrep⟩ := ho.inv
  obtain rfl : t' = t := Except.ok.inj (ht'.symm.trans (validateObject_inv hval).1)
  obtain ⟨rfl, rfl, hpd, hext₂, hpc₂, hvc₂, hvp₂, hva₂⟩ :=
    prepare_first_child hc hval hrep hpv hps hpa hprep
  obtain rfl : rels = none := hrel
  obtain rfl : h₂ = h₃ := (GraphM.run_pure_eq_ok.mp hrec).2
  have hlive₂ := Graph.live_of_vertex? hpd.stored
  -- the children are laid below the new vertex since the store it was prepared in
  obtain ⟨hlaid₄, hext₄⟩ := ih v hext₂.consistent (.refl h₂) hlive₂ hpd.stored hpd.addressed hva₂
    (show List.Forall₂ (s.Laid h₂ h₂ (some v.id)) [] (h₂.treeChildren v.id) by
      rw [hvc₂]
      exact .nil)
    (by simpa using hpw) (by simpa using hcrep) hcrel hch
  obtain ⟨hlays, hst⟩ := hpd.lays_of_stamp hval hrep hext₂.consistent hext₄ hvp₂ hva₂ htouch hup
  obtain ⟨-, -, -, hid, -⟩ := touch_run_inv htouch
  have hkids := Laid.children_of_stamp hst hext₄.consistent
    ((hext₄.vertex v.id hlive₂).trans hpd.stored) hid hlive₂ hext₂.grows (by simpa using hlaid₄)
    hcrep
  have hpl := Graph.live_of_vertex? hpv
  refine ⟨Laid.of_children hlays hkids,
    hst.extends (hext₂.trans hext₄ (.inr hpd.fresh)) hpd.fresh, ?_⟩
  rw [Graph.treeChildren_congr hext₄.consistent.edgeIndexed hst.consistent.edgeIndexed hst.edges,
    hext₄.children p.id (hext₂.grows.live hpl) fun hpv' => hpd.fresh (hpv' ▸ hpl), hpc₂, hid]

theorem childrenLaid_nil (p : Vertex) : s.ChildrenLaid p [] := by
  intro g₀ h h' pv done hc _ _ _ _ _ hdone _ _ _ hrun
  rw [writeChildren_nil_run] at hrun
  cases hrun
  exact ⟨by simpa using hdone, .refl hc p.id⟩

theorem childrenLaid_cons {p : Vertex} {c : SchemaObject} {cs : List SchemaObject}
    (ihc : ∀ found, s.ChildLaid (some p) c found) (ihs : s.ChildrenLaid p cs) :
    s.ChildrenLaid p (c :: cs) := by
  intro g₀ h h' pv done hc hg hp hpv hps hpa hdone hpw hrep hrel hrun
  obtain ⟨found, hfind, w, h₁, hw, hrest⟩ := writeChildren_cons_run_inv hrun
  have hpl := Graph.live_of_vertex? hpv
  -- no child laid before is a twin of `c`, so `c` gets a vertex of its own
  obtain rfl := findChild_laid_none hdone
    (fun d hd => (List.pairwise_append.mp hpw).2.2 d hd c List.mem_cons_self) hfind
  have hcrep : s.Replays c := hrep c (List.mem_append_right _ List.mem_cons_self)
  obtain ⟨hlaid, hext, hpc⟩ := ihc none rfl rfl hc hcrep (hrel c List.mem_cons_self) hpv hps hpa hw
  -- the children laid before are new since `g₀`, where `p` stood: none of them is `p`
  have hdone₁ : List.Forall₂ (s.Laid g₀ h₁ (some p.id)) (done ++ [c]) (h₁.treeChildren p.id) := by
    rw [hpc]
    refine List.rel_append (Laid.transport_forall₂ (fun _ hy => hy) (fun q d y hy => ?_) hdone
      fun d hd => hrep d (List.mem_append_left _ hd))
      (.cons (hlaid.transport (fun y hy hy' => hy (hg.live hy'))
        (fun _ _ y _ => Scope.Agrees.refl h₁ y) hcrep) .nil)
    obtain ⟨u, hu⟩ := hy.lays
    exact Scope.agrees_of_extends hc hext (Graph.live_of_vertex? hu.stored)
      fun hyp => hu.fresh (hyp ▸ hp)
  obtain ⟨hall, hext'⟩ := ihs hext.consistent (hg.trans hext.grows) hp
    ((hext.vertex p.id hpl).trans hpv) (hps.extend hc hext hpl) (hpa.extend hc hext hpl) hdone₁
    (by simpa using hpw) (by simpa using hrep) (fun d hd => hrel d (List.mem_cons_of_mem _ hd))
    hrest
  exact ⟨by simpa using hall, hext.trans hext' (.inl rfl)⟩

/-- A first write of children that replay and list no relationships lays each of them, in order,
    below their parent. -/
theorem childrenLaid (s : Serializer) (p : Vertex) (cs : List SchemaObject) :
    s.ChildrenLaid p cs :=
  (write.mutual_induct (fun parent o existing => s.ChildLaid parent o existing)
    (fun p cs => s.ChildrenLaid p cs) (fun _ _ _ _ _ _ _ ih => childLaid_write ih)
    childrenLaid_nil (fun _ _ _ ihc ihs => childrenLaid_cons ihc ihs)).2 p cs

/-! ### The first write of a root -/

/-- A stamp shows the unstamped vertex it started from: every property the vertex had, it keeps. -/
theorem touch_run_shows {v w : Vertex} {isNew : Bool} {h₁ : Graph}
    (hv : ∀ k, Bookkeeping.Stamped k → v.property? k = none)
    (ht : (s.touch v isNew).run h = .ok (w, h₁)) : Graph.Shows (fun _ => True) v w := by
  obtain ⟨-, -, -, hid, hnt, -⟩ := touch_run_inv ht
  refine ⟨hid, hnt, fun k _ x hx => ?_⟩
  by_cases hk : Bookkeeping.Stamped k
  · rw [hv k hk] at hx
    cases hx
  · rw [touch_run_unstamped ht k hk]
    exact hx

/-- A store that keeps every other vertex of the store a vertex was prepared in, and every tree
    parent there, and holds the prepared vertex stamped, covers that store. -/
theorem Prepared.covers {h₁ : Graph} {v w : Vertex} (hp : s.Prepared g₀ h o t v)
    (hc : h.Consistent) (hkept : ∀ x, h.Live x → x ≠ v.id → h₁.vertex? x = h.vertex? x)
    (hparent : ∀ x, h.Live x → h₁.treeParent? x = h.treeParent? x)
    (hw : h₁.vertex? v.id = some w) (hshow : Graph.Shows (fun _ => True) v w) :
    h.Covers (fun _ => True) h₁ := by
  refine ⟨fun u hu => ?_, fun u hu => hparent u.id ⟨u, hu, rfl⟩⟩
  have hu' := Graph.vertex?_of_mem hc.vertexIndexed hu
  by_cases huv : u.id = v.id
  · obtain rfl : u = v := by
      rw [huv, hp.stored] at hu'
      exact (Option.some.inj hu').symm
    exact ⟨w, (Graph.mem_of_vertex? hw).1, hshow⟩
  · exact ⟨u, (Graph.mem_of_vertex? ((hkept u.id ⟨u, hu, rfl⟩ huv).trans hu')).1,
      Graph.Shows.refl u⟩

/-- A first write of an object that replays, under no parent and onto no given vertex, lays the
    object out from a new root vertex and leaves every vertex stored before as it was. When the
    object lists relationships, its cousin edges are joined to what they named in the store
    they were resolved in, a store the written one covers. -/
theorem write_lays {w : Vertex} {g₁ : Graph} (hc : g.Consistent) (ho : s.Replays o)
    (hrun : (s.write none o none).run g = .ok (w, g₁)) :
    g₁.Consistent ∧ s.Laid g g₁ none o w.id ∧ g₁.vertex? w.id = some w ∧
      (∀ x, g.Live x → g₁.vertex? x = g.vertex? x) ∧
      ∀ rels, o.relationships = some rels →
        ∃ g₀, g₀.Consistent ∧ g₀.Covers (fun _ => True) g₁ ∧ s.Joined g₀ w rels g₁ := by
  obtain ⟨working, v, isNew, h₂, hprep, h₃, hrec, h₄, hch, h₅, htouch, hup⟩ :=
    write_prepare_run_inv hrun
  obtain ⟨t, hval, -⟩ := prepare_run_inv hprep
  obtain ⟨t', ht', hrep, hpw, hcrel, hcrep⟩ := ho.inv
  obtain rfl : t' = t := Except.ok.inj (ht'.symm.trans (validateObject_inv hval).1)
  obtain ⟨hwork, rfl, hpd, hext₂, hoff₂⟩ := prepare_first_root hc hval hrep hprep
  rw [hwork] at hrec
  -- the relationships come and go as cousin edges, which leave the root off every tree
  have hb := reconcileListed_cousinsBeside hext₂.consistent hrec
  have hc₃ := hb.consistent
  have hpd₃ := hpd.beside hb
  have hoff₃ := hb.offTree hoff₂
  have hvp₃ := hoff₃.treeParent? hc₃.edgeIndexed
  have hlive₃ := Graph.live_of_vertex? hpd₃.stored
  have hgrow : g.Grows h₃ := hext₂.grows.trans (Graph.Grows.of_vertices hb.vertices)
  obtain ⟨hlaid₄, hext₄⟩ := childrenLaid s v o.children hc₃ (.refl h₃) hlive₃ hpd₃.stored
    hpd₃.addressed (Scope.cachedRightAbove_of_root hvp₃)
    (show List.Forall₂ (s.Laid h₃ h₃ (some v.id)) [] (h₃.treeChildren v.id) by
      rw [hoff₃.treeChildren hc₃.edgeIndexed]
      exact .nil)
    (by simpa using hpw) (by simpa using hcrep) hcrel hch
  obtain ⟨hlays, hst⟩ := hpd₃.lays_of_stamp hval hrep hc₃ hext₄ hvp₃
    (Scope.cachedRightAbove_of_root hvp₃) htouch hup
  obtain ⟨-, -, -, hid, hnt, -⟩ := touch_run_inv htouch
  have hkids := Laid.children_of_stamp hst hext₄.consistent
    ((hext₄.vertex v.id hlive₃).trans hpd₃.stored) hid hlive₃ hgrow (by simpa using hlaid₄)
    hcrep
  -- past the preparation, the write changes no vertex but the root, and no tree parent
  have hlive : ∀ x, h₂.Live x → h₃.Live x := fun x => (Graph.Grows.of_vertices hb.vertices).live
  have hkept : ∀ x, h₂.Live x → x ≠ v.id → g₁.vertex? x = h₂.vertex? x := fun x hx hxv => by
    rw [hst.others x hxv, hext₄.vertex x (hlive x hx), hb.vertex?]
  have hparent : ∀ x, h₂.Live x → g₁.treeParent? x = h₂.treeParent? x := fun x hx => by
    rw [Graph.treeParent?_congr hext₄.consistent.edgeIndexed hst.consistent.edgeIndexed hst.edges,
      hext₄.parent x (hlive x hx), hb.treeParent]
  refine ⟨hst.consistent, Laid.of_children hlays hkids, hid ▸ hst.stored, fun x hx => ?_,
    fun rels hrels => ?_⟩
  · rw [hkept x (hext₂.grows.live hx) fun hxv => hpd.fresh (hxv ▸ hx), hext₂.vertex x hx]
  · rw [hrels] at hrec
    obtain ⟨-, hrec'⟩ := reconcile_reconciled hext₂.consistent hrec
    refine ⟨h₂, hext₂.consistent,
      hpd.covers hext₂.consistent hkept hparent hst.stored (touch_run_shows hpd.unstamped htouch),
      ((hrec'.joined.extend hext₄.kept hext₄.cousins).extend (fun e he => hst.edges ▸ he)
        fun e he _ => hst.edges ▸ he).congr hid hnt⟩

end Serializer
end InventoryGraph
