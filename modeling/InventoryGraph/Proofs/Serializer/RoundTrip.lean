import InventoryGraph.Proofs.Serializer.Stages
import InventoryGraph.Serializer.Read

/-!
Writing an object and reading its vertex back. Storing sets every declared property to the
object's value or clears it; recomputing addresses changes only addresses; the stamp sets only
bookkeeping; and reading back collects the declared properties the vertex has. So when the
type declares no bookkeeping name the stamp or the address overwrites, and copies no data, the
object read back holds exactly the properties written, and the stamped resource version.

What the store holds at a vertex is tracked up to its address (`Graph.HoldsUpToUri`), which
every address update keeps.
-/
namespace InventoryGraph

namespace Graph

/-- The store holds at `x` a vertex of `w`'s type that agrees with `w` on every property but
    the address. -/
def HoldsUpToUri (g : Graph) (x : VertexId) (w : Vertex) : Prop :=
  ∃ v, g.vertex? x = some v ∧ v.nodeType = w.nodeType ∧
    ∀ k, k ≠ Bookkeeping.uri → v.property? k = w.property? k

theorem updateVertex_holds {g g' : Graph} {w : Vertex} (hup : g.updateVertex w = .ok g') :
    g'.HoldsUpToUri w.id w := by
  obtain ⟨old, -, hx⟩ := vertex?_updateVertex hup w.id
  exact ⟨updated old w, by rw [hx, if_pos rfl], rfl, fun _ _ => rfl⟩

theorem HoldsUpToUri.of_vertices {g g' : Graph} {x : VertexId} {w : Vertex}
    (h : g.HoldsUpToUri x w) (he : g'.vertices = g.vertices) : g'.HoldsUpToUri x w := by
  simpa only [HoldsUpToUri, vertex?, he] using h

theorem HoldsUpToUri.of_updateVertex {g g' : Graph} {x : VertexId} {w v u : Vertex}
    (h : g.HoldsUpToUri x w) (hup : g.updateVertex u = .ok g') (hv : g.vertex? u.id = some v)
    (hty : u.nodeType = v.nodeType) (hp : ∀ k, k ≠ Bookkeeping.uri → u.property? k = v.property? k) :
    g'.HoldsUpToUri x w := by
  obtain ⟨y, hy, hyt, hyp⟩ := h
  obtain ⟨old, hold, hx⟩ := vertex?_updateVertex hup x
  by_cases hxu : x = u.id
  · subst hxu
    obtain rfl : y = v := Option.some.inj (hy.symm.trans hv)
    refine ⟨updated old u, by rw [hx, if_pos rfl], hty.trans hyt, fun k hk => ?_⟩
    exact (hp k hk).trans (hyp k hk)
  · exact ⟨y, by rw [hx, if_neg hxu, hy], hyt, hyp⟩

theorem addEdge_vertices {g g' : Graph} {e e' : Edge} (hadd : g.addEdge e = .ok (e', g')) :
    g'.vertices = g.vertices := by
  obtain ⟨-, -, -, rfl⟩ := addEdge_eq hadd
  rfl

end Graph

theorem NodeType.declares_iff (t : NodeType) (k : String) :
    t.declares k = true ↔ ∃ d ∈ t.properties, d.name.text = k := by
  simp [NodeType.declares, NodeType.property?, List.find?_isSome]

namespace Serializer

theorem validateObject_declares {s : Serializer} {o : SchemaObject} {t : NodeType}
    (h : s.validateObject o = .ok t) :
    s.nodeType o.nodeType = .ok t ∧ ∀ k, (o.properties.get? k).isSome → t.declares k := by
  obtain ⟨ht, hprops, -⟩ := validateObject_inv h
  refine ⟨ht, fun k hk => ?_⟩
  obtain ⟨x, hx⟩ := Option.isSome_iff_exists.mp hk
  obtain ⟨d, hd, -⟩ := hprops k x hx
  simp [NodeType.declares, hd]

theorem ensureTreeEdge_vertices {s : Serializer} {p : Vertex} {x : VertexId} {added : Bool}
    {g g' : Graph} (h : (s.ensureTreeEdge p x).run g = .ok (added, g')) : g'.vertices = g.vertices := by
  rcases ensureTreeEdge_run_inv h with ⟨-, -, rfl⟩ | ⟨-, -, c, e, -, hadd⟩
  · rfl
  · obtain ⟨r, -, out, inn, -, -, -, hcreate⟩ := Graph.addTreeEdge_creates hadd
    obtain ⟨e₀, -, -, -, -, hedge⟩ := Scope.createEdge_adds hcreate
    exact Graph.addEdge_vertices hedge

theorem store_holds {s : Serializer} {t : NodeType} {parent : Option Vertex} {o : SchemaObject}
    {v v' : Vertex} {isNew : Bool} {g g' : Graph}
    (h : (s.store t parent o v isNew).run g = .ok (v', g')) :
    v'.id = v.id ∧ v'.nodeType = v.nodeType ∧
      ∀ k, k ≠ Bookkeeping.uri → v'.property? k = (applyProperties t v o.properties).property? k := by
  obtain ⟨g₁, hup, added, g₂, hplace, hrefresh, -, hv'⟩ := store_run_inv h
  have h₁ := Graph.updateVertex_holds hup
  rw [applyProperties_id] at h₁
  have h₂ : g₂.HoldsUpToUri v.id (applyProperties t v o.properties) := by
    cases parent with
    | none =>
      obtain ⟨-, rfl⟩ := GraphM.run_pure_eq_ok.mp hplace
      exact h₁
    | some p => exact h₁.of_vertices (ensureTreeEdge_vertices hplace)
  have h' : g'.HoldsUpToUri v.id (applyProperties t v o.properties) := by
    rcases hrefresh with rfl | ⟨u, hr⟩
    · exact h₂
    · exact Scope.refreshUri_preserves (·.HoldsUpToUri v.id (applyProperties t v o.properties))
        (fun hP hup hv hty hp => hP.of_updateVertex hup hv hty hp) h₂ hr
  obtain ⟨x, hx, hxt, hxp⟩ := h'
  obtain rfl : x = v' := Option.some.inj (hx.symm.trans hv')
  exact ⟨(Graph.mem_of_vertex? hv').2, hxt.trans (applyProperties_nodeType _ _ _), hxp⟩

theorem applyProperties_property? (t : NodeType) (v : Vertex) (props : PropertyMap) (k : String) :
    (applyProperties t v props).property? k =
      if t.declares k then props.get? k else v.property? k := by
  have hdecl : t.declares k = t.properties.any (·.name.text == k) := by
    rw [Bool.eq_iff_iff, NodeType.declares_iff]
    simp
  rw [hdecl, applyProperties]
  generalize t.properties = ds
  induction ds generalizing v with
  | nil => simp
  | cons d ds ih =>
    rw [List.foldl_cons, ih, List.any_cons]
    by_cases hd : d.name.text = k
    · cases hx : props.get? d.name.text <;> simp [← hd, hx]
    · cases hx : props.get? d.name.text <;> simp [hd, Ne.symm hd]

theorem objectOf_properties_get? {s : Serializer} {g : Graph} {v : Vertex} {t : NodeType}
    {nodesOnly includeRel : Bool} (ht : s.scope.nodeType? v.nodeType.text = some t) (k : String) :
    (s.objectOf g v nodesOnly includeRel).properties.get? k =
      if t.declares k then v.property? k else none := by
  have hdecl : t.declares k = t.properties.any (·.name.text == k) := by
    rw [Bool.eq_iff_iff, NodeType.declares_iff]
    simp
  simp only [objectOf, ht]
  rw [hdecl, ← @Option.or_none _ (v.property? k), ← PropertyMap.get?_empty k]
  generalize PropertyMap.empty = m
  generalize t.properties = ds
  induction ds generalizing m with
  | nil => simp
  | cons d ds ih =>
    rw [List.foldl_cons, ih, List.any_cons]
    by_cases hd : d.name.text = k
    · cases hx : v.property? d.name.text <;> simp [← hd, hx]
    · cases hx : v.property? d.name.text <;> simp [hd, Ne.symm hd]

theorem target_nodeType {s : Serializer} {parent existing : Option Vertex} {o : SchemaObject}
    {v : Vertex} {isNew : Bool} {g g' : Graph} (hagree : ∀ e ∈ existing, g.Agrees e)
    (h : (s.target parent o existing).run g = .ok ((v, isNew), g')) : v.nodeType = o.nodeType := by
  rcases target_run_inv h with ⟨e, rfl, he, hv, -, -⟩ | ⟨-, -, hadd, -⟩
  · obtain ⟨hmem, hid⟩ := Graph.mem_of_vertex? hv
    exact (hagree e rfl v hmem hid).trans he
  · have hv : (g.addVertex o.nodeType).1 = v := congrArg Prod.fst hadd
    exact hv ▸ rfl

theorem write_holds_object {s : Serializer} {t : NodeType} {parent existing : Option Vertex}
    {o : SchemaObject} {g g' : Graph} {w : Vertex} (ht : s.nodeType o.nodeType = .ok t)
    (hcopy : ∀ d ∈ t.properties, d.dataCopy = none) (hagree : ∀ e ∈ existing, g.Agrees e)
    (h : (s.write parent o existing).run g = .ok (w, g')) :
    w.nodeType = o.nodeType ∧
      (∀ k, t.declares k → k = Bookkeeping.nodeType ∨ Bookkeeping.contains k = false →
        w.property? k = o.properties.get? k) ∧
      w.resourceVersion?.isSome := by
  obtain ⟨t₀, hval, v, isNew, g₁, htarget, v₁, g₂, hstore, working, v₂, hside, g₃, -, g₄, -, g₅,
    htouch, -⟩ := write_run_inv h
  obtain rfl : t₀ = t := Except.ok.inj ((validateObject_declares hval).1.symm.trans ht)
  obtain ⟨-, rfl⟩ : o = working ∧ v₁ = v₂ := by
    simpa using (runSideEffects_of_no_templates hcopy g₂ o v₁).symm.trans hside
  obtain ⟨_, -, -, -, hwt, -, hwp, hrv⟩ := touch_run_inv htouch
  obtain ⟨-, hvt, hvp⟩ := store_holds hstore
  refine ⟨hwt.trans (hvt.trans (target_nodeType hagree htarget)), fun k hk hbk => ?_,
    by simp [hrv]⟩
  -- the stamp leaves the name alone and it is no address, so storing decided it
  have hne : k ≠ Bookkeeping.uri := by
    rintro rfl
    rcases hbk with h | h <;> revert h <;> decide
  rw [hwp k (hbk.elim .inl (.inr ∘ .inr)), hvp k hne, applyProperties_property?, if_pos hk]

theorem fromGraph_single_zero (s : Serializer) (g : Graph) (v : Vertex) (nodesOnly includeRel : Bool) :
    s.fromGraph g [v] .single 0 nodesOnly includeRel = .ok (.single (s.objectOf g v nodesOnly includeRel)) := by
  simp [fromGraph, serializeVertex]

/-- Reading back a written vertex, alone and without its children, gives exactly the
    properties written and the vertex's resource version, when the type copies no data and
    declares no bookkeeping name but the node type. -/
theorem written_object_reads_back {s : Serializer} {t : NodeType} {parent existing : Option Vertex}
    {o : SchemaObject} {g g' : Graph} {w : Vertex} (nodesOnly : Bool)
    (ht : s.nodeType o.nodeType = .ok t) (hcopy : ∀ d ∈ t.properties, d.dataCopy = none)
    (hnames : ∀ d ∈ t.properties,
      d.name.text = Bookkeeping.nodeType ∨ Bookkeeping.contains d.name.text = false)
    (hagree : ∀ e ∈ existing, g.Agrees e) (h : (s.write parent o existing).run g = .ok (w, g')) :
    ∃ o', s.fromGraph g' [w] .single 0 nodesOnly false = .ok (.single o') ∧
      o'.properties = o.properties ∧ o'.resourceVersion = w.resourceVersion? ∧
      w.resourceVersion?.isSome := by
  obtain ⟨hwt, hwp, hrv⟩ := write_holds_object ht hcopy hagree h
  obtain ⟨t₀, hval, -⟩ := write_run_inv h
  obtain ⟨ht₀, hdecl⟩ := validateObject_declares hval
  obtain rfl : t₀ = t := Except.ok.inj (ht₀.symm.trans ht)
  refine ⟨_, fromGraph_single_zero s g' w nodesOnly false, PropertyMap.ext_get? fun k => ?_, rfl, hrv⟩
  have htw : s.scope.nodeType? w.nodeType.text = some t₀ := by
    rw [hwt]
    unfold nodeType at ht
    split at ht <;> cases ht
    assumption
  rw [objectOf_properties_get? htw]
  split
  · next hk =>
    obtain ⟨d, hd, rfl⟩ := (NodeType.declares_iff t₀ k).mp hk
    exact hwp _ hk (hnames d hd)
  · next hk =>
    cases hx : o.properties.get? k with
    | none => rfl
    | some x => exact absurd (hdecl k (by simp [hx])) hk

namespace StampedRead

def box : Identifier := ⟨"box", by decide⟩
def serial : Identifier := ⟨"serial", by decide⟩

def versioned : NodeType :=
  { NodeType.new box SchemaVersion.v12 with
    properties := [PropertyDef.new ⟨Bookkeeping.resourceVersion, by decide⟩ .string] }

def keyedType : NodeType := (NodeType.new box SchemaVersion.v12).withKey serial

def serializerOf (t : NodeType) : Serializer where
  scope := ⟨⟨[t], []⟩, SchemaVersion.v12⟩
  config := {}
  sourceOfTruth := "inventory"

def readBack (t : NodeType) (o : SchemaObject) : Option SchemaObject := do
  let (w, g) ← (((serializerOf t).write none o none).run (Graph.startingAt (.steady 0 ""))).toOption
  ((serializerOf t).fromGraph g [w] .single 0 false false).toOption >>= Serialized.intoSingle?

theorem declared_resource_version_reads_back :
    (SchemaObject.new box).properties.keys = [] ∧
      ((readBack versioned (SchemaObject.new box)).map (·.properties.keys)) =
        some [Bookkeeping.resourceVersion] := by
  decide +kernel

def keyed : SchemaObject := (SchemaObject.new box).withProperty "serial" (.str "1")

def written : Vertex × Graph :=
  (((serializerOf keyedType).write none keyed none).run (Graph.startingAt (.steady 0 ""))).toOption.getD
    (Vertex.new ⟨0⟩ box 0, Graph.startingAt (.steady 0 ""))

theorem keyed_object_reads_back :
    (serializerOf keyedType).nodeType keyed.nodeType = .ok keyedType ∧
    ∃ o', (serializerOf keyedType).fromGraph written.2 [written.1] .single 0 false false =
        .ok (.single o') ∧
      o'.properties = keyed.properties ∧ o'.resourceVersion = written.1.resourceVersion? ∧
      written.1.resourceVersion?.isSome := by
  have ht : (serializerOf keyedType).nodeType keyed.nodeType = .ok keyedType := by decide +kernel
  have hw : ((serializerOf keyedType).write none keyed none).run (Graph.startingAt (.steady 0 "")) =
      .ok (written.1, written.2) :=
    Except.eq_ok_getD (by decide +kernel) (Vertex.new ⟨0⟩ box 0, Graph.startingAt (.steady 0 ""))
  exact ⟨ht, written_object_reads_back false ht (by decide) (by decide) (by simp) hw⟩

end StampedRead
end Serializer
end InventoryGraph
