import InventoryGraph.Proofs.Serializer.Laying

/-!
Writing an object again onto the vertex its first write answered. The first write laid the object
out (`write_lays`). The second finds each child again among its parent's tree children by its type
and keys, stores back what each vertex already holds, finds every address stored and every
relationship joined, and stamps each vertex anew. It keeps every edge, ids included, and every
vertex but for the time and the writer of its last change and its resource version
(`write_again_restamps`).

This holds of objects that replay (`Serializer.Replays`): their types declare no bookkeeping name
and copy no data, their children list no relationships, and no two siblings are twins. A type that
declares the synthetic id loses it on every write (`DriftingKeg`).
-/
namespace InventoryGraph

namespace Vertex

theorem Restamps.symm {v v' : Vertex} (h : v.Restamps v') : v'.Restamps v :=
  ⟨h.1.symm, h.2.1.symm, h.2.2.1.symm, fun k hk => (h.2.2.2 k hk).symm⟩

theorem restamps_rel_trans {a b c : Option Vertex} (h : Option.Rel Restamps a b)
    (h' : Option.Rel Restamps b c) : Option.Rel Restamps a c := by
  cases h with
  | none => exact h'
  | some hab =>
    cases h' with
    | some hbc => exact .some (hab.trans hbc)

theorem restamps_of_rel {v : Vertex} {b : Option Vertex} (h : Option.Rel Restamps (some v) b) :
    ∃ v', b = some v' ∧ v.Restamps v' := by
  cases h with
  | some h => exact ⟨_, rfl, h⟩

end Vertex

namespace Graph

/-- Storing a vertex as it stands changes neither vertices nor edges. -/
theorem same_of_updateVertex {g g' : Graph} {w : Vertex} (hc : g.Consistent)
    (hv : g.vertex? w.id = some w) (hup : g.updateVertex w = .ok g') : g.Same g' := by
  obtain ⟨g'', hup', he, hc', hv'⟩ := updateVertex_spec hc hv rfl rfl
  obtain rfl : g' = g'' := Except.ok.inj (hup.symm.trans hup')
  refine ⟨hc', he, fun x => ?_⟩
  rw [hv' x]
  by_cases hx : x = w.id
  · rw [if_pos hx, hx, hv]
  · rw [if_neg hx]

end Graph

namespace Scope

variable (s : Scope)

/-- From `g` to `g'` a second write changed no edge and no segment, and only restamped vertices,
    none of them stored in `g₀`. -/
structure Replayed (g₀ g g' : Graph) : Prop where
  consistent : g'.Consistent
  edges : g'.edges = g.edges
  vertex : ∀ x, Option.Rel Vertex.Restamps (g.vertex? x) (g'.vertex? x)
  frozen : ∀ x, g₀.Live x → g'.vertex? x = g.vertex? x
  segAt : s.segAt g' = s.segAt g

variable {s} {g₀ g g' g'' : Graph}

theorem Replayed.of_same (h : g.Same g') : s.Replayed g₀ g g' :=
  ⟨h.consistent, h.edges, fun x => by rw [h.vertex x]; exact Vertex.restamps_rel_refl _,
    fun x _ => h.vertex x, segAt_congr h.vertex⟩

theorem Replayed.trans (h : s.Replayed g₀ g g') (h' : s.Replayed g₀ g' g'') :
    s.Replayed g₀ g g'' :=
  ⟨h'.consistent, h'.edges.trans h.edges,
    fun x => Vertex.restamps_rel_trans (h.vertex x) (h'.vertex x),
    fun x hx => (h'.frozen x hx).trans (h.frozen x hx), h'.segAt.trans h.segAt⟩

/-- A replay agrees with the store it started from at every vertex. -/
theorem Replayed.agrees (h : s.Replayed g₀ g g') (hc : g.Consistent) (y : VertexId) :
    s.Agrees g g' y := by
  refine agrees_of_edges hc h.consistent h.edges h.segAt (fun p pv' hpv' u hu _ => ?_) (h.vertex y)
  have hr := h.vertex p
  rw [hpv'] at hr
  cases hp : g.vertex? p with
  | none =>
    rw [hp] at hr
    cases hr
  | some pv =>
    rw [hp] at hr
    refine ⟨pv, rfl, ?_⟩
    rw [← (Option.rel_some_some.mp hr).uri?_eq]
    exact hu

end Scope

namespace Serializer

variable {s : Serializer} {g₀ g g' h h' : Graph} {o : SchemaObject}

section Laid

variable {q : Option VertexId} {x : VertexId}

theorem Laid.replayed (hl : s.Laid g₀ g q o x) (h : s.scope.Replayed g₀ g g') (hc : g.Consistent)
    (ho : s.Replays o) : s.Laid g₀ g' q o x :=
  hl.transport (fun _ hy => hy) (fun _ _ y _ => h.agrees hc y) ho

/-- A laid vertex matches its object by type and keys. -/
theorem Laid.matches {t : NodeType} (hl : s.Laid g₀ g q o x) (ht : s.nodeType o.nodeType = .ok t) :
    ∃ v, g.vertex? x = some v ∧ (v.nodeType == o.nodeType && sameKeys t v o) = true := by
  obtain ⟨v, hv⟩ := hl.lays
  refine ⟨v, hv.stored, ?_⟩
  simp only [Bool.and_eq_true, beq_iff_eq, sameKeys, List.all_eq_true]
  exact ⟨hv.typed, hv.keyed t ht⟩

end Laid

/-! ### Preparing a laid object again -/

/-- Refreshing the address of a laid vertex, in a store with the vertices and edges of the one it
    was laid in, stores nothing new. -/
theorem refreshUri_laid {h₁ : Graph} {q : Option VertexId} {y : VertexId} {u : Option String}
    (hc : h.Consistent) (hsame : h.Same h₁) (hlaid : s.Laid g₀ h q o y)
    (hr : (s.scope.refreshUri y).run h₁ = .ok (u, h')) : h₁.Same h' := by
  -- every vertex laid below the laid ones is laid, and holds its address
  refine Scope.refreshUri_settled (S := fun z => ∃ q c, s.Laid g₀ h q c z) hsame.consistent
    (fun z hz => ?_) (fun z hz x hx => ?_) ⟨q, o, hlaid⟩ hr
  · obtain ⟨q', c, hz⟩ := hz
    obtain ⟨v, hv⟩ := hz.lays
    refine ⟨v, (hsame.vertex z).trans hv.stored, hv.keys, fun p => ?_, hv.above.same hc hsame⟩
    rw [hv.addressed p]
    simp only [Scope.address_iff_of_same hc hsame]
  · obtain ⟨q', c, hz⟩ := hz
    rw [Graph.treeChildren_congr hc.edgeIndexed hsame.consistent.edgeIndexed hsame.edges] at hx
    obtain ⟨d, -, hdx⟩ := Laid.of_mem hz.children hx
    exact ⟨some z, d, hdx⟩

/-- Preparing an object again onto the vertex it was laid on changes nothing: the vertex holds the
    object's properties already, stands under its parent and holds its address. -/
theorem prepare_laid {parent : Option Vertex} {q : Option VertexId} {y : VertexId}
    {yv v : Vertex} {working : SchemaObject} {isNew : Bool} (hc : h.Consistent)
    (ho : s.Replays o) (hq : parent.map Vertex.id = q) (hlaid : s.Laid g₀ h q o y)
    (hv : h.vertex? y = some yv)
    (hrun : (s.prepare parent o (some yv)).run h = .ok ((working, v, isNew), h')) :
    working = o ∧ v = yv ∧ isNew = false ∧ h.Same h' := by
  obtain ⟨t, ht, hrep, -⟩ := ho.inv
  obtain ⟨hwork, v₀, h₁, htarget, hstore⟩ :=
    prepare_of_no_templates ht (fun d hd => (hrep d hd).2) hrun
  obtain ⟨u, hu⟩ := hlaid.lays
  obtain rfl : u = yv := Option.some.inj (hu.stored.symm.trans hv)
  have hyid : u.id = y := (Graph.mem_of_vertex? hv).2
  have hv' : h.vertex? u.id = some u := by rw [hyid]; exact hv
  rcases target_run_inv htarget with ⟨e, he, -, hev, rfl, rfl⟩ | ⟨he, -⟩
  · obtain rfl : u = e := Option.some.inj he
    obtain rfl : v₀ = u := Option.some.inj (hev.symm.trans hv')
    obtain ⟨h₂, hup, added, h₃, hplace, hfin, -, hv₃⟩ := store_run_inv hstore
    rw [applyProperties_eq_self (hu.declared t ht)] at hup
    have hsame₂ := Graph.same_of_updateVertex hc hv' hup
    -- the laid vertex already stands under its parent
    have hsame₃ : h.Same h₃ := by
      cases parent with
      | none =>
        obtain ⟨-, rfl⟩ := GraphM.run_pure_eq_ok.mp hplace
        exact hsame₂
      | some p =>
        rcases ensureTreeEdge_run_inv hplace with ⟨-, -, rfl⟩ | ⟨hnone, -⟩
        · exact hsame₂
        · rw [Graph.treeParent?_congr hc.edgeIndexed hsame₂.consistent.edgeIndexed hsame₂.edges,
            hyid, hu.parent, ← hq] at hnone
          cases hnone
    have hsame : h.Same h' := by
      rcases hfin with rfl | ⟨u', hr⟩
      · exact hsame₃
      · exact hsame₃.trans (refreshUri_laid hc hsame₃ hlaid (hyid ▸ hr))
    refine ⟨hwork, ?_, rfl, hsame⟩
    rw [hsame.vertex, hv'] at hv₃
    exact (Option.some.inj hv₃).symm
  · cases he

/-! ### Stamping a laid vertex again -/

/-- Stamping again a laid vertex that holds a synthetic id, over a restamped copy of it, restamps
    it and keeps every other vertex, every edge and every segment. -/
theorem touch_update_replayed {v v₀ w : Vertex} {h₁ h₂ : Graph} (hc : h.Consistent)
    (hv : h.vertex? v.id = some v₀) (hr : v.Restamps v₀) (hk : s.scope.KeysOutside v)
    (hsid : (v.property? Bookkeeping.syntheticId).isSome) (hfresh : ¬ g₀.Live v.id)
    (ht : (s.touch v false).run h = .ok (w, h₁)) (hup : h₁.updateVertex w = .ok h₂) :
    s.scope.Replayed g₀ h h₂ ∧ h₂.vertex? v.id = some w ∧ v.Restamps w := by
  obtain ⟨c, rfl, -, hid, hnt, hcr, -, -⟩ := touch_run_inv ht
  have hw : v.Restamps w := ⟨hid, hnt, hcr, touch_run_restamps hsid ht⟩
  have hvw : v₀.Restamps w := hr.symm.trans hw
  obtain ⟨h₂', hup', he, hc₂, hv₂⟩ := @Graph.updateVertex_spec { h with clock := c } w v₀
    (hc.withClock c) (by rw [hid]; exact hv) hvw.2.1.symm hvw.2.2.1
  obtain rfl : h₂ = h₂' := Except.ok.inj (hup.symm.trans hup')
  have hstored : h₂.vertex? v.id = some w := by rw [hv₂, if_pos hid.symm]
  have hothers : ∀ y, y ≠ v.id → h₂.vertex? y = h.vertex? y := fun y hy => by
    rw [hv₂, if_neg (hid ▸ hy)]
    rfl
  refine ⟨⟨hc₂, he, fun y => ?_, fun y hy => hothers y fun hyv => hfresh (hyv ▸ hy), ?_⟩,
    hstored, hw⟩
  · by_cases hy : y = v.id
    · rw [hy, hstored, hv]
      exact .some hvw
    · rw [hothers y hy]
      exact Vertex.restamps_rel_refl _
  · funext y
    by_cases hy : y = v.id
    · rw [hy]
      simp only [Scope.segAt, hstored, hv, Option.bind_some]
      exact Scope.segment?_of_bookkeeping (hk.congr hr.2.1) hvw.2.1 fun k hb => hvw.property? hb
    · simp only [Scope.segAt, hothers y hy]

/-! ### Children written again -/

/-- Among laid children, a child is found again on the vertex it was laid on, when no child laid
    before it is its twin. -/
theorem findChild_laid {p : Vertex} {pre : List SchemaObject} {ys zs : List VertexId}
    {c : SchemaObject} {y : VertexId} {found : Option Vertex}
    (htc : h.treeChildren p.id = ys ++ y :: zs)
    (hpre : List.Forall₂ (s.Laid g₀ h (some p.id)) pre ys) (hy : s.Laid g₀ h (some p.id) c y)
    (htw : ∀ d ∈ pre, ¬ s.Twins d c) (hfind : s.findChild h p c = .ok found) :
    ∃ yv, found = some yv ∧ h.vertex? y = some yv := by
  unfold findChild at hfind
  obtain ⟨t, ht, hfind⟩ := Except.bind_eq_ok.mp hfind
  obtain ⟨v, hv, hm⟩ := hy.matches ht
  refine ⟨v, ?_, hv⟩
  rw [← Except.ok.inj hfind, htc, List.findSome?_append, findSome?_laid_none hpre htw ht,
    Option.none_or, List.findSome?_cons, hv, Option.filter_some, if_pos hm]

variable (s) in
/-- What a second write of `o` onto the vertex `yv` it was laid on below `p` leaves, where `o`
    replays and lists no relationships: a replay of the store. -/
def ChildReplayed (parent : Option Vertex) (o : SchemaObject) (existing : Option Vertex) : Prop :=
  ∀ {p yv w : Vertex} {g₀ h h' : Graph}, parent = some p → existing = some yv → h.Consistent →
    s.Replays o → o.relationships = none → s.Laid g₀ h (some p.id) o yv.id →
    h.vertex? yv.id = some yv → (s.write parent o existing).run h = .ok (w, h') →
    s.scope.Replayed g₀ h h'

variable (s) in
/-- What a second write of the children `cs` of `p` leaves, where the tree children of `p` are
    those laid from the children `pre` written again before and then from `cs`: a replay of the
    store. -/
def ChildrenReplayed (p : Vertex) (cs : List SchemaObject) : Prop :=
  ∀ {g₀ h h' : Graph} {pre : List SchemaObject} {ys zs : List VertexId}, h.Consistent →
    h.treeChildren p.id = ys ++ zs → List.Forall₂ (s.Laid g₀ h (some p.id)) pre ys →
    List.Forall₂ (s.Laid g₀ h (some p.id)) cs zs →
    (pre ++ cs).Pairwise (fun a b => ¬ s.Twins a b) → (∀ c ∈ pre ++ cs, s.Replays c) →
    (∀ c ∈ cs, c.relationships = none) → (s.writeChildren p cs).run h = .ok ((), h') →
    s.scope.Replayed g₀ h h'

theorem childReplayed_write {parent existing : Option Vertex} {nt : Identifier}
    {props : PropertyMap} {rv : Option String} {rels : Option (List RelationshipRef)}
    {children : List SchemaObject} (ih : ∀ v, s.ChildrenReplayed v children) :
    s.ChildReplayed parent ⟨nt, props, rv, rels, children⟩ existing := by
  intro p yv w g₀ h h' hparent hexisting hc ho hrel hlaid hv hrun
  subst hparent hexisting
  obtain ⟨working, v, isNew, h₂, hprep, h₃, hrec, h₄, hch, h₅, htouch, hup⟩ :=
    write_prepare_run_inv hrun
  obtain ⟨-, -, -, hpw, hcrel, hcrep⟩ := ho.inv
  obtain ⟨rfl, rfl, rfl, hsame⟩ := prepare_laid hc ho rfl hlaid hv hprep
  obtain rfl : rels = none := hrel
  obtain rfl : h₂ = h₃ := (GraphM.run_pure_eq_ok.mp hrec).2
  -- the children are laid below the vertex, so writing them again replays the store
  have hr₄ := ih v hsame.consistent
    (show h₂.treeChildren v.id = [] ++ h₂.treeChildren v.id from rfl)
    (.nil : List.Forall₂ (s.Laid g₀ h₂ (some v.id)) [] [])
    (hlaid.replayed (.of_same hsame) hc ho).children (by simpa using hpw)
    (by simpa using hcrep) hcrel hch
  obtain ⟨u, hu⟩ := hlaid.lays
  obtain rfl : u = v := Option.some.inj (hu.stored.symm.trans hv)
  have hrel₄ := hr₄.vertex u.id
  rw [hsame.vertex, hv] at hrel₄
  obtain ⟨v₄, hv₄, hr⟩ := Vertex.restamps_of_rel hrel₄
  obtain ⟨hr₅, -, -⟩ :=
    touch_update_replayed hr₄.consistent hv₄ hr hu.keys hu.identified hu.fresh htouch hup
  exact (Scope.Replayed.of_same hsame).trans (hr₄.trans hr₅)

theorem childrenReplayed_nil (p : Vertex) : s.ChildrenReplayed p [] := by
  intro g₀ h h' pre ys zs hc _ _ _ _ _ _ hrun
  rw [writeChildren_nil_run] at hrun
  cases hrun
  exact .of_same (.refl hc)

theorem childrenReplayed_cons {p : Vertex} {c : SchemaObject} {cs : List SchemaObject}
    (ihc : ∀ found, s.ChildReplayed (some p) c found) (ihs : s.ChildrenReplayed p cs) :
    s.ChildrenReplayed p (c :: cs) := by
  intro g₀ h h' pre ys zs hc htc hpre hzs hpw hrep hrel hrun
  obtain ⟨y, zs', hy, hzs', rfl⟩ := List.forall₂_cons_left_iff.mp hzs
  obtain ⟨found, hfind, w, h₁, hw, hrest⟩ := writeChildren_cons_run_inv hrun
  -- no child before `c` is its twin, so `c` is found on the vertex it was laid on
  obtain ⟨yv, rfl, hyv⟩ := findChild_laid htc hpre hy
    (fun d hd => (List.pairwise_append.mp hpw).2.2 d hd c List.mem_cons_self) hfind
  have hyid : yv.id = y := (Graph.mem_of_vertex? hyv).2
  have hrep' : ∀ d ∈ (pre ++ [c]) ++ cs, s.Replays d := by simpa using hrep
  have hr₁ := ihc (some yv) rfl rfl hc (hrep c (List.mem_append_right _ List.mem_cons_self))
    (hrel c List.mem_cons_self) (by rw [hyid]; exact hy) (by rw [hyid]; exact hyv) hw
  have htc₁ : h₁.treeChildren p.id = (ys ++ [y]) ++ zs' := by
    rw [Graph.treeChildren_congr hc.edgeIndexed hr₁.consistent.edgeIndexed hr₁.edges, htc]
    simp
  exact hr₁.trans (ihs hr₁.consistent htc₁
    (Laid.transport_forall₂ (fun _ hy => hy) (fun _ _ y _ => hr₁.agrees hc y)
      (List.rel_append hpre (.cons hy .nil)) fun d hd => hrep' d (List.mem_append_left _ hd))
    (Laid.transport_forall₂ (fun _ hy => hy) (fun _ _ y _ => hr₁.agrees hc y) hzs'
      fun d hd => hrep' d (List.mem_append_right _ hd))
    (by simpa using hpw) hrep' (fun d hd => hrel d (List.mem_cons_of_mem _ hd)) hrest)

/-- A second write of laid children that replay and list no relationships replays the store. -/
theorem childrenReplayed (s : Serializer) (p : Vertex) (cs : List SchemaObject) :
    s.ChildrenReplayed p cs :=
  (write.mutual_induct (fun parent o existing => s.ChildReplayed parent o existing)
    (fun p cs => s.ChildrenReplayed p cs) (fun _ _ _ _ _ _ _ ih => childReplayed_write ih)
    childrenReplayed_nil (fun _ _ _ ihc ihs => childrenReplayed_cons ihc ihs)).2 p cs

/-! ### The second write of a root -/

namespace CellarCask

def cellar : Identifier := ⟨"cellar", by decide⟩
def cask : Identifier := ⟨"cask", by decide⟩
def stave : Identifier := ⟨"stave", by decide⟩
def hoop : Identifier := ⟨"hoop", by decide⟩
def bay : Identifier := ⟨"bay", by decide⟩
def brand : Identifier := ⟨"brand", by decide⟩
def wood : Identifier := ⟨"wood", by decide⟩
def num : Identifier := ⟨"num", by decide⟩
def girth : Identifier := ⟨"girth", by decide⟩

def cellarType : NodeType := (NodeType.new cellar SchemaVersion.v12).withKey bay

def caskType : NodeType :=
  ((NodeType.new cask SchemaVersion.v12).withKey brand).withProperty (PropertyDef.new wood .string)

def staveType : NodeType := (NodeType.new stave SchemaVersion.v12).withKey num

def hoopType : NodeType := (NodeType.new hoop SchemaVersion.v12).withKey girth

def serializer : Serializer where
  scope := ⟨⟨[cellarType, caskType, staveType, hoopType],
    [Rule.new cask cellar ⟨"rests_in", by decide⟩ SchemaVersion.v12,
      { Rule.new cask stave ⟨"ribbed", by decide⟩ SchemaVersion.v12 with contains := .out },
      { Rule.new stave hoop ⟨"banded", by decide⟩ SchemaVersion.v12 with contains := .out }]⟩,
    SchemaVersion.v12⟩
  config := {}
  sourceOfTruth := "winery"

def bayOne : SchemaObject := (SchemaObject.new cellar).withProperty "bay" (.str "b1")

def hooped : SchemaObject := (SchemaObject.new hoop).withProperty "girth" (.str "g1")

def staveNumbered (n : String) : SchemaObject :=
  (SchemaObject.new stave).withProperty "num" (.str n)

def oakCask : SchemaObject :=
  (((((SchemaObject.new cask).withProperty "brand" (.str "m1")).withProperty "wood" (.str "oak")
    ).withRelationship ((RelationshipRef.new cellar).withLink "/cellar/b1")).withChild
    ((staveNumbered "1").withChild hooped)).withChild (staveNumbered "2")

def placeholder : Vertex := Vertex.new ⟨0⟩ cask 0

def cellared : Vertex × Graph :=
  ((serializer.write none bayOne none).run (Graph.startingAt (.steady 0 ""))).toOption.getD
    (placeholder, Graph.startingAt (.steady 0 ""))

def first : Vertex × Graph :=
  ((serializer.write none oakCask none).run cellared.2).toOption.getD cellared

def again : Vertex × Graph :=
  ((serializer.write none oakCask (some first.1)).run first.2).toOption.getD first

theorem bayOne_replays : serializer.Replays bayOne :=
  .intro (t := cellarType) rfl (by unfold NodeType.Replayable; decide +kernel) .nil
    (fun _ hc => by cases hc) fun _ hc => by cases hc

theorem hooped_replays : serializer.Replays hooped :=
  .intro (t := hoopType) rfl (by unfold NodeType.Replayable; decide +kernel) .nil
    (fun _ hc => by cases hc) fun _ hc => by cases hc

theorem staveNumbered_replays (n : String) : serializer.Replays (staveNumbered n) :=
  .intro (t := staveType) rfl (by unfold NodeType.Replayable; decide +kernel) .nil
    (fun _ hc => by cases hc) fun _ hc => by cases hc

theorem oakCask_replays : serializer.Replays oakCask := by
  refine .intro (t := caskType) rfl (by unfold NodeType.Replayable; decide +kernel)
    (by decide +kernel) (by decide +kernel) fun c hc => ?_
  rcases List.mem_pair.mp hc with rfl | rfl
  · exact .intro (t := staveType) rfl (by unfold NodeType.Replayable; decide +kernel)
      (List.pairwise_singleton _ _) (fun c hc => by rw [List.mem_singleton.mp hc]; rfl)
      fun c hc => by rw [List.mem_singleton.mp hc]; exact hooped_replays
  · exact staveNumbered_replays "2"

end CellarCask

/-! ### A keg that declares its synthetic id

A keg type declares a property under the name of the synthetic id. Storing an object that does
not give one clears it, so each write stamps a new one. -/

namespace DriftingKeg

def keg : Identifier := ⟨"keg", by decide⟩
def batch : Identifier := ⟨"batch", by decide⟩

def serializer : Serializer where
  scope := ⟨⟨[((NodeType.new keg SchemaVersion.v12).withKey batch).withProperty
    (PropertyDef.new ⟨"synthetic-id", by decide⟩ .string)], []⟩, SchemaVersion.v12⟩
  config := {}
  sourceOfTruth := "brewery"

def batchOne : SchemaObject := (SchemaObject.new keg).withProperty "batch" (.str "b1")

def placeholder : Vertex := Vertex.new ⟨0⟩ keg 0

def first : Vertex × Graph :=
  ((serializer.write none batchOne none).run (Graph.startingAt (.steady 0 ""))).toOption.getD
    (placeholder, Graph.startingAt (.steady 0 ""))

def again : Vertex × Graph :=
  ((serializer.write none batchOne (some first.1)).run first.2).toOption.getD first

end DriftingKeg

end Serializer

end InventoryGraph
