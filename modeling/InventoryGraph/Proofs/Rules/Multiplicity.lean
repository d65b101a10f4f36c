import InventoryGraph.Graph.RuleEdge
import InventoryGraph.Proofs.Rules.Catalog

/-!
Multiplicity under rule edges. When edges come only from the rules of one version of a loaded
catalog, no two edges share their ends and label, and every end that a rule's multiplicity
constrains keeps at most one edge of the rule's label towards the rule's type at the other
end. Three facts carry it: a new rule edge runs from the rule's out type to its in type; in
a version, a rule is fixed by its two types and its label, so an edge that would count
against a rule is an edge of that very rule, whose multiplicity the edge was checked against;
and a store write other than an edge addition only drops edges and keeps node types.
-/
namespace InventoryGraph

theorem Multiplicity.mem_constrained {m : Multiplicity} {d : EdgeDirection}
    (h : d ∈ m.constrained) : d = .outbound ∨ d = .inbound := by
  cases m <;> simp [Multiplicity.constrained] at h <;> simp [h]

namespace Rule

def anchorType (r : Rule) : EdgeDirection → Identifier
  | .outbound => r.outType
  | _ => r.inType

def counterpart (r : Rule) : EdgeDirection → Identifier
  | .outbound => r.inType
  | _ => r.outType

end Rule

def Edge.farEnd (e : Edge) : EdgeDirection → VertexId
  | .outbound => e.inV
  | _ => e.outV

namespace Graph

def countsAgainst (g : Graph) (r : Rule) (x : VertexId) (d : EdgeDirection) (e : Edge) : Bool :=
  e.runs x d && e.label == r.label &&
    g.vertices.any fun w => w.id == e.farEnd d && w.nodeType == r.counterpart d

/-- The vertex, as a caller hands it over, carries its stored node type. -/
def Agrees (g : Graph) (v : Vertex) : Prop := ∀ w ∈ g.vertices, w.id = v.id → w.nodeType = v.nodeType

/-- The multiplicity invariant of the rules of version `V` of the catalog `c`. -/
structure MultiplicityKept (c : Catalog) (V : SchemaVersion) (g : Graph) : Prop where
  distinct : g.edges.Pairwise fun e f => ¬ (e.outV = f.outV ∧ e.inV = f.inV ∧ e.label = f.label)
  at_most_one : ∀ r ∈ c.rulesOf V, ∀ d ∈ r.multiplicity.constrained, ∀ x ∈ g.vertices,
    x.nodeType = r.anchorType d → (g.edges.filter (g.countsAgainst r x.id d)).length ≤ 1

theorem countsAgainst_eq_true {g : Graph} {r : Rule} {x : VertexId} {d : EdgeDirection}
    {e : Edge} : g.countsAgainst r x d e = true ↔ e.runs x d = true ∧ e.label = r.label ∧
      ∃ w ∈ g.vertices, w.id = e.farEnd d ∧ w.nodeType = r.counterpart d := by
  simp [countsAgainst, and_assoc]

theorem runs_ends {e : Edge} {x : VertexId} {d : EdgeDirection} (h : e.runs x d = true) :
    e.outV = x ∨ e.inV = x := by
  cases d <;> simp_all [Edge.runs]

theorem farEnd_ends (e : Edge) (d : EdgeDirection) : e.farEnd d = e.outV ∨ e.farEnd d = e.inV := by
  cases d <;> simp [Edge.farEnd]

theorem filter_sublist_filter {α : Type} {l₁ l₂ : List α} {p q : α → Bool} (hl : l₁.Sublist l₂)
    (hpq : ∀ a ∈ l₁, p a = true → q a = true) : (l₁.filter p).Sublist (l₂.filter q) := by
  have hself : (l₁.filter p).filter q = l₁.filter p := List.filter_eq_self.mpr fun a ha =>
    hpq a (List.mem_filter.mp ha).1 (List.mem_filter.mp ha).2
  rw [← hself]
  exact (List.filter_sublist.trans hl).filter q

theorem startingAt_kept (c : Catalog) (V : SchemaVersion) (clock : Clock) :
    MultiplicityKept c V (startingAt clock) where
  distinct := by simp [startingAt]
  at_most_one _ _ _ _ x hx := by simp [startingAt] at hx

/-! ### Writes that add no edge -/

theorem MultiplicityKept.of_keeps {c : Catalog} {V : SchemaVersion} {g g' : Graph}
    (h : g.Consistent) (hk : MultiplicityKept c V g) (hkeep : Keeps g g')
    (he : g'.edges.Sublist g.edges) : MultiplicityKept c V g' := by
  have hend : ∀ w ∈ g'.vertices, ∀ e ∈ g'.edges, (e.outV = w.id ∨ e.inV = w.id) →
      ∃ u ∈ g.vertices, u.id = w.id ∧ w.nodeType = u.nodeType := by
    intro w hw e he' hwe
    obtain ⟨hout, hin⟩ := h.ends_live e (he.subset he')
    obtain ⟨u, hu, huid⟩ : g.Live w.id := by
      rcases hwe with hwe | hwe
      · exact hwe ▸ hout
      · exact hwe ▸ hin
    exact ⟨u, hu, huid, (hkeep.same u hu w hw huid).1⟩
  have hcount : ∀ r x d, ∀ e ∈ g'.edges, g'.countsAgainst r x d e = true →
      g.countsAgainst r x d e = true := by
    intro r x d e he' hc
    obtain ⟨hrun, hlabel, w, hw, hwid, hwt⟩ := countsAgainst_eq_true.mp hc
    obtain ⟨u, hu, huid, hut⟩ := hend w hw e he' (by rw [hwid]; exact (farEnd_ends e d).imp Eq.symm Eq.symm)
    exact countsAgainst_eq_true.mpr ⟨hrun, hlabel, u, hu, huid.trans hwid, hut ▸ hwt⟩
  refine ⟨hk.distinct.sublist he, fun r hr d hd x hx hxt => ?_⟩
  cases hfil : g'.edges.filter (g'.countsAgainst r x.id d) with
  | nil => simp
  | cons e es =>
    have he' := List.mem_filter.mp (hfil ▸ List.mem_cons_self : e ∈ g'.edges.filter _)
    have hxe := runs_ends (countsAgainst_eq_true.mp he'.2).1
    obtain ⟨u, hu, huid, hut⟩ := hend x hx e he'.1 hxe
    have hsub := filter_sublist_filter he fun e he'' hc => hcount r x.id d e he'' hc
    have hbound := hk.at_most_one r hr d hd u hu (hut ▸ hxt)
    rw [huid] at hbound
    rw [hfil] at hsub
    exact hsub.length_le.trans hbound

theorem apply_edges_sublist {g g' : Graph} (h : g.Consistent) :
    ∀ {w : StoreWrite}, (∀ e, w ≠ .addEdge e) → g.apply w = .ok g' → g'.edges.Sublist g.edges
  | .addVertex _, _, hap => by
    cases hap
    exact List.Sublist.refl _
  | .updateVertex _, _, hap => by
    obtain ⟨_, -, -, rfl⟩ := updateVertex_eq hap
    exact List.Sublist.refl _
  | .removeVertex _, _, hap => by
    obtain ⟨_, hrm, rfl⟩ := exists_of_map_eq_ok hap
    rw [(removeVertex_spec h hrm).2.2.1]
    exact List.filter_sublist
  | .addEdge e, hw, _ => absurd rfl (hw e)
  | .removeEdge i, _, hap => by
    cases hap
    rw [removeEdge_edges]
    exact List.filter_sublist
  | .tick, _, hap => by
    cases hap
    exact List.Sublist.refl _

theorem write_kept {c : Catalog} {V : SchemaVersion} {g : Graph} (h : g.Consistent)
    (hk : MultiplicityKept c V g) {w : StoreWrite} (hw : ∀ e, w ≠ .addEdge e) :
    MultiplicityKept c V (g.write w) := by
  unfold write
  split
  · next g' hap => exact hk.of_keeps h (apply_keeps h hap) (apply_edges_sublist h hw hap)
  · exact hk

/-! ### Rule edges -/

theorem createEdge_inv {r : Rule} {out inn : Vertex} {m : PropertyMap} {g g' : Graph} {e : Edge}
    (hrun : (Scope.createEdge r out inn m).run g = .ok (e, g')) :
    (g.edgesOf out.id .outbound).any (fun f => f.inV == inn.id && f.label == r.label) = false ∧
    g.checkMultiplicity r out inn = .ok () ∧
    ∃ e₀ : Edge, e₀.outV = out.id ∧ e₀.inV = inn.id ∧ e₀.label = r.label ∧
      g.addEdge e₀ = .ok (e, g') := by
  simp only [Scope.createEdge, StateT.run_bind, StateT.run_get, pure_bind] at hrun
  split at hrun
  · simp [GraphM.run_fail] at hrun
  · next hdup =>
    simp only [StateT.run_bind, GraphM.run_lift] at hrun
    cases hchk : g.checkMultiplicity r out inn with
    | error err => simp [hchk, Except.map] at hrun
    | ok u =>
      simp only [hchk, Except.map, Except.mapError_ok, Except.ok_bind, GraphM.run_addEdge,
        Except.mapError_eq_ok] at hrun
      exact ⟨by simpa using hdup, rfl, _, rfl, rfl, rfl, hrun⟩

theorem forM_eq_ok {α : Type} {f : α → Outcome Unit} :
    ∀ {l : List α}, l.forM f = .ok () → ∀ x ∈ l, f x = .ok ()
  | [], _, _, hx => absurd hx List.not_mem_nil
  | a :: l, h, x, hx => by
    simp only [List.forM] at h
    cases ha : f a with
    | error e => rw [ha, Except.error_bind] at h; cases h
    | ok u =>
      rw [ha, Except.ok_bind] at h
      rcases List.mem_cons.mp hx with rfl | hx
      · exact ha
      · exact forM_eq_ok h x hx

theorem otherEnd?_farEnd {e : Edge} {x : VertexId} {d : EdgeDirection} (hd : d ≠ .both)
    (h : e.runs x d = true) : e.otherEnd? x = some (e.farEnd d) := by
  cases d with
  | outbound => simp_all [Edge.runs, Edge.otherEnd?, Edge.farEnd]
  | inbound =>
    simp only [Edge.runs, beq_iff_eq] at h
    by_cases hout : e.outV = x <;> simp [Edge.otherEnd?, Edge.farEnd, hout, h]
  | both => exact absurd rfl hd

theorem checkMultiplicity_spec {g : Graph} (h : g.Consistent) {r : Rule} {out inn : Vertex}
    (hchk : g.checkMultiplicity r out inn = .ok ()) {d : EdgeDirection}
    (hd : d ∈ r.multiplicity.constrained) :
    ∀ e ∈ g.edges, g.countsAgainst r (if d = .outbound then out else inn).id d e = false := by
  intro e he
  unfold checkMultiplicity at hchk
  have hbody := forM_eq_ok hchk d hd
  have hboth : d ≠ .both := by rcases Multiplicity.mem_constrained hd with rfl | rfl <;> simp
  rw [Bool.eq_false_iff]
  intro hc
  obtain ⟨hrun, hlabel, w, hw, hwid, hwt⟩ := countsAgainst_eq_true.mp hc
  have hother := otherEnd?_farEnd hboth hrun
  have hvw := vertex?_of_mem h.vertexIndexed hw
  rw [hwid] at hvw
  rcases Multiplicity.mem_constrained hd with rfl | rfl
  all_goals
    simp only [reduceCtorEq, if_true, if_false] at hbody hrun hother hwt
    split at hbody
    · next hempty =>
      have hnil := List.isEmpty_iff.mp hempty
      rw [List.eq_nil_iff_forall_not_mem] at hnil
      refine hnil e (List.mem_filter.mpr ⟨?_, ?_⟩)
      · rw [edgesOf_eq h.edgeIndexed]
        exact List.mem_filter.mpr ⟨he, hrun⟩
      · simp [hlabel, hother, hvw, hwt, Rule.counterpart]
    · cases hbody

section Catalog
variable {nodeTypes : List NodeType} {rules : List Rule} {c : Catalog}
  (hc : Catalog.load nodeTypes rules = .ok c) {V : SchemaVersion}
include hc

theorem rule_eq_of_types {r r' : Rule} (hr : r ∈ c.rulesOf V) (hr' : r' ∈ c.rulesOf V)
    (ho : r'.outType = r.outType) (hi : r'.inType = r.inType) (hl : r'.label = r.label) :
    r' = r :=
  Catalog.load_rule_unique hc hr' hr (by rw [Rule.pairKey_eq, Rule.pairKey_eq, ho, hi]) hl

theorem counted_new_edge {g : Graph} {r r' : Rule} {out inn x : Vertex} {d : EdgeDirection}
    {e : Edge} (hr : r ∈ c.rulesOf V) (hr' : r' ∈ c.rulesOf V) (hout : out.nodeType = r.outType)
    (hin : inn.nodeType = r.inType) (hao : g.Agrees out) (hai : g.Agrees inn)
    (hd : d ∈ r'.multiplicity.constrained) (hx : x ∈ g.vertices) (hxt : x.nodeType = r'.anchorType d)
    (heo : e.outV = out.id) (hei : e.inV = inn.id) (hel : e.label = r.label)
    (hcount : g.countsAgainst r' x.id d e = true) :
    r' = r ∧ x.id = (if d = .outbound then out else inn).id := by
  obtain ⟨hrun, hlabel, w, hw, hwid, hwt⟩ := countsAgainst_eq_true.mp hcount
  have hl : r'.label = r.label := hlabel.symm.trans hel
  rcases Multiplicity.mem_constrained hd with rfl | rfl
  · -- an out-edge: `x` is `out`, and the far end is `inn`
    simp only [Edge.runs, beq_iff_eq] at hrun
    have hxo : x.id = out.id := hrun.symm.trans heo
    have hxtype := hao x hx hxo
    have hwtype := hai w hw (by simpa [Edge.farEnd, hei] using hwid)
    refine ⟨rule_eq_of_types hc hr hr' ?_ ?_ hl, by simp [hxo]⟩
    · rw [← hout, ← hxtype, hxt]
      rfl
    · rw [← hin, ← hwtype, hwt]
      rfl
  · -- an in-edge: `x` is `inn`, and the far end is `out`
    simp only [Edge.runs, beq_iff_eq] at hrun
    have hxi : x.id = inn.id := hrun.symm.trans hei
    have hxtype := hai x hx hxi
    have hwtype := hao w hw (by simpa [Edge.farEnd, heo] using hwid)
    refine ⟨rule_eq_of_types hc hr hr' ?_ ?_ hl, by simp [hxi]⟩
    · rw [← hout, ← hwtype, hwt]
      rfl
    · rw [← hin, ← hxtype, hxt]
      rfl

theorem createEdge_kept {g g' : Graph} {r : Rule} {a b out inn : Vertex} {m : PropertyMap}
    {e : Edge} (h : g.Consistent) (hk : MultiplicityKept c V g) (hr : r ∈ c.rulesOf V)
    (ha : g.Agrees a) (hb : g.Agrees b) (hends : (out = a ∧ inn = b) ∨ (out = b ∧ inn = a))
    (hout : out.nodeType = r.outType) (hin : inn.nodeType = r.inType)
    (hrun : (Scope.createEdge r out inn m).run g = .ok (e, g')) :
    MultiplicityKept c V g' ∧ g'.Consistent := by
  have hagree : g.Agrees out ∧ g.Agrees inn := by
    rcases hends with ⟨rfl, rfl⟩ | ⟨rfl, rfl⟩
    exacts [⟨ha, hb⟩, ⟨hb, ha⟩]
  obtain ⟨hdup, hchk, e₀, heo, hei, hel, hadd⟩ := createEdge_inv hrun
  have hcons := addEdge_consistent h hadd
  obtain ⟨-, -, rfl, rfl⟩ := addEdge_eq hadd
  refine ⟨⟨?_, fun r' hr' d hd x hx hxt => ?_⟩, hcons⟩
  · -- the duplicate check saw every edge from `out` to `inn`
    rw [List.pairwise_append]
    refine ⟨hk.distinct, List.pairwise_singleton _ _, fun f hf e' he' hsame => ?_⟩
    rw [List.mem_singleton] at he'
    subst he'
    have hfound : (g.edgesOf out.id .outbound).any
        (fun f => f.inV == inn.id && f.label == r.label) = true := by
      rw [edgesOf_eq h.edgeIndexed, List.any_eq_true]
      refine ⟨f, List.mem_filter.mpr ⟨hf, ?_⟩, ?_⟩
      · simpa [Edge.runs, heo] using hsame.1
      · simpa [hei, hel] using hsame.2
    rw [hfound] at hdup
    cases hdup
  · -- the vertices are as before, so an old edge counts as before
    change (List.filter (g.countsAgainst r' x.id d) (g.edges ++ [_])).length ≤ 1
    rw [List.filter_append, List.length_append]
    by_cases hnew : g.countsAgainst r' x.id d { e₀ with id := ⟨g.nextEdge⟩ } = true
    · obtain ⟨rfl, hanchor⟩ := counted_new_edge hc hr hr' hout hin hagree.1 hagree.2 hd hx hxt
        heo hei hel hnew
      have hnone := checkMultiplicity_spec h hchk hd
      rw [← hanchor] at hnone
      rw [List.filter_eq_nil_iff.mpr fun f hf => by simp [hnone f hf]]
      simp [hnew]
    · simp only [hnew, Bool.false_eq_true, not_false_eq_true, List.filter_cons_of_neg,
        List.filter_nil, List.length_nil, Nat.add_zero]
      exact hk.at_most_one r' hr' d hd x hx hxt

end Catalog

/-! ### The edge operations of a scope -/

theorem addEdgeForRule_creates {r : Rule} {a b : Vertex} {m : PropertyMap} {g g' : Graph}
    {e : Edge} (hj : r.joins a.nodeType.text b.nodeType.text = true)
    (hrun : (Scope.addEdgeForRule r a b m).run g = .ok (e, g')) :
    ∃ out inn, ((out = a ∧ inn = b) ∨ (out = b ∧ inn = a)) ∧ out.nodeType = r.outType ∧
      inn.nodeType = r.inType ∧ (Scope.createEdge r out inn m).run g = .ok (e, g') := by
  unfold Scope.addEdgeForRule at hrun
  split at hrun
  · next hta => exact ⟨a, b, .inl ⟨rfl, rfl⟩, hta, (Rule.inType_of_joins hj hta.symm).symm, hrun⟩
  · next hta =>
    have htb : r.outType = b.nodeType := (Rule.outType_eq_of_joins hj).resolve_left fun h => hta h.symm
    exact ⟨b, a, .inr ⟨rfl, rfl⟩, htb.symm, (Rule.inType_of_joins (Rule.joins_symm hj) htb).symm,
      hrun⟩

theorem addTreeEdge_creates {s : Scope} {p ch : Vertex} {g g' : Graph} {e : Edge}
    (hrun : (s.addTreeEdge p ch).run g = .ok (e, g')) :
    ∃ r ∈ s.catalog.rulesOf s.version, ∃ out inn, ((out = p ∧ inn = ch) ∨ (out = ch ∧ inn = p)) ∧
      out.nodeType = r.outType ∧ inn.nodeType = r.inType ∧
      (Scope.createEdge r out inn PropertyMap.empty).run g = .ok (e, g') := by
  simp only [Scope.addTreeEdge, StateT.run_bind, GraphM.run_lift] at hrun
  cases hsel : s.select { RuleQuery.between p.nodeType ch.nodeType with edgeType := some .tree } with
  | error err => simp [hsel, Except.map] at hrun
  | ok r =>
    simp only [hsel, Except.map, Except.mapError_ok, Except.ok_bind] at hrun
    obtain ⟨hr, hj⟩ := Scope.select_between ⟨rfl, rfl⟩ hsel
    refine ⟨r, hr, ?_⟩
    split at hrun
    · simp [GraphM.run_fail] at hrun
    · next hcont =>
      rw [not_not] at hcont
      split at hrun
      · next hco =>
        have hto : r.outType = p.nodeType := by simpa [Rule.containerType, hco] using hcont
        exact ⟨p, ch, .inl ⟨rfl, rfl⟩, hto.symm, (Rule.inType_of_joins hj hto).symm, hrun⟩
      · next hco =>
        have hti : r.inType = p.nodeType := by
          cases hc : r.contains with
          | out => exact absurd hc hco
          | into => simpa [Rule.containerType, hc] using hcont
          | none => simp [Rule.containerType, hc] at hcont
        exact ⟨ch, p, .inr ⟨rfl, rfl⟩, (Rule.outType_of_joins hj hti).symm, hti.symm, hrun⟩

theorem cousinRule_spec {s : Scope} {a b : Vertex} {label : Option String} {r : Rule}
    (h : s.cousinRule a b label = .ok r) :
    r ∈ s.catalog.rulesOf s.version ∧ r.joins a.nodeType.text b.nodeType.text = true := by
  unfold Scope.cousinRule at h
  dsimp only at h
  split at h
  · split at h <;> cases h
  · exact Scope.select_between ⟨rfl, rfl⟩ h

theorem addEdge_creates {s : Scope} {a b : Vertex} {label : Option String} {m : PropertyMap}
    {g g' : Graph} {e : Edge} (hrun : (s.addEdge a b label m).run g = .ok (e, g')) :
    ∃ r ∈ s.catalog.rulesOf s.version, r.joins a.nodeType.text b.nodeType.text = true ∧
      (Scope.addEdgeForRule r a b m).run g = .ok (e, g') := by
  simp only [Scope.addEdge, StateT.run_bind, GraphM.run_lift] at hrun
  cases hr : s.cousinRule a b label with
  | error err => simp [hr, Except.map] at hrun
  | ok r =>
    simp only [hr, Except.map, Except.mapError_ok, Except.ok_bind] at hrun
    obtain ⟨hmem, hj⟩ := cousinRule_spec hr
    exact ⟨r, hmem, hj, hrun⟩

/-! ### Runs -/

/-- The stores reached from an empty store when edges come only from the rules of version
    `V` of the catalog `c`: any store write but a bare edge addition, and the edges a scope of
    `c` at `V` adds between vertices handed over with their stored node types. -/
inductive RuleReachable (c : Catalog) (V : SchemaVersion) : Graph → Prop
  | start (clock : Clock) : RuleReachable c V (startingAt clock)
  | write {g : Graph} (w : StoreWrite) :
      (∀ e, w ≠ .addEdge e) → RuleReachable c V g → RuleReachable c V (g.write w)
  | treeEdge {g g' : Graph} {e : Edge} (parent child : Vertex) :
      g.Agrees parent → g.Agrees child →
      ((Scope.mk c V).addTreeEdge parent child).run g = .ok (e, g') →
      RuleReachable c V g → RuleReachable c V g'
  | cousinEdge {g g' : Graph} {e : Edge} (a b : Vertex) (label : Option String)
      (metadata : PropertyMap) : g.Agrees a → g.Agrees b →
      ((Scope.mk c V).addEdge a b label metadata).run g = .ok (e, g') →
      RuleReachable c V g → RuleReachable c V g'
  | ruleEdge {g g' : Graph} {e : Edge} (r : Rule) (a b : Vertex) (metadata : PropertyMap) :
      r ∈ c.rulesOf V → r.joins a.nodeType.text b.nodeType.text = true →
      g.Agrees a → g.Agrees b → (Scope.addEdgeForRule r a b metadata).run g = .ok (e, g') →
      RuleReachable c V g → RuleReachable c V g'

theorem RuleReachable.kept {nodeTypes : List NodeType} {rules : List Rule} {c : Catalog}
    (hc : Catalog.load nodeTypes rules = .ok c) {V : SchemaVersion} {g : Graph}
    (hg : RuleReachable c V g) : MultiplicityKept c V g ∧ g.Consistent := by
  induction hg with
  | start clock => exact ⟨startingAt_kept c V clock, startingAt_consistent clock⟩
  | write w hw _ ih => exact ⟨write_kept ih.2 ih.1 hw, write_consistent ih.2 w⟩
  | treeEdge parent child hp hch hrun _ ih =>
    obtain ⟨r, hr, out, inn, hends, hout, hin, hcreate⟩ := addTreeEdge_creates hrun
    exact createEdge_kept hc ih.2 ih.1 hr hp hch hends hout hin hcreate
  | cousinEdge a b label metadata ha hb hrun _ ih =>
    obtain ⟨r, hr, hj, hfor⟩ := addEdge_creates hrun
    obtain ⟨out, inn, hends, hout, hin, hcreate⟩ := addEdgeForRule_creates hj hfor
    exact createEdge_kept hc ih.2 ih.1 hr ha hb hends hout hin hcreate
  | ruleEdge r a b metadata hr hj ha hb hrun _ ih =>
    obtain ⟨out, inn, hends, hout, hin, hcreate⟩ := addEdgeForRule_creates hj hrun
    exact createEdge_kept hc ih.2 ih.1 hr ha hb hends hout hin hcreate

theorem countsAgainst_outbound (g : Graph) (r : Rule) (x : VertexId) :
    (fun e => decide (e.outV = x ∧ e.label = r.label ∧
      ∃ w ∈ g.vertices, w.id = e.inV ∧ w.nodeType = r.inType)) = g.countsAgainst r x .outbound := by
  funext e
  refine Bool.eq_iff_iff.mpr ?_
  simp [countsAgainst, Edge.runs, Edge.farEnd, Rule.counterpart, and_assoc]

theorem countsAgainst_inbound (g : Graph) (r : Rule) (x : VertexId) :
    (fun e => decide (e.inV = x ∧ e.label = r.label ∧
      ∃ w ∈ g.vertices, w.id = e.outV ∧ w.nodeType = r.outType)) = g.countsAgainst r x .inbound := by
  funext e
  refine Bool.eq_iff_iff.mpr ?_
  simp [countsAgainst, Edge.runs, Edge.farEnd, Rule.counterpart, and_assoc]

/-- Over a loaded catalog and one of its versions, when edges come only from the version's
    rules, no two edges share their out end, in end and label; and every vertex at an end
    that a rule's multiplicity constrains, of that end's type, has at most one edge of the
    rule's label in that direction whose other end is of the rule's type there. -/
theorem rule_edges_keep_multiplicity {nodeTypes : List NodeType} {rules : List Rule}
    {c : Catalog} (hc : Catalog.load nodeTypes rules = .ok c) {V : SchemaVersion} {g : Graph}
    (hg : RuleReachable c V g) :
    g.edges.Pairwise (fun e f => ¬ (e.outV = f.outV ∧ e.inV = f.inV ∧ e.label = f.label)) ∧
    (∀ r ∈ c.rulesOf V, .outbound ∈ r.multiplicity.constrained →
      ∀ x ∈ g.vertices, x.nodeType = r.outType →
        (g.edges.filter fun e => e.outV = x.id ∧ e.label = r.label ∧
          ∃ w ∈ g.vertices, w.id = e.inV ∧ w.nodeType = r.inType).length ≤ 1) ∧
    (∀ r ∈ c.rulesOf V, .inbound ∈ r.multiplicity.constrained →
      ∀ x ∈ g.vertices, x.nodeType = r.inType →
        (g.edges.filter fun e => e.inV = x.id ∧ e.label = r.label ∧
          ∃ w ∈ g.vertices, w.id = e.outV ∧ w.nodeType = r.outType).length ≤ 1) := by
  obtain ⟨hk, -⟩ := hg.kept hc
  refine ⟨hk.distinct, fun r hr hd x hx hxt => ?_, fun r hr hd x hx hxt => ?_⟩
  · rw [countsAgainst_outbound]
    exact hk.at_most_one r hr .outbound hd x hx hxt
  · rw [countsAgainst_inbound]
    exact hk.at_most_one r hr .inbound hd x hx hxt

namespace ParkedTrailer

def dock : Identifier := ⟨"dock", by decide⟩
def trailer : Identifier := ⟨"trailer", by decide⟩

def parksAt : Rule :=
  { Rule.new trailer dock ⟨"parks_at", by decide⟩ SchemaVersion.v12 with
    multiplicity := .manyToOne }

def nodeTypes : List NodeType :=
  [NodeType.new dock SchemaVersion.v12, NodeType.new trailer SchemaVersion.v12]

def catalog : Catalog := ⟨nodeTypes, [parksAt]⟩

def scope : Scope := ⟨catalog, SchemaVersion.v12⟩

def yard : Graph :=
  (startingAt (.steady 0 "")).writeAll [.addVertex dock, .addVertex dock, .addVertex trailer]

def firstDock : Vertex := Vertex.new ⟨1⟩ dock 1
def secondDock : Vertex := Vertex.new ⟨2⟩ dock 2
def trailerV : Vertex := Vertex.new ⟨3⟩ trailer 3

def placeholder : Edge × Graph :=
  (⟨⟨0⟩, ⟨0⟩, ⟨0⟩, dock, .cousin, .none, .none, .none, PropertyMap.empty⟩, yard)

def parked : Edge × Graph :=
  ((scope.addEdge trailerV firstDock none PropertyMap.empty).run yard).toOption.getD placeholder

theorem yard_ruleReachable : RuleReachable catalog SchemaVersion.v12 yard :=
  have hw : ∀ t e, StoreWrite.addVertex t ≠ .addEdge e := fun _ _ h => by cases h
  (((RuleReachable.start _).write _ (hw dock)).write _ (hw dock)).write _ (hw trailer)

theorem rule_edges_keep_multiplicity_parked_trailer :
    Catalog.load nodeTypes [parksAt] = .ok catalog ∧
    RuleReachable catalog SchemaVersion.v12 parked.2 ∧
    (parked.2.edges.Pairwise (fun e f => ¬ (e.outV = f.outV ∧ e.inV = f.inV ∧ e.label = f.label)) ∧
    (∀ r ∈ catalog.rulesOf SchemaVersion.v12, .outbound ∈ r.multiplicity.constrained →
      ∀ x ∈ parked.2.vertices, x.nodeType = r.outType →
        (parked.2.edges.filter fun e => e.outV = x.id ∧ e.label = r.label ∧
          ∃ w ∈ parked.2.vertices, w.id = e.inV ∧ w.nodeType = r.inType).length ≤ 1) ∧
    (∀ r ∈ catalog.rulesOf SchemaVersion.v12, .inbound ∈ r.multiplicity.constrained →
      ∀ x ∈ parked.2.vertices, x.nodeType = r.inType →
        (parked.2.edges.filter fun e => e.inV = x.id ∧ e.label = r.label ∧
          ∃ w ∈ parked.2.vertices, w.id = e.outV ∧ w.nodeType = r.outType).length ≤ 1)) ∧
    parked.1.outV = trailerV.id ∧ parked.1.inV = firstDock.id ∧
    ((scope.addEdge trailerV secondDock none PropertyMap.empty).run parked.2).isOk = false := by
  have hc : Catalog.load nodeTypes [parksAt] = .ok catalog := rfl
  have hrun : (scope.addEdge trailerV firstDock none PropertyMap.empty).run yard =
      .ok (parked.1, parked.2) :=
    Except.eq_ok_getD (by decide +kernel) placeholder
  have hg : RuleReachable catalog SchemaVersion.v12 parked.2 :=
    .cousinEdge trailerV firstDock none PropertyMap.empty (by unfold Graph.Agrees; decide)
      (by unfold Graph.Agrees; decide) hrun yard_ruleReachable
  exact ⟨hc, hg, rule_edges_keep_multiplicity hc hg, by decide +kernel, by decide +kernel,
    by decide +kernel⟩

end ParkedTrailer

end Graph
end InventoryGraph
