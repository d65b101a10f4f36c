import InventoryGraph.Proofs.Rules.Multiplicity
import InventoryGraph.Proofs.Serializer.DistinctAddresses

/-!
Which way rule edges run. Two encodings of containment meet here: a rule names its container
type through its direction and its containment flag, and an edge names its parent end through
the flag it copies from the rule and its own out and in ends. A tree edge is added from the
container when the rule contains outwards and from the contained vertex otherwise, so in all
four combinations of direction and flag the edge's parent end is the container the caller
named, and its out end has the rule's out type. Afterwards the parent lists the child last
among its children, and the child has the parent as its tree parent unless it had one before.

A cousin edge between vertices of two different types runs from the one of the rule's out type,
and the same rule is selected whichever vertex is named first, so both orders give one
orientation.
-/
namespace InventoryGraph

namespace Edge

/-- The edge carries a rule's label, edge type and flags. -/
structure Carries (e : Edge) (r : Rule) : Prop where
  label : e.label = r.label
  edgeType : e.edgeType = r.edgeType
  contains : e.contains = r.contains
  deleteOtherV : e.deleteOtherV = r.deleteOtherV
  preventDelete : e.preventDelete = r.preventDelete

end Edge

namespace Graph

/-! ### Containment after an edge is added -/

section AddEdge
variable {g g' : Graph} {e₀ e : Edge} (h : g.Consistent) (hadd : g.addEdge e₀ = .ok (e, g'))
include h hadd

theorem edgesOf_addEdge (x : VertexId) (d : EdgeDirection) :
    g'.edgesOf x d = g.edgesOf x d ++ [e].filter (·.runs x d) := by
  have hedges : g'.edges = g.edges ++ [e] := by rw [(addEdge_eq hadd).2.2.2]
  rw [edgesOf_eq (addEdge_consistent h hadd).edgeIndexed, edgesOf_eq h.edgeIndexed, hedges,
    List.filter_append]

theorem treeChildren_addEdge (x : VertexId) :
    g'.treeChildren x = g.treeChildren x ++
      if e.edgeType = .tree ∧ e.parentEnd? = some x then e.childEnd?.toList else [] := by
  unfold treeChildren
  rw [edgesOf_addEdge h hadd, List.filterMap_append]
  congr 1
  by_cases hrun : e.runs x .both = true
  · by_cases hc : e.edgeType = .tree ∧ e.parentEnd? = some x
    · cases hce : e.childEnd? <;> simp [hrun, hc, hce]
    · simp [hrun, hc]
  · have hnot : ¬ e.parentEnd? = some x := fun hp => hrun (Edge.runs_of_parentEnd? hp)
    simp [hrun, hnot]

end AddEdge

end Graph

theorem Rule.joins_comm (r : Rule) (a b : String) : r.joins a b = r.joins b a := by
  unfold Rule.joins
  exact Bool.or_comm _ _

theorem Catalog.select_ok_iff_of_candidates {c : Catalog} {q q' : RuleQuery}
    (h : c.candidates q = c.candidates q') (r : Rule) :
    c.select q = .ok r ↔ c.select q' = .ok r := by
  unfold Catalog.select
  rw [h]
  generalize (RuleGroups.ofList (c.candidates q')).groups = G
  rcases G with _ | ⟨⟨k, rs⟩, _ | ⟨g, gs⟩⟩
  · simp
  · dsimp only
    rcases rs with _ | ⟨r₁, _ | ⟨r₂, rs⟩⟩
    · simp
    · rfl
    · dsimp only
      generalize (r₁ :: r₂ :: rs).filter (·.isDefault) = D
      rcases D with _ | ⟨d, _ | ⟨d', ds⟩⟩ <;> simp
  · simp

/-! ### The edges of a scope -/

namespace Scope

theorem createEdge_run {r : Rule} {out inn : Vertex} {m : PropertyMap} {g g' : Graph} {e : Edge}
    (hrun : (createEdge r out inn m).run g = .ok (e, g')) :
    e.outV = out.id ∧ e.inV = inn.id ∧ e.Carries r ∧ ∃ e₀, g.addEdge e₀ = .ok (e, g') := by
  simp only [createEdge, StateT.run_bind, StateT.run_get, pure_bind] at hrun
  split at hrun
  · simp [GraphM.run_fail] at hrun
  · simp only [StateT.run_bind, GraphM.run_lift] at hrun
    cases hchk : g.checkMultiplicity r out inn with
    | error err => simp [hchk, Except.map] at hrun
    | ok u =>
      simp only [hchk, Except.map, Except.mapError_ok, Except.ok_bind, GraphM.run_addEdge,
        Except.mapError_eq_ok] at hrun
      obtain ⟨-, -, rfl, -⟩ := Graph.addEdge_eq hrun
      exact ⟨rfl, rfl, ⟨rfl, rfl, rfl, rfl, rfl⟩, _, hrun⟩

theorem addTreeEdge_run {s : Scope} {p ch : Vertex} {g g' : Graph} {e : Edge}
    (hrun : (s.addTreeEdge p ch).run g = .ok (e, g')) :
    ∃ r, s.select { RuleQuery.between p.nodeType ch.nodeType with edgeType := some .tree } = .ok r ∧
      r.containerType = some p.nodeType ∧
      ((r.contains = .out ∧ (createEdge r p ch PropertyMap.empty).run g = .ok (e, g')) ∨
        (r.contains ≠ .out ∧ (createEdge r ch p PropertyMap.empty).run g = .ok (e, g'))) := by
  simp only [addTreeEdge, StateT.run_bind, GraphM.run_lift] at hrun
  cases hsel : s.select { RuleQuery.between p.nodeType ch.nodeType with edgeType := some .tree } with
  | error err => simp [hsel, Except.map] at hrun
  | ok r =>
    simp only [hsel, Except.map, Except.mapError_ok, Except.ok_bind] at hrun
    refine ⟨r, rfl, ?_⟩
    split at hrun
    · simp [GraphM.run_fail] at hrun
    · next hcont =>
      refine ⟨not_not.mp hcont, ?_⟩
      split at hrun
      · next hco => exact .inl ⟨hco, hrun⟩
      · next hco => exact .inr ⟨hco, hrun⟩

theorem select_tree {s : Scope} {a b : Identifier} {r : Rule}
    (h : s.select { RuleQuery.between a b with edgeType := some .tree } = .ok r) :
    r.edgeType = .tree := by
  have hadm := (select_spec h).2
  simp only [RuleQuery.admits, Bool.and_eq_true, beq_iff_eq] at hadm
  exact hadm.2

theorem treeEdge_ends {r : Rule} {p ch : Vertex} {g g' : Graph} {e : Edge}
    (hj : r.joins p.nodeType.text ch.nodeType.text = true) (hcont : r.containerType = some p.nodeType)
    (hcreate : (r.contains = .out ∧ (createEdge r p ch PropertyMap.empty).run g = .ok (e, g')) ∨
      (r.contains ≠ .out ∧ (createEdge r ch p PropertyMap.empty).run g = .ok (e, g'))) :
    (∃ e₀, g.addEdge e₀ = .ok (e, g')) ∧ e.Carries r ∧
      (e.outV = p.id ∧ e.inV = ch.id ∧ p.nodeType = r.outType ∧ ch.nodeType = r.inType ∨
        e.outV = ch.id ∧ e.inV = p.id ∧ ch.nodeType = r.outType ∧ p.nodeType = r.inType) ∧
      e.parentEnd? = some p.id ∧ e.childEnd? = some ch.id := by
  rcases hcreate with ⟨hco, hc⟩ | ⟨hco, hc⟩
  · -- contained outwards: the edge leaves the parent, whose type is the out type
    obtain ⟨hout, hin, hcar, hadd⟩ := createEdge_run hc
    have hto : r.outType = p.nodeType := by simpa [Rule.containerType, hco] using hcont
    refine ⟨hadd, hcar, .inl ⟨hout, hin, hto.symm, (Rule.inType_of_joins hj hto).symm⟩, ?_, ?_⟩
    · simp [Edge.parentEnd?, hcar.contains, hco, hout]
    · simp [Edge.childEnd?, hcar.contains, hco, hin]
  · -- contained inwards: the edge enters the parent, whose type is the in type
    obtain ⟨hout, hin, hcar, hadd⟩ := createEdge_run hc
    have hti : r.contains = .into ∧ r.inType = p.nodeType := by
      cases hc' : r.contains with
      | out => exact absurd hc' hco
      | into => exact ⟨rfl, by simpa [Rule.containerType, hc'] using hcont⟩
      | none => simp [Rule.containerType, hc'] at hcont
    refine ⟨hadd, hcar, .inr ⟨hout, hin, (Rule.outType_of_joins hj hti.2).symm, hti.2.symm⟩, ?_, ?_⟩
    · simp [Edge.parentEnd?, hcar.contains, hti.1, hin]
    · simp [Edge.childEnd?, hcar.contains, hti.1, hout]

theorem cousinRule_eq_ok_iff {s : Scope} {a b : Vertex} {label : Option String} {r : Rule} :
    s.cousinRule a b label = .ok r ↔
      s.select { RuleQuery.between a.nodeType b.nodeType with
        label, version := some s.version, edgeType := some .cousin } = .ok r := by
  unfold cousinRule
  dsimp only
  split
  · next m hsel =>
    rw [hsel]
    split <;> simp
  · rfl

theorem cousinRule_swap {s : Scope} {a b : Vertex} {label : Option String} {r : Rule} :
    s.cousinRule a b label = .ok r ↔ s.cousinRule b a label = .ok r := by
  rw [cousinRule_eq_ok_iff, cousinRule_eq_ok_iff]
  refine Catalog.select_ok_iff_of_candidates ?_ r
  simp only [Catalog.candidates]
  refine List.filter_congr fun x _ => ?_
  simp only [RuleQuery.admits, RuleQuery.between, Rule.joins_comm x a.nodeType.text]

theorem addEdge_run {s : Scope} {a b : Vertex} {label : Option String} {m : PropertyMap}
    {g g' : Graph} {e : Edge} (hrun : (s.addEdge a b label m).run g = .ok (e, g')) :
    ∃ r, s.cousinRule a b label = .ok r ∧ (addEdgeForRule r a b m).run g = .ok (e, g') := by
  simp only [addEdge, StateT.run_bind, GraphM.run_lift] at hrun
  cases hr : s.cousinRule a b label with
  | error err => simp [hr, Except.map] at hrun
  | ok r =>
    simp only [hr, Except.map, Except.mapError_ok, Except.ok_bind] at hrun
    exact ⟨r, rfl, hrun⟩

theorem ruleEdge_ends {r : Rule} {a b : Vertex} {m : PropertyMap} {g g' : Graph} {e : Edge}
    (hne : a.nodeType ≠ b.nodeType) (hj : r.joins a.nodeType.text b.nodeType.text = true)
    (hrun : (addEdgeForRule r a b m).run g = .ok (e, g')) :
    e.Carries r ∧ (a.nodeType = r.outType ∨ b.nodeType = r.outType) ∧
      ∀ x y, (x = a ∧ y = b ∨ x = b ∧ y = a) → x.nodeType = r.outType →
        e.outV = x.id ∧ e.inV = y.id ∧ y.nodeType = r.inType := by
  unfold addEdgeForRule at hrun
  split at hrun
  · next hta =>
    obtain ⟨hout, hin, hcar, -⟩ := createEdge_run hrun
    refine ⟨hcar, .inl hta, fun x y hxy hx => ?_⟩
    rcases hxy with ⟨rfl, rfl⟩ | ⟨rfl, rfl⟩
    · exact ⟨hout, hin, (Rule.inType_of_joins hj hta.symm).symm⟩
    · exact absurd (hta.trans hx.symm) hne
  · next hta =>
    -- `a` is not of the out type, so `b` is, and the edge leaves `b`
    have htb : r.outType = b.nodeType :=
      (Rule.outType_eq_of_joins hj).resolve_left fun h => hta h.symm
    obtain ⟨hout, hin, hcar, -⟩ := createEdge_run hrun
    refine ⟨hcar, .inr htb.symm, fun x y hxy hx => ?_⟩
    rcases hxy with ⟨rfl, rfl⟩ | ⟨rfl, rfl⟩
    · exact absurd hx hta
    · exact ⟨hout, hin, (Rule.inType_of_joins (Rule.joins_symm hj) htb).symm⟩

/-- Edges follow their rules' orientation, for every scope and store. A tree edge that is added
    between a parent and a child is a tree edge of the tree rule the scope selects for the pair,
    carrying its label and flags; its out end has the rule's out type and its in end the rule's
    in type; its containing end is the parent and its contained end the child, so the parent lists
    the child last among its children and the child's tree parent is the parent unless it had one
    before. A cousin edge added between two vertices of different types is a cousin edge of the
    cousin rule selected for them, which naming them the other way round selects too, carrying
    its label and flags; it runs from the vertex of the rule's out type to the other. -/
theorem rule_edges_orient (s : Scope) :
    (∀ {p ch : Vertex} {g g' : Graph} {e : Edge}, g.Consistent →
      (s.addTreeEdge p ch).run g = .ok (e, g') →
      ∃ r, s.select { RuleQuery.between p.nodeType ch.nodeType with edgeType := some .tree } = .ok r ∧
        e.edgeType = .tree ∧ e.Carries r ∧
        (e.outV = p.id ∧ e.inV = ch.id ∧ p.nodeType = r.outType ∧ ch.nodeType = r.inType ∨
          e.outV = ch.id ∧ e.inV = p.id ∧ ch.nodeType = r.outType ∧ p.nodeType = r.inType) ∧
        e.parentEnd? = some p.id ∧ e.childEnd? = some ch.id ∧ g'.edges = g.edges ++ [e] ∧
        g'.treeChildren p.id = g.treeChildren p.id ++ [ch.id] ∧
        g'.treeParent? ch.id = (g.treeParent? ch.id).or (some p.id)) ∧
    (∀ {a b : Vertex} {label : Option String} {m : PropertyMap} {g g' : Graph} {e : Edge},
      a.nodeType ≠ b.nodeType → (s.addEdge a b label m).run g = .ok (e, g') →
      ∃ r, s.cousinRule a b label = .ok r ∧ s.cousinRule b a label = .ok r ∧
        e.edgeType = .cousin ∧ e.Carries r ∧ (a.nodeType = r.outType ∨ b.nodeType = r.outType) ∧
        ∀ x y, (x = a ∧ y = b ∨ x = b ∧ y = a) → x.nodeType = r.outType →
          e.outV = x.id ∧ e.inV = y.id ∧ y.nodeType = r.inType) := by
  refine ⟨fun {p ch g g' e} hg hrun => ?_, fun {a b label m g g' e} hne hrun => ?_⟩
  · obtain ⟨r, hsel, hcont, hcreate⟩ := addTreeEdge_run hrun
    obtain ⟨⟨e₀, hadd⟩, hcar, horient, hparent, hchild⟩ :=
      treeEdge_ends (select_between ⟨rfl, rfl⟩ hsel).2 hcont hcreate
    have htree : e.edgeType = .tree := hcar.edgeType.trans (select_tree hsel)
    refine ⟨r, hsel, htree, hcar, horient, hparent, hchild, (Graph.addEdge_eq hadd).2.2.2 ▸ rfl,
      ?_, ?_⟩
    · rw [Graph.treeChildren_addEdge hg hadd, if_pos ⟨htree, hparent⟩, hchild]
      rfl
    · -- the edge handed to the store has the flags and ends of the one it adds
      obtain ⟨-, -, ht, hch, hp⟩ := Graph.addEdge_edges hadd
      rw [Graph.treeParent?_addEdge hg hadd, Edge.treeParentOf?, ← ht, ← hch, ← hp,
        if_pos ⟨htree, hchild⟩, hparent]
  · obtain ⟨r, hr, hfor⟩ := addEdge_run hrun
    obtain ⟨-, hj⟩ := Graph.cousinRule_spec hr
    obtain ⟨hcar, hsome, hends⟩ := ruleEdge_ends hne hj hfor
    exact ⟨r, hr, cousinRule_swap.mp hr, hcar.edgeType.trans (Serializer.cousinRule_edgeType hr),
      hcar, hsome, hends⟩

/-! A tray sits in a kiln and a burner heats it. The tray rule runs from the tray and contains
inwards, so the tree edge leaves the child; the burner rule runs from the burner, which the edge
leaves though the kiln is named first. -/

namespace KilnTray

def kiln : Identifier := ⟨"kiln", by decide⟩
def tray : Identifier := ⟨"tray", by decide⟩
def burner : Identifier := ⟨"burner", by decide⟩

def sitsIn : Rule :=
  { Rule.new tray kiln ⟨"sits_in", by decide⟩ SchemaVersion.v12 with contains := .into }
def heats : Rule := Rule.new burner kiln ⟨"heats", by decide⟩ SchemaVersion.v12

def scope : Scope :=
  ⟨⟨[NodeType.new kiln SchemaVersion.v12, NodeType.new tray SchemaVersion.v12,
    NodeType.new burner SchemaVersion.v12], [sitsIn, heats]⟩, SchemaVersion.v12⟩

def store : Graph :=
  (Graph.startingAt (.steady 0 "")).writeAll [.addVertex kiln, .addVertex tray, .addVertex burner]

def kilnV : Vertex := Vertex.new ⟨1⟩ kiln 0
def trayV : Vertex := Vertex.new ⟨2⟩ tray 0
def burnerV : Vertex := Vertex.new ⟨3⟩ burner 0

def placeholder : Edge × Graph :=
  (⟨⟨0⟩, ⟨0⟩, ⟨0⟩, kiln, .tree, .none, .none, .none, PropertyMap.empty⟩, store)

def shelved : Edge × Graph := ((scope.addTreeEdge kilnV trayV).run store).toOption.getD placeholder

def heated : Edge × Graph :=
  ((scope.addEdge kilnV burnerV none PropertyMap.empty).run store).toOption.getD placeholder

theorem kiln_edges_orient :
    store.Consistent ∧ (scope.addTreeEdge kilnV trayV).run store = .ok (shelved.1, shelved.2) ∧
      shelved.1.outV = trayV.id ∧ shelved.1.parentEnd? = some kilnV.id ∧
      shelved.2.treeChildren kilnV.id = [trayV.id] ∧
    kilnV.nodeType ≠ burnerV.nodeType ∧
      (scope.addEdge kilnV burnerV none PropertyMap.empty).run store = .ok (heated.1, heated.2) ∧
      heated.1.outV = burnerV.id := by
  have hcons : store.Consistent := Graph.write_consistent (Graph.write_consistent
    (Graph.write_consistent (Graph.startingAt_consistent (.steady 0 "")) (.addVertex kiln)) (.addVertex tray))
    (.addVertex burner)
  have hshelf : (scope.addTreeEdge kilnV trayV).run store = .ok (shelved.1, shelved.2) :=
    Except.eq_ok_getD (by decide +kernel) placeholder
  have hheat : (scope.addEdge kilnV burnerV none PropertyMap.empty).run store =
      .ok (heated.1, heated.2) :=
    Except.eq_ok_getD (by decide +kernel) placeholder
  have hne : kilnV.nodeType ≠ burnerV.nodeType := by decide
  obtain ⟨r, hsel, -, -, horient, hparent, -, -, hchildren, -⟩ :=
    (rule_edges_orient scope).1 hcons hshelf
  have hr : (scope.select { RuleQuery.between kilnV.nodeType trayV.nodeType with
      edgeType := some .tree }).toOption = some sitsIn := by decide +kernel
  rw [hsel] at hr
  cases hr
  have hout : shelved.1.outV = trayV.id := by
    rcases horient with ⟨-, -, hk, -⟩ | ⟨hout, -⟩
    · exact absurd hk (by decide)
    · exact hout
  obtain ⟨r', hr', -, -, -, -, hends⟩ := (rule_edges_orient scope).2 hne hheat
  have hrule : (scope.cousinRule kilnV burnerV none).toOption = some heats := by decide +kernel
  rw [hr'] at hrule
  cases hrule
  have hempty : store.treeChildren kilnV.id = [] := by decide +kernel
  refine ⟨hcons, hshelf, hout, hparent, by rw [hchildren, hempty]; rfl, hne, hheat,
    (hends burnerV kilnV (.inr ⟨rfl, rfl⟩) rfl).1⟩

end KilnTray

end Scope
end InventoryGraph
