import InventoryGraph.Proofs.Serializer.Stages
import Mathlib.Order.WellFounded

/-!
Containment stays a forest. A write adds a tree edge only when it places a vertex that has no
parent yet under its parent, and relationships add and remove cousin edges only, so every
vertex is contained by at most one tree edge. Following tree parents ends, and so never
comes back to a vertex, as long as no write places a vertex under the parent it is handed
when that vertex is the parent or contains it: a new vertex contains nothing, and the
children of a write are found among the children of their parent, but a caller may hand a
write such a vertex, and the write then closes a cycle.

Acyclicity is kept as well-foundedness of the parent relation: placing a root under a parent
outside its subtree keeps it, by induction on accessibility.
-/
namespace InventoryGraph

namespace Edge

def treeParentOf? (e : Edge) (x : VertexId) : Option VertexId :=
  if e.edgeType = .tree ∧ e.childEnd? = some x then e.parentEnd? else none

theorem parentEnd?_isSome {e : Edge} {x : VertexId} (h : e.childEnd? = some x) :
    (e.parentEnd?).isSome := by
  unfold childEnd? at h
  unfold parentEnd?
  split at h <;> simp_all

theorem treeParentOf?_isSome {e : Edge} {x : VertexId} :
    (e.treeParentOf? x).isSome ↔ e.edgeType = .tree ∧ e.childEnd? = some x := by
  unfold treeParentOf?
  split
  · next h => exact ⟨fun _ => h, fun _ => parentEnd?_isSome h.2⟩
  · next h => simpa using h

theorem runs_of_childEnd? {e : Edge} {x : VertexId} (h : e.childEnd? = some x) :
    e.runs x .both = true := by
  unfold childEnd? at h
  split at h <;> simp_all [runs]

end Edge

namespace Graph

/-- `g.ParentOf y x`: the tree parent of `x` is `y`. -/
def ParentOf (g : Graph) (y x : VertexId) : Prop := g.treeParent? x = some y

def parentChain (g : Graph) : Nat → VertexId → List VertexId
  | 0, x => [x]
  | n + 1, x => x :: match g.treeParent? x with
    | none => []
    | some p => g.parentChain n p

def containing (g : Graph) (x : VertexId) : List Edge :=
  g.edges.filter fun e => e.edgeType = .tree ∧ e.childEnd? = some x

/-- A consistent store in which each vertex is contained by at most one tree edge. -/
structure SingleParents (g : Graph) : Prop where
  consistent : g.Consistent
  single : ∀ x, (g.containing x).length ≤ 1

/-- A consistent store whose tree edges form a forest: each vertex is contained by at most one
    tree edge, and following tree parents always ends. -/
structure Forest (g : Graph) : Prop where
  consistent : g.Consistent
  single : ∀ x, (g.containing x).length ≤ 1
  wf : WellFounded g.ParentOf

theorem Forest.singleParents {g : Graph} (h : g.Forest) : g.SingleParents :=
  ⟨h.consistent, h.single⟩

theorem SingleParents.forest {g : Graph} (h : g.SingleParents) (hwf : WellFounded g.ParentOf) :
    g.Forest :=
  ⟨h.consistent, h.single, hwf⟩

theorem findSome?_filter_of_imp {l : List Edge} {p : Edge → Bool} {f : Edge → Option VertexId}
    (h : ∀ e ∈ l, (f e).isSome → p e = true) : (l.filter p).findSome? f = l.findSome? f := by
  induction l with
  | nil => rfl
  | cons e l ih =>
    have ih' := ih fun e' he' => h e' (List.mem_cons_of_mem e he')
    by_cases hp : p e = true
    · rw [List.filter_cons_of_pos hp, List.findSome?_cons, List.findSome?_cons, ih']
    · have hf : f e = none := by
        cases hfe : f e with
        | none => rfl
        | some y => exact absurd (h e List.mem_cons_self (by simp [hfe])) hp
      rw [List.filter_cons_of_neg hp, List.findSome?_cons, hf, ih']

theorem treeParent?_eq {g : Graph} (h : g.EdgeIndexed) (x : VertexId) :
    g.treeParent? x = g.edges.findSome? (·.treeParentOf? x) := by
  rw [treeParent?, edgesOf_eq h]
  exact findSome?_filter_of_imp fun e _ he =>
    Edge.runs_of_childEnd? (Edge.treeParentOf?_isSome.mp he).2

theorem findSome?_of_single {l : List Edge} {x y : VertexId}
    (hs : (l.filter fun e => e.edgeType = .tree ∧ e.childEnd? = some x).length ≤ 1) {e : Edge}
    (he : e ∈ l) (hy : e.treeParentOf? x = some y) : l.findSome? (·.treeParentOf? x) = some y := by
  have hsome : (l.findSome? (·.treeParentOf? x)).isSome :=
    List.findSome?_isSome_iff.mpr ⟨e, he, by simp [hy]⟩
  obtain ⟨z, hz⟩ := Option.isSome_iff_exists.mp hsome
  obtain ⟨e', he', hz'⟩ := List.exists_of_findSome?_eq_some hz
  have hmem : ∀ f ∈ l, (f.treeParentOf? x).isSome →
      f ∈ l.filter fun e => e.edgeType = .tree ∧ e.childEnd? = some x := fun f hf hfs =>
    List.mem_filter.mpr ⟨hf, decide_eq_true (Edge.treeParentOf?_isSome.mp hfs)⟩
  have h₁ := hmem e he (by simp [hy])
  have h₂ := hmem e' he' (by simp [hz'])
  have hee' : e = e' := by
    generalize l.filter (fun e => e.edgeType = .tree ∧ e.childEnd? = some x) = L at hs h₁ h₂
    rcases L with _ | ⟨f, _ | ⟨f', L⟩⟩
    · exact absurd h₁ List.not_mem_nil
    · exact (List.mem_singleton.mp h₁).trans (List.mem_singleton.mp h₂).symm
    · simp at hs
  subst hee'
  rw [hz, ← hy, hz']

theorem SingleParents.treeParent?_of_mem {g : Graph} (h : g.SingleParents) {e : Edge}
    (he : e ∈ g.edges) {x y : VertexId} (hy : e.treeParentOf? x = some y) :
    g.treeParent? x = some y := by
  rw [Graph.treeParent?_eq h.consistent.edgeIndexed]
  exact findSome?_of_single (h.single x) he hy

theorem Forest.treeParent?_of_mem {g : Graph} (h : g.Forest) {e : Edge} (he : e ∈ g.edges)
    {x y : VertexId} (hy : e.treeParentOf? x = some y) : g.treeParent? x = some y :=
  h.singleParents.treeParent?_of_mem he hy

/-! ### What each store write does to the forest -/

theorem wellFounded_attach {R R' : VertexId → VertexId → Prop} {c p : VertexId}
    (hwf : WellFounded R) (hroot : ∀ y, ¬ R y c) (hnot : ¬ Relation.ReflTransGen R c p)
    (hR' : ∀ y x, R' y x ↔ (x = c ∧ y = p) ∨ (x ≠ c ∧ R y x)) : WellFounded R' := by
  -- above `p` nothing reaches `c`, so there the two relations agree
  have outside : ∀ z, ¬ Relation.ReflTransGen R c z → Acc R' z := by
    intro z
    induction z using hwf.induction with
    | h z ih =>
      intro hz
      refine ⟨_, fun y hy => ?_⟩
      rcases (hR' y z).mp hy with ⟨rfl, -⟩ | ⟨-, hyz⟩
      · exact absurd Relation.ReflTransGen.refl hz
      · exact ih y hyz fun hcy => hz (hcy.tail hyz)
  have atRoot : Acc R' c := by
    refine ⟨_, fun y hy => ?_⟩
    rcases (hR' y c).mp hy with ⟨-, rfl⟩ | ⟨hne, -⟩
    · exact outside y hnot
    · exact absurd rfl hne
  refine ⟨fun x => ?_⟩
  induction x using hwf.induction with
  | h x ih =>
    by_cases hx : x = c
    · exact hx ▸ atRoot
    · refine ⟨_, fun y hy => ?_⟩
      rcases (hR' y x).mp hy with ⟨hxc, -⟩ | ⟨-, hyx⟩
      · exact absurd hxc hx
      · exact ih y hyx

theorem startingAt_singleParents (c : Clock) : (startingAt c).SingleParents where
  consistent := startingAt_consistent c
  single x := by simp [containing, startingAt]

theorem startingAt_forest (c : Clock) : (startingAt c).Forest := by
  have none : ∀ y x, ¬ (startingAt c).ParentOf y x := fun y x h => by
    rw [ParentOf, treeParent?_eq (startingAt_consistent c).edgeIndexed] at h
    simp [startingAt] at h
  exact (startingAt_singleParents c).forest ⟨fun x => ⟨x, fun y h => absurd h (none y x)⟩⟩

theorem treeParent?_congr {g g' : Graph} (h : g.EdgeIndexed) (h' : g'.EdgeIndexed)
    (he : g'.edges = g.edges) : g'.treeParent? = g.treeParent? := by
  funext x
  rw [treeParent?_eq h, treeParent?_eq h', he]

theorem parentOf_congr {g g' : Graph} (h : g.EdgeIndexed) (h' : g'.EdgeIndexed)
    (he : g'.edges = g.edges) : g'.ParentOf = g.ParentOf := by
  funext y x
  rw [ParentOf, ParentOf, treeParent?_congr h h' he]

theorem updateVertex_edges {g g' : Graph} {w : Vertex} (hup : g.updateVertex w = .ok g') :
    g'.edges = g.edges := by
  obtain ⟨_, _, _, rfl⟩ := updateVertex_eq hup
  rfl

theorem addVertex_fresh {g : Graph} (h : g.Consistent) (t : Identifier) :
    ¬ g.Live (g.addVertex t).1.id := by
  rintro ⟨w, hw, hid⟩
  have hlt := h.vertex_fresh w hw
  rw [hid] at hlt
  exact Nat.lt_irrefl _ hlt

theorem SingleParents.of_edges {g g' : Graph} (h : g.SingleParents) (hc : g'.Consistent)
    (he : g'.edges = g.edges) : g'.SingleParents where
  consistent := hc
  single x := by
    rw [containing, he]
    exact h.single x

theorem Forest.of_edges {g g' : Graph} (h : g.Forest) (hc : g'.Consistent)
    (he : g'.edges = g.edges) : g'.Forest :=
  (h.singleParents.of_edges hc he).forest
    (parentOf_congr h.consistent.edgeIndexed hc.edgeIndexed he ▸ h.wf)

theorem SingleParents.updateVertex {g g' : Graph} {w : Vertex} (h : g.SingleParents)
    (hup : g.updateVertex w = .ok g') : g'.SingleParents :=
  h.of_edges (updateVertex_consistent h.consistent hup) (updateVertex_edges hup)

theorem SingleParents.withClock {g : Graph} (h : g.SingleParents) (c : Clock) :
    ({ g with clock := c } : Graph).SingleParents :=
  h.of_edges (h.consistent.withClock c) rfl

theorem Forest.addVertex {g : Graph} (h : g.Forest) (t : Identifier) : (g.addVertex t).2.Forest :=
  h.of_edges (addVertex_consistent h.consistent t) rfl

theorem Forest.updateVertex {g g' : Graph} {w : Vertex} (h : g.Forest)
    (hup : g.updateVertex w = .ok g') : g'.Forest :=
  h.of_edges (updateVertex_consistent h.consistent hup) (updateVertex_edges hup)

theorem Forest.withClock {g : Graph} (h : g.Forest) (c : Clock) :
    ({ g with clock := c } : Graph).Forest :=
  h.of_edges (h.consistent.withClock c) rfl

theorem SingleParents.removeEdge {g : Graph} (h : g.SingleParents) (i : EdgeId) :
    (g.removeEdge i).2.SingleParents where
  consistent := removeEdge_consistent h.consistent i
  single x := by
    refine Nat.le_trans (List.Sublist.length_le ?_) (h.single x)
    rw [containing, containing, removeEdge_edges]
    exact List.filter_sublist.filter _

theorem Forest.removeEdge {g : Graph} (h : g.Forest) (i : EdgeId) : (g.removeEdge i).2.Forest := by
  refine (h.singleParents.removeEdge i).forest (Subrelation.wf (fun {y x} hyx => ?_) h.wf)
  rw [ParentOf, treeParent?_eq (removeEdge_consistent h.consistent i).edgeIndexed,
    removeEdge_edges] at hyx
  obtain ⟨e, he, hy⟩ := List.exists_of_findSome?_eq_some hyx
  exact h.treeParent?_of_mem (List.mem_filter.mp he).1 hy

theorem addEdge_edges {g g' : Graph} {e e' : Edge} (hadd : g.addEdge e = .ok (e', g')) :
    g'.edges = g.edges ++ [e'] ∧ e'.contains = e.contains ∧ e'.edgeType = e.edgeType ∧
      e'.childEnd? = e.childEnd? ∧ e'.parentEnd? = e.parentEnd? := by
  obtain ⟨-, -, rfl, rfl⟩ := addEdge_eq hadd
  exact ⟨rfl, rfl, rfl, rfl, rfl⟩

theorem childEnd?_of_uncontained {g g' : Graph} {e e' : Edge} (hadd : g.addEdge e = .ok (e', g'))
    (hc : e.contains = .none) (x : VertexId) : e'.childEnd? ≠ some x := by
  simp [Edge.childEnd?, (addEdge_edges hadd).2.1, hc]

theorem SingleParents.addEdge_uncontained {g g' : Graph} {e e' : Edge} (h : g.SingleParents)
    (hadd : g.addEdge e = .ok (e', g')) (hc : e.contains = .none) : g'.SingleParents := by
  refine ⟨addEdge_consistent h.consistent hadd, fun x => ?_⟩
  have hlast : [e'].filter (fun e => e.edgeType = .tree ∧ e.childEnd? = some x) = [] := by
    simp [childEnd?_of_uncontained hadd hc x]
  rw [containing, (addEdge_edges hadd).1, List.filter_append, hlast, List.append_nil]
  exact h.single x

theorem Forest.addEdge_uncontained {g g' : Graph} {e e' : Edge} (h : g.Forest)
    (hadd : g.addEdge e = .ok (e', g')) (hc : e.contains = .none) : g'.Forest := by
  have hs := h.singleParents.addEdge_uncontained hadd hc
  have hrel : g'.ParentOf = g.ParentOf := by
    funext y x
    simp only [ParentOf, treeParent?_eq hs.consistent.edgeIndexed,
      treeParent?_eq h.consistent.edgeIndexed, (addEdge_edges hadd).1, List.findSome?_append]
    simp [Edge.treeParentOf?, childEnd?_of_uncontained hadd hc x]
  exact hs.forest (hrel ▸ h.wf)

theorem SingleParents.attach {g g' : Graph} {e e' : Edge} {c : VertexId} (h : g.SingleParents)
    (hadd : g.addEdge e = .ok (e', g')) (hc : e.childEnd? = some c)
    (hroot : g.treeParent? c = none) : g'.SingleParents := by
  obtain ⟨hedges, -, -, hc', -⟩ := addEdge_edges hadd
  have hfree : g.containing c = [] := by
    refine List.filter_eq_nil_iff.mpr fun f hf hfc => ?_
    obtain ⟨y, hy⟩ := Option.isSome_iff_exists.mp
      (Edge.treeParentOf?_isSome.mpr (of_decide_eq_true hfc))
    rw [h.treeParent?_of_mem hf hy] at hroot
    cases hroot
  refine ⟨addEdge_consistent h.consistent hadd, fun x => ?_⟩
  rw [containing, hedges, List.filter_append]
  by_cases hx : x = c
  · subst hx
    rw [show g.edges.filter _ = [] from hfree, List.nil_append]
    exact (List.length_filter_le _ _).trans (by simp)
  · have hlast : [e'].filter (fun e => e.edgeType = .tree ∧ e.childEnd? = some x) = [] := by
      simp [hc', hc, Ne.symm hx]
    rw [hlast, List.append_nil]
    exact h.single x

theorem Forest.attach {g g' : Graph} {e e' : Edge} {c p : VertexId} (h : g.Forest)
    (hadd : g.addEdge e = .ok (e', g')) (ht : e.edgeType = .tree) (hc : e.childEnd? = some c)
    (hp : e.parentEnd? = some p) (hroot : g.treeParent? c = none)
    (hnot : ¬ Relation.ReflTransGen g.ParentOf c p) : g'.Forest := by
  have hs := h.singleParents.attach hadd hc hroot
  obtain ⟨hedges, -, ht', hc', hp'⟩ := addEdge_edges hadd
  have hnew : ∀ x, e'.treeParentOf? x = if x = c then some p else none := by
    intro x
    by_cases hx : x = c
    · subst hx
      simp [Edge.treeParentOf?, ht', ht, hc', hc, hp', hp]
    · simp [Edge.treeParentOf?, hc', hc, hx, Ne.symm hx]
  refine hs.forest (wellFounded_attach h.wf (fun y hy => by rw [ParentOf, hroot] at hy; cases hy)
    hnot fun y x => ?_)
  simp only [ParentOf, treeParent?_eq hs.consistent.edgeIndexed, hedges, List.findSome?_append,
    ← treeParent?_eq h.consistent.edgeIndexed]
  by_cases hx : x = c
  · subst hx
    simp [hroot, hnew, eq_comm]
  · simp [hx, hnew]

theorem Consistent.live_of_parentOf {g : Graph} (h : g.Consistent) {y x : VertexId}
    (hyx : g.ParentOf y x) : g.Live y ∧ g.Live x := by
  rw [ParentOf, treeParent?_eq h.edgeIndexed] at hyx
  obtain ⟨e, he, hy⟩ := List.exists_of_findSome?_eq_some hyx
  have hends := h.ends_live e he
  unfold Edge.treeParentOf? at hy
  split at hy
  · next hx =>
    unfold Edge.parentEnd? at hy
    unfold Edge.childEnd? at hx
    split at hy <;> simp_all
  · cases hy

theorem Forest.live_of_parentOf {g : Graph} (h : g.Forest) {y x : VertexId} (hyx : g.ParentOf y x) :
    g.Live y ∧ g.Live x :=
  h.consistent.live_of_parentOf hyx

theorem Forest.not_above_parent {g : Graph} (h : g.Forest) {y x : VertexId} (hyx : g.ParentOf y x) :
    ¬ Relation.ReflTransGen g.ParentOf x y := fun hxy =>
  h.wf.transGen.irrefl.irrefl x (Relation.TransGen.tail' hxy hyx)

theorem Forest.not_above_of_not_live {g : Graph} (h : g.Forest) {x y : VertexId}
    (hx : ¬ g.Live x) (hne : x ≠ y) : ¬ Relation.ReflTransGen g.ParentOf x y := by
  intro hxy
  rcases hxy.cases_head with rfl | ⟨z, hxz, -⟩
  · exact hne rfl
  · exact hx (h.live_of_parentOf hxz).1

theorem above_of_mem_parentChain {g : Graph} : ∀ {n : Nat} {x y : VertexId},
    y ∈ g.parentChain n x → Relation.ReflTransGen g.ParentOf y x
  | 0, x, y, hy => by
    rw [parentChain, List.mem_singleton] at hy
    exact hy ▸ .refl
  | n + 1, x, y, hy => by
    rw [parentChain] at hy
    rcases List.mem_cons.mp hy with rfl | hy
    · exact .refl
    · split at hy
      · exact absurd hy List.not_mem_nil
      · next p hp => exact (above_of_mem_parentChain hy).tail hp

theorem Forest.parentChain_nodup {g : Graph} (h : g.Forest) : ∀ n x, (g.parentChain n x).Nodup
  | 0, x => List.nodup_singleton x
  | n + 1, x => by
    rw [parentChain]
    split
    · exact List.nodup_singleton x
    · next p hp =>
      exact List.nodup_cons.mpr
        ⟨fun hx => h.not_above_parent hp (above_of_mem_parentChain hx), h.parentChain_nodup n p⟩

theorem Forest.parentOf_of_mem_treeChildren {g : Graph} (h : g.Forest) {p x : VertexId}
    (hx : x ∈ g.treeChildren p) : g.ParentOf p x := by
  obtain ⟨e, he, hex⟩ := List.mem_filterMap.mp hx
  rw [edgesOf_eq h.consistent.edgeIndexed] at he
  split at hex
  · next htp =>
    refine h.treeParent?_of_mem (List.mem_filter.mp he).1 ?_
    simp [Edge.treeParentOf?, htp.1, hex, htp.2]
  · cases hex

end Graph

namespace Scope

theorem addTreeEdge_adds {sc : Scope} {p c : Vertex} {g g' : Graph} {e : Edge}
    (h : (sc.addTreeEdge p c).run g = .ok (e, g')) :
    ∃ e₀ : Edge, e₀.edgeType = .tree ∧ e₀.parentEnd? = some p.id ∧ e₀.childEnd? = some c.id ∧
      g.addEdge e₀ = .ok (e, g') := by
  rw [addTreeEdge, GraphM.run_bind_eq_ok] at h
  obtain ⟨r, g₁, hsel, h⟩ := h
  obtain ⟨-, rfl⟩ := GraphM.run_lift_eq_ok.mp hsel
  split at h
  · exact absurd h GraphM.run_fail_ne_ok
  · next hcont =>
    have htree : r.edgeType = .tree := by
      cases hc : r.contains <;> simp_all [Rule.containerType, Rule.edgeType]
    split at h
    · next hout =>
      obtain ⟨e₀, hov, hiv, ht, hc, hadd⟩ := createEdge_adds h
      exact ⟨e₀, ht.trans htree, by simp [Edge.parentEnd?, hc, hout, hov],
        by simp [Edge.childEnd?, hc, hout, hiv], hadd⟩
    · next hout =>
      have hinto : r.contains = .into := by
        cases hc : r.contains <;> simp_all [Rule.containerType]
      obtain ⟨e₀, hov, hiv, ht, hc, hadd⟩ := createEdge_adds h
      exact ⟨e₀, ht.trans htree, by simp [Edge.parentEnd?, hc, hinto, hiv],
        by simp [Edge.childEnd?, hc, hinto, hov], hadd⟩

end Scope

theorem Rule.contains_of_cousin {r : Rule} (h : r.edgeType = .cousin) : r.contains = .none := by
  unfold Rule.edgeType at h
  split at h
  · assumption
  · cases h

namespace Serializer

/-! ### What each stage of a write does to the forest -/

/-- What a caller promises a write so that it keeps a forest: the vertex handed to the write to
    land on is neither the parent nor above it. -/
def Placeable (g : Graph) (parent existing : Option Vertex) : Prop :=
  ∀ p ∈ parent, ∀ e ∈ existing, ¬ Relation.ReflTransGen g.ParentOf e.id p.id

theorem target_forest {s : Serializer} {parent existing : Option Vertex} {o : SchemaObject}
    {v : Vertex} {isNew : Bool} {g g' : Graph} (hf : g.Forest)
    (h : (s.target parent o existing).run g = .ok ((v, isNew), g')) : g'.Forest := by
  rcases target_run_inv h with ⟨-, -, -, -, -, rfl⟩ | ⟨-, -, hadd, -⟩
  · exact hf
  · have hg' : (g.addVertex o.nodeType).2 = g' := congrArg Prod.snd hadd
    exact hg' ▸ hf.addVertex o.nodeType

theorem target_not_above {s : Serializer} {parent existing : Option Vertex} {o : SchemaObject}
    {v : Vertex} {isNew : Bool} {g g' : Graph} (hf : g.Forest)
    (hlive : ∀ p ∈ parent, g.Live p.id) (hallow : Placeable g parent existing)
    (h : (s.target parent o existing).run g = .ok ((v, isNew), g')) :
    ∀ p ∈ parent, ¬ Relation.ReflTransGen g'.ParentOf v.id p.id := by
  intro p hp
  rcases target_run_inv h with ⟨e, rfl, -, hv, -, rfl⟩ | ⟨-, -, hadd, -⟩
  · obtain ⟨-, hid⟩ := Graph.mem_of_vertex? hv
    rw [hid]
    exact hallow p hp e rfl
  · have hv : (g.addVertex o.nodeType).1 = v := congrArg Prod.fst hadd
    have hg' : (g.addVertex o.nodeType).2 = g' := congrArg Prod.snd hadd
    subst hv hg'
    have hfresh := Graph.addVertex_fresh hf.consistent o.nodeType
    rw [Graph.parentOf_congr hf.consistent.edgeIndexed
      (Graph.addVertex_consistent hf.consistent o.nodeType).edgeIndexed rfl]
    exact hf.not_above_of_not_live hfresh fun heq => hfresh (heq ▸ hlive p hp)

theorem ensureTreeEdge_forest {s : Serializer} {p : Vertex} {x : VertexId} {added : Bool}
    {g g' : Graph} (hf : g.Forest) (hnot : ¬ Relation.ReflTransGen g.ParentOf x p.id)
    (h : (s.ensureTreeEdge p x).run g = .ok (added, g')) : g'.Forest := by
  rcases ensureTreeEdge_run_inv h with ⟨-, -, rfl⟩ | ⟨hroot, -, c, e, hc, hadd⟩
  · exact hf
  · obtain ⟨e₀, ht, hp, hch, hedge⟩ := Scope.addTreeEdge_adds hadd
    obtain ⟨-, rfl⟩ := Graph.mem_of_vertex? hc
    exact hf.attach hedge ht hch hp hroot hnot

theorem refreshUri_forest {sc : Scope} {x : VertexId} {u : Option String} {g g' : Graph}
    (hf : g.Forest) (h : (sc.refreshUri x).run g = .ok (u, g')) : g'.Forest :=
  Scope.refreshUri_preserves Graph.Forest (fun hP hup _ _ _ => hP.updateVertex hup) hf h

theorem store_forest {s : Serializer} {t : NodeType} {parent : Option Vertex} {o : SchemaObject}
    {v v' : Vertex} {isNew : Bool} {g g' : Graph} (hf : g.Forest)
    (hnot : ∀ p ∈ parent, ¬ Relation.ReflTransGen g.ParentOf v.id p.id)
    (h : (s.store t parent o v isNew).run g = .ok (v', g')) : g'.Forest := by
  obtain ⟨g₁, hup, added, g₂, hplace, hrefresh, -, -⟩ := store_run_inv h
  have hf₁ := hf.updateVertex hup
  have hf₂ : g₂.Forest := by
    cases parent with
    | none =>
      obtain ⟨-, rfl⟩ := GraphM.run_pure_eq_ok.mp hplace
      exact hf₁
    | some p =>
      have hrel := Graph.parentOf_congr hf.consistent.edgeIndexed hf₁.consistent.edgeIndexed
        (Graph.updateVertex_edges hup)
      exact ensureTreeEdge_forest hf₁ (hrel ▸ hnot p rfl) hplace
  rcases hrefresh with rfl | ⟨u, hr⟩
  · exact hf₂
  · exact refreshUri_forest hf₂ hr

theorem reconcileListed_forest {s : Serializer} {v : Vertex}
    {rels : Option (List RelationshipRef)} {g g' : Graph} (hf : g.Forest)
    (h : (rels.elim (pure ()) (s.reconcile v)).run g = .ok ((), g')) : g'.Forest := by
  refine reconcileListed_preserves Graph.Forest (fun g e _ _ hP => hP.removeEdge e.id)
    (fun hr hP hadd => ?_) hf h
  obtain ⟨e₀, -, hc, hedge⟩ := Scope.addEdgeForRule_adds hadd
  exact hP.addEdge_uncontained hedge (hc.trans (Rule.contains_of_cousin hr))

theorem touch_forest {s : Serializer} {v w : Vertex} {isNew : Bool} {g g' : Graph}
    (hf : g.Forest) (h : (s.touch v isNew).run g = .ok (w, g')) : g'.Forest := by
  obtain ⟨c, rfl, -⟩ := touch_run_inv h
  exact hf.withClock c

/-! ### What each stage of a write does to single parenthood -/

theorem target_singleParents {s : Serializer} {parent existing : Option Vertex}
    {o : SchemaObject} {v : Vertex} {isNew : Bool} {g g' : Graph} (hs : g.SingleParents)
    (h : (s.target parent o existing).run g = .ok ((v, isNew), g')) : g'.SingleParents := by
  rcases target_run_inv h with ⟨-, -, -, -, -, rfl⟩ | ⟨-, -, hadd, -⟩
  · exact hs
  · have hg' : (g.addVertex o.nodeType).2 = g' := congrArg Prod.snd hadd
    exact hg' ▸ hs.of_edges (Graph.addVertex_consistent hs.consistent o.nodeType) rfl

theorem ensureTreeEdge_singleParents {s : Serializer} {p : Vertex} {x : VertexId} {added : Bool}
    {g g' : Graph} (hs : g.SingleParents) (h : (s.ensureTreeEdge p x).run g = .ok (added, g')) :
    g'.SingleParents := by
  rcases ensureTreeEdge_run_inv h with ⟨-, -, rfl⟩ | ⟨hroot, -, c, e, hc, hadd⟩
  · exact hs
  · obtain ⟨e₀, -, -, hch, hedge⟩ := Scope.addTreeEdge_adds hadd
    obtain ⟨-, rfl⟩ := Graph.mem_of_vertex? hc
    exact hs.attach hedge hch hroot

theorem store_singleParents {s : Serializer} {t : NodeType} {parent : Option Vertex}
    {o : SchemaObject} {v v' : Vertex} {isNew : Bool} {g g' : Graph} (hs : g.SingleParents)
    (h : (s.store t parent o v isNew).run g = .ok (v', g')) : g'.SingleParents := by
  obtain ⟨g₁, hup, added, g₂, hplace, hrefresh, -, -⟩ := store_run_inv h
  have hs₂ : g₂.SingleParents := by
    cases parent with
    | none =>
      obtain ⟨-, rfl⟩ := GraphM.run_pure_eq_ok.mp hplace
      exact hs.updateVertex hup
    | some p => exact ensureTreeEdge_singleParents (hs.updateVertex hup) hplace
  rcases hrefresh with rfl | ⟨u, hr⟩
  · exact hs₂
  · exact Scope.refreshUri_preserves Graph.SingleParents (fun hP hup _ _ _ => hP.updateVertex hup)
      hs₂ hr

theorem reconcileListed_singleParents {s : Serializer} {v : Vertex}
    {rels : Option (List RelationshipRef)} {g g' : Graph} (hs : g.SingleParents)
    (h : (rels.elim (pure ()) (s.reconcile v)).run g = .ok ((), g')) : g'.SingleParents := by
  refine reconcileListed_preserves Graph.SingleParents (fun g e _ _ hP => hP.removeEdge e.id)
    (fun hr hP hadd => ?_) hs h
  obtain ⟨e₀, -, hc, hedge⟩ := Scope.addEdgeForRule_adds hadd
  exact hP.addEdge_uncontained hedge (hc.trans (Rule.contains_of_cousin hr))

theorem findChild_parentOf {s : Serializer} {g : Graph} {p f : Vertex} {o : SchemaObject}
    (hf : g.Forest) (h : s.findChild g p o = .ok (some f)) : g.ParentOf p.id f.id := by
  unfold findChild at h
  obtain ⟨t, -, h⟩ := Except.bind_eq_ok.mp h
  obtain ⟨x, hx, hfx⟩ := List.exists_of_findSome?_eq_some (Except.ok.inj h)
  obtain ⟨hv, -⟩ := Option.filter_eq_some_iff.mp hfx
  obtain ⟨-, rfl⟩ := Graph.mem_of_vertex? hv
  exact hf.parentOf_of_mem_treeChildren hx

/-! ### Runs of writes -/

theorem write_forest (s : Serializer) :
    ∀ parent o existing {g g' : Graph} {w : Vertex}, g.Forest → (∀ p ∈ parent, g.Live p.id) →
      Placeable g parent existing → (s.write parent o existing).run g = .ok (w, g') →
      g'.Forest := by
  refine write.induct (fun parent o existing => ∀ {g g' : Graph} {w : Vertex}, g.Forest →
      (∀ p ∈ parent, g.Live p.id) → Placeable g parent existing →
      (s.write parent o existing).run g = .ok (w, g') → g'.Forest)
    (fun v cs => ∀ {g g' : Graph}, g.Forest → g.Live v.id →
      (s.writeChildren v cs).run g = .ok ((), g') → g'.Forest)
    ?_ ?_ ?_
  · intro parent existing nt props rv rels children ih g g' w hf hlive hallow h
    obtain ⟨t, -, v, isNew, g₁, htarget, v₁, g₂, hstore, working, v₂, hside, g₃, hrel, g₄, hch,
      g₅, htouch, hup⟩ := write_run_inv h
    have hf₃ := reconcileListed_forest
      (store_forest (target_forest hf htarget) (target_not_above hf hlive hallow htarget) hstore)
      hrel
    have hlive₂ : g₃.Live v₂.id := by
      obtain ⟨-, -, -, -, -, -, -, hv₁⟩ := store_run_inv hstore
      obtain ⟨hmem, -⟩ := Graph.mem_of_vertex? hv₁
      obtain ⟨hid, -⟩ := runSideEffects_keeps hside
      exact (reconcileListed_grows hrel).live ⟨v₁, hmem, hid.symm⟩
    exact (touch_forest (ih v₂ hf₃ hlive₂ hch) htouch).updateVertex hup
  · intro p g g' hf _ h
    rw [writeChildren_nil_run] at h
    cases h
    exact hf
  · intro p c cs ihc ihs g g' hf hp h
    obtain ⟨found, hfind, w, g₁, hw, hrest⟩ := writeChildren_cons_run_inv h
    have hallow : Placeable g (some p) found := by
      intro q hq f hf'
      rw [Option.mem_some_iff] at hq
      rw [Option.mem_def] at hf'
      subst hq hf'
      exact hf.not_above_parent (findChild_parentOf hf hfind)
    have hf₁ := ihc found hf (fun q hq => Option.mem_some_iff.mp hq ▸ hp) hallow hw
    exact ihs hf₁ ((write_grows s _ _ _ hw).live hp) hrest

theorem Reaches.forest {s : Serializer} {g : Graph} (h : s.Reaches Placeable g) : g.Forest := by
  induction h with
  | start n => exact Graph.startingAt_forest n
  | write _ hlive hallow hw ih => exact write_forest s _ _ _ ih hlive hallow hw

theorem write_singleParents (s : Serializer) :
    ∀ parent o existing {g g' : Graph} {w : Vertex}, g.SingleParents →
      (s.write parent o existing).run g = .ok (w, g') → g'.SingleParents := by
  refine write.induct (fun parent o existing => ∀ {g g' : Graph} {w : Vertex}, g.SingleParents →
      (s.write parent o existing).run g = .ok (w, g') → g'.SingleParents)
    (fun v cs => ∀ {g g' : Graph}, g.SingleParents →
      (s.writeChildren v cs).run g = .ok ((), g') → g'.SingleParents)
    ?_ ?_ ?_
  · intro parent existing nt props rv rels children ih g g' w hs h
    obtain ⟨t, -, v, isNew, g₁, htarget, v₁, g₂, hstore, working, v₂, -, g₃, hrel, g₄, hch,
      g₅, htouch, hup⟩ := write_run_inv h
    have hs₃ := reconcileListed_singleParents
      (store_singleParents (target_singleParents hs htarget) hstore) hrel
    obtain ⟨c, rfl, -⟩ := touch_run_inv htouch
    exact ((ih v₂ hs₃ hch).withClock c).updateVertex hup
  · intro p g g' hs h
    rw [writeChildren_nil_run] at h
    cases h
    exact hs
  · intro p c cs ihc ihs g g' hs h
    obtain ⟨found, -, w, g₁, hw, hrest⟩ := writeChildren_cons_run_inv h
    exact ihs (ihc found hs hw) hrest

theorem Reaches.singleParents {s : Serializer} {allow : Graph → Option Vertex → Option Vertex → Prop}
    {g : Graph} (h : s.Reaches allow g) : g.SingleParents := by
  induction h with
  | start c => exact Graph.startingAt_singleParents c
  | write _ _ _ hw ih => exact write_singleParents s _ _ _ ih hw

/-- In every store reached by writes each vertex is contained by at most one tree edge, whatever
    the writes were handed; and where no write was handed a vertex at or above its parent,
    following tree parents from any vertex never comes back to a vertex. -/
theorem tree_edges_form_forest {s : Serializer} :
    (∀ {allow : Graph → Option Vertex → Option Vertex → Prop} {g : Graph}, s.Reaches allow g →
      ∀ x, (g.containing x).length ≤ 1) ∧
    ∀ {g : Graph}, s.Reaches Placeable g → ∀ n x, (g.parentChain n x).Nodup :=
  ⟨fun hg => hg.singleParents.single, fun hg => hg.forest.parentChain_nodup⟩

/-! ### A type that contains itself

Without the promise a write can close a cycle: a root is written under its own child, onto the
root itself, and the tree edge it adds makes each of the two the parent of the other. -/

namespace SelfNesting

def typeA : Identifier := ⟨"a", by decide⟩
def key : Identifier := ⟨"k", by decide⟩
def has : Identifier := ⟨"has", by decide⟩
def first : SchemaVersion := ⟨1, by decide⟩

def serializer : Serializer where
  scope := ⟨⟨[(NodeType.new typeA first).withKey key],
    [{ Rule.new typeA typeA has first with contains := .out }]⟩, first⟩
  config := {}
  sourceOfTruth := "inventory"

def keyed (k : String) : SchemaObject := (SchemaObject.new typeA).withProperty "k" (.str k)

def rootUnderItsChild : Except (GraphError × Clock) Graph := do
  let (w₁, g₁) ← (serializer.write none (keyed "1") none).run (Graph.startingAt (.steady 0 ""))
  let (w₂, g₂) ← (serializer.write (some w₁) (keyed "2") none).run g₁
  let (_, g₃) ← (serializer.write (some w₂) (keyed "1") (some w₁)).run g₂
  pure g₃

theorem root_under_its_child_cycles :
    (rootUnderItsChild.toOption.map fun g => g.parentChain 2 ⟨1⟩) = some [⟨1⟩, ⟨2⟩, ⟨1⟩] := by
  decide +kernel

def root : Vertex × Graph :=
  ((serializer.write none (keyed "1") none).run (Graph.startingAt (.steady 0 ""))).toOption.getD
    (Vertex.new ⟨0⟩ typeA 0, Graph.startingAt (.steady 0 ""))

def child : Vertex × Graph :=
  ((serializer.write (some root.1) (keyed "2") none).run root.2).toOption.getD root

def cycled : Vertex × Graph :=
  ((serializer.write (some child.1) (keyed "1") (some root.1)).run child.2).toOption.getD child

theorem root_and_child_form_forest :
    child.2.edges.length = 1 ∧ (∀ x, (child.2.containing x).length ≤ 1) ∧
      (∀ n x, (child.2.parentChain n x).Nodup) ∧
      cycled.2.parentChain 2 ⟨1⟩ = [⟨1⟩, ⟨2⟩, ⟨1⟩] ∧ ∀ x, (cycled.2.containing x).length ≤ 1 := by
  have h₁ : (serializer.write none (keyed "1") none).run (Graph.startingAt (.steady 0 "")) =
      .ok (root.1, root.2) :=
    Except.eq_ok_getD (by decide +kernel) (Vertex.new ⟨0⟩ typeA 0, Graph.startingAt (.steady 0 ""))
  have h₂ : (serializer.write (some root.1) (keyed "2") none).run root.2 =
      .ok (child.1, child.2) :=
    Except.eq_ok_getD (by decide +kernel) root
  have h₃ : (serializer.write (some child.1) (keyed "1") (some root.1)).run child.2 =
      .ok (cycled.1, cycled.2) :=
    Except.eq_ok_getD (by decide +kernel) child
  have hlive₁ : root.2.Live root.1.id := (root.2.vertex?_isSome_iff _).mp (by decide +kernel)
  have hlive₂ : child.2.Live child.1.id := (child.2.vertex?_isSome_iff _).mp (by decide +kernel)
  have hg : serializer.Reaches Placeable child.2 :=
    .write (.write (.start _) (by simp) (by simp [Placeable]) h₁)
      (fun p hp => Option.mem_some_iff.mp hp ▸ hlive₁) (by simp [Placeable]) h₂
  have hcyc : serializer.Reaches (fun _ _ _ => True) cycled.2 :=
    .write (.write (.write (.start _) (by simp) trivial h₁)
      (fun p hp => Option.mem_some_iff.mp hp ▸ hlive₁) trivial h₂)
      (fun p hp => Option.mem_some_iff.mp hp ▸ hlive₂) trivial h₃
  exact ⟨by decide +kernel, tree_edges_form_forest.1 hg, tree_edges_form_forest.2 hg,
    by decide +kernel, tree_edges_form_forest.1 hcyc⟩

end SelfNesting
end Serializer
end InventoryGraph
