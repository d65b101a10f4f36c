import InventoryGraph.Serializer.Read

/-!
Reading vertices out of the graph never nests a vertex below itself. An object read out stands
for a vertex, and the way the read went is an expansion: the vertex, the tree children it
references because they stand on the path from the root, and the expansions of the children it
nests. Every object a read returns renders an expansion that unfolds the tree below its vertex as
deep as asked, capped at the configured maximum: each vertex nests, in some order, exactly its
stored tree children off the path, and references those on it. So along every chain of nested
objects the vertices are distinct, in every graph, one whose tree edges close a cycle included,
and no object nests deeper than the depth read.
-/
namespace InventoryGraph

/-- How a vertex was read out: the vertex, the tree children it references because they stand
    on the path, and how each child nested under it was read. -/
inductive Expansion where
  | node (v : Vertex) (back : List Vertex) (nested : List Expansion)

def SchemaObject.nesting : SchemaObject → Nat
  | ⟨_, _, _, _, children⟩ => (children.map fun c => c.nesting + 1).foldr max 0

namespace Expansion

def root : Expansion → Vertex
  | .node v _ _ => v

def render (s : Serializer) (g : Graph) (nodesOnly includeRel : Bool) : Expansion → SchemaObject
  | .node v back nested =>
    let o := s.objectOf g v nodesOnly includeRel
    let o := if back.isEmpty then o
      else { o with relationships := some (o.relationships.getD [] ++ back.map (s.referenceTo g)) }
    { o with children := nested.map (render s g nodesOnly includeRel) }

/-- Along every chain of nested expansions no vertex is one of the path `P` above the chain or
    one above it in the chain. -/
inductive Avoids : List VertexId → Expansion → Prop
  | node {P : List VertexId} {v : Vertex} {back : List Vertex} {nested : List Expansion} :
      v.id ∉ P → (∀ e ∈ nested, Avoids (v.id :: P) e) → Avoids P (.node v back nested)

end Expansion

namespace Graph

def storedChildren (g : Graph) (v : Vertex) : List Vertex :=
  (g.treeChildren v.id).filterMap g.vertex?

def expand (g : Graph) : Nat → List VertexId → Vertex → Expansion
  | 0, _, v => .node v [] []
  | d + 1, P, v =>
    let P := v.id :: P
    .node v ((g.storedChildren v).filter fun c => P.contains c.id)
      ((((g.storedChildren v).filter fun c => !P.contains c.id).mergeSort Vertex.typeUriLe).map
        (g.expand d P))

end Graph

/-- `e` unfolds the tree below its vertex `d` levels deep, with the path `P` above it: at depth
    zero nothing below the vertex is read; otherwise its stored tree children on the path (the
    vertex itself included) are referenced, in edge order, and the others are nested, in some
    order, each unfolding one level less deep with the vertex on the path. -/
inductive Expansion.Unfolds (g : Graph) : Nat → List VertexId → Expansion → Prop
  | stop {P : List VertexId} {v : Vertex} : Expansion.Unfolds g 0 P (.node v [] [])
  | step {d : Nat} {P : List VertexId} {v : Vertex} {nested : List Expansion} :
      (nested.map Expansion.root).Perm ((g.storedChildren v).filter fun c => c.id ∉ v.id :: P) →
      (∀ e ∈ nested, Expansion.Unfolds g d (v.id :: P) e) →
      Expansion.Unfolds g (d + 1) P (.node v ((g.storedChildren v).filter fun c => c.id ∈ v.id :: P) nested)


/-! ### The expansion of a read -/

namespace Graph

variable (g : Graph)

theorem root_expand : ∀ (d : Nat) (P : List VertexId) (v : Vertex), (g.expand d P v).root = v
  | 0, _, _ => rfl
  | _ + 1, _, _ => rfl

theorem expand_unfolds : ∀ (d : Nat) (P : List VertexId) (v : Vertex),
    (g.expand d P v).Unfolds g d P
  | 0, _, _ => .stop
  | d + 1, P, v => by
    have hon : ((g.storedChildren v).filter fun c => (v.id :: P).contains c.id) =
        (g.storedChildren v).filter fun c => c.id ∈ v.id :: P :=
      List.filter_congr fun c _ => by rw [Bool.eq_iff_iff]; simp
    have hoff : ((g.storedChildren v).filter fun c => !(v.id :: P).contains c.id) =
        (g.storedChildren v).filter fun c => c.id ∉ v.id :: P :=
      List.filter_congr fun c _ => by rw [Bool.eq_iff_iff]; simp
    have hroots : (Expansion.root ∘ g.expand d (v.id :: P)) = id :=
      funext fun c => g.root_expand d (v.id :: P) c
    simp only [expand, hon, hoff]
    refine .step ?_ fun e he => ?_
    · -- the nested children are the children off the path, sorted
      rw [List.map_map, hroots, List.map_id]
      exact List.mergeSort_perm _ _
    · obtain ⟨c, -, rfl⟩ := List.mem_map.mp he
      exact expand_unfolds d (v.id :: P) c

end Graph

namespace Serializer

variable (s : Serializer) (g : Graph) (nodesOnly includeRel : Bool)

theorem serializeVertex_eq_render :
    ∀ (d : Nat) (P : List VertexId) (v : Vertex),
      s.serializeVertex g nodesOnly includeRel d P v =
        (g.expand d P v).render s g nodesOnly includeRel
  | 0, P, v => by
    simp only [serializeVertex, Graph.expand, Expansion.render, List.isEmpty_nil,
      if_true, List.map_nil]
    rfl
  | d + 1, P, v => by
    simp only [serializeVertex, Graph.expand, Expansion.render, Graph.storedChildren,
      List.map_map]
    congr 1
    exact List.map_congr_left fun c _ => serializeVertex_eq_render d (v.id :: P) c

end Serializer

theorem foldr_max_le_iff {k : Nat} : ∀ {l : List Nat}, l.foldr max 0 ≤ k ↔ ∀ x ∈ l, x ≤ k
  | [] => by simp
  | x :: l => by
    simp only [List.foldr_cons, Nat.max_le, foldr_max_le_iff, List.mem_cons, forall_eq_or_imp]

theorem SchemaObject.nesting_le_iff {o : SchemaObject} {k : Nat} :
    o.nesting ≤ k ↔ ∀ c ∈ o.children, c.nesting + 1 ≤ k := by
  obtain ⟨t, props, rv, rels, children⟩ := o
  rw [SchemaObject.nesting, foldr_max_le_iff]
  simp

namespace Expansion.Unfolds

variable {g : Graph}

theorem avoids {d : Nat} {P : List VertexId} {e : Expansion} (h : e.Unfolds g d P)
    (hroot : e.root.id ∉ P) : e.Avoids P := by
  induction h with
  | stop => exact .node hroot fun e he => absurd he List.not_mem_nil
  | step hperm _ ih =>
    refine .node hroot fun e he => ih e he ?_
    -- each nested vertex is a child off the path, and the path now holds the parent
    have hmem : e.root ∈ _ := hperm.subset (List.mem_map_of_mem he)
    simpa using (List.mem_filter.mp hmem).2

theorem nesting_le (s : Serializer) (nodesOnly includeRel : Bool) {d : Nat} {P : List VertexId}
    {e : Expansion} (h : e.Unfolds g d P) : (e.render s g nodesOnly includeRel).nesting ≤ d := by
  induction h with
  | stop =>
    rw [SchemaObject.nesting_le_iff]
    simp [Expansion.render]
  | step _ _ ih =>
    rw [SchemaObject.nesting_le_iff]
    intro c hc
    simp only [Expansion.render, List.mem_map] at hc
    obtain ⟨e, he, rfl⟩ := hc
    exact Nat.succ_le_succ (ih e he)

end Expansion.Unfolds

namespace Serializer

/-- Reading vertices out, for every serializer, graph (one whose tree edges close a cycle
    included), list of vertices, shape, depth and configured maximum: each object returned
    renders an expansion of one of the vertices that unfolds the tree below it as deep as the
    depth asked, capped at the maximum, nesting each stored tree child off the path and
    referencing each one on it; along every chain of nested objects no vertex repeats one above
    it, and no object nests deeper than that depth. -/
theorem fromGraph_unfolds_acyclically {s : Serializer} {g : Graph} {vs : List Vertex}
    {shape : Shape} {depth : Nat} {nodesOnly includeRel : Bool} {r : Serialized}
    (h : s.fromGraph g vs shape depth nodesOnly includeRel = .ok r) :
    ∀ o ∈ r.toList, ∃ v ∈ vs, ∃ e : Expansion, e.root = v ∧
      e.render s g nodesOnly includeRel = o ∧
      e.Unfolds g (min depth s.config.serializer.maxDepth) [] ∧ e.Avoids [] ∧
      o.nesting ≤ min depth s.config.serializer.maxDepth := by
  have hread : ∀ o ∈ r.toList, ∃ v ∈ vs,
      o = s.serializeVertex g nodesOnly includeRel (min depth s.config.serializer.maxDepth) [] v := by
    unfold fromGraph at h
    cases shape with
    | single =>
      rcases vs with _ | ⟨v, _ | ⟨w, ws⟩⟩
      · cases h
      · cases h
        intro o ho
        exact ⟨v, List.mem_singleton_self v, List.mem_singleton.mp ho⟩
      · cases h
    | collection =>
      cases h
      intro o ho
      obtain ⟨v, hv, rfl⟩ := List.mem_map.mp ho
      exact ⟨v, hv, rfl⟩
  intro o ho
  obtain ⟨v, hv, rfl⟩ := hread o ho
  have hunf := g.expand_unfolds (min depth s.config.serializer.maxDepth) [] v
  refine ⟨v, hv, _, g.root_expand _ [] v, (s.serializeVertex_eq_render g _ _ _ [] v).symm, hunf,
    hunf.avoids (List.not_mem_nil), ?_⟩
  rw [serializeVertex_eq_render]
  exact hunf.nesting_le s nodesOnly includeRel

/-! Two hampers, each holding the other through a tree edge. Read out four levels deep, the
first nests the second, which references the first instead of nesting it again. -/

namespace HamperCycle

def hamper : Identifier := ⟨"hamper", by decide⟩
def packs : Identifier := ⟨"packs", by decide⟩

def serializer : Serializer where
  scope := ⟨⟨[NodeType.new hamper SchemaVersion.v12], []⟩, SchemaVersion.v12⟩
  config := {}
  sourceOfTruth := "inventory"

def packing (outer inner : Vertex) : Edge :=
  ⟨⟨0⟩, outer.id, inner.id, packs, .tree, .out, .none, .none, PropertyMap.empty⟩

def first : Vertex := ((Graph.startingAt (.steady 0 "")).addVertex hamper).1
def second : Vertex := (((Graph.startingAt (.steady 0 "")).addVertex hamper).2.addVertex hamper).1
def pair : Graph := (((Graph.startingAt (.steady 0 "")).addVertex hamper).2.addVertex hamper).2

def store : Graph :=
  let g := ((pair.addEdge (packing first second)).toOption.map (·.2)).getD pair
  ((g.addEdge (packing second first)).toOption.map (·.2)).getD g

theorem cyclic_hampers_read_once :
    store.treeChildren first.id = [second.id] ∧ store.treeChildren second.id = [first.id] ∧
    serializer.fromGraph store [first] .single 4 false false =
      .ok (.single (serializer.serializeVertex store false false
        (min 4 serializer.config.serializer.maxDepth) [] first)) ∧
    ∀ o ∈ [serializer.serializeVertex store false false
        (min 4 serializer.config.serializer.maxDepth) [] first],
      ∃ v ∈ [first], ∃ e : Expansion, e.root = v ∧ e.render serializer store false false = o ∧
        e.Unfolds store (min 4 serializer.config.serializer.maxDepth) [] ∧ e.Avoids [] ∧
        o.nesting ≤ min 4 serializer.config.serializer.maxDepth := by
  have h : serializer.fromGraph store [first] .single 4 false false =
      .ok (.single (serializer.serializeVertex store false false
        (min 4 serializer.config.serializer.maxDepth) [] first)) := rfl
  exact ⟨by decide +kernel, by decide +kernel, h, fromGraph_unfolds_acyclically h⟩

end HamperCycle

end Serializer

end InventoryGraph
