import InventoryGraph.Proofs.Cascade.Walk

namespace InventoryGraph

namespace GraphError

theorem mem_insertSorted {s t : String} {l : List String} :
    s ∈ insertSorted t l ↔ s = t ∨ s ∈ l := by
  induction l with
  | nil => simp [insertSorted]
  | cons u l ih =>
    unfold insertSorted
    split
    · exact List.mem_cons
    · split
      · next htu => simp [htu]
      · simp only [List.mem_cons, ih]
        exact or_left_comm

theorem insertSorted_ascending (t : String) {l : List String} (h : l.Pairwise (· < ·)) :
    (insertSorted t l).Pairwise (· < ·) := by
  induction l with
  | nil => simp [insertSorted]
  | cons u l ih =>
    obtain ⟨hu, hl⟩ := List.pairwise_cons.mp h
    unfold insertSorted
    split
    · next htu =>
      refine List.pairwise_cons.mpr ⟨fun s hs => ?_, h⟩
      rcases List.mem_cons.mp hs with rfl | hs
      · exact htu
      · exact String.lt_trans htu (hu s hs)
    · split
      · exact h
      · next htu hne =>
        have hut : u < t := String.not_le.mp fun hle => hne (String.le_antisymm hle (String.not_lt.mp htu))
        refine List.pairwise_cons.mpr ⟨fun s hs => ?_, ih hl⟩
        rcases mem_insertSorted.mp hs with rfl | hs
        · exact hut
        · exact hu s hs

@[simp]
theorem mem_sortedUnique {s : String} {l : List String} : s ∈ sortedUnique l ↔ s ∈ l := by
  induction l with
  | nil => rfl
  | cons t l ih => simp [sortedUnique, List.foldr_cons, mem_insertSorted, ← ih]

theorem sortedUnique_ascending (l : List String) : (sortedUnique l).Pairwise (· < ·) := by
  induction l with
  | nil => exact List.Pairwise.nil
  | cons t l ih => exact insertSorted_ascending t ih

end GraphError

namespace Graph

/-- `o` keeps the planned vertices from being deleted: it is stored, is not planned, and a
    cousin edge flagged to prevent deletion names it from a planned vertex. -/
def Blocks (g : Graph) (planned : List Vertex) (o : Vertex) : Prop :=
  o ∈ g.vertices ∧ o.id ∉ planned.map (·.id) ∧
    ∃ p ∈ planned, ∃ e ∈ g.edges, e.edgeType = .cousin ∧ e.blockedBy? p.id = some o.id

section Blockers
variable {g : Graph} (h : g.Consistent) (planned : List Vertex)
include h

theorem mem_blockingTypes (s : String) :
    s ∈ g.blockingTypes planned ↔ ∃ o, g.Blocks planned o ∧ o.nodeType.text = s := by
  simp only [blockingTypes, GraphError.mem_sortedUnique, List.mem_flatMap, List.mem_filterMap,
    edgesOf_eq h.edgeIndexed, List.mem_filter]
  constructor
  · rintro ⟨p, hp, e, ⟨he, -⟩, hs⟩
    split at hs
    · cases hs
    next hcousin =>
    split at hs
    · cases hs
    next other hblk =>
    split at hs
    · cases hs
    next hout =>
    obtain ⟨o, ho, rfl⟩ := Option.map_eq_some_iff.mp hs
    obtain ⟨hom, rfl⟩ := mem_of_vertex? ho
    exact ⟨o, ⟨hom, by simpa using hout, p, hp, e, he, not_not.mp hcousin, hblk⟩, rfl⟩
  · rintro ⟨o, ⟨ho, hout, p, hp, e, he, hcousin, hblk⟩, rfl⟩
    refine ⟨p, hp, e, ⟨he, ?_⟩, ?_⟩
    · simpa [Edge.runs, Edge.touches] using (flaggedFrom?_ends hblk).1
    · simp [hcousin, hblk, hout, vertex?_of_mem h.vertexIndexed ho]

theorem blockingTypes_eq_nil_iff : g.blockingTypes planned = [] ↔ ∀ o, ¬ g.Blocks planned o := by
  rw [List.eq_nil_iff_forall_not_mem]
  constructor
  · intro hnil o ho
    exact hnil _ ((mem_blockingTypes h planned _).mpr ⟨o, ho, rfl⟩)
  · intro hnone s hs
    obtain ⟨o, ho, -⟩ := (mem_blockingTypes h planned s).mp hs
    exact hnone o ho

end Blockers

theorem planCascade_eq (g : Graph) (r : Vertex) :
    g.planCascade r =
      if g.blockingTypes (g.collectCascade r) = [] then .ok (g.collectCascade r)
      else .error (.blockedDelete (GraphError.sortedUnique (g.blockingTypes (g.collectCascade r)))) := by
  unfold planCascade
  split
  · next hnil => simp [hnil]
  · simp [GraphError.blocked]

/-- On any store the writes reach, the cascade of `r` lists `r` and every vertex it reaches by
    cascade steps, each once, deepest first (so each after the vertices that it takes along) and
    `r` last. The plan is that list exactly when no stored vertex outside it blocks it, and is
    otherwise refused with the blockers' node types, sorted and each once. -/
theorem cascade_plan_exact {g : Graph} (hg : g.Reachable) (r : Vertex) :
    let L := g.collectCascade r
    (L.map (·.id)).Nodup ∧ L.getLast? = some r ∧
    (∀ x, x ∈ L.map (·.id) ↔ g.CascadeReaches r.id x) ∧
    L.Pairwise (fun a b => g.cascadeDepth r.id b.id ≤ g.cascadeDepth r.id a.id) ∧
    (∀ L₁ x L₂, L = L₁ ++ x :: L₂ → x.id ≠ r.id → ∃ p ∈ L₂, g.CascadeStep p.id x.id) ∧
    (g.planCascade r = .ok L ↔ ∀ o, ¬ g.Blocks L o) ∧
    ((∃ o, g.Blocks L o) → ∃ ts, g.planCascade r = .error (.blockedDelete ts) ∧
      ts.Pairwise (· < ·) ∧ ∀ s, s ∈ ts ↔ ∃ o, g.Blocks L o ∧ o.nodeType.text = s) := by
  intro L
  have h := hg.consistent
  have hord := collectCascade_order h r
  refine ⟨hord.nodup, hord.root_last, hord.mem_iff, hord.deepest_first,
    fun L₁ x L₂ hL hx => hord.parent_later hL hx, ?_, fun hblocked => ?_⟩
  · rw [planCascade_eq, ← blockingTypes_eq_nil_iff h]
    split
    · next hnil => exact iff_of_true rfl hnil
    · next hne => exact iff_of_false (by simp) hne
  · have hne : g.blockingTypes L ≠ [] := fun hnil =>
      let ⟨o, ho⟩ := hblocked
      (blockingTypes_eq_nil_iff h L).mp hnil o ho
    refine ⟨_, by rw [planCascade_eq, if_neg hne], GraphError.sortedUnique_ascending _, fun s => ?_⟩
    rw [GraphError.mem_sortedUnique, mem_blockingTypes h]

namespace BlockedRack

def site : Identifier := ⟨"site", by decide⟩
def rack : Identifier := ⟨"rack", by decide⟩
def cable : Identifier := ⟨"cable", by decide⟩
def mounts : Identifier := ⟨"mounts", by decide⟩
def patches : Identifier := ⟨"patches", by decide⟩

def cabled : Graph := (startingAt (.steady 0 "")).writeAll
  [.addVertex site, .addVertex rack, .addVertex cable,
    .addEdge ⟨⟨0⟩, ⟨1⟩, ⟨2⟩, mounts, .tree, .out, .out, .none, PropertyMap.empty⟩,
    .addEdge ⟨⟨0⟩, ⟨2⟩, ⟨3⟩, patches, .cousin, .none, .none, .out, PropertyMap.empty⟩]

def root : Vertex := Vertex.new ⟨1⟩ site 1

theorem cascade_plan_exact_blocked_rack :
    cabled.Reachable ∧
    (let L := cabled.collectCascade root
    (L.map (·.id)).Nodup ∧ L.getLast? = some root ∧
    (∀ x, x ∈ L.map (·.id) ↔ cabled.CascadeReaches root.id x) ∧
    L.Pairwise (fun a b => cabled.cascadeDepth root.id b.id ≤ cabled.cascadeDepth root.id a.id) ∧
    (∀ L₁ x L₂, L = L₁ ++ x :: L₂ → x.id ≠ root.id → ∃ p ∈ L₂, cabled.CascadeStep p.id x.id) ∧
    (cabled.planCascade root = .ok L ↔ ∀ o, ¬ cabled.Blocks L o) ∧
    ((∃ o, cabled.Blocks L o) → ∃ ts, cabled.planCascade root = .error (.blockedDelete ts) ∧
      ts.Pairwise (· < ·) ∧ ∀ s, s ∈ ts ↔ ∃ o, cabled.Blocks L o ∧ o.nodeType.text = s)) ∧
    cabled.vertex? root.id = some root ∧
    (cabled.collectCascade root).map (·.id) = [⟨2⟩, ⟨1⟩] ∧
    cabled.planCascade root = .error (.blockedDelete ["cable"]) :=
  let hg := (Reachable.start _).writeAll _
  ⟨hg, cascade_plan_exact hg root, by decide +kernel, by decide +kernel, by decide +kernel⟩

end BlockedRack

end Graph
end InventoryGraph
