import InventoryGraph.Proofs.Store.Consistent

/-!
Runs of store writes. A transaction applies writes one after another: it adds, updates and
removes vertices, adds and removes edges, and ticks the clock; a write that fails leaves
the store as it was. Every run from an empty store keeps the store consistent. So after any
run every edge joins live vertices, the edges of a vertex are read off its slots once each,
the vertices of a node type or with a property value are read off theirs, and a vertex
keeps its node type and creation instant for as long as it lives.
-/
namespace InventoryGraph

/-- A write of a store transaction. -/
inductive StoreWrite where
  | addVertex (t : Identifier)
  | updateVertex (v : Vertex)
  | removeVertex (x : VertexId)
  | addEdge (e : Edge)
  | removeEdge (i : EdgeId)
  | tick

@[simp]
theorem Except.ok_bind {ε α β : Type} (a : α) (f : α → Except ε β) :
    (.ok a : Except ε α) >>= f = f a := rfl

@[simp]
theorem Except.error_bind {ε α β : Type} (e : ε) (f : α → Except ε β) :
    (.error e : Except ε α) >>= f = .error e := rfl

theorem Except.bind_eq_ok {ε α β : Type} {x : Except ε α} {f : α → Except ε β} {b : β} :
    x >>= f = .ok b ↔ ∃ a, x = .ok a ∧ f a = .ok b := by
  cases x <;> simp

@[simp]
theorem Except.mapError_ok {ε ε' α : Type} (f : ε → ε') (a : α) :
    (.ok a : Except ε α).mapError f = .ok a := rfl

@[simp]
theorem Except.mapError_error {ε ε' α : Type} (f : ε → ε') (e : ε) :
    (.error e : Except ε α).mapError f = .error (f e) := rfl

@[simp]
theorem Except.mapError_eq_ok {ε ε' α : Type} {f : ε → ε'} {x : Except ε α} {a : α} :
    x.mapError f = .ok a ↔ x = .ok a := by
  cases x <;> simp

theorem Except.eq_ok_getD {ε α β : Type} {x : Except ε (α × β)} (h : x.isOk = true) (d : α × β) :
    x = .ok ((x.toOption.getD d).1, (x.toOption.getD d).2) := by
  cases x with
  | error e => cases h
  | ok a => rfl

namespace GraphM

theorem run_ofStore {α : Type} (f : Graph → Outcome (α × Graph)) (g : Graph) :
    (ofStore f).run g = (f g).mapError (·, g.clock) := rfl

theorem run_removeVertex (g : Graph) (x : VertexId) :
    (removeVertex x).run g = (g.removeVertex x).mapError (·, g.clock) := rfl

theorem run_addEdge (g : Graph) (e : Edge) :
    (addEdge e).run g = (g.addEdge e).mapError (·, g.clock) := rfl

theorem run_lift {α : Type} (r : Outcome α) (g : Graph) :
    (lift r).run g = (r.map (·, g)).mapError (·, g.clock) := rfl

theorem run_fail {α : Type} (e : GraphError) (g : Graph) :
    (fail e : GraphM α).run g = .error (e, g.clock) := rfl

end GraphM

namespace Graph

def apply (g : Graph) : StoreWrite → Outcome Graph
  | .addVertex t => .ok (g.addVertex t).2
  | .updateVertex v => g.updateVertex v
  | .removeVertex x => (g.removeVertex x).map (·.2)
  | .addEdge e => (g.addEdge e).map (·.2)
  | .removeEdge i => .ok (g.removeEdge i).2
  | .tick => .ok { g with clock := g.clock.issue.2 }

def write (g : Graph) (w : StoreWrite) : Graph :=
  match g.apply w with
  | .ok g' => g'
  | .error _ => g

def writeAll (g : Graph) (ws : List StoreWrite) : Graph := ws.foldl write g

/-- The stores that runs of writes reach from an empty store. -/
inductive Reachable : Graph → Prop
  | start (c : Clock) : Reachable (startingAt c)
  | write {g : Graph} (w : StoreWrite) : Reachable g → Reachable (g.write w)

theorem write_of_error {g : Graph} {w : StoreWrite} {e : GraphError} (h : g.apply w = .error e) :
    g.write w = g := by
  simp [write, h]

theorem exists_of_map_eq_ok {α β : Type} {f : α → β} {m : Outcome α} {b : β}
    (h : m.map f = .ok b) : ∃ a, m = .ok a ∧ f a = b := by
  cases m with
  | error e => simp [Except.map] at h
  | ok a => exact ⟨a, rfl, by simpa [Except.map] using h⟩

theorem startingAt_consistent (c : Clock) : (startingAt c).Consistent where
  vertexIndexed := ⟨List.Pairwise.nil, fun _ => by simp [startingAt],
    fun _ => by simp [startingAt]⟩
  edgeIndexed := ⟨List.Pairwise.nil, fun _ => by simp [startingAt],
    fun _ => by simp [startingAt]⟩
  vertex_fresh _ hv := by simp [startingAt] at hv
  edge_fresh _ he := by simp [startingAt] at he
  ends_live _ he := by simp [startingAt] at he

theorem Consistent.withClock {g : Graph} (h : g.Consistent) (c : Clock) :
    ({ g with clock := c } : Graph).Consistent :=
  ⟨h.vertexIndexed.of_eq rfl rfl rfl, h.edgeIndexed.of_eq rfl rfl rfl, h.vertex_fresh,
    h.edge_fresh, h.ends_live⟩

theorem apply_consistent {g g' : Graph} (h : g.Consistent) :
    ∀ {w : StoreWrite}, g.apply w = .ok g' → g'.Consistent
  | .addVertex t, hw => by
    cases hw
    exact addVertex_consistent h t
  | .updateVertex _, hw => updateVertex_consistent h hw
  | .removeVertex _, hw => by
    obtain ⟨_, hrm, rfl⟩ := exists_of_map_eq_ok hw
    exact (removeVertex_spec h hrm).2.2.2.2
  | .addEdge _, hw => by
    obtain ⟨_, hadd, rfl⟩ := exists_of_map_eq_ok hw
    exact addEdge_consistent h hadd
  | .removeEdge i, hw => by
    cases hw
    exact removeEdge_consistent h i
  | .tick, hw => by
    cases hw
    exact h.withClock _

theorem write_consistent {g : Graph} (h : g.Consistent) (w : StoreWrite) :
    (g.write w).Consistent := by
  unfold write
  split
  · next g' hw => exact apply_consistent h hw
  · exact h

theorem Reachable.consistent {g : Graph} (h : g.Reachable) : g.Consistent := by
  induction h with
  | start c => exact startingAt_consistent c
  | write w _ ih => exact write_consistent ih w

theorem Reachable.writeAll {g : Graph} (h : g.Reachable) :
    ∀ ws : List StoreWrite, (g.writeAll ws).Reachable
  | [] => h
  | w :: ws => (h.write w).writeAll ws

/-- From a store to a later one: a vertex living in both kept its node type and creation
    instant, and the later store has no vertex of an older id that the earlier one lacked. -/
structure Keeps (g g' : Graph) : Prop where
  same : ∀ v ∈ g.vertices, ∀ w ∈ g'.vertices, v.id = w.id →
    w.nodeType = v.nodeType ∧ w.createdAt = v.createdAt
  next_le : g.nextVertex ≤ g'.nextVertex
  no_revival : ∀ w ∈ g'.vertices, w.id.index < g.nextVertex → ∃ v ∈ g.vertices, v.id = w.id

theorem Keeps.of_subset {g g' : Graph} (h : g.VertexIndexed) (hv : ∀ w ∈ g'.vertices, w ∈ g.vertices)
    (hn : g'.nextVertex = g.nextVertex) : Keeps g g' where
  same v hv' w hw hvw := by
    rw [IdSet.eq_of_ids_eq h.ascending (hv w hw) hv' (by rw [hvw])]
    exact ⟨rfl, rfl⟩
  next_le := hn ▸ Nat.le_refl _
  no_revival w hw _ := ⟨w, hv w hw, rfl⟩

theorem Keeps.trans {g g' g'' : Graph} (hc : g.Consistent) (h : Keeps g g') (h' : Keeps g' g'') :
    Keeps g g'' where
  same v hv w hw hvw := by
    obtain ⟨u, hu, huw⟩ := h'.no_revival w hw
      (Nat.lt_of_lt_of_le (hvw ▸ hc.vertex_fresh v hv) h.next_le)
    obtain ⟨ht, hc'⟩ := h.same v hv u hu (hvw.trans huw.symm)
    obtain ⟨ht', hc''⟩ := h'.same u hu w hw huw
    exact ⟨ht'.trans ht, hc''.trans hc'⟩
  next_le := Nat.le_trans h.next_le h'.next_le
  no_revival w hw hlt := by
    obtain ⟨u, hu, huw⟩ := h'.no_revival w hw (Nat.lt_of_lt_of_le hlt h.next_le)
    obtain ⟨v, hv, hvu⟩ := h.no_revival u hu (huw ▸ hlt)
    exact ⟨v, hv, hvu.trans huw⟩

theorem updateVertex_keeps {g g' : Graph} {v : Vertex} (h : g.Consistent)
    (hup : g.updateVertex v = .ok g') : Keeps g g' := by
  obtain ⟨old, hold, htype, rfl⟩ := updateVertex_eq hup
  obtain ⟨holdm, holdid⟩ := mem_of_vertex? hold
  have hasc := h.vertexIndexed.ascending
  refine ⟨fun u hu w hw huw => ?_, Nat.le_refl _, fun w hw _ => ?_⟩
  · obtain ⟨b, hb, rfl⟩ := List.mem_map.mp hw
    by_cases hbv : b.id = v.id
    · have hub : u = old := IdSet.eq_of_ids_eq hasc hu holdm (by
        rw [huw, if_pos (show b.id = (updated old v).id from hbv), holdid]; rfl)
      rw [if_pos (show b.id = (updated old v).id from hbv), hub]
      exact ⟨htype.symm, rfl⟩
    · rw [if_neg (show ¬b.id = (updated old v).id from hbv)] at huw ⊢
      rw [IdSet.eq_of_ids_eq hasc hu hb (by rw [huw])]
      exact ⟨rfl, rfl⟩
  · obtain ⟨b, hb, rfl⟩ := List.mem_map.mp hw
    refine ⟨b, hb, ?_⟩
    by_cases hbv : b.id = v.id
    · rw [if_pos (show b.id = (updated old v).id from hbv)]
      exact hbv
    · rw [if_neg (show ¬b.id = (updated old v).id from hbv)]

theorem addVertex_keeps {g : Graph} (h : g.Consistent) (t : Identifier) :
    Keeps g (g.addVertex t).2 where
  same v hv w hw hvw := by
    rcases List.mem_append.mp hw with hw | hw
    · rw [IdSet.eq_of_ids_eq h.vertexIndexed.ascending hw hv (by rw [hvw])]
      exact ⟨rfl, rfl⟩
    · simp only [List.mem_singleton] at hw
      subst hw
      exact absurd (hvw ▸ h.vertex_fresh v hv) (Nat.lt_irrefl _)
  next_le := Nat.le_succ _
  no_revival w hw hlt := by
    rcases List.mem_append.mp hw with hw | hw
    · exact ⟨w, hw, rfl⟩
    · simp only [List.mem_singleton] at hw
      subst hw
      exact absurd hlt (Nat.lt_irrefl _)

theorem apply_keeps {g g' : Graph} (h : g.Consistent) :
    ∀ {w : StoreWrite}, g.apply w = .ok g' → Keeps g g'
  | .addVertex t, hw => by
    cases hw
    exact addVertex_keeps h t
  | .updateVertex _, hw => updateVertex_keeps h hw
  | .removeVertex _, hw => by
    obtain ⟨_, hrm, rfl⟩ := exists_of_map_eq_ok hw
    obtain ⟨-, hv, -, hn, -⟩ := removeVertex_spec h hrm
    exact Keeps.of_subset h.vertexIndexed (fun w hw => (List.mem_filter.mp (hv ▸ hw)).1) hn
  | .addEdge _, hw => by
    obtain ⟨_, hadd, rfl⟩ := exists_of_map_eq_ok hw
    obtain ⟨-, -, -, hg'⟩ := addEdge_eq hadd
    rw [hg']
    exact Keeps.of_subset h.vertexIndexed (fun _ => id) rfl
  | .removeEdge i, hw => by
    cases hw
    have hs := removeEdge_sameVertices g i
    exact Keeps.of_subset h.vertexIndexed (fun _ hw => hs.vertices ▸ hw) hs.nextVertex
  | .tick, hw => by
    cases hw
    exact Keeps.of_subset h.vertexIndexed (fun _ => id) rfl

theorem writeAll_keeps {g : Graph} (h : g.Consistent) :
    ∀ ws : List StoreWrite, Keeps g (g.writeAll ws)
  | [] => Keeps.of_subset h.vertexIndexed (fun _ => id) rfl
  | w :: ws => by
    have hw : Keeps g (g.write w) := by
      unfold write
      split
      · next g' hap => exact apply_keeps h hap
      · exact Keeps.of_subset h.vertexIndexed (fun _ => id) rfl
    exact hw.trans h (writeAll_keeps (write_consistent h w) ws)

/-- After any run of writes from an empty store: every edge joins live vertices; the edges
    leaving, entering and touching a vertex are read off its slots, each once; the vertices
    with a property value and of a node type are read off theirs; no later run changes the
    node type or creation instant of a vertex it keeps; removing a vertex answers exactly the
    edges that touched it; and a write that fails leaves the store as it was. -/
theorem store_run_keeps_indexes_exact (start : Clock) (ws : List StoreWrite) :
    let g := (startingAt start).writeAll ws
    (∀ e ∈ g.edges, g.Live e.outV ∧ g.Live e.inV) ∧
    (∀ x, g.edgesOf x .outbound = g.edges.filter (·.outV == x) ∧
      g.edgesOf x .inbound = g.edges.filter (·.inV == x) ∧
      g.edgesOf x .both = g.edges.filter (·.touches x) ∧
      ∀ d, (g.edgesOf x d).Nodup) ∧
    (∀ k x, g.verticesWith k x = g.vertices.filter (·.property? k == some x)) ∧
    (∀ t, g.verticesOfType t = g.vertices.filter (·.nodeType == t)) ∧
    (∀ more : List StoreWrite, ∀ v ∈ g.vertices, ∀ w ∈ (g.writeAll more).vertices,
      v.id = w.id → w.nodeType = v.nodeType ∧ w.createdAt = v.createdAt) ∧
    (∀ x es g', g.removeVertex x = .ok (es, g') → es = g.edges.filter (·.touches x)) ∧
    (∀ w e, g.apply w = .error e → g.write w = g) := by
  intro g
  have hc : g.Consistent := ((Reachable.start start).writeAll ws).consistent
  have hnodup : g.edges.Nodup := hc.edgeIndexed.ascending.nodup.of_map _
  refine ⟨hc.ends_live, fun x => ⟨edgesOf_eq hc.edgeIndexed x _, edgesOf_eq hc.edgeIndexed x _,
    edgesOf_eq hc.edgeIndexed x _, fun d => ?_⟩, verticesWith_eq hc.vertexIndexed,
    verticesOfType_eq hc.vertexIndexed, fun more => (writeAll_keeps hc more).same,
    fun x es g' hrm => (removeVertex_spec hc hrm).1, fun w e he => write_of_error he⟩
  rw [edgesOf_eq hc.edgeIndexed]
  exact hnodup.filter _

end Graph
end InventoryGraph
