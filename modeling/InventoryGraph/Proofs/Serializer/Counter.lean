import InventoryGraph.Proofs.Store.Writes
import InventoryGraph.Serializer.Write

/-!
The version counter never goes back. A run of a store program succeeds with a store or fails
with the clock it reports, and either way the clock's last resource version is at least the one
the run started from. The primitive operations keep the counter or move it on, and binding,
branching and looping keep that, so every write, delete and request does: a rolled-back
transaction leaves the process a counter no lower than before.
-/
namespace InventoryGraph

namespace Graph

theorem updateVertex_clock {g g' : Graph} {w : Vertex} (hup : g.updateVertex w = .ok g') :
    g'.clock = g.clock := by
  obtain ⟨old, -, -, rfl⟩ := updateVertex_eq hup
  rfl

theorem removeEdge_clock (g : Graph) (i : EdgeId) : (g.removeEdge i).2.clock = g.clock := by
  unfold removeEdge
  split <;> rfl

theorem removeEdges_frame (g : Graph) (ids : List EdgeId) :
    (g.removeEdges ids).2.vertices = g.vertices ∧ (g.removeEdges ids).2.clock = g.clock := by
  induction ids generalizing g with
  | nil => exact ⟨rfl, rfl⟩
  | cons i ids ih =>
    obtain ⟨hv, hc⟩ := ih (g.removeEdge i).2
    exact ⟨hv.trans (removeEdge_sameVertices g i).vertices, hc.trans (removeEdge_clock g i)⟩

theorem removeVertex_frame {g g' : Graph} {x : VertexId} {es : List Edge}
    (hrm : g.removeVertex x = .ok (es, g')) :
    g'.vertices = g.vertices.filter (·.id != x) ∧ g'.clock = g.clock := by
  unfold removeVertex at hrm
  split at hrm
  · cases hrm
  · cases hrm
    exact removeEdges_frame _ _

theorem addEdge_clock {g g' : Graph} {e e' : Edge} (hadd : g.addEdge e = .ok (e', g')) :
    g'.clock = g.clock := by
  obtain ⟨-, -, -, rfl⟩ := addEdge_eq hadd
  rfl

end Graph

namespace GraphM

def clockAfter {α : Type} : Except (GraphError × Clock) (α × Graph) → Clock
  | .ok (_, g) => g.clock
  | .error (_, c) => c

/-- No run of the program sets the version counter back, whether it succeeds or fails. -/
def KeepsCounter {α : Type} (x : GraphM α) : Prop :=
  ∀ g, g.clock.last ≤ (clockAfter (x.run g)).last

section Combinators

variable {α β γ : Type}

theorem keepsCounter_pure (a : α) : (pure a : GraphM α).KeepsCounter := fun _ => Nat.le_refl _

theorem keepsCounter_get : (get : GraphM Graph).KeepsCounter := fun _ => Nat.le_refl _

theorem KeepsCounter.bind {x : GraphM α} {f : α → GraphM β} (hx : x.KeepsCounter)
    (hf : ∀ a, (f a).KeepsCounter) : (x >>= f).KeepsCounter := by
  intro g
  have h := hx g
  rw [StateT.run_bind]
  cases hr : x.run g with
  | error e =>
    rw [hr] at h
    exact h
  | ok p =>
    rw [hr] at h
    exact h.trans (hf p.1 p.2)

theorem KeepsCounter.ite {c : Prop} [Decidable c] {x y : GraphM α} (hx : x.KeepsCounter)
    (hy : y.KeepsCounter) : (if c then x else y).KeepsCounter := by
  split
  · exact hx
  · exact hy

theorem keepsCounter_ofStore {f : Graph → Outcome (α × Graph)}
    (hf : ∀ g a g', f g = .ok (a, g') → g.clock.last ≤ g'.clock.last) :
    (ofStore f).KeepsCounter := by
  intro g
  rw [run_ofStore]
  cases h : f g with
  | error e => exact Nat.le_refl _
  | ok p => exact hf g p.1 p.2 h

theorem keepsCounter_modifyGet {f : Graph → α × Graph}
    (hf : ∀ g, g.clock.last ≤ (f g).2.clock.last) : (modifyGet f : GraphM α).KeepsCounter :=
  fun g => hf g

theorem keepsCounter_fail (e : GraphError) : (fail e : GraphM α).KeepsCounter :=
  keepsCounter_ofStore fun _ _ _ h => by cases h

theorem keepsCounter_lift (r : Outcome α) : (lift r).KeepsCounter :=
  keepsCounter_ofStore fun g a g' h => by
    cases r with
    | error e => cases h
    | ok b =>
      obtain rfl : g = g' := congrArg Prod.snd (Except.ok.inj h)
      exact Nat.le_refl _

theorem keepsCounter_forIn (xs : List γ) (b : β) {f : γ → β → GraphM (ForInStep β)}
    (hf : ∀ x b, (f x b).KeepsCounter) : (forIn xs b f).KeepsCounter := by
  induction xs generalizing b with
  | nil => exact keepsCounter_pure b
  | cons x xs ih =>
    rw [List.forIn_cons]
    refine (hf x b).bind fun step => ?_
    cases step with
    | done b' => exact keepsCounter_pure b'
    | yield b' => exact ih b'

end Combinators

theorem keepsCounter_addVertex (t : Identifier) : (addVertex t).KeepsCounter :=
  keepsCounter_modifyGet fun _ => Nat.le_refl _

theorem keepsCounter_updateVertex (v : Vertex) : (updateVertex v).KeepsCounter :=
  keepsCounter_ofStore fun g a g' h => by
    cases hup : g.updateVertex v with
    | error e => rw [hup] at h; cases h
    | ok g₁ =>
      rw [hup] at h
      obtain rfl : g₁ = g' := congrArg Prod.snd (Except.ok.inj h)
      exact (congrArg Clock.last (Graph.updateVertex_clock hup)).ge

theorem keepsCounter_removeVertex (x : VertexId) : (removeVertex x).KeepsCounter :=
  keepsCounter_ofStore fun _ _ _ h => (congrArg Clock.last (Graph.removeVertex_frame h).2).ge

theorem keepsCounter_addEdge (e : Edge) : (addEdge e).KeepsCounter :=
  keepsCounter_ofStore fun _ _ _ h => (congrArg Clock.last (Graph.addEdge_clock h)).ge

theorem keepsCounter_removeEdge (i : EdgeId) : (removeEdge i).KeepsCounter :=
  keepsCounter_modifyGet fun g => (congrArg Clock.last (Graph.removeEdge_clock g i)).ge

theorem keepsCounter_nowMillis : nowMillis.KeepsCounter :=
  keepsCounter_modifyGet fun _ => Nat.le_refl _

theorem keepsCounter_nextSyntheticId : nextSyntheticId.KeepsCounter :=
  keepsCounter_modifyGet fun _ => Nat.le_refl _

theorem keepsCounter_nextResourceVersion : nextResourceVersion.KeepsCounter :=
  keepsCounter_modifyGet fun g => (Clock.last_lt_issue g.clock).le

theorem keepsCounter_removeLive (ds : List Vertex) : (removeLive ds).KeepsCounter := by
  unfold removeLive
  refine (keepsCounter_forIn ds _ fun d _ => keepsCounter_get.bind fun _ => ?_).bind
    fun _ => keepsCounter_pure ()
  split
  · exact (keepsCounter_removeVertex d.id).bind fun _ => keepsCounter_pure _
  · exact keepsCounter_pure _

end GraphM

open GraphM

namespace Scope

theorem createEdge_keepsCounter (r : Rule) (out inn : Vertex) (m : PropertyMap) :
    (createEdge r out inn m).KeepsCounter := by
  unfold createEdge
  exact keepsCounter_get.bind fun _ => KeepsCounter.ite (keepsCounter_fail _)
    ((keepsCounter_lift _).bind fun _ => keepsCounter_addEdge _)

theorem addTreeEdge_keepsCounter (s : Scope) (p c : Vertex) : (s.addTreeEdge p c).KeepsCounter := by
  unfold addTreeEdge
  refine (keepsCounter_lift _).bind fun r => KeepsCounter.ite (keepsCounter_fail _) ?_
  split <;> exact createEdge_keepsCounter _ _ _ _

theorem addEdgeForRule_keepsCounter (r : Rule) (a b : Vertex) (m : PropertyMap) :
    (addEdgeForRule r a b m).KeepsCounter :=
  KeepsCounter.ite (createEdge_keepsCounter _ _ _ _) (createEdge_keepsCounter _ _ _ _)

theorem refreshQueue_keepsCounter (s : Scope) (root : VertexId) :
    ∀ fuel queue seen own, (s.refreshQueue root fuel queue seen own).KeepsCounter
  | 0, _, _, own => keepsCounter_pure own
  | _ + 1, [], _, own => keepsCounter_pure own
  | fuel + 1, id :: queue, seen, own => by
    rw [refreshQueue.eq_3]
    refine KeepsCounter.ite (refreshQueue_keepsCounter s root fuel queue seen own)
      (keepsCounter_get.bind fun g => ?_)
    split
    · exact keepsCounter_fail _
    · refine (keepsCounter_updateVertex _).bind fun _ => keepsCounter_get.bind fun _ => ?_
      dsimp only
      split
      · exact (keepsCounter_updateVertex _).bind fun _ => keepsCounter_get.bind fun _ =>
          refreshQueue_keepsCounter s root fuel _ _ _
      · exact keepsCounter_get.bind fun _ => refreshQueue_keepsCounter s root fuel _ _ _

theorem refreshUri_keepsCounter (s : Scope) (root : VertexId) :
    (s.refreshUri root).KeepsCounter := by
  unfold refreshUri
  exact keepsCounter_get.bind fun _ => refreshQueue_keepsCounter s root _ _ _ _

end Scope

namespace Serializer

variable (s : Serializer)

theorem ensureTreeEdge_keepsCounter (p : Vertex) (x : VertexId) :
    (s.ensureTreeEdge p x).KeepsCounter := by
  unfold ensureTreeEdge
  refine keepsCounter_get.bind fun g => ?_
  split
  · exact KeepsCounter.ite (keepsCounter_pure _) (keepsCounter_fail _)
  · split
    · exact keepsCounter_fail _
    · exact (Scope.addTreeEdge_keepsCounter _ _ _).bind fun _ => keepsCounter_pure _

theorem target_keepsCounter (parent : Option Vertex) (o : SchemaObject) (existing : Option Vertex) :
    (s.target parent o existing).KeepsCounter := by
  unfold target
  refine keepsCounter_get.bind fun g => ?_
  split
  · refine KeepsCounter.ite (keepsCounter_fail _) ?_
    split
    · exact keepsCounter_fail _
    · exact keepsCounter_pure _
  · refine (keepsCounter_lift _).bind fun found => ?_
    split
    · exact keepsCounter_fail _
    · exact (keepsCounter_addVertex _).bind fun _ => keepsCounter_pure _

theorem store_keepsCounter (t : NodeType) (parent : Option Vertex) (o : SchemaObject) (v : Vertex)
    (isNew : Bool) : (s.store t parent o v isNew).KeepsCounter := by
  unfold store
  dsimp only
  refine (keepsCounter_updateVertex _).bind fun _ => ?_
  -- both placements go on to the same refresh and lookup, taken together below
  split
  refine (s.ensureTreeEdge_keepsCounter _ _).bind fun _ => ?_
  rotate_left
  refine (keepsCounter_pure _).bind fun _ => ?_
  all_goals
    refine KeepsCounter.ite
      ((Scope.refreshUri_keepsCounter _ _).bind fun _ => keepsCounter_get.bind fun _ => ?_)
      (keepsCounter_get.bind fun _ => ?_)
  all_goals
    split
    · exact keepsCounter_fail _
    · exact keepsCounter_pure _

theorem prepare_keepsCounter (parent : Option Vertex) (o : SchemaObject)
    (existing : Option Vertex) : (s.prepare parent o existing).KeepsCounter := by
  unfold prepare
  exact (keepsCounter_lift _).bind fun _ => (s.target_keepsCounter parent o existing).bind fun _ =>
    (s.store_keepsCounter _ _ _ _ _).bind fun _ => keepsCounter_get.bind fun _ =>
      (keepsCounter_lift _).bind fun _ => keepsCounter_pure _

theorem reconcile_keepsCounter (v : Vertex) (rels : List RelationshipRef) :
    (s.reconcile v rels).KeepsCounter := by
  unfold reconcile
  refine keepsCounter_get.bind fun _ => (keepsCounter_lift _).bind fun _ => ?_
  refine (keepsCounter_forIn _ _ fun _ _ => ?_).bind fun _ =>
    (keepsCounter_forIn _ _ fun x _ => ?_).bind fun _ => keepsCounter_pure ()
  · split
    · exact (keepsCounter_removeEdge _).bind fun _ => keepsCounter_pure _
    · exact keepsCounter_pure _
  · obtain ⟨r, target, rule, found⟩ := x
    refine KeepsCounter.ite (keepsCounter_get.bind fun _ => ?_) (keepsCounter_pure _)
    split
    · exact (Scope.addEdgeForRule_keepsCounter _ _ _ _).bind fun _ => keepsCounter_pure _
    · exact keepsCounter_pure _

theorem touch_keepsCounter (v : Vertex) (isNew : Bool) : (s.touch v isNew).KeepsCounter := by
  unfold touch freshSyntheticId
  exact keepsCounter_nowMillis.bind fun _ =>
    (KeepsCounter.ite ((keepsCounter_nextSyntheticId).bind fun _ => keepsCounter_pure _)
      (keepsCounter_pure _)).bind fun _ =>
    keepsCounter_nextResourceVersion.bind fun _ => keepsCounter_pure _

theorem write_keepsCounter :
    ∀ parent o existing, (s.write parent o existing).KeepsCounter := by
  refine write.induct (fun parent o existing => (s.write parent o existing).KeepsCounter)
    (fun v cs => (s.writeChildren v cs).KeepsCounter) ?_ ?_ ?_
  · intro parent existing nt props rv rels children ih
    rw [write.eq_1]
    refine (s.prepare_keepsCounter _ _ _).bind fun r => ?_
    obtain ⟨working, v, isNew⟩ := r
    have rest : (do s.writeChildren v children; let w ← s.touch v isNew; updateVertex w; pure w :
        GraphM Vertex).KeepsCounter := (ih v).bind fun _ =>
      (s.touch_keepsCounter v isNew).bind fun w =>
        (keepsCounter_updateVertex w).bind fun _ => keepsCounter_pure w
    dsimp only
    split
    · exact (s.reconcile_keepsCounter _ _).bind fun _ => rest
    · exact rest
  · intro p
    exact keepsCounter_pure ()
  · intro p c cs ihc ihs
    rw [writeChildren.eq_2]
    exact keepsCounter_get.bind fun _ => (keepsCounter_lift _).bind fun found =>
      (ihc found).bind fun _ => ihs

theorem delete_keepsCounter (v : Vertex) (cascade : List Vertex) (supplied : Option String)
    (enforce : Bool) : (s.delete v cascade supplied enforce).KeepsCounter := by
  unfold delete
  refine keepsCounter_get.bind fun g => ?_
  split
  · exact keepsCounter_fail _
  · dsimp only
    split
    · refine (keepsCounter_lift _).bind fun _ => ?_
      split
      · exact keepsCounter_removeLive _
      · exact keepsCounter_fail _
    · split
      · exact keepsCounter_removeLive _
      · exact keepsCounter_fail _

end Serializer
end InventoryGraph
