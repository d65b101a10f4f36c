import InventoryGraph.Proofs.Property.Lookup
import InventoryGraph.Proofs.Rules.Multiplicity
import InventoryGraph.Serializer.Write

/-!
A serializer write, stage by stage. A write validates the object, finds or makes its vertex,
stores the properties and places the vertex under its parent, runs the side effects,
reconciles the relationships, writes the children and stamps the vertex. Each stage gets one
inversion lemma that says everything a successful run of it did, so that the invariants of
later modules cite these lemmas and never unfold the stages.

The stores that successful writes reach from an empty store form the relation `Reaches`; a
caller hands each write a parent that is live, and `allow` states what else the caller
promises about the parent and the vertex it names.
-/
namespace InventoryGraph

theorem Outcome.mapM_eq_ok_mem {α β : Type} {f : α → Outcome β} :
    ∀ {l : List α} {l' : List β}, l.mapM f = .ok l' → ∀ y ∈ l', ∃ x ∈ l, f x = .ok y
  | [], l', h, y, hy => by
    simp only [List.mapM_nil] at h
    cases h
    exact absurd hy List.not_mem_nil
  | a :: l, l', h, y, hy => by
    simp only [List.mapM_cons, Except.bind_eq_ok] at h
    obtain ⟨b, hb, bs, hbs, h⟩ := h
    cases h
    rcases List.mem_cons.mp hy with rfl | hy
    · exact ⟨a, List.mem_cons_self, hb⟩
    · obtain ⟨x, hx, hfx⟩ := Outcome.mapM_eq_ok_mem hbs y hy
      exact ⟨x, List.mem_cons_of_mem a hx, hfx⟩

theorem Outcome.forIn_ok_all {α β : Type} (P : α → Prop) {f : α → β → Outcome (ForInStep β)}
    (hf : ∀ a b r, f a b = .ok r → P a ∧ ∃ b', r = .yield b') :
    ∀ (l : List α) {b r : β}, forIn l b f = .ok r → ∀ a ∈ l, P a
  | [], _, _, _, a, ha => absurd ha List.not_mem_nil
  | x :: l, b, r, h, a, ha => by
    rw [List.forIn_cons, Except.bind_eq_ok] at h
    obtain ⟨step, hstep, h⟩ := h
    obtain ⟨hx, b', rfl⟩ := hf x b step hstep
    rcases List.mem_cons.mp ha with rfl | ha
    · exact hx
    · exact Outcome.forIn_ok_all P hf l h a ha

theorem Outcome.foldlM_preserves {α β : Type} (P : β → Prop) (f : β → α → Outcome β) :
    ∀ (l : List α), (∀ b x b', x ∈ l → P b → f b x = .ok b' → P b') →
      ∀ {b r : β}, P b → l.foldlM f b = .ok r → P r
  | [], _, _, _, hP, h => by
    simp only [List.foldlM_nil] at h
    cases h
    exact hP
  | x :: l, hf, _, _, hP, h => by
    rw [List.foldlM_cons, Except.bind_eq_ok] at h
    obtain ⟨b₁, hb₁, h⟩ := h
    exact Outcome.foldlM_preserves P f l (fun b y b' hy => hf b y b' (List.mem_cons_of_mem x hy))
      (hf _ x b₁ List.mem_cons_self hP hb₁) h

namespace GraphM

theorem run_bind_eq_ok {α β : Type} {x : GraphM α} {f : α → GraphM β} {g g'' : Graph} {b : β} :
    (x >>= f).run g = .ok (b, g'') ↔ ∃ a g', x.run g = .ok (a, g') ∧ (f a).run g' = .ok (b, g'') := by
  rw [StateT.run_bind]
  cases x.run g with
  | error e => simp [Except.error_bind]
  | ok p =>
    obtain ⟨a, g'⟩ := p
    simp [Except.ok_bind]

theorem run_lift_eq_ok {α : Type} {r : Outcome α} {g g' : Graph} {a : α} :
    (lift r).run g = .ok (a, g') ↔ r = .ok a ∧ g = g' := by
  cases r <;> simp [run_lift, Except.map]

theorem run_pure_eq_ok {α : Type} {a b : α} {g g' : Graph} :
    (pure a : GraphM α).run g = .ok (b, g') ↔ a = b ∧ g = g' := by
  show Except.ok (a, g) = _ ↔ _
  simp

theorem run_get (g : Graph) : (get : GraphM Graph).run g = .ok (g, g) := rfl

theorem run_get_bind_eq_ok {α : Type} {f : Graph → GraphM α} {g g' : Graph} {a : α} :
    (get >>= f).run g = .ok (a, g') ↔ (f g).run g = .ok (a, g') := by
  rw [run_bind_eq_ok]
  constructor
  · rintro ⟨_, _, hget, h⟩
    cases hget
    exact h
  · exact fun h => ⟨g, g, rfl, h⟩

theorem run_fail_ne_ok {α : Type} {e : GraphError} {g g' : Graph} {a : α} :
    (fail e : GraphM α).run g ≠ .ok (a, g') := by
  simp [run_fail]

theorem run_updateVertex_eq_ok {v : Vertex} {g g' : Graph} :
    (updateVertex v).run g = .ok ((), g') ↔ g.updateVertex v = .ok g' := by
  show ((g.updateVertex v).map fun g => ((), g)).mapError (·, g.clock) = _ ↔ _
  cases g.updateVertex v <;> simp [Except.map]

theorem run_addEdge_eq_ok {e e' : Edge} {g g' : Graph} :
    (addEdge e).run g = .ok (e', g') ↔ g.addEdge e = .ok (e', g') := by
  rw [run_addEdge, Except.mapError_eq_ok]

theorem run_addVertex (t : Identifier) (g : Graph) : (addVertex t).run g = .ok (g.addVertex t) :=
  rfl

theorem run_nowMillis (g : Graph) :
    nowMillis.run g = .ok (g.clock.read.1 / 1000, { g with clock := g.clock.read.2 }) := rfl

theorem run_nextSyntheticId (g : Graph) :
    nextSyntheticId.run g = .ok (g.clock.draw.1, { g with clock := g.clock.draw.2 }) := rfl

theorem run_nextResourceVersion (g : Graph) :
    nextResourceVersion.run g = .ok (toString g.clock.issue.1, { g with clock := g.clock.issue.2 }) :=
  rfl

theorem run_removeEdge (i : EdgeId) (g : Graph) : (removeEdge i).run g = .ok (g.removeEdge i) :=
  rfl

theorem forIn_run_preserves {α β : Type} (P : Graph → Prop) (f : α → β → GraphM (ForInStep β)) :
    ∀ (xs : List α), (∀ x ∈ xs, ∀ b g r g', P g → (f x b).run g = .ok (r, g') → P g') →
      ∀ {b b' : β} {g g' : Graph}, P g → (forIn xs b f).run g = .ok (b', g') → P g'
  | [], _, _, _, _, _, hP, h => by
    rw [List.forIn_nil, run_pure_eq_ok] at h
    exact h.2 ▸ hP
  | x :: xs, hf, _, _, _, _, hP, h => by
    rw [List.forIn_cons, run_bind_eq_ok] at h
    obtain ⟨step, g₁, hx, h⟩ := h
    have hP₁ := hf x List.mem_cons_self _ _ _ _ hP hx
    cases step with
    | done b₁ =>
      rw [run_pure_eq_ok] at h
      exact h.2 ▸ hP₁
    | yield b₁ =>
      exact forIn_run_preserves P f xs (fun y hy => hf y (List.mem_cons_of_mem x hy)) hP₁ h

end GraphM

namespace Graph

theorem vertex?_updateVertex {g g' : Graph} {w : Vertex} (h : g.updateVertex w = .ok g')
    (x : VertexId) :
    ∃ old, g.vertex? w.id = some old ∧
      g'.vertex? x = if x = w.id then some (updated old w) else g.vertex? x := by
  obtain ⟨old, hold, -, rfl⟩ := updateVertex_eq h
  refine ⟨old, hold, ?_⟩
  have hsame : ((fun v : Vertex => v.id == x) ∘ fun v => if v.id = (updated old w).id then
      updated old w else v) = fun v => v.id == x := by
    funext v
    by_cases hv : v.id = w.id <;> simp [hv, updated]
  simp only [vertex?, replaceVertex, List.find?_map, hsame]
  by_cases hx : x = w.id
  · subst hx
    rw [if_pos rfl, show g.vertices.find? (·.id == w.id) = some old from hold]
    simp [updated, (mem_of_vertex? hold).2]
  · rw [if_neg hx]
    cases hf : g.vertices.find? (·.id == x) with
    | none => rfl
    | some y =>
      have hy : y.id = x := (mem_of_vertex? hf).2
      simp [updated, hy, hx]

/-- The later store holds the vertices of the earlier one in the same order, and perhaps
    more after them. -/
def Grows (g g' : Graph) : Prop := g.vertices.map (·.id) <+: g'.vertices.map (·.id)

theorem Grows.refl (g : Graph) : Grows g g := List.prefix_refl _

theorem Grows.trans {g g' g'' : Graph} (h : Grows g g') (h' : Grows g' g'') : Grows g g'' :=
  List.IsPrefix.trans h h'

theorem Grows.live {g g' : Graph} (h : Grows g g') {x : VertexId} (hx : g.Live x) : g'.Live x := by
  obtain ⟨v, hv, rfl⟩ := hx
  obtain ⟨w, hw, hwv⟩ := List.mem_map.mp (h.subset (List.mem_map_of_mem hv))
  exact ⟨w, hw, hwv⟩

theorem Grows.of_vertices {g g' : Graph} (h : g'.vertices = g.vertices) : Grows g g' := by
  unfold Grows
  exact h ▸ List.prefix_refl _

theorem addVertex_grows (g : Graph) (t : Identifier) : Grows g (g.addVertex t).2 := by
  simp only [Grows, addVertex, indexVertex, List.map_append]
  exact List.prefix_append _ _

theorem updateVertex_grows {g g' : Graph} {w : Vertex} (h : g.updateVertex w = .ok g') :
    Grows g g' := by
  obtain ⟨old, -, -, rfl⟩ := updateVertex_eq h
  simp only [Grows, replaceVertex_ids]
  exact List.prefix_refl _

theorem addEdge_grows {g g' : Graph} {e e' : Edge} (h : g.addEdge e = .ok (e', g')) :
    Grows g g' := by
  obtain ⟨-, -, -, rfl⟩ := addEdge_eq h
  exact Grows.refl g

theorem removeEdge_grows (g : Graph) (i : EdgeId) : Grows g (g.removeEdge i).2 :=
  Grows.of_vertices (removeEdge_sameVertices g i).vertices

end Graph

namespace Scope

theorem createEdge_adds {r : Rule} {out inn : Vertex} {m : PropertyMap} {g g' : Graph} {e : Edge}
    (h : (createEdge r out inn m).run g = .ok (e, g')) :
    ∃ e₀ : Edge, e₀.outV = out.id ∧ e₀.inV = inn.id ∧ e₀.edgeType = r.edgeType ∧
      e₀.contains = r.contains ∧ g.addEdge e₀ = .ok (e, g') := by
  rw [createEdge, GraphM.run_get_bind_eq_ok] at h
  split at h
  · exact absurd h GraphM.run_fail_ne_ok
  · rw [GraphM.run_bind_eq_ok] at h
    obtain ⟨⟨⟩, g₁, hchk, h⟩ := h
    obtain ⟨-, rfl⟩ := GraphM.run_lift_eq_ok.mp hchk
    exact ⟨_, rfl, rfl, rfl, rfl, GraphM.run_addEdge_eq_ok.mp h⟩

theorem addEdgeForRule_adds {r : Rule} {a b : Vertex} {m : PropertyMap} {g g' : Graph} {e : Edge}
    (h : (addEdgeForRule r a b m).run g = .ok (e, g')) :
    ∃ e₀ : Edge, e₀.edgeType = r.edgeType ∧ e₀.contains = r.contains ∧ g.addEdge e₀ = .ok (e, g') := by
  unfold addEdgeForRule at h
  split at h
  · obtain ⟨e₀, -, -, ht, hc, hadd⟩ := createEdge_adds h
    exact ⟨e₀, ht, hc, hadd⟩
  · obtain ⟨e₀, -, -, ht, hc, hadd⟩ := createEdge_adds h
    exact ⟨e₀, ht, hc, hadd⟩

theorem refreshQueue_induct (P : Graph → Prop) (s : Scope)
    (hclear : ∀ {g g' : Graph} {v : Vertex}, P g → g.vertex? v.id = some v →
      g.updateVertex (v.remove Bookkeeping.uri) = .ok g' → P g')
    (hset : ∀ {g g' : Graph} {v : Vertex}, P g → g.vertex? v.id = some v →
      s.computeUri g v ≠ unknownUri →
      g.updateVertex (v.set Bookkeeping.uri (.str (s.computeUri g v))) = .ok g' → P g')
    (root : VertexId) :
    ∀ (fuel : Nat) (queue seen : List VertexId) (own : Option String) {g g' : Graph}
      {u : Option String}, P g → (s.refreshQueue root fuel queue seen own).run g = .ok (u, g') →
        P g'
  | 0, _, _, _, _, _, _, hP, h => by
    rw [refreshQueue.eq_1, GraphM.run_pure_eq_ok] at h
    exact h.2 ▸ hP
  | _ + 1, [], _, _, _, _, _, hP, h => by
    rw [refreshQueue.eq_2, GraphM.run_pure_eq_ok] at h
    exact h.2 ▸ hP
  | fuel + 1, id :: queue, seen, own, g, g', u, hP, h => by
    rw [refreshQueue.eq_3] at h
    split at h
    · exact refreshQueue_induct P s hclear hset root fuel queue seen own hP h
    · rw [GraphM.run_get_bind_eq_ok] at h
      split at h
      · exact absurd h GraphM.run_fail_ne_ok
      · next v hv =>
        obtain ⟨-, rfl⟩ := Graph.mem_of_vertex? hv
        dsimp only at h
        rw [GraphM.run_bind_eq_ok] at h
        obtain ⟨⟨⟩, g₁, hup₁, h⟩ := h
        rw [GraphM.run_updateVertex_eq_ok] at hup₁
        have hP₁ : P g₁ := hclear hP hv hup₁
        have hv₁ : g₁.vertex? (v.remove Bookkeeping.uri).id = some (v.remove Bookkeeping.uri) := by
          obtain ⟨old, hold, hg₁⟩ := Graph.vertex?_updateVertex hup₁ v.id
          rw [Vertex.remove_id, hv] at hold
          cases hold
          rw [Vertex.remove_id, hg₁, if_pos (Vertex.remove_id v _).symm]
          rfl
        rw [GraphM.run_get_bind_eq_ok] at h
        split at h
        · next w hknown =>
          have hw : s.computeUri g₁ (v.remove Bookkeeping.uri) = w ∧
              s.computeUri g₁ (v.remove Bookkeeping.uri) ≠ unknownUri := by
            split at hknown
            · cases hknown
            · next hne => exact ⟨Option.some.inj hknown, hne⟩
          obtain ⟨rfl, hne⟩ := hw
          rw [GraphM.run_bind_eq_ok] at h
          obtain ⟨⟨⟩, g₂, hup₂, h⟩ := h
          rw [GraphM.run_updateVertex_eq_ok] at hup₂
          have hP₂ : P g₂ := hset hP₁ hv₁ hne hup₂
          rw [GraphM.run_get_bind_eq_ok] at h
          exact refreshQueue_induct P s hclear hset root fuel _ _ _ hP₂ h
        · rw [GraphM.run_get_bind_eq_ok] at h
          exact refreshQueue_induct P s hclear hset root fuel _ _ _ hP₁ h

theorem refreshQueue_preserves (P : Graph → Prop)
    (hup : ∀ {g g' : Graph} {v w : Vertex}, P g → g.updateVertex w = .ok g' →
      g.vertex? w.id = some v → w.nodeType = v.nodeType →
      (∀ k, k ≠ Bookkeeping.uri → w.property? k = v.property? k) → P g')
    (s : Scope) (root : VertexId) :
    ∀ (fuel : Nat) (queue seen : List VertexId) (own : Option String) {g g' : Graph}
      {u : Option String}, P g → (s.refreshQueue root fuel queue seen own).run g = .ok (u, g') →
        P g' :=
  refreshQueue_induct P s (fun hP hv hup₁ => hup hP hup₁ hv rfl fun k hk => by simp [hk])
    (fun hP hv _ hup₂ => hup hP hup₂ hv rfl fun k hk => by simp [hk]) root

theorem refreshUri_preserves (P : Graph → Prop)
    (hup : ∀ {g g' : Graph} {v w : Vertex}, P g → g.updateVertex w = .ok g' →
      g.vertex? w.id = some v → w.nodeType = v.nodeType →
      (∀ k, k ≠ Bookkeeping.uri → w.property? k = v.property? k) → P g')
    {s : Scope} {root : VertexId} {g g' : Graph} {u : Option String} (hP : P g)
    (h : (s.refreshUri root).run g = .ok (u, g')) : P g' := by
  rw [refreshUri, GraphM.run_get_bind_eq_ok] at h
  exact refreshQueue_preserves P hup s root _ _ _ _ hP h

end Scope

namespace DataCopy

/-- What data copy keeps: the vertex's id, type and creation instant, and the object's type,
    relationships and children. -/
def Keeps (o : SchemaObject) (v : Vertex) (acc : SchemaObject × Vertex) : Prop :=
  acc.2.id = v.id ∧ acc.2.nodeType = v.nodeType ∧ acc.2.createdAt = v.createdAt ∧
    acc.1.nodeType = o.nodeType ∧ acc.1.relationships = o.relationships ∧
    acc.1.children = o.children

theorem run_keeps {g : Graph} {t : NodeType} {o o' : SchemaObject} {v v' : Vertex}
    (h : run g t o v = .ok (o', v')) : Keeps o v (o', v') := by
  refine Outcome.foldlM_preserves (Keeps o v) _ t.properties (fun ⟨o₁, v₁⟩ d acc hd hk h => ?_)
    ⟨rfl, rfl, rfl, rfl, rfl, rfl⟩ h
  dsimp only at h
  split at h
  · cases h
    exact hk
  · rw [Except.bind_eq_ok] at h
    obtain ⟨found, -, h⟩ := h
    split at h
    · cases h
      exact hk
    · rw [Except.bind_eq_ok] at h
      obtain ⟨target, -, h⟩ := h
      split at h
      · cases h
      · split at h <;> cases h
        · exact hk
        · exact hk

theorem run_property? {g : Graph} {t : NodeType} {o o' : SchemaObject} {v v' : Vertex}
    (h : run g t o v = .ok (o', v')) {k : String}
    (hk : ∀ d ∈ t.properties, d.dataCopy ≠ none → d.name.text ≠ k) :
    v'.property? k = v.property? k := by
  refine Outcome.foldlM_preserves (fun acc : SchemaObject × Vertex => acc.2.property? k = v.property? k)
    _ t.properties (fun acc d acc' hd hP h => ?_) rfl h
  obtain ⟨o₁, v₁⟩ := acc
  dsimp only at h
  split at h
  · cases h
    exact hP
  · next template htemp =>
    rw [Except.bind_eq_ok] at h
    obtain ⟨found, -, h⟩ := h
    split at h
    · cases h
      exact hP
    · rw [Except.bind_eq_ok] at h
      obtain ⟨target, -, h⟩ := h
      split at h
      · cases h
      · split at h <;> cases h
        · rw [Vertex.property?_set, if_neg (Ne.symm (hk d hd (by rw [htemp]; exact Option.some_ne_none _)))]
          exact hP
        · exact hP

theorem run_of_no_templates {g : Graph} {t : NodeType} (ht : ∀ d ∈ t.properties, d.dataCopy = none)
    (o : SchemaObject) (v : Vertex) : run g t o v = .ok (o, v) := by
  unfold run
  dsimp only
  generalize t.properties = ds at ht ⊢
  induction ds with
  | nil => rfl
  | cons d ds ih =>
    rw [List.foldlM_cons, ht d List.mem_cons_self]
    exact ih fun d' hd' => ht d' (List.mem_cons_of_mem d hd')

end DataCopy

namespace Serializer

theorem runSideEffects_keeps {s : Serializer} {g : Graph} {t : NodeType} {o o' : SchemaObject}
    {v v' : Vertex} (h : s.runSideEffects g t o v = .ok (o', v')) : DataCopy.Keeps o v (o', v') := by
  refine Outcome.foldlM_preserves (DataCopy.Keeps o v) _ s.sideEffects
    (fun acc e acc' _ hk h => ?_) ⟨rfl, rfl, rfl, rfl, rfl, rfl⟩ h
  cases e
  obtain ⟨h₁, h₂, h₃, h₄, h₅, h₆⟩ := DataCopy.run_keeps h
  obtain ⟨k₁, k₂, k₃, k₄, k₅, k₆⟩ := hk
  exact ⟨h₁.trans k₁, h₂.trans k₂, h₃.trans k₃, h₄.trans k₄, h₅.trans k₅, h₆.trans k₆⟩

theorem runSideEffects_property? {s : Serializer} {g : Graph} {t : NodeType} {o o' : SchemaObject}
    {v v' : Vertex} (h : s.runSideEffects g t o v = .ok (o', v')) {k : String}
    (hk : ∀ d ∈ t.properties, d.dataCopy ≠ none → d.name.text ≠ k) :
    v'.property? k = v.property? k := by
  refine Outcome.foldlM_preserves (fun acc : SchemaObject × Vertex => acc.2.property? k = v.property? k)
    _ s.sideEffects (fun acc e acc' _ hP h => ?_) rfl h
  cases e
  exact (DataCopy.run_property? h hk).trans hP

theorem runSideEffects_of_no_templates {s : Serializer} {t : NodeType}
    (ht : ∀ d ∈ t.properties, d.dataCopy = none) (g : Graph) (o : SchemaObject) (v : Vertex) :
    s.runSideEffects g t o v = .ok (o, v) := by
  unfold runSideEffects
  dsimp only
  induction s.sideEffects with
  | nil => rfl
  | cons e es ih =>
    cases e
    rw [List.foldlM_cons, DataCopy.run_of_no_templates ht]
    exact ih

/-! ### The stages of a write -/

theorem Outcome.ofValidation_eq_ok {α : Type} {r : Except ValidationError α} {a : α}
    (h : Outcome.ofValidation r = .ok a) : r = .ok a := by
  cases r <;> simp_all [Outcome.ofValidation, Except.mapError]

theorem validateObject_inv {s : Serializer} {o : SchemaObject} {t : NodeType}
    (h : s.validateObject o = .ok t) :
    s.nodeType o.nodeType = .ok t ∧
    (∀ k x, o.properties.get? k = some x → ∃ d, t.property? k = some d ∧ d.validate x = .ok ()) ∧
    ∀ k ∈ t.keyProperties, (o.properties.get? k.text).isSome := by
  unfold validateObject at h
  rw [Except.bind_eq_ok] at h
  obtain ⟨t₀, ht₀, h⟩ := h
  rw [Except.bind_eq_ok] at h
  obtain ⟨⟨⟩, hprops, h⟩ := h
  rw [Except.bind_eq_ok] at h
  obtain ⟨⟨⟩, hkeys, h⟩ := h
  obtain rfl : t₀ = t := Except.ok.inj h
  refine ⟨ht₀, fun k x hx => ?_, ?_⟩
  · -- each property passes its declaration's check in the first loop
    refine Outcome.forIn_ok_all (fun p => ∃ d, t₀.property? p.1 = some d ∧ d.validate p.2 = .ok ())
      (fun a b r hr => ?_) _ hprops (k, x) ((PropertyMap.get?_eq_some_iff _ _ _).mp hx)
    obtain ⟨name, x⟩ := a
    dsimp only at hr
    split at hr
    · cases hr
    · next d hd =>
      rw [Except.bind_eq_ok] at hr
      obtain ⟨⟨⟩, hv, hr⟩ := hr
      cases hr
      exact ⟨⟨d, hd, Outcome.ofValidation_eq_ok hv⟩, _, rfl⟩
  · -- each key is found in the second
    refine Outcome.forIn_ok_all (fun k => (o.properties.get? k.text).isSome) (fun a b r hr => ?_)
      _ hkeys
    split at hr
    · cases hr
    · next hc =>
      cases hr
      simp only [Bool.not_eq_true', Bool.not_eq_false] at hc
      exact ⟨hc, _, rfl⟩

theorem target_run_inv {s : Serializer} {parent existing : Option Vertex} {o : SchemaObject}
    {v : Vertex} {isNew : Bool} {g g' : Graph}
    (h : (s.target parent o existing).run g = .ok ((v, isNew), g')) :
    (∃ e, existing = some e ∧ e.nodeType = o.nodeType ∧ g.vertex? e.id = some v ∧
      isNew = false ∧ g = g') ∨
    (existing = none ∧ s.findExisting g parent o = .ok none ∧ g.addVertex o.nodeType = (v, g') ∧
      isNew = true) := by
  rw [target, GraphM.run_bind_eq_ok, GraphM.run_get] at h
  obtain ⟨_, _, hget, h⟩ := h
  obtain ⟨rfl, rfl⟩ : g = _ ∧ g = _ := by simpa using hget
  cases existing with
  | some e =>
    simp only at h
    split at h
    · exact absurd h GraphM.run_fail_ne_ok
    · next htype =>
      split at h
      · exact absurd h GraphM.run_fail_ne_ok
      · next live hlive =>
        obtain ⟨hv, rfl⟩ := GraphM.run_pure_eq_ok.mp h
        simp only [Prod.mk.injEq] at hv
        obtain ⟨rfl, rfl⟩ := hv
        exact .inl ⟨e, rfl, not_not.mp htype, hlive, rfl, rfl⟩
  | none =>
    simp only [GraphM.run_bind_eq_ok, GraphM.run_lift_eq_ok] at h
    obtain ⟨found, _, ⟨hfind, rfl⟩, h⟩ := h
    cases found with
    | some f => exact absurd h GraphM.run_fail_ne_ok
    | none =>
      simp only [GraphM.run_bind_eq_ok, GraphM.run_addVertex, GraphM.run_pure_eq_ok,
        Prod.mk.injEq] at h
      obtain ⟨w, g₁, hadd, ⟨rfl, rfl⟩, rfl⟩ := h
      exact .inr ⟨rfl, hfind, by simpa using hadd, rfl⟩

theorem ensureTreeEdge_run_inv {s : Serializer} {p : Vertex} {x : VertexId} {added : Bool}
    {g g' : Graph} (h : (s.ensureTreeEdge p x).run g = .ok (added, g')) :
    (g.treeParent? x = some p.id ∧ added = false ∧ g = g') ∨
    (g.treeParent? x = none ∧ added = true ∧
      ∃ c e, g.vertex? x = some c ∧ (s.scope.addTreeEdge p c).run g = .ok (e, g')) := by
  rw [ensureTreeEdge, GraphM.run_bind_eq_ok, GraphM.run_get] at h
  obtain ⟨_, _, hget, h⟩ := h
  obtain ⟨rfl, rfl⟩ : g = _ ∧ g = _ := by simpa using hget
  split at h
  · next current hcur =>
    split at h
    · next hp =>
      obtain ⟨rfl, rfl⟩ := GraphM.run_pure_eq_ok.mp h
      exact .inl ⟨hp ▸ hcur, rfl, rfl⟩
    · exact absurd h GraphM.run_fail_ne_ok
  · next hnone =>
    split at h
    · exact absurd h GraphM.run_fail_ne_ok
    · next c hc =>
      rw [GraphM.run_bind_eq_ok] at h
      obtain ⟨e, g₁, hadd, h⟩ := h
      obtain ⟨rfl, rfl⟩ := GraphM.run_pure_eq_ok.mp h
      exact .inr ⟨hnone, rfl, c, e, hc, hadd⟩

theorem applyProperties_preserves {α : Type} (f : Vertex → α)
    (hset : ∀ v k x, f (v.set k x) = f v) (hrm : ∀ v k, f (v.remove k) = f v) (t : NodeType)
    (v : Vertex) (props : PropertyMap) : f (applyProperties t v props) = f v := by
  unfold applyProperties
  induction t.properties generalizing v with
  | nil => rfl
  | cons d ds ih =>
    rw [List.foldl_cons]
    refine (ih _).trans ?_
    split
    · exact hset v _ _
    · exact hrm v _

@[simp]
theorem applyProperties_id (t : NodeType) (v : Vertex) (props : PropertyMap) :
    (applyProperties t v props).id = v.id :=
  applyProperties_preserves Vertex.id (fun _ _ _ => rfl) (fun _ _ => rfl) t v props

@[simp]
theorem applyProperties_nodeType (t : NodeType) (v : Vertex) (props : PropertyMap) :
    (applyProperties t v props).nodeType = v.nodeType :=
  applyProperties_preserves Vertex.nodeType (fun _ _ _ => rfl) (fun _ _ => rfl) t v props

@[simp]
theorem applyProperties_createdAt (t : NodeType) (v : Vertex) (props : PropertyMap) :
    (applyProperties t v props).createdAt = v.createdAt :=
  applyProperties_preserves Vertex.createdAt (fun _ _ _ => rfl) (fun _ _ => rfl) t v props

theorem readBack_run_inv {s : Scope} {x : VertexId} {c : Bool} {rb : Graph → GraphM Vertex}
    {g g' : Graph} {v' : Vertex}
    (hrb : ∀ d w d', (rb d).run d = .ok (w, d') → d.vertex? x = some w ∧ d = d')
    (h : (if c = true then (do let _ ← s.refreshUri x; get >>= rb) else get >>= rb).run g =
      .ok (v', g')) :
    (g = g' ∨ ∃ u, (s.refreshUri x).run g = .ok (u, g')) ∧
    (c = true → ∃ u, (s.refreshUri x).run g = .ok (u, g')) ∧ g'.vertex? x = some v' := by
  split at h
  · rw [GraphM.run_bind_eq_ok] at h
    obtain ⟨u, g₁, hr, h⟩ := h
    rw [GraphM.run_get_bind_eq_ok] at h
    obtain ⟨hv, rfl⟩ := hrb g₁ v' g' h
    exact ⟨.inr ⟨u, hr⟩, fun _ => ⟨u, hr⟩, hv⟩
  · next hc =>
    rw [GraphM.run_get_bind_eq_ok] at h
    obtain ⟨hv, rfl⟩ := hrb g v' g' h
    exact ⟨.inl rfl, fun h => absurd h hc, hv⟩

theorem store_run_inv {s : Serializer} {t : NodeType} {parent : Option Vertex} {o : SchemaObject}
    {v v' : Vertex} {isNew : Bool} {g g' : Graph}
    (h : (s.store t parent o v isNew).run g = .ok (v', g')) :
    ∃ g₁, g.updateVertex (applyProperties t v o.properties) = .ok g₁ ∧
    ∃ added g₂, (parent.elim (pure false) fun p => s.ensureTreeEdge p v.id).run g₁ = .ok (added, g₂) ∧
    (g₂ = g' ∨ ∃ u, (s.scope.refreshUri v.id).run g₂ = .ok (u, g')) ∧
    ((isNew || added) = true → ∃ u, (s.scope.refreshUri v.id).run g₂ = .ok (u, g')) ∧
    g'.vertex? v.id = some v' := by
  dsimp only [store] at h
  simp only [applyProperties_id] at h
  rw [GraphM.run_bind_eq_ok] at h
  obtain ⟨⟨⟩, g₁, hup, h⟩ := h
  refine ⟨g₁, GraphM.run_updateVertex_eq_ok.mp hup, ?_⟩
  cases parent with
  | none =>
    dsimp only at h
    rw [pure_bind] at h
    refine (fun ⟨hkeep, hnew, hv⟩ => ⟨false, g₁, rfl, hkeep, fun h => hnew (by simp_all), hv⟩)
      (readBack_run_inv (fun d w d' h => ?_) h)
    split at h
    · exact absurd h GraphM.run_fail_ne_ok
    · next hv =>
      obtain ⟨rfl, rfl⟩ := GraphM.run_pure_eq_ok.mp h
      exact ⟨hv, rfl⟩
  | some p =>
    dsimp only at h
    rw [GraphM.run_bind_eq_ok] at h
    obtain ⟨added, g₂, hadd, h⟩ := h
    refine (fun ⟨hkeep, hnew, hv⟩ => ⟨added, g₂, hadd, hkeep, fun h => hnew (by simp_all), hv⟩)
      (readBack_run_inv (fun d w d' h => ?_) h)
    split at h
    · exact absurd h GraphM.run_fail_ne_ok
    · next hv =>
      obtain ⟨rfl, rfl⟩ := GraphM.run_pure_eq_ok.mp h
      exact ⟨hv, rfl⟩

theorem finish_run_inv {s : Serializer} {v w : Vertex} {cs : List SchemaObject} {isNew : Bool}
    {g g' : Graph}
    (h : (do
        s.writeChildren v cs
        let v ← s.touch v isNew
        GraphM.updateVertex v
        pure v : GraphM Vertex).run g = .ok (w, g')) :
    ∃ g₄, (s.writeChildren v cs).run g = .ok ((), g₄) ∧
      ∃ g₅, (s.touch v isNew).run g₄ = .ok (w, g₅) ∧ g₅.updateVertex w = .ok g' := by
  simp only [GraphM.run_bind_eq_ok] at h
  obtain ⟨⟨⟩, g₄, hch, w', g₅, htouch, ⟨⟩, g₆, hup, hpure⟩ := h
  obtain ⟨rfl, rfl⟩ := GraphM.run_pure_eq_ok.mp hpure
  exact ⟨g₄, hch, g₅, htouch, GraphM.run_updateVertex_eq_ok.mp hup⟩

theorem prepare_run_inv {s : Serializer} {parent : Option Vertex} {o working : SchemaObject}
    {existing : Option Vertex} {g g₂ : Graph} {v₂ : Vertex} {isNew : Bool}
    (h : (s.prepare parent o existing).run g = .ok ((working, v₂, isNew), g₂)) :
    ∃ t, s.validateObject o = .ok t ∧
    ∃ v g₁, (s.target parent o existing).run g = .ok ((v, isNew), g₁) ∧
    ∃ v₁, (s.store t parent o v isNew).run g₁ = .ok (v₁, g₂) ∧
      s.runSideEffects g₂ t o v₁ = .ok (working, v₂) := by
  rw [prepare, GraphM.run_bind_eq_ok] at h
  obtain ⟨t, g₀, hval, h⟩ := h
  rw [GraphM.run_lift_eq_ok] at hval
  obtain ⟨hval, rfl⟩ := hval
  rw [GraphM.run_bind_eq_ok] at h
  obtain ⟨⟨v, isNew'⟩, g₁, htarget, h⟩ := h
  rw [GraphM.run_bind_eq_ok] at h
  obtain ⟨v₁, g₂', hstore, h⟩ := h
  rw [GraphM.run_get_bind_eq_ok, GraphM.run_bind_eq_ok] at h
  obtain ⟨⟨working', v₂'⟩, g₂'', hse, h⟩ := h
  rw [GraphM.run_lift_eq_ok] at hse
  obtain ⟨hse, rfl⟩ := hse
  simp only [GraphM.run_pure_eq_ok, Prod.mk.injEq] at h
  obtain ⟨⟨rfl, rfl, rfl⟩, rfl⟩ := h
  exact ⟨t, hval, v, g₁, htarget, v₁, hstore, hse⟩

theorem write_prepare_run_inv {s : Serializer} {parent : Option Vertex} {o : SchemaObject}
    {existing : Option Vertex} {g g' : Graph} {w : Vertex}
    (h : (s.write parent o existing).run g = .ok (w, g')) :
    ∃ working v isNew g₂, (s.prepare parent o existing).run g = .ok ((working, v, isNew), g₂) ∧
    ∃ g₃, (working.relationships.elim (pure ()) (s.reconcile v)).run g₂ = .ok ((), g₃) ∧
    ∃ g₄, (s.writeChildren v o.children).run g₃ = .ok ((), g₄) ∧
    ∃ g₅, (s.touch v isNew).run g₄ = .ok (w, g₅) ∧ g₅.updateVertex w = .ok g' := by
  obtain ⟨nt, props, rv, rels, children⟩ := o
  rw [write.eq_1, GraphM.run_bind_eq_ok] at h
  obtain ⟨⟨working, v, isNew⟩, g₂, hprep, h⟩ := h
  refine ⟨working, v, isNew, g₂, hprep, ?_⟩
  dsimp only at h
  cases hr : working.relationships with
  | none =>
    simp only [hr] at h
    exact ⟨g₂, rfl, finish_run_inv h⟩
  | some rels =>
    simp only [hr] at h
    rw [GraphM.run_bind_eq_ok] at h
    obtain ⟨⟨⟩, g₃, hrec, h⟩ := h
    exact ⟨g₃, hrec, finish_run_inv h⟩

theorem write_run_inv {s : Serializer} {parent : Option Vertex} {o : SchemaObject}
    {existing : Option Vertex} {g g' : Graph} {w : Vertex}
    (h : (s.write parent o existing).run g = .ok (w, g')) :
    ∃ t, s.validateObject o = .ok t ∧
    ∃ v isNew g₁, (s.target parent o existing).run g = .ok ((v, isNew), g₁) ∧
    ∃ v₁ g₂, (s.store t parent o v isNew).run g₁ = .ok (v₁, g₂) ∧
    ∃ working v₂, s.runSideEffects g₂ t o v₁ = .ok (working, v₂) ∧
    ∃ g₃, (working.relationships.elim (pure ()) (s.reconcile v₂)).run g₂ = .ok ((), g₃) ∧
    ∃ g₄, (s.writeChildren v₂ o.children).run g₃ = .ok ((), g₄) ∧
    ∃ g₅, (s.touch v₂ isNew).run g₄ = .ok (w, g₅) ∧ g₅.updateVertex w = .ok g' := by
  obtain ⟨working, v₂, isNew, g₂, hprep, hrest⟩ := write_prepare_run_inv h
  obtain ⟨t, hval, v, g₁, htarget, v₁, hstore, hse⟩ := prepare_run_inv hprep
  exact ⟨t, hval, v, isNew, g₁, htarget, v₁, g₂, hstore, working, v₂, hse, hrest⟩

theorem writeChildren_nil_run (s : Serializer) (p : Vertex) (g : Graph) :
    (s.writeChildren p []).run g = .ok ((), g) := by
  rw [writeChildren.eq_1]
  rfl

theorem writeChildren_cons_run_inv {s : Serializer} {p : Vertex} {c : SchemaObject}
    {cs : List SchemaObject} {g g' : Graph}
    (h : (s.writeChildren p (c :: cs)).run g = .ok ((), g')) :
    ∃ found, s.findChild g p c = .ok found ∧
    ∃ w g₁, (s.write (some p) c found).run g = .ok (w, g₁) ∧
      (s.writeChildren p cs).run g₁ = .ok ((), g') := by
  rw [writeChildren.eq_2, GraphM.run_get_bind_eq_ok, GraphM.run_bind_eq_ok] at h
  obtain ⟨found, g₀, hfind, h⟩ := h
  rw [GraphM.run_lift_eq_ok] at hfind
  obtain ⟨hfind, rfl⟩ := hfind
  rw [GraphM.run_bind_eq_ok] at h
  obtain ⟨w, g₁, hw, h⟩ := h
  exact ⟨found, hfind, w, g₁, hw, h⟩

section Stamping

variable (s : Serializer) (v : Vertex) (isNew : Bool) (now : Int) (sid : Option String)
  (version : String)

@[simp] theorem stamp_id : (s.stamp v isNew now sid version).id = v.id := by
  cases sid <;> cases isNew <;> rfl

@[simp] theorem stamp_nodeType : (s.stamp v isNew now sid version).nodeType = v.nodeType := by
  cases sid <;> cases isNew <;> rfl

@[simp] theorem stamp_createdAt : (s.stamp v isNew now sid version).createdAt = v.createdAt := by
  cases sid <;> cases isNew <;> rfl

theorem stamp_property? {k : String}
    (hk : k = Bookkeeping.nodeType ∨ k = Bookkeeping.uri ∨ Bookkeeping.contains k = false) :
    (s.stamp v isNew now sid version).property? k = v.property? k := by
  have hne : k ≠ Bookkeeping.syntheticId ∧ k ≠ Bookkeeping.createdTs ∧
      k ≠ Bookkeeping.sourceOfTruth ∧ k ≠ Bookkeeping.lastModTs ∧
      k ≠ Bookkeeping.lastModSourceOfTruth ∧ k ≠ Bookkeeping.resourceVersion := by
    rcases hk with rfl | rfl | hk
    · decide
    · decide
    · simp only [Bookkeeping.contains, Bookkeeping.names, List.contains_eq_mem, List.mem_cons,
        List.not_mem_nil, decide_eq_false_iff_not] at hk
      tauto
  obtain ⟨h₁, h₂, h₃, h₄, h₅, h₆⟩ := hne
  cases sid <;> cases isNew <;> simp [stamp, h₁, h₂, h₃, h₄, h₅, h₆]

theorem stamp_resourceVersion? :
    (s.stamp v isNew now sid version).resourceVersion? = some version := by
  simp [stamp, Vertex.resourceVersion?, Vertex.str?, PropertyValue.str?]

end Stamping

theorem touch_run (s : Serializer) (v : Vertex) (isNew : Bool) (g : Graph) :
    ∃ (sid : Option String) (c : Clock), (s.touch v isNew).run g =
        .ok (s.stamp v isNew (g.clock.read.1 / 1000) sid (toString c.issue.1),
          { g with clock := c.issue.2 }) ∧ c.last = g.clock.last ∧
      ((isNew || (v.property? Bookkeeping.syntheticId).isNone) = true ↔ sid.isSome) := by
  by_cases hd : (isNew || (v.property? Bookkeeping.syntheticId).isNone) = true
  · refine ⟨some g.clock.read.2.draw.1, g.clock.read.2.draw.2, ?_, rfl, by simp [hd]⟩
    simp only [touch, freshSyntheticId, if_pos hd]
    rfl
  · refine ⟨none, g.clock.read.2, ?_, rfl, by simp [hd]⟩
    simp only [touch, freshSyntheticId, if_neg hd]
    rfl

theorem touch_run_inv {s : Serializer} {v w : Vertex} {isNew : Bool} {g g' : Graph}
    (h : (s.touch v isNew).run g = .ok (w, g')) :
    ∃ c : Clock, g' = { g with clock := c } ∧ g.clock.last < c.last ∧ w.id = v.id ∧
      w.nodeType = v.nodeType ∧ w.createdAt = v.createdAt ∧
      (∀ k, k = Bookkeeping.nodeType ∨ k = Bookkeeping.uri ∨ Bookkeeping.contains k = false →
        w.property? k = v.property? k) ∧
      w.resourceVersion? = some (toString c.last) := by
  obtain ⟨sid, c, hrun, hlast, -⟩ := touch_run s v isNew g
  rw [hrun] at h
  obtain ⟨rfl, rfl⟩ := Prod.mk.inj (Except.ok.inj h)
  refine ⟨c.issue.2, rfl, ?_, stamp_id .., stamp_nodeType .., stamp_createdAt ..,
    fun k hk => stamp_property? _ _ _ _ _ _ hk, stamp_resourceVersion? ..⟩
  rw [Clock.issue_last, ← hlast]
  exact c.last_lt_issue

theorem cousinRule_edgeType {sc : Scope} {a b : Vertex} {label : Option String} {r : Rule}
    (h : sc.cousinRule a b label = .ok r) : r.edgeType = .cousin := by
  unfold Scope.cousinRule at h
  dsimp only at h
  split at h
  · split at h <;> cases h
  · have hadm := (Scope.select_spec h).2
    simp only [RuleQuery.admits, Bool.and_eq_true, beq_iff_eq] at hadm
    exact hadm.2

theorem reconcile_preserves (P : Graph → Prop) {s : Serializer} {v : Vertex}
    {rels : List RelationshipRef} {g g' : Graph}
    (hrm : ∀ g₁ (e : Edge), e ∈ g.edgesOf v.id .both → e.edgeType = .cousin → P g₁ →
      P (g₁.removeEdge e.id).2)
    (hadd : ∀ {g g' : Graph} {r : Rule} {a b : Vertex} {m : PropertyMap} {e : Edge},
      r.edgeType = .cousin → P g → (Scope.addEdgeForRule r a b m).run g = .ok (e, g') → P g')
    (hP : P g) (h : (s.reconcile v rels).run g = .ok ((), g')) : P g' := by
  rw [reconcile, GraphM.run_get_bind_eq_ok, GraphM.run_bind_eq_ok] at h
  obtain ⟨resolved, g₀, hres, h⟩ := h
  rw [GraphM.run_lift_eq_ok] at hres
  obtain ⟨hres, rfl⟩ := hres
  have hcousin : ∀ x ∈ resolved, x.2.2.1.edgeType = .cousin := by
    intro x hx
    obtain ⟨r, -, hr⟩ := Outcome.mapM_eq_ok_mem hres x hx
    simp only [Except.bind_eq_ok] at hr
    obtain ⟨target, -, rule, hrule, hx⟩ := hr
    cases hx
    exact cousinRule_edgeType hrule
  dsimp only at h
  rw [GraphM.run_bind_eq_ok] at h
  obtain ⟨⟨⟩, g₁, hremove, h⟩ := h
  rw [GraphM.run_bind_eq_ok] at h
  obtain ⟨⟨⟩, g₂, hadd', h⟩ := h
  obtain ⟨-, rfl⟩ := GraphM.run_pure_eq_ok.mp h
  -- the first loop removes unlisted cousin edges, the second adds the missing ones
  refine GraphM.forIn_run_preserves P _ resolved (fun x hx _ g₁ r g' hP h => ?_)
    (GraphM.forIn_run_preserves P _ _ (fun e he _ g₁ r g' hP h => ?_) hP hremove) hadd'
  · obtain ⟨rel, target, rule, found⟩ := x
    dsimp only at h
    split at h
    · rw [GraphM.run_get_bind_eq_ok] at h
      split at h
      · rw [GraphM.run_bind_eq_ok] at h
        obtain ⟨e, g₃, hedge, h⟩ := h
        obtain ⟨-, rfl⟩ := GraphM.run_pure_eq_ok.mp h
        exact hadd (hcousin _ hx) hP hedge
      · exact (GraphM.run_pure_eq_ok.mp h).2 ▸ hP
    · exact (GraphM.run_pure_eq_ok.mp h).2 ▸ hP
  · split at h
    · next hcond =>
      rw [GraphM.run_bind_eq_ok, GraphM.run_removeEdge] at h
      obtain ⟨_, g₃, hrm', h⟩ := h
      simp only [Except.ok.injEq] at hrm'
      obtain ⟨-, rfl⟩ := GraphM.run_pure_eq_ok.mp h
      have hg₃ : (g₁.removeEdge e.id).2 = g₃ := congrArg Prod.snd hrm'
      have hcous : e.edgeType = .cousin := by
        simp only [Bool.and_eq_true, decide_eq_true_eq] at hcond
        exact hcond.1
      exact hg₃ ▸ hrm g₁ e he hcous hP
    · exact (GraphM.run_pure_eq_ok.mp h).2 ▸ hP

theorem reconcileListed_preserves (P : Graph → Prop) {s : Serializer} {v : Vertex}
    {rels : Option (List RelationshipRef)} {g g' : Graph}
    (hrm : ∀ g₁ (e : Edge), e ∈ g.edgesOf v.id .both → e.edgeType = .cousin → P g₁ →
      P (g₁.removeEdge e.id).2)
    (hadd : ∀ {g g' : Graph} {r : Rule} {a b : Vertex} {m : PropertyMap} {e : Edge},
      r.edgeType = .cousin → P g → (Scope.addEdgeForRule r a b m).run g = .ok (e, g') → P g')
    (hP : P g) (h : (rels.elim (pure ()) (s.reconcile v)).run g = .ok ((), g')) : P g' := by
  cases rels with
  | none =>
    obtain ⟨-, rfl⟩ := GraphM.run_pure_eq_ok.mp h
    exact hP
  | some rels => exact reconcile_preserves P hrm hadd hP h

/-! ### Writes never remove a vertex -/

theorem target_grows {s : Serializer} {parent existing : Option Vertex} {o : SchemaObject}
    {v : Vertex} {isNew : Bool} {g g' : Graph}
    (h : (s.target parent o existing).run g = .ok ((v, isNew), g')) : g.Grows g' := by
  rcases target_run_inv h with ⟨-, -, -, -, -, rfl⟩ | ⟨-, -, hadd, -⟩
  · exact Graph.Grows.refl g
  · have hg' : (g.addVertex o.nodeType).2 = g' := congrArg Prod.snd hadd
    exact hg' ▸ Graph.addVertex_grows g o.nodeType

theorem ensureTreeEdge_grows {s : Serializer} {p : Vertex} {x : VertexId} {added : Bool}
    {g g' : Graph} (h : (s.ensureTreeEdge p x).run g = .ok (added, g')) : g.Grows g' := by
  rcases ensureTreeEdge_run_inv h with ⟨-, -, rfl⟩ | ⟨-, -, c, e, -, hadd⟩
  · exact Graph.Grows.refl g
  · obtain ⟨r, -, out, inn, -, -, -, hcreate⟩ := Graph.addTreeEdge_creates hadd
    obtain ⟨e₀, -, -, -, -, hedge⟩ := Scope.createEdge_adds hcreate
    exact Graph.addEdge_grows hedge

theorem refreshUri_grows {sc : Scope} {x : VertexId} {u : Option String} {g g' : Graph}
    (h : (sc.refreshUri x).run g = .ok (u, g')) : g.Grows g' :=
  Scope.refreshUri_preserves (g.Grows ·) (fun hP hup _ _ _ => hP.trans (Graph.updateVertex_grows hup))
    (Graph.Grows.refl g) h

theorem store_grows {s : Serializer} {t : NodeType} {parent : Option Vertex} {o : SchemaObject}
    {v v' : Vertex} {isNew : Bool} {g g' : Graph}
    (h : (s.store t parent o v isNew).run g = .ok (v', g')) : g.Grows g' := by
  obtain ⟨g₁, hup, added, g₂, hplace, hrefresh, -, -⟩ := store_run_inv h
  have h₁ : g.Grows g₂ := by
    refine (Graph.updateVertex_grows hup).trans ?_
    cases parent with
    | none =>
      obtain ⟨-, rfl⟩ := GraphM.run_pure_eq_ok.mp hplace
      exact Graph.Grows.refl g₁
    | some p => exact ensureTreeEdge_grows hplace
  rcases hrefresh with rfl | ⟨u, hr⟩
  · exact h₁
  · exact h₁.trans (refreshUri_grows hr)

theorem reconcileListed_grows {s : Serializer} {v : Vertex} {rels : Option (List RelationshipRef)}
    {g g' : Graph} (h : (rels.elim (pure ()) (s.reconcile v)).run g = .ok ((), g')) :
    g.Grows g' := by
  refine reconcileListed_preserves (g.Grows ·)
    (fun g₁ e _ _ hP => hP.trans (Graph.removeEdge_grows g₁ e.id)) (fun _ hP hadd => ?_)
    (Graph.Grows.refl g) h
  obtain ⟨e₀, -, -, hedge⟩ := Scope.addEdgeForRule_adds hadd
  exact hP.trans (Graph.addEdge_grows hedge)

theorem touch_grows {s : Serializer} {v w : Vertex} {isNew : Bool} {g g' : Graph}
    (h : (s.touch v isNew).run g = .ok (w, g')) : g.Grows g' := by
  obtain ⟨c, rfl, -⟩ := touch_run_inv h
  exact Graph.Grows.of_vertices rfl

theorem write_grows (s : Serializer) :
    ∀ parent o existing {g g' : Graph} {w : Vertex},
      (s.write parent o existing).run g = .ok (w, g') → g.Grows g' := by
  refine write.induct (fun parent o existing => ∀ {g g' : Graph} {w : Vertex},
      (s.write parent o existing).run g = .ok (w, g') → g.Grows g')
    (fun v cs => ∀ {g g' : Graph}, (s.writeChildren v cs).run g = .ok ((), g') → g.Grows g')
    ?_ ?_ ?_
  · intro parent existing nt props rv rels children ih g g' w h
    obtain ⟨t, -, v, isNew, g₁, htarget, v₁, g₂, hstore, working, v₂, -, g₃, hrel, g₄, hch, g₅,
      htouch, hup⟩ := write_run_inv h
    exact (target_grows htarget).trans <| (store_grows hstore).trans <|
      (reconcileListed_grows hrel).trans <|
      (ih v₂ hch).trans <| (touch_grows htouch).trans (Graph.updateVertex_grows hup)
  · intro p g g' h
    rw [writeChildren_nil_run] at h
    cases h
    exact Graph.Grows.refl g
  · intro p c cs ihc ihs g g' h
    obtain ⟨found, -, w, g₁, hw, hrest⟩ := writeChildren_cons_run_inv h
    exact (ihc found hw).trans (ihs hrest)

/-! ### Runs of writes -/

/-- The stores that successful writes of a serializer reach from an empty store. Each write is
    handed a live parent, if any, and what `allow` asks of the store, the parent and the vertex
    given to write onto. -/
inductive Reaches (s : Serializer) (allow : Graph → Option Vertex → Option Vertex → Prop) :
    Graph → Prop
  | start (c : Clock) : Reaches s allow (Graph.startingAt c)
  | write {g g' : Graph} {parent existing : Option Vertex} {o : SchemaObject} {w : Vertex} :
      Reaches s allow g → (∀ p ∈ parent, g.Live p.id) → allow g parent existing →
      (s.write parent o existing).run g = .ok (w, g') → Reaches s allow g'

end Serializer
end InventoryGraph
