import InventoryGraph.Proofs.Serializer.Forest
import InventoryGraph.Proofs.Rules.Multiplicity

/-!
Relationships of a written object. Reconciling resolves every listed reference in the store as it
stands, keeps the cousin edge already joining the vertex and each target under the rule's label,
removes every other cousin edge of the vertex, and then adds, once per target and label, the edge
the rule makes where none is left. So a write of an object without children leaves the vertex
with exactly one cousin edge per listed target and label and no other cousin edge, the added ones
oriented by their rules and carrying their flags, and every other edge as it was.

The store must be consistent: the edges of a vertex are read through the edge indexes.
-/
namespace InventoryGraph

theorem Outcome.mapM_eq_ok_forall {α β : Type} {f : α → Outcome β} :
    ∀ {l : List α} {l' : List β}, l.mapM f = .ok l' → ∀ x ∈ l, ∃ y ∈ l', f x = .ok y
  | [], _, _, x, hx => absurd hx List.not_mem_nil
  | a :: l, l', h, x, hx => by
    simp only [List.mapM_cons, Except.bind_eq_ok] at h
    obtain ⟨b, hb, bs, hbs, h⟩ := h
    cases h
    rcases List.mem_cons.mp hx with rfl | hx
    · exact ⟨b, List.mem_cons_self, hb⟩
    · obtain ⟨y, hy, hfy⟩ := Outcome.mapM_eq_ok_forall hbs x hx
      exact ⟨y, List.mem_cons_of_mem b hy, hfy⟩

namespace Edge

/-- A cousin edge with label `l` between the vertex of id `u` and the vertex of id `t`, in
    either direction. -/
def Joins (e : Edge) (u t : VertexId) (l : Identifier) : Prop :=
  e.edgeType = .cousin ∧ e.otherEnd? u = some t ∧ e.label = l

/-- The edge a rule makes between `v` and `t`: the rule's label, type and flags, the given
    properties, and its ends of the rule's out and in types. -/
def MadeBy (e : Edge) (r : Rule) (v t : Vertex) (m : PropertyMap) : Prop :=
  e.label = r.label ∧ e.edgeType = r.edgeType ∧ e.contains = r.contains ∧
    e.deleteOtherV = r.deleteOtherV ∧ e.preventDelete = r.preventDelete ∧ e.properties = m ∧
    ((e.outV = v.id ∧ e.inV = t.id ∧ v.nodeType = r.outType ∧ t.nodeType = r.inType) ∨
      (e.outV = t.id ∧ e.inV = v.id ∧ t.nodeType = r.outType ∧ v.nodeType = r.inType))

theorem touches_of_otherEnd? {e : Edge} {u t : VertexId} (h : e.otherEnd? u = some t) :
    e.touches u = true := by
  unfold otherEnd? at h
  unfold touches
  split at h
  · simp_all
  · split at h <;> simp_all

theorem Joins.touches {e : Edge} {u t : VertexId} {l : Identifier} (h : e.Joins u t l) :
    e.touches u = true :=
  touches_of_otherEnd? h.2.1

theorem Joins.unique {e : Edge} {u t t' : VertexId} {l l' : Identifier} (h : e.Joins u t l)
    (h' : e.Joins u t' l') : t = t' ∧ l = l' :=
  ⟨Option.some.inj (h.2.1.symm.trans h'.2.1), h.2.2.symm.trans h'.2.2⟩

theorem MadeBy.joins {e : Edge} {r : Rule} {v t : Vertex} {m : PropertyMap} (h : e.MadeBy r v t m)
    (hr : r.edgeType = .cousin) : e.Joins v.id t.id r.label := by
  obtain ⟨hl, ht, -, -, -, -, hends⟩ := h
  refine ⟨ht.trans hr, ?_, hl⟩
  unfold otherEnd?
  rcases hends with ⟨hout, hin, -⟩ | ⟨hout, hin, -⟩
  · simp [hout, hin]
  · -- a loop edge reads its other end as the vertex itself
    by_cases hvt : t.id = v.id <;> simp [hout, hin, hvt]

end Edge

namespace Graph

theorem eq_of_mem_edges {g : Graph} (hg : g.EdgeIndexed) {e f : Edge} (he : e ∈ g.edges)
    (hf : f ∈ g.edges) (hid : e.id = f.id) : e = f :=
  IdSet.eq_of_ids_eq hg.ascending he hf (by rw [hid])

theorem mem_edgesOf_both {g : Graph} (hg : g.EdgeIndexed) {u : VertexId} {e : Edge} :
    e ∈ g.edgesOf u .both ↔ e ∈ g.edges ∧ e.touches u = true := by
  rw [edgesOf_eq hg, List.mem_filter]
  rfl

theorem edgeBetween?_some {g : Graph} (hg : g.EdgeIndexed) {a b : Vertex} {l : Identifier}
    {e : Edge} (h : g.edgeBetween? .cousin a b (some l.text) = some e) :
    e ∈ g.edges ∧ e.Joins a.id b.id l := by
  unfold edgeBetween? at h
  have hmem := (mem_edgesOf_both hg).mp (List.mem_of_find?_eq_some h)
  have hp := List.find?_some h
  simp only [Bool.and_eq_true, beq_iff_eq] at hp
  exact ⟨hmem.1, hp.1.1, hp.1.2, Identifier.eq_of_text_eq hp.2⟩

theorem edgeBetween?_none {g : Graph} (hg : g.EdgeIndexed) {a b : Vertex} {l : Identifier}
    (h : g.edgeBetween? .cousin a b (some l.text) = none) : ∀ e ∈ g.edges, ¬ e.Joins a.id b.id l := by
  intro e he hj
  unfold edgeBetween? at h
  have hin : e ∈ g.edgesOf a.id .both := (mem_edgesOf_both hg).mpr ⟨he, hj.touches⟩
  have hnot := List.find?_eq_none.mp h e hin
  simp [hj.1, hj.2.1, hj.2.2] at hnot

/-- No two stored cousin edges join the vertex of id `u` to one target under one label. -/
def JoinsOnce (g : Graph) (u : VertexId) : Prop :=
  ∀ e ∈ g.edges, ∀ f ∈ g.edges, ∀ t l, e.Joins u t l → f.Joins u t l → e = f

theorem JoinsOnce.append {g g' : Graph} {u t : VertexId} {l : Identifier} {e : Edge}
    (h : g.JoinsOnce u) (hnew : ∀ f ∈ g.edges, ¬ f.Joins u t l) (he : e.Joins u t l)
    (hedges : g'.edges = g.edges ++ [e]) : g'.JoinsOnce u := by
  intro a ha b hb t' l' hja hjb
  rw [hedges, List.mem_append, List.mem_singleton] at ha hb
  rcases ha with ha | rfl <;> rcases hb with hb | rfl
  · exact h a ha b hb t' l' hja hjb
  · obtain ⟨rfl, rfl⟩ := he.unique hjb
    exact absurd hja (hnew a ha)
  · obtain ⟨rfl, rfl⟩ := he.unique hja
    exact absurd hjb (hnew b hb)
  · rfl

theorem edgeBetween?_congr (g : Graph) (t : EdgeType) (a : Vertex) {b b' : Vertex}
    (hb : b.id = b'.id) (l : Option String) : g.edgeBetween? t a b l = g.edgeBetween? t a b' l := by
  simp only [edgeBetween?, hb]

end Graph

namespace GraphM

theorem forIn_run_all {α β : Type} (P : Graph → Prop) (Q : α → Graph → Prop)
    (f : α → β → GraphM (ForInStep β)) :
    ∀ (xs : List α), (∀ x ∈ xs, ∀ b g r g', P g → (f x b).run g = .ok (r, g') → P g') →
      (∀ x ∈ xs, ∀ b g r g', P g → (f x b).run g = .ok (r, g') → Q x g' ∧ ∃ b', r = .yield b') →
      (∀ x ∈ xs, ∀ y ∈ xs, ∀ b g r g', P g → Q y g → (f x b).run g = .ok (r, g') → Q y g') →
      ∀ {b b' : β} {g g' : Graph}, P g → (forIn xs b f).run g = .ok (b', g') → ∀ x ∈ xs, Q x g'
  | [], _, _, _, _, _, _, _, _, _, _, hy => absurd hy List.not_mem_nil
  | x :: xs, hP, hQ, hkeep, _, _, _, _, hPg, h, y, hy => by
    rw [List.forIn_cons, run_bind_eq_ok] at h
    obtain ⟨step, g₁, hstep, h⟩ := h
    obtain ⟨hQx, b₁, rfl⟩ := hQ x List.mem_cons_self _ _ _ _ hPg hstep
    have hP₁ := hP x List.mem_cons_self _ _ _ _ hPg hstep
    have hsub : ∀ z ∈ xs, z ∈ x :: xs := fun z hz => List.mem_cons_of_mem x hz
    rcases List.mem_cons.mp hy with rfl | hy
    · -- the item just visited keeps its `Q` through the rest of the loop
      exact (forIn_run_preserves (fun g => P g ∧ Q y g) f xs
        (fun z hz b g r g' hPQ hz' => ⟨hP z (hsub z hz) b g r g' hPQ.1 hz',
          hkeep z (hsub z hz) y List.mem_cons_self b g r g' hPQ.1 hPQ.2 hz'⟩) ⟨hP₁, hQx⟩ h).2
    · exact forIn_run_all P Q f xs (fun z hz => hP z (hsub z hz)) (fun z hz => hQ z (hsub z hz))
        (fun z hz w hw => hkeep z (hsub z hz) w (hsub w hw)) hP₁ h y hy

end GraphM

namespace Scope

theorem cousinRule_congr (sc : Scope) {a a' : Vertex} (h : a.nodeType = a'.nodeType) (b : Vertex)
    (l : Option String) : sc.cousinRule a b l = sc.cousinRule a' b l := by
  unfold cousinRule
  rw [h]

theorem addEdgeForRule_made {r : Rule} {a b : Vertex} {m : PropertyMap} {g g' : Graph} {e : Edge}
    (hj : r.joins a.nodeType.text b.nodeType.text = true)
    (h : (addEdgeForRule r a b m).run g = .ok (e, g')) :
    (∃ e₀, g.addEdge e₀ = .ok (e, g')) ∧ e.MadeBy r a b m := by
  obtain ⟨out, inn, hends, hout, hin, hcreate⟩ := Graph.addEdgeForRule_creates hj h
  rw [createEdge, GraphM.run_get_bind_eq_ok] at hcreate
  split at hcreate
  · exact absurd hcreate GraphM.run_fail_ne_ok
  · rw [GraphM.run_bind_eq_ok] at hcreate
    obtain ⟨⟨⟩, g₁, hchk, hadd⟩ := hcreate
    obtain ⟨-, rfl⟩ := GraphM.run_lift_eq_ok.mp hchk
    rw [GraphM.run_addEdge, Except.mapError_eq_ok] at hadd
    refine ⟨⟨_, hadd⟩, ?_⟩
    obtain ⟨-, -, rfl, -⟩ := Graph.addEdge_eq hadd
    refine ⟨rfl, rfl, rfl, rfl, rfl, rfl, ?_⟩
    rcases hends with ⟨rfl, rfl⟩ | ⟨rfl, rfl⟩
    · exact .inl ⟨rfl, rfl, hout, hin⟩
    · exact .inr ⟨rfl, rfl, hout, hin⟩

end Scope

namespace Serializer

/-- A pass of the first loop of reconciling: it goes on, and removes the visited edge when it
    is a cousin edge whose id is not kept. -/
def DropsUnkept (keep : List EdgeId) (f : Edge → PUnit → GraphM (ForInStep PUnit)) : Prop :=
  ∀ e b g₁ r g₁', (f e b).run g₁ = .ok (r, g₁') → r = .yield PUnit.unit ∧
    g₁' = if e.edgeType = .cousin ∧ e.id ∉ keep then (g₁.removeEdge e.id).2 else g₁

/-- A pass of the second loop of reconciling, over a reference with its target, rule and the
    edge found for it: it goes on, and leaves the store as it is when an edge was found or one
    now joins `v` to the target under the rule's label, and otherwise adds the rule's edge. -/
def AddsMissing (v : Vertex)
    (f : RelationshipRef × Vertex × Rule × Option Edge → PUnit → GraphM (ForInStep PUnit)) :
    Prop :=
  ∀ x b g₁ r g₁', (f x b).run g₁ = .ok (r, g₁') → r = .yield PUnit.unit ∧
    ((g₁' = g₁ ∧ (x.2.2.2.isSome ∨
        (g₁.edgeBetween? .cousin v x.2.1 (some x.2.2.1.label.text)).isSome)) ∨
      (g₁.edgeBetween? .cousin v x.2.1 (some x.2.2.1.label.text) = none ∧
        ∃ e, (Scope.addEdgeForRule x.2.2.1 v x.2.1 x.1.metadata).run g₁ = .ok (e, g₁')))

section Passes

variable {v : Vertex} {g g' : Graph}

theorem DropsUnkept.mem_edges {keep : List EdgeId} {f : Edge → PUnit → GraphM (ForInStep PUnit)}
    (hf : DropsUnkept keep f) {e : Edge} {b : PUnit} {g₁ g₁' : Graph} {r : ForInStep PUnit}
    (hrun : (f e b).run g₁ = .ok (r, g₁')) (x : Edge) :
    x ∈ g₁'.edges ↔ x ∈ g₁.edges ∧ ¬ ((e.edgeType = .cousin ∧ e.id ∉ keep) ∧ x.id = e.id) := by
  rw [(hf e b g₁ r g₁' hrun).2]
  split
  · next hdrop => simp [Graph.removeEdge_edges, hdrop]
  · next hkeep => simp [hkeep]

theorem DropsUnkept.consistent {keep : List EdgeId} {f : Edge → PUnit → GraphM (ForInStep PUnit)}
    (hf : DropsUnkept keep f) {e : Edge} {b : PUnit} {g₁ g₁' : Graph} {r : ForInStep PUnit}
    (hrun : (f e b).run g₁ = .ok (r, g₁')) (hc : g₁.Consistent) : g₁'.Consistent := by
  rw [(hf e b g₁ r g₁' hrun).2]
  split
  · exact Graph.removeEdge_consistent hc e.id
  · exact hc

theorem removePass_edges {keep : List EdgeId} {f : Edge → PUnit → GraphM (ForInStep PUnit)}
    (hc : g.Consistent) (hf : DropsUnkept keep f)
    (h : (forIn (g.edgesOf v.id .both) PUnit.unit f).run g = .ok (PUnit.unit, g')) :
    g'.Consistent ∧ ∀ e, e ∈ g'.edges ↔
      e ∈ g.edges ∧ ¬ (e.edgeType = .cousin ∧ e.touches v.id = true ∧ e.id ∉ keep) := by
  -- the store only shrinks, and an edge leaves it only when the pass visits and drops it
  let P : Graph → Prop := fun g₁ => g₁.Consistent ∧ (∀ e ∈ g₁.edges, e ∈ g.edges) ∧
    ∀ e ∈ g.edges, ¬ (e.edgeType = .cousin ∧ e.touches v.id = true ∧ e.id ∉ keep) → e ∈ g₁.edges
  let Q : Edge → Graph → Prop := fun e g₁ =>
    e.edgeType = .cousin ∧ e.id ∉ keep → ∀ x ∈ g₁.edges, x.id ≠ e.id
  have hP : ∀ e ∈ g.edgesOf v.id .both, ∀ b g₁ r g₁', P g₁ → (f e b).run g₁ = .ok (r, g₁') →
      P g₁' := by
    intro e he b g₁ r g₁' ⟨hc₁, hsub, hkeep⟩ hrun
    have he' := (Graph.mem_edgesOf_both hc.edgeIndexed).mp he
    refine ⟨hf.consistent hrun hc₁, fun x hx => hsub x ((hf.mem_edges hrun x).mp hx).1,
      fun x hx hx' => (hf.mem_edges hrun x).mpr ⟨hkeep x hx hx', fun ⟨hdrop, hid⟩ => ?_⟩⟩
    exact hx' (Graph.eq_of_mem_edges hc.edgeIndexed hx he'.1 hid ▸ ⟨hdrop.1, he'.2, hdrop.2⟩)
  have hQ : ∀ e ∈ g.edgesOf v.id .both, ∀ b g₁ r g₁', P g₁ → (f e b).run g₁ = .ok (r, g₁') →
      Q e g₁' ∧ ∃ b', r = .yield b' := fun e _ b g₁ r g₁' _ hrun =>
    ⟨fun hdrop x hx hid => ((hf.mem_edges hrun x).mp hx).2 ⟨hdrop, hid⟩, _,
      (hf e b g₁ r g₁' hrun).1⟩
  have hP₀ : P g := ⟨hc, fun _ h => h, fun _ h _ => h⟩
  have hend := GraphM.forIn_run_all P Q f _ hP hQ
    (fun e _ _ _ b g₁ r g₁' _ hy hrun hdrop x hx => hy hdrop x ((hf.mem_edges hrun x).mp hx).1)
    hP₀ h
  obtain ⟨hc', hsub, hkeep⟩ := GraphM.forIn_run_preserves P f _ hP hP₀ h
  refine ⟨hc', fun e => ⟨fun he => ⟨hsub e he, fun hdrop => ?_⟩, fun ⟨he, hk⟩ => hkeep e he hk⟩⟩
  have hin : e ∈ g.edgesOf v.id .both :=
    (Graph.mem_edgesOf_both hc.edgeIndexed).mpr ⟨hsub e he, hdrop.2.1⟩
  exact hend e hin ⟨hdrop.1, hdrop.2.2⟩ e he rfl

theorem addPass_edges {xs : List (RelationshipRef × Vertex × Rule × Option Edge)}
    {f : RelationshipRef × Vertex × Rule × Option Edge → PUnit → GraphM (ForInStep PUnit)}
    (hc : g.Consistent) (honce : g.JoinsOnce v.id)
    (hjoin : ∀ x ∈ xs, x.2.2.1.joins v.nodeType.text x.2.1.nodeType.text = true ∧
      x.2.2.1.edgeType = .cousin)
    (hfound : ∀ x ∈ xs, ∀ e, x.2.2.2 = some e → e ∈ g.edges ∧ e.Joins v.id x.2.1.id x.2.2.1.label)
    (hf : AddsMissing v f) (h : (forIn xs PUnit.unit f).run g = .ok (PUnit.unit, g')) :
    g'.Consistent ∧ g'.JoinsOnce v.id ∧ (∀ e ∈ g.edges, e ∈ g'.edges) ∧
      (∀ e ∈ g'.edges, e ∈ g.edges ∨ ∃ x ∈ xs, e.MadeBy x.2.2.1 v x.2.1 x.1.metadata) ∧
      ∀ x ∈ xs, ∃ e ∈ g'.edges, e.Joins v.id x.2.1.id x.2.2.1.label := by
  let P : Graph → Prop := fun g₁ => g₁.Consistent ∧ g₁.JoinsOnce v.id ∧
    (∀ e ∈ g.edges, e ∈ g₁.edges) ∧
    ∀ e ∈ g₁.edges, e ∈ g.edges ∨ ∃ x ∈ xs, e.MadeBy x.2.2.1 v x.2.1 x.1.metadata
  let Q : RelationshipRef × Vertex × Rule × Option Edge → Graph → Prop := fun x g₁ =>
    ∃ e ∈ g₁.edges, e.Joins v.id x.2.1.id x.2.2.1.label
  have hstep : ∀ x ∈ xs, ∀ b g₁ r g₁', P g₁ → (f x b).run g₁ = .ok (r, g₁') →
      P g₁' ∧ Q x g₁' ∧ (∀ e ∈ g₁.edges, e ∈ g₁'.edges) := by
    intro x hx b g₁ r g₁' hP hrun
    obtain ⟨hc₁, honce₁, hsup, hmade⟩ := hP
    rcases (hf x b g₁ r g₁' hrun).2 with ⟨rfl, hskip⟩ | ⟨hnone, e, hadd⟩
    · refine ⟨⟨hc₁, honce₁, hsup, hmade⟩, ?_, fun _ he => he⟩
      rcases hskip with hsome | hsome
      · obtain ⟨e, he⟩ := Option.isSome_iff_exists.mp hsome
        obtain ⟨hmem, hj⟩ := hfound x hx e he
        exact ⟨e, hsup e hmem, hj⟩
      · obtain ⟨e, he⟩ := Option.isSome_iff_exists.mp hsome
        exact ⟨e, Graph.edgeBetween?_some hc₁.edgeIndexed he⟩
    · obtain ⟨⟨e₀, hedge⟩, hby⟩ := Scope.addEdgeForRule_made (hjoin x hx).1 hadd
      have hedges := (Graph.addEdge_edges hedge).1
      have hj := hby.joins (hjoin x hx).2
      have hgrow : ∀ e' ∈ g₁.edges, e' ∈ g₁'.edges := fun e' he' => by
        rw [hedges]
        exact List.mem_append_left _ he'
      refine ⟨⟨Graph.addEdge_consistent hc₁ hedge,
        honce₁.append (Graph.edgeBetween?_none hc₁.edgeIndexed hnone) hj hedges,
        fun e' he' => hgrow e' (hsup e' he'), fun e' he' => ?_⟩,
        ⟨e, by rw [hedges]; exact List.mem_append_right _ (List.mem_singleton_self e), hj⟩, hgrow⟩
      rw [hedges, List.mem_append, List.mem_singleton] at he'
      rcases he' with he' | rfl
      · exact hmade e' he'
      · exact .inr ⟨x, hx, hby⟩
  have hP₀ : P g := ⟨hc, honce, fun _ h => h, fun _ h => .inl h⟩
  have hall := GraphM.forIn_run_all P Q f xs (fun x hx b g₁ r g₁' hP hrun =>
      (hstep x hx b g₁ r g₁' hP hrun).1)
    (fun x hx b g₁ r g₁' hP hrun =>
      ⟨(hstep x hx b g₁ r g₁' hP hrun).2.1, _, (hf x b g₁ r g₁' hrun).1⟩)
    (fun x hx _ _ b g₁ r g₁' hP ⟨e, he, hj⟩ hrun =>
      ⟨e, (hstep x hx b g₁ r g₁' hP hrun).2.2 e he, hj⟩) hP₀ h
  obtain ⟨hc', honce', hsup, hmade⟩ := GraphM.forIn_run_preserves P f xs
    (fun x hx b g₁ r g₁' hP hrun => (hstep x hx b g₁ r g₁' hP hrun).1) hP₀ h
  exact ⟨hc', honce', hsup, hmade, hall⟩

end Passes

/-! ### Resolving the references -/

/-- The reference resolves, in store `g` and from vertex `v`, to the target `t` under the
    cousin rule `rule`. -/
def Resolves (s : Serializer) (g : Graph) (v : Vertex) (r : RelationshipRef) (t : Vertex)
    (rule : Rule) : Prop :=
  s.locateTarget g r = .ok t ∧ s.scope.cousinRule v t r.label = .ok rule

/-- A reference of the list resolves to a target of id `t` under a rule labelled `l`: the
    pairs of target and label the list names. -/
def Names (s : Serializer) (g : Graph) (v : Vertex) (rels : List RelationshipRef) (t : VertexId)
    (l : Identifier) : Prop :=
  ∃ r ∈ rels, ∃ tv rule, s.Resolves g v r tv rule ∧ tv.id = t ∧ rule.label = l

theorem Resolves.unique {s : Serializer} {g : Graph} {v : Vertex} {r : RelationshipRef}
    {t t' : Vertex} {rule rule' : Rule} (h : s.Resolves g v r t rule)
    (h' : s.Resolves g v r t' rule') : t = t' ∧ rule = rule' := by
  obtain rfl := Except.ok.inj (h.1.symm.trans h'.1)
  exact ⟨rfl, Except.ok.inj (h.2.symm.trans h'.2)⟩

/-- What reconciling the references `rels` of `v` in store `g` leaves in store `g'`. Every
    reference resolves. Each pair of target and label they name has exactly one cousin edge
    joining `v` to the target under the label, and no other cousin edge touches `v`. A new edge
    is the one the rule of a reference makes, and every other edge is as it was. -/
structure Reconciled (s : Serializer) (g : Graph) (v : Vertex) (rels : List RelationshipRef)
    (g' : Graph) : Prop where
  resolves : ∀ r ∈ rels, ∃ t rule, s.Resolves g v r t rule
  named_joined : ∀ t l, s.Names g v rels t l → ∃ e ∈ g'.edges, e.Joins v.id t l
  once : g'.JoinsOnce v.id
  joined_named : ∀ e ∈ g'.edges, e.edgeType = .cousin → e.touches v.id = true →
    ∃ t, e.otherEnd? v.id = some t ∧ s.Names g v rels t e.label
  made : ∀ e ∈ g'.edges, e ∉ g.edges →
    ∃ r ∈ rels, ∃ t rule, s.Resolves g v r t rule ∧ e.MadeBy rule v t r.metadata
  frame : ∀ e, ¬ (e.edgeType = .cousin ∧ e.touches v.id = true) → (e ∈ g'.edges ↔ e ∈ g.edges)


theorem resolve_eq_ok {s : Serializer} {g : Graph} {v : Vertex} {r : RelationshipRef}
    {x : RelationshipRef × Vertex × Rule × Option Edge}
    (h : (do
        let target ← s.locateTarget g r
        let rule ← s.scope.cousinRule v target r.label
        pure (r, target, rule, g.edgeBetween? .cousin v target (some rule.label.text)) :
        Outcome _) = .ok x) :
    x.1 = r ∧ s.Resolves g v r x.2.1 x.2.2.1 ∧
      x.2.2.2 = g.edgeBetween? .cousin v x.2.1 (some x.2.2.1.label.text) := by
  simp only [Except.bind_eq_ok] at h
  obtain ⟨target, hloc, rule, hrule, hx⟩ := h
  cases hx
  exact ⟨rfl, ⟨hloc, hrule⟩, rfl⟩

theorem reconcile_run_inv {s : Serializer} {v : Vertex} {rels : List RelationshipRef}
    {g g' : Graph} (h : (s.reconcile v rels).run g = .ok ((), g')) :
    ∃ resolved : List (RelationshipRef × Vertex × Rule × Option Edge),
      (∀ x ∈ resolved, x.1 ∈ rels ∧ s.Resolves g v x.1 x.2.1 x.2.2.1 ∧
        x.2.2.2 = g.edgeBetween? .cousin v x.2.1 (some x.2.2.1.label.text)) ∧
      (∀ r ∈ rels, ∃ x ∈ resolved, x.1 = r ∧ s.Resolves g v r x.2.1 x.2.2.1) ∧
      ∃ f₁ g₁, DropsUnkept (resolved.filterMap fun x => x.2.2.2.map (·.id)) f₁ ∧
        (forIn (g.edgesOf v.id .both) PUnit.unit f₁).run g = .ok (PUnit.unit, g₁) ∧
      ∃ f₂, AddsMissing v f₂ ∧ (forIn resolved PUnit.unit f₂).run g₁ = .ok (PUnit.unit, g') := by
  rw [reconcile, GraphM.run_get_bind_eq_ok, GraphM.run_bind_eq_ok] at h
  obtain ⟨resolved, g₀, hres, h⟩ := h
  rw [GraphM.run_lift_eq_ok] at hres
  obtain ⟨hres, rfl⟩ := hres
  dsimp only at h
  rw [GraphM.run_bind_eq_ok] at h
  obtain ⟨⟨⟩, g₁, hremove, h⟩ := h
  rw [GraphM.run_bind_eq_ok] at h
  obtain ⟨⟨⟩, g₂, hadd, h⟩ := h
  obtain ⟨-, rfl⟩ := GraphM.run_pure_eq_ok.mp h
  refine ⟨resolved, fun x hx => ?_, fun r hr => ?_, _, g₁, fun e b g₃ r g₃' hrun => ?_, hremove,
    _, fun x b g₃ r g₃' hrun => ?_, hadd⟩
  · obtain ⟨r, hr, hrx⟩ := Outcome.mapM_eq_ok_mem hres x hx
    obtain ⟨rfl, hresolves, hfound⟩ := resolve_eq_ok hrx
    exact ⟨hr, hresolves, hfound⟩
  · obtain ⟨x, hx, hrx⟩ := Outcome.mapM_eq_ok_forall hres r hr
    obtain ⟨rfl, hresolves, -⟩ := resolve_eq_ok hrx
    exact ⟨x, hx, rfl, hresolves⟩
  · split at hrun
    · next hcond =>
      rw [GraphM.run_bind_eq_ok, GraphM.run_removeEdge] at hrun
      obtain ⟨_, g₄, hrm, hrun⟩ := hrun
      obtain ⟨rfl, rfl⟩ := GraphM.run_pure_eq_ok.mp hrun
      have hdrop : e.edgeType = .cousin ∧ e.id ∉ resolved.filterMap fun x => x.2.2.2.map (·.id) := by
        simpa using hcond
      exact ⟨rfl, by rw [if_pos hdrop]; exact (congrArg Prod.snd (Except.ok.inj hrm)).symm⟩
    · next hcond =>
      obtain ⟨rfl, rfl⟩ := GraphM.run_pure_eq_ok.mp hrun
      have hkeep : ¬ (e.edgeType = .cousin ∧
          e.id ∉ resolved.filterMap fun x => x.2.2.2.map (·.id)) := by
        simpa using hcond
      exact ⟨rfl, by rw [if_neg hkeep]⟩
  · obtain ⟨rel, target, rule, found⟩ := x
    dsimp only at hrun ⊢
    split at hrun
    · next hnone =>
      rw [GraphM.run_get_bind_eq_ok] at hrun
      split at hrun
      · next hfree =>
        rw [GraphM.run_bind_eq_ok] at hrun
        obtain ⟨e, g₄, hedge, hrun⟩ := hrun
        obtain ⟨rfl, rfl⟩ := GraphM.run_pure_eq_ok.mp hrun
        exact ⟨rfl, .inr ⟨Option.isNone_iff_eq_none.mp hfree, e, hedge⟩⟩
      · next hfound =>
        obtain ⟨rfl, rfl⟩ := GraphM.run_pure_eq_ok.mp hrun
        exact ⟨rfl, .inl ⟨rfl, .inr (Option.ne_none_iff_isSome.mp (by simpa using hfound))⟩⟩
    · next hsome =>
      obtain ⟨rfl, rfl⟩ := GraphM.run_pure_eq_ok.mp hrun
      exact ⟨rfl, .inl ⟨rfl, .inl (Option.ne_none_iff_isSome.mp (by simpa using hsome))⟩⟩

section Kept

/-! The first pass keeps, among the cousin edges of `v`, exactly the edges found for the
resolved references: the edge found for a reference joins `v` to its target under its rule's
label, so the kept edges join `v` once per target and label. -/

variable {v : Vertex} {g g₁ : Graph} {resolved : List (RelationshipRef × Vertex × Rule × Option Edge)}
  (hc : g.Consistent)
  (hfound : ∀ x ∈ resolved, x.2.2.2 = g.edgeBetween? .cousin v x.2.1 (some x.2.2.1.label.text))
  (hmem : ∀ e, e ∈ g₁.edges ↔ e ∈ g.edges ∧
    ¬ (e.edgeType = .cousin ∧ e.touches v.id = true ∧
      e.id ∉ resolved.filterMap fun x => x.2.2.2.map (·.id)))
include hc hfound hmem

theorem found_kept {x : RelationshipRef × Vertex × Rule × Option Edge} (hx : x ∈ resolved)
    {e : Edge} (he : x.2.2.2 = some e) : e ∈ g₁.edges ∧ e.Joins v.id x.2.1.id x.2.2.1.label := by
  obtain ⟨hmem', hj⟩ := Graph.edgeBetween?_some hc.edgeIndexed ((hfound x hx).symm.trans he)
  refine ⟨(hmem e).mpr ⟨hmem', fun hdrop => hdrop.2.2 ?_⟩, hj⟩
  exact List.mem_filterMap.mpr ⟨x, hx, by rw [he]; rfl⟩

theorem kept_found {e : Edge} (he : e ∈ g₁.edges) (hcous : e.edgeType = .cousin)
    (htouch : e.touches v.id = true) : ∃ x ∈ resolved, x.2.2.2 = some e := by
  obtain ⟨he, hkept⟩ := (hmem e).mp he
  have hin : e.id ∈ resolved.filterMap fun x => x.2.2.2.map (·.id) :=
    Classical.byContradiction fun hout => hkept ⟨hcous, htouch, hout⟩
  obtain ⟨x, hx, hmap⟩ := List.mem_filterMap.mp hin
  obtain ⟨e', he', hid⟩ := Option.map_eq_some_iff.mp hmap
  have hmem' := (Graph.edgeBetween?_some hc.edgeIndexed ((hfound x hx).symm.trans he')).1
  exact ⟨x, hx, he'.trans (congrArg some (Graph.eq_of_mem_edges hc.edgeIndexed hmem' he hid))⟩

theorem joinsOnce_kept : g₁.JoinsOnce v.id := by
  intro a ha b hb t l hja hjb
  obtain ⟨x, hx, hxa⟩ := kept_found hc hfound hmem ha hja.1 hja.touches
  obtain ⟨y, hy, hyb⟩ := kept_found hc hfound hmem hb hjb.1 hjb.touches
  rw [hfound x hx] at hxa
  rw [hfound y hy] at hyb
  obtain ⟨ht, hl⟩ := hja.unique (Graph.edgeBetween?_some hc.edgeIndexed hxa).2
  obtain ⟨ht', hl'⟩ := hjb.unique (Graph.edgeBetween?_some hc.edgeIndexed hyb).2
  have hsame : g.edgeBetween? .cousin v x.2.1 (some x.2.2.1.label.text) =
      g.edgeBetween? .cousin v y.2.1 (some y.2.2.1.label.text) := by
    rw [← hl, ← hl', Graph.edgeBetween?_congr g .cousin v (ht.symm.trans ht')]
  exact Option.some.inj (hxa.symm.trans (hsame.trans hyb))

end Kept

theorem reconcile_reconciled {s : Serializer} {v : Vertex} {rels : List RelationshipRef}
    {g g' : Graph} (hc : g.Consistent) (h : (s.reconcile v rels).run g = .ok ((), g')) :
    g'.Consistent ∧ s.Reconciled g v rels g' := by
  obtain ⟨resolved, hentry, hcover, f₁, g₁, hf₁, hdrop, f₂, hf₂, hadd⟩ := reconcile_run_inv h
  have hfound : ∀ x ∈ resolved,
      x.2.2.2 = g.edgeBetween? .cousin v x.2.1 (some x.2.2.1.label.text) :=
    fun x hx => (hentry x hx).2.2
  obtain ⟨hc₁, hmem⟩ := removePass_edges hc hf₁ hdrop
  have hjoin : ∀ x ∈ resolved, x.2.2.1.joins v.nodeType.text x.2.1.nodeType.text = true ∧
      x.2.2.1.edgeType = .cousin := fun x hx =>
    ⟨(Graph.cousinRule_spec (hentry x hx).2.1.2).2, cousinRule_edgeType (hentry x hx).2.1.2⟩
  obtain ⟨hc', honce, hsup, hmade, hall⟩ := addPass_edges hc₁ (joinsOnce_kept hc hfound hmem)
    hjoin (fun x hx e he => found_kept hc hfound hmem hx he) hf₂ hadd
  have hnames : ∀ x ∈ resolved, ∀ e : Edge, e.Joins v.id x.2.1.id x.2.2.1.label →
      ∃ t, e.otherEnd? v.id = some t ∧ s.Names g v rels t e.label := fun x hx e hj =>
    ⟨x.2.1.id, hj.2.1, x.1, (hentry x hx).1, x.2.1, x.2.2.1, (hentry x hx).2.1, rfl, hj.2.2.symm⟩
  refine ⟨hc', ⟨fun r hr => ?_, fun t l hnamed => ?_, honce, fun e he hcous htouch => ?_,
    fun e he hnew => ?_, fun e hother => ⟨fun he => ?_, fun he => ?_⟩⟩⟩
  · obtain ⟨x, -, -, hres⟩ := hcover r hr
    exact ⟨_, _, hres⟩
  · obtain ⟨r, hr, tv, rule, hres, rfl, rfl⟩ := hnamed
    obtain ⟨x, hx, -, hres'⟩ := hcover r hr
    obtain ⟨rfl, rfl⟩ := hres'.unique hres
    exact hall x hx
  · rcases hmade e he with he₁ | ⟨x, hx, hby⟩
    · obtain ⟨x, hx, hxe⟩ := kept_found hc hfound hmem he₁ hcous htouch
      exact hnames x hx e (found_kept hc hfound hmem hx hxe).2
    · exact hnames x hx e (hby.joins (hjoin x hx).2)
  · rcases hmade e he with he₁ | ⟨x, hx, hby⟩
    · exact absurd ((hmem e).mp he₁).1 hnew
    · exact ⟨x.1, (hentry x hx).1, x.2.1, x.2.2.1, (hentry x hx).2.1, hby⟩
  · rcases hmade e he with he₁ | ⟨x, hx, hby⟩
    · exact ((hmem e).mp he₁).1
    · have hj := hby.joins (hjoin x hx).2
      exact absurd ⟨hj.1, hj.touches⟩ hother
  · exact hsup e ((hmem e).mpr ⟨he, fun hdrop => hother ⟨hdrop.1, hdrop.2.1⟩⟩)

theorem Reconciled.congr {s : Serializer} {g g' : Graph} {rels : List RelationshipRef}
    {v w : Vertex} (hid : w.id = v.id) (hnt : w.nodeType = v.nodeType)
    (h : s.Reconciled g v rels g') : s.Reconciled g w rels g' := by
  have hres : ∀ r t rule, s.Resolves g w r t rule ↔ s.Resolves g v r t rule := fun r t rule => by
    rw [Resolves, Resolves, s.scope.cousinRule_congr hnt]
  have hnames : s.Names g w rels = s.Names g v rels := by
    funext t l
    simp only [Names, hres]
  have hmade : ∀ (e : Edge) rule t m, e.MadeBy rule w t m ↔ e.MadeBy rule v t m := by
    intro e rule t m
    rw [Edge.MadeBy, Edge.MadeBy, hid, hnt]
  obtain ⟨hresolves, hjoined, honce, hnamed, hby, hframe⟩ := h
  refine ⟨fun r hr => ?_, fun t l hn => ?_, hid ▸ honce, fun e he hcous ht => ?_,
    fun e he hnew => ?_, fun e he => ?_⟩
  · obtain ⟨t, rule, hr'⟩ := hresolves r hr
    exact ⟨t, rule, (hres r t rule).mpr hr'⟩
  · rw [hid]
    exact hjoined t l (hnames ▸ hn)
  · rw [hid] at ht ⊢
    rw [hnames]
    exact hnamed e he hcous ht
  · obtain ⟨r, hr, t, rule, hr', hm⟩ := hby e he hnew
    exact ⟨r, hr, t, rule, (hres r t rule).mpr hr', (hmade e rule t _).mpr hm⟩
  · rw [hid] at he
    exact hframe e he

theorem Reconciled.of_edges {s : Serializer} {g g' g'' : Graph} {v : Vertex}
    {rels : List RelationshipRef} (he : g''.edges = g'.edges) (h : s.Reconciled g v rels g') :
    s.Reconciled g v rels g'' := by
  obtain ⟨hresolves, hjoined, honce, hnamed, hby, hframe⟩ := h
  exact ⟨hresolves, he ▸ hjoined, fun a ha b hb => honce a (he ▸ ha) b (he ▸ hb), he ▸ hnamed,
    he ▸ hby, he ▸ hframe⟩

/-! ### Writing an object without children -/

theorem prepare_root_edges {s : Serializer} {o working : SchemaObject} {existing : Option Vertex}
    {v : Vertex} {isNew : Bool} {g g' : Graph} (hc : g.Consistent)
    (h : (s.prepare none o existing).run g = .ok ((working, v, isNew), g')) :
    g'.Consistent ∧ g'.edges = g.edges := by
  obtain ⟨t, -, v₀, g₁, htarget, v₁, hstore, -⟩ := prepare_run_inv h
  have h₁ : g₁.Consistent ∧ g₁.edges = g.edges := by
    rcases target_run_inv htarget with ⟨-, -, -, -, -, rfl⟩ | ⟨-, -, hadd, -⟩
    · exact ⟨hc, rfl⟩
    · have hg₁ : (g.addVertex o.nodeType).2 = g₁ := congrArg Prod.snd hadd
      exact hg₁ ▸ ⟨Graph.addVertex_consistent hc o.nodeType, rfl⟩
  let P : Graph → Prop := fun g' => g'.Consistent ∧ g'.edges = g.edges
  have hup : ∀ {g₃ g₄ : Graph} {w : Vertex}, P g₃ → g₃.updateVertex w = .ok g₄ → P g₄ :=
    fun hP hup => ⟨Graph.updateVertex_consistent hP.1 hup, (Graph.updateVertex_edges hup).trans hP.2⟩
  obtain ⟨g₂, hup₂, added, g₃, hplace, hrefresh, -, -⟩ := store_run_inv hstore
  obtain ⟨-, rfl⟩ := GraphM.run_pure_eq_ok.mp hplace
  rcases hrefresh with rfl | ⟨u, hr⟩
  · exact hup h₁ hup₂
  · exact Scope.refreshUri_preserves P (fun hP hup' _ _ _ => hup hP hup') (hup h₁ hup₂) hr

theorem prepare_relationships {s : Serializer} {parent existing : Option Vertex}
    {o working : SchemaObject} {v : Vertex} {isNew : Bool} {g g' : Graph}
    (h : (s.prepare parent o existing).run g = .ok ((working, v, isNew), g')) :
    working.relationships = o.relationships := by
  obtain ⟨t, -, v₀, g₁, -, v₁, -, hse⟩ := prepare_run_inv h
  exact (runSideEffects_keeps hse).2.2.2.2.1

/-- Writing an object without children and without a parent, into a consistent store, makes
    the cousin edges of the written vertex exactly those its relationships name: the references
    resolve in the store as preparing leaves it, with the edges it had, and each pair of target
    and label they name has one cousin edge, no other cousin edge touches the vertex, and each
    new edge is the one its reference's rule makes. Every other edge is kept, and an object that
    lists no relationships keeps every edge. -/
theorem write_relationships_exact {s : Serializer} {o : SchemaObject} {existing : Option Vertex}
    {g g' : Graph} {w : Vertex} (hc : g.Consistent) (hleaf : o.children = [])
    (h : (s.write none o existing).run g = .ok (w, g')) :
    ∃ working v isNew g₂, (s.prepare none o existing).run g = .ok ((working, v, isNew), g₂) ∧
      g₂.edges = g.edges ∧
      (∀ e, ¬ (e.edgeType = .cousin ∧ e.touches w.id = true) → (e ∈ g'.edges ↔ e ∈ g.edges)) ∧
      (o.relationships = none → g'.edges = g.edges) ∧
      ∀ L, o.relationships = some L → s.Reconciled g₂ w L g' := by
  obtain ⟨working, v, isNew, g₂, hprep, g₃, hrec, g₄, hch, g₅, htouch, hup⟩ :=
    write_prepare_run_inv h
  rw [hleaf, writeChildren_nil_run] at hch
  obtain rfl : g₃ = g₄ := congrArg Prod.snd (Except.ok.inj hch)
  obtain ⟨c, rfl, -, hid, hnt, -⟩ := touch_run_inv htouch
  have hlast : g'.edges = g₃.edges := (Graph.updateVertex_edges hup).trans rfl
  obtain ⟨hc₂, hedges₂⟩ := prepare_root_edges hc hprep
  refine ⟨working, v, isNew, g₂, hprep, hedges₂, ?_⟩
  rw [← prepare_relationships hprep]
  cases hr : working.relationships with
  | none =>
    rw [hr] at hrec
    obtain ⟨-, rfl⟩ := GraphM.run_pure_eq_ok.mp hrec
    exact ⟨fun e _ => by rw [hlast, hedges₂], fun _ => hlast.trans hedges₂, fun L hL => nomatch hL⟩
  | some L =>
    rw [hr] at hrec
    have hrc : s.Reconciled g₂ w L g' :=
      (((reconcile_reconciled hc₂ hrec).2).of_edges hlast).congr hid hnt
    refine ⟨fun e he => ?_, fun h => (nomatch h), fun L' hL' => ?_⟩
    · rw [← hedges₂]
      exact hrc.frame e he
    · cases hL'
      exact hrc

/-! ### Repointing a relationship

An item stored in one bin is written again naming another. Its rule lets an item be in one bin
only; the old edge goes before the new one is added, so the write succeeds. -/

namespace RepointedItem

def bin : Identifier := ⟨"bin", by decide⟩
def item : Identifier := ⟨"item", by decide⟩
def code : Identifier := ⟨"code", by decide⟩
def sku : Identifier := ⟨"sku", by decide⟩

def storedIn : Rule :=
  { Rule.new item bin ⟨"stored_in", by decide⟩ SchemaVersion.v12 with multiplicity := .manyToOne }

def serializer : Serializer where
  scope := ⟨⟨[(NodeType.new bin SchemaVersion.v12).withKey code,
    (NodeType.new item SchemaVersion.v12).withKey sku], [storedIn]⟩, SchemaVersion.v12⟩
  config := {}
  sourceOfTruth := "warehouse"

def binCoded (c : String) : SchemaObject := (SchemaObject.new bin).withProperty "code" (.str c)

def binAt (c : String) : RelationshipRef := (RelationshipRef.new bin).withLink ("/bin/" ++ c)

def itemIn (c : String) : SchemaObject :=
  ((SchemaObject.new item).withProperty "sku" (.str "w1")).withRelationship (binAt c)

def placeholder : Vertex := Vertex.new ⟨0⟩ item 0

def binA : Vertex × Graph :=
  ((serializer.write none (binCoded "a") none).run (Graph.startingAt (.steady 0 ""))).toOption.getD
    (placeholder, Graph.startingAt (.steady 0 ""))

def binB : Vertex × Graph :=
  ((serializer.write none (binCoded "b") none).run binA.2).toOption.getD binA

def stored : Vertex × Graph :=
  ((serializer.write none (itemIn "a") none).run binB.2).toOption.getD binB

def repointed : Vertex × Graph :=
  ((serializer.write none (itemIn "b") (some stored.1)).run stored.2).toOption.getD stored

theorem repointed_item_reconciled :
    ∃ g₂, g₂.edges = stored.2.edges ∧
      serializer.Reconciled g₂ repointed.1 [binAt "b"] repointed.2 := by
  have h₁ : (serializer.write none (binCoded "a") none).run (Graph.startingAt (.steady 0 "")) =
      .ok (binA.1, binA.2) :=
    Except.eq_ok_getD (by decide +kernel) (placeholder, Graph.startingAt (.steady 0 ""))
  have h₂ : (serializer.write none (binCoded "b") none).run binA.2 = .ok (binB.1, binB.2) :=
    Except.eq_ok_getD (by decide +kernel) binA
  have h₃ : (serializer.write none (itemIn "a") none).run binB.2 = .ok (stored.1, stored.2) :=
    Except.eq_ok_getD (by decide +kernel) binB
  have h₄ : (serializer.write none (itemIn "b") (some stored.1)).run stored.2 =
      .ok (repointed.1, repointed.2) :=
    Except.eq_ok_getD (by decide +kernel) stored
  have hreach : serializer.Reaches Placeable stored.2 :=
    .write (.write (.write (.start _) (by simp) (by simp [Placeable]) h₁) (by simp)
      (by simp [Placeable]) h₂) (by simp) (by simp [Placeable]) h₃
  obtain ⟨_, _, _, g₂, -, hedges, -, -, hrec⟩ :=
    write_relationships_exact hreach.forest.consistent rfl h₄
  exact ⟨g₂, hedges, hrec [binAt "b"] rfl⟩

example : (stored.2.edges.map fun e => (e.outV, e.inV)) = [(⟨3⟩, ⟨1⟩)] ∧
    (repointed.2.edges.map fun e => (e.outV, e.inV)) = [(⟨3⟩, ⟨2⟩)] := by
  decide +kernel

end RepointedItem

end Serializer

end InventoryGraph
