import InventoryGraph.Proofs.Store.Consistent
import InventoryGraph.Proofs.Store.Writes
import InventoryGraph.Serializer.Write
import Mathlib.Logic.Relation

/-!
References resolved by key data. The lineage of a stored vertex is the vertex and the stored
vertices above it by tree edges: the walk up stops where the parent is missing or was walked
before, and it never runs out of steps, since each step walks a stored id not walked before. So
a vertex's lineage is exactly what it reaches by tree parents, in every graph, one whose tree
edges close a cycle included.

A reference without an address is resolved by its key entries `type.property = value`. The
candidates are picked by one entry: the first key property of the target's type, in key order,
that an entry of the target's own type names, with the value of the first such entry. A vertex
is a candidate when it is of the target's type, holds that value as a string in that property
itself, and every entry holds on some vertex of its lineage of the entry's type. The reference
resolves to the one candidate, and is refused when there is none or more than one.
-/
namespace InventoryGraph

namespace Graph

variable (g : Graph)

/-- One step up a lineage: from a vertex to the stored vertex of its tree parent. -/
def LineageStep (x y : Vertex) : Prop := g.treeParent? x.id = some y.id ∧ g.vertex? y.id = some y

variable {g}

theorem vertex?_self {p : VertexId} {v : Vertex} (h : g.vertex? p = some v) :
    g.vertex? v.id = some v := by
  rw [(mem_of_vertex? h).2, h]

theorem lineageStep_of {v pv : Vertex} {p : VertexId} (hp : g.treeParent? v.id = some p)
    (hpv : g.vertex? p = some pv) : g.LineageStep v pv :=
  ⟨by rw [hp, (mem_of_vertex? hpv).2], vertex?_self hpv⟩

theorem LineageStep.eq {x y pv : Vertex} {p : VertexId} (h : g.LineageStep x y)
    (hp : g.treeParent? x.id = some p) (hpv : g.vertex? p = some pv) : y = pv := by
  obtain ⟨hy, hyv⟩ := h
  rw [hp, Option.some.injEq] at hy
  rw [← hy, hpv] at hyv
  exact (Option.some.inj hyv).symm

theorem lineageFrom_reached :
    ∀ (fuel : Nat) (seen : List VertexId) (v a : Vertex), a ∈ g.lineageFrom fuel seen v →
      Relation.ReflTransGen g.LineageStep v a
  | 0, _, v, a, h => by
    rw [lineageFrom, List.mem_singleton] at h
    exact h ▸ .refl
  | fuel + 1, seen, v, a, h => by
    unfold lineageFrom at h
    split at h
    · exact (List.mem_singleton.mp h) ▸ .refl
    · next p hp =>
      split at h
      · exact (List.mem_singleton.mp h) ▸ .refl
      · split at h
        · exact (List.mem_singleton.mp h) ▸ .refl
        · next pv hpv =>
          rcases List.mem_cons.mp h with rfl | h
          · exact .refl
          · exact .head (lineageStep_of hp hpv) (lineageFrom_reached fuel (p :: seen) pv a h)

def unwalked (seen : List VertexId) : Nat := ((g.vertices.map (·.id)).filter (· ∉ seen)).length

theorem unwalked_lt {seen : List VertexId} {p : VertexId} {pv : Vertex} (hp : p ∉ seen)
    (hpv : g.vertex? p = some pv) : g.unwalked (p :: seen) < g.unwalked seen := by
  have hmem : p ∈ (g.vertices.map (·.id)).filter (· ∉ seen) := by
    obtain ⟨hin, hid⟩ := mem_of_vertex? hpv
    exact List.mem_filter.mpr ⟨List.mem_map.mpr ⟨pv, hin, hid⟩, by simpa using hp⟩
  have heq : (g.vertices.map (·.id)).filter (· ∉ p :: seen) =
      ((g.vertices.map (·.id)).filter (· ∉ seen)).filter (· ≠ p) := by
    rw [List.filter_filter]
    exact List.filter_congr fun x _ => by
      simp only [List.mem_cons, not_or, Bool.decide_and, ne_eq]
  unfold unwalked
  rw [heq, List.length_filter_lt_length_iff_exists]
  exact ⟨p, hmem, by simp⟩

theorem mem_lineageFrom_self : ∀ (fuel : Nat) (seen : List VertexId) (v : Vertex),
    v ∈ g.lineageFrom fuel seen v
  | 0, _, _ => List.mem_singleton_self _
  | _ + 1, _, _ => by
    unfold lineageFrom
    split
    · exact List.mem_singleton_self _
    · split
      · exact List.mem_singleton_self _
      · split
        · exact List.mem_singleton_self _
        · exact List.mem_cons_self

theorem lineageFrom_closed :
    ∀ (fuel : Nat) (seen : List VertexId) (v : Vertex), g.unwalked seen < fuel →
      ∀ u ∈ g.lineageFrom fuel seen v, ∀ w, g.LineageStep u w →
        w ∈ g.lineageFrom fuel seen v ∨ w.id ∈ seen
  | 0, _, _, hfuel => absurd hfuel (Nat.not_lt_zero _)
  | fuel + 1, seen, v, hfuel => by
    unfold lineageFrom
    split
    · next hnone =>
      intro u hu w hw
      have hup := hw.1
      rw [List.mem_singleton.mp hu, hnone] at hup
      cases hup
    · next p hp =>
      split
      · next hseen =>
        intro u hu w hw
        have hup := hw.1
        rw [List.mem_singleton.mp hu, hp, Option.some.injEq] at hup
        exact .inr (hup ▸ List.contains_iff_mem.mp hseen)
      · next hseen =>
        split
        · next hnone =>
          intro u hu w hw
          have hup := hw.1
          rw [List.mem_singleton.mp hu, hp, Option.some.injEq] at hup
          have hstored := hw.2
          rw [← hup, hnone] at hstored
          cases hstored
        · next pv hpv =>
          have hp' : p ∉ seen := by simpa using hseen
          have hrest := lineageFrom_closed fuel (p :: seen) pv
            (by have := g.unwalked_lt hp' hpv; omega)
          intro u hu w hw
          rcases List.mem_cons.mp hu with rfl | hu
          · -- from the start the step goes to the parent, which heads the rest of the walk
            rw [hw.eq hp hpv]
            exact .inl (List.mem_cons_of_mem _ (mem_lineageFrom_self fuel _ pv))
          · rcases hrest u hu w hw with h | h
            · exact .inl (List.mem_cons_of_mem _ h)
            · rcases List.mem_cons.mp h with h | h
              · -- back to the parent, the head of the rest of the walk
                have hstored := hw.2
                rw [h, hpv, Option.some.injEq] at hstored
                rw [← hstored]
                exact .inl (List.mem_cons_of_mem _ (mem_lineageFrom_self fuel _ pv))
              · exact .inr h

theorem mem_lineage_iff {v a : Vertex} (hv : g.vertex? v.id = some v) :
    a ∈ g.lineage v ↔ Relation.ReflTransGen g.LineageStep v a := by
  refine ⟨lineageFrom_reached _ _ v a, fun h => ?_⟩
  have hbudget : g.unwalked [v.id] < g.vertices.length + 1 := by
    have := List.length_filter_le (fun x => decide (x ∉ [v.id])) (g.vertices.map (·.id))
    simp only [List.length_map] at this
    exact Nat.lt_succ_of_le this
  -- the lineage holds its start and is closed upwards, so it holds all that the start reaches
  induction h with
  | refl => exact mem_lineageFrom_self _ _ v
  | tail _ hstep ih =>
    rcases lineageFrom_closed _ _ v hbudget _ ih _ hstep with h | h
    · exact h
    · have hstored := hstep.2
      rw [List.mem_singleton.mp h, hv, Option.some.injEq] at hstored
      rw [← hstored]
      exact mem_lineageFrom_self _ _ v

/-- Every key entry of the reference holds on some vertex of `v`'s lineage: one of the entry's
    type whose property has the entry's value as its text. -/
def MatchesData (v : Vertex) (r : RelationshipRef) : Prop :=
  ∀ d ∈ r.data, ∃ t k, d.splitKey? = some (t, k) ∧
    ∃ a, Relation.ReflTransGen g.LineageStep v a ∧ a.nodeType.text = t ∧
      (a.property? k).map PropertyValue.display = some d.value

theorem matchesData_iff {v : Vertex} {r : RelationshipRef} (hv : g.vertex? v.id = some v) :
    Serializer.matchesData g v r = true ↔ g.MatchesData v r := by
  unfold Serializer.matchesData MatchesData
  simp only [List.all_eq_true]
  refine forall₂_congr fun d _ => ?_
  split
  · next hnone => simp [hnone]
  · next t k hsome =>
    simp only [List.any_eq_true, Bool.and_eq_true, beq_iff_eq, mem_lineage_iff hv, hsome,
      Option.some.injEq, Prod.mk.injEq]
    constructor
    · intro h
      exact ⟨t, k, ⟨rfl, rfl⟩, h⟩
    · rintro ⟨t', k', ⟨rfl, rfl⟩, h⟩
      exact h

/-- A vertex the reference can resolve to when looked up by property `k` and value `x`: a
    stored vertex of the target's node type that holds `x` as a string in `k` itself and
    matches every entry on its lineage. -/
structure Candidate (r : RelationshipRef) (k x : String) (v : Vertex) : Prop where
  stored : v ∈ g.vertices
  typed : v.nodeType = r.relatedTo
  probed : v.property? k = some (.str x)
  matching : g.MatchesData v r

theorem VertexIndexed.nodup (hg : g.VertexIndexed) : g.vertices.Nodup :=
  List.Nodup.of_map (fun v : Vertex => v.id.index) (hg.ascending.imp Nat.ne_of_lt)

theorem mem_found_iff (hg : g.VertexIndexed) {r : RelationshipRef} {k x : String} (v : Vertex) :
    v ∈ (g.verticesWith k (.str x)).filter
        (fun c => c.nodeType == r.relatedTo && Serializer.matchesData g c r) ↔
      g.Candidate r k x v := by
  rw [verticesWith_eq hg, List.filter_filter, List.mem_filter]
  simp only [Bool.and_eq_true, beq_iff_eq]
  constructor
  · rintro ⟨hv, ⟨htype, hmatch⟩, hprobe⟩
    exact ⟨hv, htype, hprobe, (matchesData_iff (vertex?_of_mem hg hv)).mp hmatch⟩
  · rintro ⟨hv, htype, hprobe, hmatch⟩
    exact ⟨hv, ⟨htype, (matchesData_iff (vertex?_of_mem hg hv)).mpr hmatch⟩, hprobe⟩

end Graph

theorem List.eq_singleton_iff_unique {α : Type} {l : List α} {P : α → Prop} (hl : l.Nodup)
    (hP : ∀ a, a ∈ l ↔ P a) (v : α) : l = [v] ↔ P v ∧ ∀ w, P w → w = v := by
  constructor
  · rintro rfl
    exact ⟨(hP v).mp (List.mem_singleton_self v), fun w hw => List.mem_singleton.mp ((hP w).mpr hw)⟩
  · rintro ⟨hv, huniq⟩
    have hrep : l = List.replicate l.length v :=
      List.eq_replicate_iff.mpr ⟨rfl, fun w hw => huniq w ((hP w).mp hw)⟩
    have hlen : l.length ≤ 1 := List.nodup_replicate.mp (by rw [← hrep]; exact hl)
    have hpos : 0 < l.length := List.length_pos_of_mem ((hP v).mpr hv)
    rw [hrep, show l.length = 1 by omega]
    rfl

namespace RelationshipRef

variable (r : RelationshipRef)

/-- The entry names property `k` of the target's own node type. -/
def Names (k : String) (d : RelationshipData) : Prop := d.splitKey? = some (r.relatedTo.text, k)

instance (k : String) (d : RelationshipData) : Decidable (r.Names k d) :=
  inferInstanceAs (Decidable (_ = _))

/-- The property `k` and the value `x` the target is looked up by: `k` is the first of the keys
    that an entry names, and `x` is the value of the first entry naming it. -/
structure Probes (keys : List Identifier) (k x : String) : Prop where
  first_key : ∃ pre kid post, keys = pre ++ kid :: post ∧ kid.text = k ∧
    ∀ k' ∈ pre, ∀ d ∈ r.data, ¬ r.Names k'.text d
  first_entry : ∃ pre d post, r.data = pre ++ d :: post ∧ r.Names k d ∧ d.value = x ∧
    ∀ d' ∈ pre, ¬ r.Names k d'

variable {r}

theorem ownKey?_of_names {k : String} {d : RelationshipData} (h : r.Names k d) :
    r.ownKey? d = some (k, d.value) := by
  have hsplit : d.splitKey? = some (r.relatedTo.text, k) := h
  simp [ownKey?, hsplit]

theorem any_ownKey? (k : String) (d : RelationshipData) :
    (r.ownKey? d).any (·.1 == k) = decide (r.Names k d) := by
  rw [Bool.eq_iff_iff, decide_eq_true_iff]
  unfold ownKey? Names
  cases h : d.splitKey? with
  | none => simp
  | some p =>
    obtain ⟨ty, k'⟩ := p
    by_cases hty : ty = r.relatedTo.text <;> simp [hty]

theorem find?_ownData (k : String) :
    r.ownData.find? (·.1 == k) =
      (r.data.find? fun d => decide (r.Names k d)).map fun d => (k, d.value) := by
  unfold ownData
  rw [List.find?_filterMap]
  simp only [any_ownKey?]
  cases h : r.data.find? (fun d => decide (r.Names k d)) with
  | none => rfl
  | some d =>
    have hd := List.find?_some h
    exact ownKey?_of_names (of_decide_eq_true hd)

theorem find?_ownData_eq_none {k : String} : r.ownData.find? (·.1 == k) = none ↔
    ∀ d ∈ r.data, ¬ r.Names k d := by
  rw [find?_ownData, Option.map_eq_none_iff, List.find?_eq_none]
  simp

theorem probe_eq_some {keys : List Identifier} {k x : String} (h : r.probe keys = some (k, x)) :
    r.Probes keys k x := by
  obtain ⟨pre, kid, post, hkeys, hfind, hpre⟩ := List.findSome?_eq_some_iff.mp h
  rw [find?_ownData, Option.map_eq_some_iff] at hfind
  obtain ⟨d, hd, hkx⟩ := hfind
  obtain ⟨hk, hx⟩ := Prod.mk.inj hkx
  obtain ⟨hnames, dpre, dpost, hdata, hdpre⟩ := List.find?_eq_some_iff_append.mp hd
  refine ⟨⟨pre, kid, post, hkeys, hk, fun k' hk' => find?_ownData_eq_none.mp (hpre k' hk')⟩,
    ⟨dpre, d, dpost, hdata, hk ▸ of_decide_eq_true hnames, hx, fun d' hd' => ?_⟩⟩
  simpa [hk] using hdpre d' hd'

theorem probe_ne_none {keys : List Identifier} (h : ∃ kid ∈ keys, ∃ d ∈ r.data, r.Names kid.text d) :
    r.probe keys ≠ none := by
  obtain ⟨kid, hkid, d, hd, hn⟩ := h
  unfold probe
  rw [Ne, List.findSome?_eq_none_iff]
  intro hnone
  exact find?_ownData_eq_none.mp (hnone kid hkid) d hd hn

end RelationshipRef

namespace Serializer

variable {s : Serializer} {g : Graph} {r : RelationshipRef} {t : NodeType} {k x : String}

theorem findByData_spec (hg : g.VertexIndexed) (ht : s.scope.nodeType? r.relatedTo.text = some t)
    (hp : r.probe t.keyProperties = some (k, x)) :
    (∀ v, s.findByData g r = .ok (some v) ↔
      g.Candidate r k x v ∧ ∀ w, g.Candidate r k x w → w = v) ∧
    ∀ e, s.findByData g r = .error e → ∃ m, e = .invalidRelationship m := by
  have hmem := g.mem_found_iff hg (r := r) (k := k) (x := x)
  have hnd : ((g.verticesWith k (.str x)).filter
      (fun c => c.nodeType == r.relatedTo && matchesData g c r)).Nodup := by
    rw [Graph.verticesWith_eq hg]
    exact (hg.nodup.filter _).filter _
  unfold findByData
  rw [ht]
  dsimp only
  rw [hp]
  dsimp only
  generalize (g.verticesWith k (.str x)).filter _ = found at hmem hnd ⊢
  have hone := List.eq_singleton_iff_unique hnd hmem
  rcases found with _ | ⟨a, _ | ⟨b, rest⟩⟩
  · -- no candidate: nothing is found
    refine ⟨fun v => ?_, fun e he => by cases he⟩
    rw [← hone]
    simp
  · -- one candidate: it is found
    refine ⟨fun v => ?_, fun e he => by cases he⟩
    rw [← hone]
    simp
  · -- several candidates: refused
    refine ⟨fun v => ?_, fun e he => by cases he; exact ⟨_, rfl⟩⟩
    rw [← hone]
    simp

theorem locateTarget_ok_iff (hlink : r.relatedLink = none)
    (htyped : ∀ v, s.findByData g r = .ok (some v) → v.nodeType = r.relatedTo) (v : Vertex) :
    s.locateTarget g r = .ok v ↔ s.findByData g r = .ok (some v) := by
  unfold locateTarget
  rw [hlink]
  cases hf : s.findByData g r with
  | error e => simp [bind, Except.bind]
  | ok found =>
    cases found with
    | none => simp [bind, Except.bind, throw, throwThe, MonadExceptOf.throw]
    | some u => simp [bind, Except.bind, htyped u hf, pure, Except.pure]

theorem locateTarget_error (hlink : r.relatedLink = none) {e : GraphError}
    (he : s.locateTarget g r = .error e) :
    s.findByData g r = .error e ∨ ∃ m, e = .invalidRelationship m := by
  unfold locateTarget at he
  rw [hlink] at he
  cases hf : s.findByData g r with
  | error e' =>
    simp only [hf, bind, Except.bind, Except.error.injEq] at he
    exact .inl (he ▸ rfl)
  | ok found =>
    simp only [hf, bind, Except.bind] at he
    cases found with
    | none => exact .inr ⟨_, (Except.error.inj he).symm⟩
    | some u =>
      by_cases htype : u.nodeType = r.relatedTo
      · simp [htype, pure, Except.pure] at he
      · simp only [htype, ne_eq, not_false_eq_true, if_true, throw, throwThe,
          MonadExceptOf.throw, Except.error.injEq] at he
        exact .inr ⟨_, he.symm⟩

/-- A reference without an address, whose data names a key property of the target's node type,
    is looked up by a probe: the first key property an entry names, with the value of the first
    entry naming it. In a consistent store it resolves to a vertex exactly when that vertex is
    the one candidate for the probe, and every refusal is an invalid relationship. -/
theorem locateTarget_by_data (hg : g.Consistent) (hlink : r.relatedLink = none)
    (ht : s.scope.nodeType? r.relatedTo.text = some t)
    (hnames : ∃ kid ∈ t.keyProperties, ∃ d ∈ r.data, r.Names kid.text d) :
    ∃ k x, r.Probes t.keyProperties k x ∧
      (∀ v, s.locateTarget g r = .ok v ↔
        g.Candidate r k x v ∧ ∀ w, g.Candidate r k x w → w = v) ∧
      ∀ e, s.locateTarget g r = .error e → ∃ m, e = .invalidRelationship m := by
  obtain ⟨⟨k, x⟩, hp⟩ := Option.ne_none_iff_exists'.mp (RelationshipRef.probe_ne_none hnames)
  obtain ⟨hfound, hrefused⟩ := findByData_spec hg.vertexIndexed ht hp
  have htyped : ∀ v, s.findByData g r = .ok (some v) → v.nodeType = r.relatedTo :=
    fun v hv => ((hfound v).mp hv).1.typed
  refine ⟨k, x, RelationshipRef.probe_eq_some hp, fun v => ?_, fun e he => ?_⟩
  · rw [locateTarget_ok_iff hlink htyped v]
    exact hfound v
  · rcases locateTarget_error hlink he with hf | hm
    · exact hrefused e hf
    · exact hm

namespace Totes

def tote : Identifier := ⟨"tote", by decide⟩
def lot : Identifier := ⟨"lot", by decide⟩
def nests : Identifier := ⟨"nests", by decide⟩

def toteType : NodeType := (NodeType.new tote SchemaVersion.v12).withKey lot

def serializer : Serializer where
  scope := ⟨⟨[toteType], []⟩, SchemaVersion.v12⟩
  config := {}
  sourceOfTruth := "inventory"

def outer : Vertex := ((Graph.startingAt (.steady 0 "")).addVertex tote).1.set "lot" (.str "1")
def inner : Vertex :=
  (((Graph.startingAt (.steady 0 "")).addVertex tote).2.addVertex tote).1.set "lot" (.str "2")

def nesting : Edge := ⟨⟨0⟩, outer.id, inner.id, nests, .tree, .out, .none, .none, PropertyMap.empty⟩

def store : Graph := (Graph.startingAt (.steady 0 "")).writeAll
  [.addVertex tote, .addVertex tote, .updateVertex outer, .updateVertex inner, .addEdge nesting]

def byLot : RelationshipRef := (RelationshipRef.new tote).withData "lot" "1"

theorem outer_tote_found_by_lot :
    store.Consistent ∧ byLot.relatedLink = none ∧
    serializer.scope.nodeType? byLot.relatedTo.text = some toteType ∧
    (∃ kid ∈ toteType.keyProperties, ∃ d ∈ byLot.data, byLot.Names kid.text d) ∧
    serializer.locateTarget store byLot = .ok outer ∧
    ∃ k x, byLot.Probes toteType.keyProperties k x ∧
      (∀ v, serializer.locateTarget store byLot = .ok v ↔
        store.Candidate byLot k x v ∧ ∀ w, store.Candidate byLot k x w → w = v) ∧
      ∀ e, serializer.locateTarget store byLot = .error e → ∃ m, e = .invalidRelationship m := by
  have hg : store.Consistent := ((Graph.Reachable.start _).writeAll _).consistent
  have ht : serializer.scope.nodeType? byLot.relatedTo.text = some toteType := by decide +kernel
  have hnames : ∃ kid ∈ toteType.keyProperties, ∃ d ∈ byLot.data, byLot.Names kid.text d :=
    ⟨lot, by decide +kernel, _, List.mem_singleton_self _, by decide +kernel⟩
  exact ⟨hg, rfl, ht, hnames, by decide +kernel, locateTarget_by_data hg rfl ht hnames⟩

theorem inner_tote_matches_unprobed :
    outer ≠ inner ∧ outer.nodeType = byLot.relatedTo ∧ store.MatchesData outer byLot ∧
    inner.nodeType = byLot.relatedTo ∧ store.MatchesData inner byLot ∧
    serializer.locateTarget store byLot = .ok outer := by
  refine ⟨by decide +kernel, by decide +kernel, ?_, by decide +kernel, ?_, by decide +kernel⟩
  · exact (Graph.matchesData_iff (by decide +kernel)).mp (by decide +kernel)
  · exact (Graph.matchesData_iff (by decide +kernel)).mp (by decide +kernel)

end Totes

end Serializer

end InventoryGraph
