import InventoryGraph.Proofs.Serializer.Stages
import InventoryGraph.Proofs.Serializer.Delete
import InventoryGraph.Proofs.Serializer.Counter
import Mathlib.Logic.Relation

/-!
Stale resource versions. A write stamps each vertex it lands on with a version the process
counter issues past every version before it, and no request sets the counter back, not even a
rolled-back one. So once a committed write has landed on a vertex, the resource version the
vertex had in any earlier committed store is stale for good: a checked delete that quotes it
fails, whatever the clock reads and whatever the process commits or rolls back in between.

`Graph.Restamps g g'` is what every request keeps, from `g` to `g'`: the counter not going back,
and each vertex either with the resource version it had or with a version issued after `g`.
Inside a write, the stages before the stamp keep every vertex but the written one
(`Graph.KeptBut`), and the stamp then covers that one.
-/
namespace InventoryGraph

theorem Clock.version_inj {m n : Nat} (h : toString m = toString n) : m = n := by
  have hr : m.repr = n.repr := h
  have hd := congrArg String.toList hr
  rw [Nat.toList_repr, Nat.toList_repr] at hd
  have hm := congrArg (Nat.ofDigitChars 10 · 0) hd
  simpa only [Nat.ofDigitChars_ten_toDigits] using hm

theorem Vertex.resourceVersion?_eq {v w : Vertex}
    (h : w.property? Bookkeeping.resourceVersion = v.property? Bookkeeping.resourceVersion) :
    w.resourceVersion? = v.resourceVersion? := by
  simp only [Vertex.resourceVersion?, Vertex.str?, h]

namespace Graph

/-- The vertex carries a version the counter issued after its `lo`-th. -/
def StampedAfter (g : Graph) (lo : Nat) (w : Vertex) : Prop :=
  ∃ n, lo < n ∧ n ≤ g.clock.last ∧ w.resourceVersion? = some (toString n)

/-- From `g` to `g'` the counter did not go back, and every vertex of `g'` either stood in `g`
    with the same resource version or carries a version issued after `g`. -/
structure Restamps (g g' : Graph) : Prop where
  clock : g.clock.last ≤ g'.clock.last
  version : ∀ u w', g'.vertex? u = some w' →
    (∃ w, g.vertex? u = some w ∧ w'.resourceVersion? = w.resourceVersion?) ∨
      g'.StampedAfter g.clock.last w'

def FreshAt (g : Graph) (lo : Nat) (u : VertexId) : Prop :=
  ∀ w, g.vertex? u = some w → g.StampedAfter lo w

/-- Every resource version of a live vertex is one the counter has issued. -/
def Stamped (g : Graph) : Prop :=
  ∀ u w, g.vertex? u = some w → w.resourceVersion? = none ∨ g.StampedAfter 0 w

/-- From `g` to `g'` the counter stood still, and every vertex other than the one of id `x`
    stood in `g` with the same resource version. -/
structure KeptBut (g g' : Graph) (x : VertexId) : Prop where
  clock : g'.clock.last = g.clock.last
  version : ∀ u w', u ≠ x → g'.vertex? u = some w' →
    ∃ w, g.vertex? u = some w ∧ w'.resourceVersion? = w.resourceVersion?

section Restamping

variable {g g₁ g₂ g' : Graph} {lo : Nat} {u x : VertexId} {w w' : Vertex}

theorem StampedAfter.mono (h : g.StampedAfter lo w) {lo' : Nat} (hle : lo' ≤ lo) :
    g.StampedAfter lo' w := by
  obtain ⟨n, hlo, hn, hw⟩ := h
  exact ⟨n, by omega, hn, hw⟩

theorem StampedAfter.restamps (h : g.StampedAfter lo w) (hr : g.Restamps g')
    (hv : w'.resourceVersion? = w.resourceVersion?) : g'.StampedAfter lo w' := by
  obtain ⟨n, hlo, hn, hw⟩ := h
  exact ⟨n, hlo, hn.trans hr.clock, by rw [hv, hw]⟩

theorem Restamps.refl (g : Graph) : g.Restamps g :=
  ⟨Nat.le_refl _, fun _ w hw => .inl ⟨w, hw, rfl⟩⟩

theorem Restamps.trans (h₁ : g.Restamps g₁) (h₂ : g₁.Restamps g₂) : g.Restamps g₂ := by
  refine ⟨h₁.clock.trans h₂.clock, fun u w₂ hw₂ => ?_⟩
  rcases h₂.version u w₂ hw₂ with ⟨w₁, hw₁, hv₂⟩ | hs₂
  · rcases h₁.version u w₁ hw₁ with ⟨w, hw, hv₁⟩ | hs₁
    · exact .inl ⟨w, hw, hv₂.trans hv₁⟩
    · exact .inr (hs₁.restamps h₂ hv₂)
  · exact .inr (hs₂.mono h₁.clock)

theorem Restamps.withClock (g : Graph) {c : Clock} (h : g.clock.last ≤ c.last) :
    g.Restamps { g with clock := c } :=
  ⟨h, fun _ w' hw' => .inl ⟨w', hw', rfl⟩⟩

theorem FreshAt.mono (h : g.FreshAt lo u) {lo' : Nat} (hle : lo' ≤ lo) : g.FreshAt lo' u :=
  fun w hw => (h w hw).mono hle

theorem FreshAt.restamps (h : g.FreshAt lo u) (hr : g.Restamps g') (hlo : lo ≤ g.clock.last) :
    g'.FreshAt lo u := by
  intro w' hw'
  rcases hr.version u w' hw' with ⟨w, hw, hv⟩ | hs
  · exact (h w hw).restamps hr hv
  · exact hs.mono hlo

theorem Stamped.restamps (h : g.Stamped) (hr : g.Restamps g') : g'.Stamped := by
  intro u w' hw'
  rcases hr.version u w' hw' with ⟨w, hw, hv⟩ | hs
  · rcases h u w hw with hn | hs
    · exact .inl (hv.trans hn)
    · exact .inr (hs.restamps hr hv)
  · exact .inr (hs.mono (Nat.zero_le _))

theorem startingAt_stamped (c : Clock) : (startingAt c).Stamped := by
  intro u w hw
  simp [vertex?, startingAt] at hw

theorem KeptBut.refl (g : Graph) (x : VertexId) : g.KeptBut g x :=
  ⟨rfl, fun _ w _ hw => ⟨w, hw, rfl⟩⟩

theorem KeptBut.trans (h₁ : g.KeptBut g₁ x) (h₂ : g₁.KeptBut g₂ x) : g.KeptBut g₂ x := by
  refine ⟨h₂.clock.trans h₁.clock, fun u w₂ hu hw₂ => ?_⟩
  obtain ⟨w₁, hw₁, hv₂⟩ := h₂.version u w₂ hu hw₂
  obtain ⟨w, hw, hv₁⟩ := h₁.version u w₁ hu hw₁
  exact ⟨w, hw, hv₂.trans hv₁⟩

theorem KeptBut.of_vertices (hv : g'.vertices = g.vertices) (hc : g'.clock = g.clock)
    (x : VertexId) : g.KeptBut g' x :=
  ⟨congrArg Clock.last hc, fun u w' _ hw' => ⟨w', by simpa only [vertex?, hv] using hw', rfl⟩⟩

theorem KeptBut.restamps (h : g.KeptBut g₁ x) (hr : g₁.Restamps g')
    (hx : g'.FreshAt g₁.clock.last x) : g.Restamps g' := by
  refine ⟨h.clock ▸ hr.clock, fun u w' hw' => ?_⟩
  by_cases hu : u = x
  · subst hu
    exact .inr (h.clock ▸ hx w' hw')
  · rcases hr.version u w' hw' with ⟨w₁, hw₁, hv⟩ | hs
    · obtain ⟨w, hw, hv₁⟩ := h.version u w₁ hu hw₁
      exact .inl ⟨w, hw, hv.trans hv₁⟩
    · exact .inr (h.clock ▸ hs)

end Restamping

/-! ### The store operations a write uses -/

theorem addVertex_keptBut (g : Graph) (t : Identifier) :
    g.KeptBut (g.addVertex t).2 (g.addVertex t).1.id := by
  refine ⟨rfl, fun u w' hu hw' => ⟨w', ?_, rfl⟩⟩
  have hvs : (g.addVertex t).2.vertices = g.vertices ++ [(g.addVertex t).1] := rfl
  have hnew : [(g.addVertex t).1].find? (·.id == u) = none := by
    simpa using fun h => hu h.symm
  simpa only [vertex?, hvs, List.find?_append, hnew, Option.or_none] using hw'

theorem updateVertex_keptBut {g g' : Graph} {w : Vertex} (hup : g.updateVertex w = .ok g') :
    g.KeptBut g' w.id := by
  refine ⟨congrArg Clock.last (updateVertex_clock hup), fun u w' hu hw' => ⟨w', ?_, rfl⟩⟩
  obtain ⟨old, -, hx⟩ := vertex?_updateVertex hup u
  rwa [hx, if_neg hu] at hw'

theorem updateVertex_keptBut_uri {g g' : Graph} {v w : Vertex} (hup : g.updateVertex w = .ok g')
    (hv : g.vertex? w.id = some v) (hp : ∀ k, k ≠ Bookkeeping.uri → w.property? k = v.property? k)
    (x : VertexId) : g.KeptBut g' x := by
  have h := updateVertex_keptBut hup
  refine ⟨h.clock, fun u w' _ hw' => ?_⟩
  by_cases hu : u = w.id
  · subst hu
    obtain ⟨old, -, hx⟩ := vertex?_updateVertex hup w.id
    rw [hx, if_pos rfl] at hw'
    cases hw'
    exact ⟨v, hv, Vertex.resourceVersion?_eq (hp _ (by decide))⟩
  · exact h.version u w' hu hw'

theorem removeEdge_keptBut (g : Graph) (i : EdgeId) (x : VertexId) :
    g.KeptBut (g.removeEdge i).2 x :=
  KeptBut.of_vertices (removeEdge_sameVertices g i).vertices (removeEdge_clock g i) x

theorem addEdge_keptBut {g g' : Graph} {e e' : Edge} (hadd : g.addEdge e = .ok (e', g'))
    (x : VertexId) : g.KeptBut g' x := by
  obtain ⟨-, -, -, rfl⟩ := addEdge_eq hadd
  exact ⟨rfl, fun _ w' _ hw' => ⟨w', hw', rfl⟩⟩

theorem vertex?_of_filter {g g' : Graph} {x u : VertexId} {w : Vertex}
    (hv : g'.vertices = g.vertices.filter (·.id != x)) (hw : g'.vertex? u = some w) :
    g.vertex? u = some w := by
  obtain ⟨hmem, rfl⟩ := mem_of_vertex? hw
  rw [hv] at hmem
  have hne : w.id ≠ x := by simpa using (List.mem_filter.mp hmem).2
  have hsame : (fun a : Vertex => decide ((a.id != x) = true ∧ (a.id == w.id) = true)) =
      (·.id == w.id) := by
    funext a
    by_cases ha : a.id = w.id
    · simp [ha, hne]
    · simp [ha]
  simpa only [vertex?, hv, List.find?_filter, hsame] using hw

theorem removeVertex_restamps {g g' : Graph} {x : VertexId} {es : List Edge}
    (hrm : g.removeVertex x = .ok (es, g')) : g.Restamps g' := by
  obtain ⟨hv, hc⟩ := removeVertex_frame hrm
  exact ⟨(congrArg Clock.last hc).ge, fun _ w' hw' => .inl ⟨w', vertex?_of_filter hv hw', rfl⟩⟩

theorem removeLive_restamps :
    ∀ {ds : List Vertex} {g g' : Graph}, (GraphM.removeLive ds).run g = .ok ((), g') → g.Restamps g'
  | [], g, g', h => by
    rw [GraphM.removeLive_nil] at h
    cases h
    exact Restamps.refl g
  | d :: ds, g, g', h => by
    rw [GraphM.removeLive_cons] at h
    split at h
    · rw [Except.bind_eq_ok] at h
      obtain ⟨⟨es, g₁⟩, hrm, hrest⟩ := h
      rw [GraphM.run_removeVertex, Except.mapError_eq_ok] at hrm
      exact (removeVertex_restamps hrm).trans (removeLive_restamps hrest)
    · exact removeLive_restamps h

end Graph

namespace Serializer
open InventoryGraph.Graph

/-! ### The stages of a write -/

theorem target_keptBut {s : Serializer} {parent existing : Option Vertex} {o : SchemaObject}
    {v : Vertex} {isNew : Bool} {g g' : Graph}
    (h : (s.target parent o existing).run g = .ok ((v, isNew), g')) : g.KeptBut g' v.id := by
  rcases target_run_inv h with ⟨-, -, -, -, -, rfl⟩ | ⟨-, -, hadd, -⟩
  · exact KeptBut.refl g v.id
  · obtain rfl := congrArg Prod.fst hadd
    obtain rfl := congrArg Prod.snd hadd
    exact addVertex_keptBut g o.nodeType

theorem ensureTreeEdge_keptBut {s : Serializer} {p : Vertex} {y : VertexId} {added : Bool}
    {g g' : Graph} (h : (s.ensureTreeEdge p y).run g = .ok (added, g')) (x : VertexId) :
    g.KeptBut g' x := by
  rcases ensureTreeEdge_run_inv h with ⟨-, -, rfl⟩ | ⟨-, -, c, e, -, hadd⟩
  · exact KeptBut.refl g x
  · obtain ⟨r, -, out, inn, -, -, -, hcreate⟩ := Graph.addTreeEdge_creates hadd
    obtain ⟨e₀, -, -, -, -, hedge⟩ := Scope.createEdge_adds hcreate
    exact addEdge_keptBut hedge x

theorem refreshUri_keptBut {sc : Scope} {root : VertexId} {u : Option String} {g g' : Graph}
    (h : (sc.refreshUri root).run g = .ok (u, g')) (x : VertexId) : g.KeptBut g' x :=
  Scope.refreshUri_preserves (g.KeptBut · x)
    (fun hP hup hv _ hp => hP.trans (updateVertex_keptBut_uri hup hv hp x)) (KeptBut.refl g x) h

theorem store_keptBut {s : Serializer} {t : NodeType} {parent : Option Vertex} {o : SchemaObject}
    {v v' : Vertex} {isNew : Bool} {g g' : Graph}
    (h : (s.store t parent o v isNew).run g = .ok (v', g')) :
    g.KeptBut g' v.id ∧ v'.id = v.id := by
  obtain ⟨g₁, hup, added, g₂, hplace, hrefresh, -, hv'⟩ := store_run_inv h
  have h₁ : g.KeptBut g₁ v.id := by
    simpa only [applyProperties_id] using updateVertex_keptBut hup
  have h₂ : g₁.KeptBut g₂ v.id := by
    cases parent with
    | none =>
      obtain ⟨-, rfl⟩ := GraphM.run_pure_eq_ok.mp hplace
      exact KeptBut.refl g₁ v.id
    | some p => exact ensureTreeEdge_keptBut hplace v.id
  have h₃ : g₂.KeptBut g' v.id := by
    rcases hrefresh with rfl | ⟨u, hr⟩
    · exact KeptBut.refl g₂ v.id
    · exact refreshUri_keptBut hr v.id
  exact ⟨h₁.trans (h₂.trans h₃), (mem_of_vertex? hv').2⟩

theorem prepare_keptBut {s : Serializer} {parent existing : Option Vertex} {o working : SchemaObject}
    {v : Vertex} {isNew : Bool} {g g' : Graph}
    (h : (s.prepare parent o existing).run g = .ok ((working, v, isNew), g')) :
    g.KeptBut g' v.id := by
  obtain ⟨t, -, v₀, g₁, htarget, v₁, hstore, hse⟩ := prepare_run_inv h
  obtain ⟨hkept, hid⟩ := store_keptBut hstore
  rw [(runSideEffects_keeps hse).1.trans hid]
  exact (target_keptBut htarget).trans hkept

theorem reconcileListed_keptBut {s : Serializer} {v : Vertex} {rels : Option (List RelationshipRef)}
    {g g' : Graph} (h : (rels.elim (pure ()) (s.reconcile v)).run g = .ok ((), g')) (x : VertexId) :
    g.KeptBut g' x :=
  reconcileListed_preserves (g.KeptBut · x) (fun _ e _ _ hP => hP.trans (removeEdge_keptBut _ e.id x))
    (fun _ hP hadd => by
      obtain ⟨e₀, -, -, hedge⟩ := Scope.addEdgeForRule_adds hadd
      exact hP.trans (addEdge_keptBut hedge x))
    (KeptBut.refl g x) h

theorem stamp_restamps {s : Serializer} {v w : Vertex} {isNew : Bool} {g g₁ g' : Graph}
    (htouch : (s.touch v isNew).run g = .ok (w, g₁)) (hup : g₁.updateVertex w = .ok g') :
    g.Restamps g' ∧ g'.FreshAt g.clock.last v.id := by
  obtain ⟨c, rfl, hlt, hid, -, -, -, hrv⟩ := touch_run_inv htouch
  have hc : g'.clock.last = c.last := congrArg Clock.last (updateVertex_clock hup)
  have hfresh : g'.FreshAt g.clock.last v.id := by
    intro w' hw'
    obtain ⟨old, -, hx⟩ := vertex?_updateVertex hup v.id
    rw [hx, if_pos hid.symm] at hw'
    cases hw'
    exact ⟨c.last, hlt, hc.ge, hrv⟩
  refine ⟨⟨hc ▸ hlt.le, fun u w' hw' => ?_⟩, hfresh⟩
  by_cases hu : u = v.id
  · subst hu
    exact .inr (hfresh w' hw')
  · exact .inl ((updateVertex_keptBut hup).version u w' (fun h => hu (h.trans hid)) hw')

theorem write_stages_restamp {s : Serializer} {parent existing : Option Vertex}
    {o working : SchemaObject} {v w : Vertex} {isNew : Bool} {g g₂ g₃ g₄ g₅ g' : Graph}
    (hprep : (s.prepare parent o existing).run g = .ok ((working, v, isNew), g₂))
    (hrel : (working.relationships.elim (pure ()) (s.reconcile v)).run g₂ = .ok ((), g₃))
    (hch : g₃.Restamps g₄) (htouch : (s.touch v isNew).run g₄ = .ok (w, g₅))
    (hup : g₅.updateVertex w = .ok g') :
    g.Restamps g' ∧ g'.FreshAt g.clock.last v.id := by
  have hkept : g.KeptBut g₃ v.id := (prepare_keptBut hprep).trans (reconcileListed_keptBut hrel v.id)
  obtain ⟨hstamp, hfresh⟩ := stamp_restamps htouch hup
  have hfresh₃ : g'.FreshAt g₃.clock.last v.id := hfresh.mono hch.clock
  exact ⟨hkept.restamps (hch.trans hstamp) hfresh₃, hfresh₃.mono hkept.clock.ge⟩

theorem write_restamps (s : Serializer) :
    ∀ parent o existing {g g' : Graph} {w : Vertex},
      (s.write parent o existing).run g = .ok (w, g') → g.Restamps g' := by
  refine write.induct (fun parent o existing => ∀ {g g' : Graph} {w : Vertex},
      (s.write parent o existing).run g = .ok (w, g') → g.Restamps g')
    (fun v cs => ∀ {g g' : Graph}, (s.writeChildren v cs).run g = .ok ((), g') → g.Restamps g')
    ?_ ?_ ?_
  · intro parent existing nt props rv rels children ih g g' w h
    obtain ⟨working, v, isNew, g₂, hprep, g₃, hrel, g₄, hch, g₅, htouch, hup⟩ :=
      write_prepare_run_inv h
    exact (write_stages_restamp hprep hrel (ih v hch) htouch hup).1
  · intro p g g' h
    rw [writeChildren_nil_run] at h
    cases h
    exact Restamps.refl g
  · intro p c cs ihc ihs g g' h
    obtain ⟨found, -, w, g₁, hw, hrest⟩ := writeChildren_cons_run_inv h
    exact (ihc found hw).trans (ihs hrest)

theorem writeChildren_restamps {s : Serializer} {p : Vertex} :
    ∀ {cs : List SchemaObject} {g g' : Graph},
      (s.writeChildren p cs).run g = .ok ((), g') → g.Restamps g'
  | [], g, g', h => by
    rw [writeChildren_nil_run] at h
    cases h
    exact Restamps.refl g
  | _ :: _, _, _, h => by
    obtain ⟨found, -, w, g₁, hw, hrest⟩ := writeChildren_cons_run_inv h
    exact (write_restamps s _ _ _ hw).trans (writeChildren_restamps hrest)

theorem writeChildren_cons_run {s : Serializer} {p : Vertex} {c : SchemaObject}
    {cs : List SchemaObject} {g g₁ g' : Graph} {found : Option Vertex} {w : Vertex}
    (hfind : s.findChild g p c = .ok found) (hw : (s.write (some p) c found).run g = .ok (w, g₁))
    (hrest : (s.writeChildren p cs).run g₁ = .ok ((), g')) :
    (s.writeChildren p (c :: cs)).run g = .ok ((), g') := by
  rw [writeChildren.eq_2, GraphM.run_get_bind_eq_ok, GraphM.run_bind_eq_ok]
  refine ⟨found, g, GraphM.run_lift_eq_ok.mpr ⟨hfind, rfl⟩, ?_⟩
  rw [GraphM.run_bind_eq_ok]
  exact ⟨w, g₁, hw, hrest⟩

theorem writeChildren_append_run_inv {s : Serializer} {p : Vertex} {ys : List SchemaObject} :
    ∀ {xs : List SchemaObject} {g g' : Graph}, (s.writeChildren p (xs ++ ys)).run g = .ok ((), g') →
      ∃ g₁, (s.writeChildren p xs).run g = .ok ((), g₁) ∧ (s.writeChildren p ys).run g₁ = .ok ((), g')
  | [], g, _, h => ⟨g, writeChildren_nil_run s p g, h⟩
  | _ :: _, _, _, h => by
    obtain ⟨found, hfind, w, g₁, hw, hrest⟩ := writeChildren_cons_run_inv h
    obtain ⟨g₂, hxs, hys⟩ := writeChildren_append_run_inv hrest
    exact ⟨g₂, writeChildren_cons_run hfind hw hxs, hys⟩

theorem write_freshAt {s : Serializer} {parent existing : Option Vertex} {o working : SchemaObject}
    {v w : Vertex} {isNew : Bool} {g g₂ g' : Graph}
    (hprep : (s.prepare parent o existing).run g = .ok ((working, v, isNew), g₂))
    (h : (s.write parent o existing).run g = .ok (w, g')) : g'.FreshAt g.clock.last v.id := by
  obtain ⟨working', v', isNew', g₂', hprep', g₃, hrel, g₄, hch, g₅, htouch, hup⟩ :=
    write_prepare_run_inv h
  have heq := Except.ok.inj (hprep.symm.trans hprep')
  simp only [Prod.mk.injEq] at heq
  obtain ⟨⟨rfl, rfl, rfl⟩, rfl⟩ := heq
  exact (write_stages_restamp hprep hrel (writeChildren_restamps hch) htouch hup).2

/-- The vertices a write lands on, run from a store: the vertex its preparation answers, and,
    for each child written after its earlier siblings, the vertices the child's write lands on. -/
inductive WritesOnto (s : Serializer) :
    Option Vertex → SchemaObject → Option Vertex → Graph → VertexId → Prop
  | prepared {parent existing : Option Vertex} {o working : SchemaObject} {g g₂ : Graph}
      {v : Vertex} {isNew : Bool} :
      (s.prepare parent o existing).run g = .ok ((working, v, isNew), g₂) →
      WritesOnto s parent o existing g v.id
  | child {parent existing found : Option Vertex} {o working c : SchemaObject}
      {pre post : List SchemaObject} {g g₂ g₃ g₄ : Graph} {v : Vertex} {isNew : Bool}
      {u : VertexId} :
      (s.prepare parent o existing).run g = .ok ((working, v, isNew), g₂) →
      (working.relationships.elim (pure ()) (s.reconcile v)).run g₂ = .ok ((), g₃) →
      o.children = pre ++ c :: post →
      (s.writeChildren v pre).run g₃ = .ok ((), g₄) →
      s.findChild g₄ v c = .ok found →
      WritesOnto s (some v) c found g₄ u → WritesOnto s parent o existing g u

theorem WritesOnto.freshAt {s : Serializer} {parent existing : Option Vertex} {o : SchemaObject}
    {g g' : Graph} {u : VertexId} {w : Vertex} (hw : s.WritesOnto parent o existing g u)
    (h : (s.write parent o existing).run g = .ok (w, g')) : g'.FreshAt g.clock.last u := by
  induction hw generalizing w g' with
  | prepared hprep => exact write_freshAt hprep h
  | @child parent existing found o working c pre post g g₂ g₃ g₄ v isNew u hprep hrel hsplit
      hpre hfind _ ih =>
    obtain ⟨working', v', isNew', g₂', hprep', g₃', hrel', g₄', hch, g₅, htouch, hup⟩ :=
      write_prepare_run_inv h
    have heq := Except.ok.inj (hprep.symm.trans hprep')
    simp only [Prod.mk.injEq] at heq
    obtain ⟨⟨rfl, rfl, rfl⟩, rfl⟩ := heq
    obtain rfl := congrArg Prod.snd (Except.ok.inj (hrel.symm.trans hrel'))
    rw [hsplit] at hch
    obtain ⟨g₄'', hpre', hrest⟩ := writeChildren_append_run_inv hch
    obtain rfl := congrArg Prod.snd (Except.ok.inj (hpre.symm.trans hpre'))
    obtain ⟨found', hfind', wc, g₆, hwc, hpost⟩ := writeChildren_cons_run_inv hrest
    obtain rfl := Except.ok.inj (hfind.symm.trans hfind')
    -- the child's stamp survives its later siblings and the parent's own stamp
    have hkept := (prepare_keptBut hprep).trans (reconcileListed_keptBut hrel v.id)
    have hfresh : g₆.FreshAt g₄.clock.last u := ih hwc
    have hafter := (writeChildren_restamps hpost).trans (stamp_restamps htouch hup).1
    exact (hfresh.restamps hafter (write_restamps s _ _ _ hwc).clock).mono
      (hkept.clock.ge.trans (writeChildren_restamps hpre).clock)

theorem delete_of_freshAt {s : Serializer} {g : Graph} {v : Vertex} (cascade : List Vertex)
    {lo m : Nat} (hfresh : g.FreshAt lo v.id) (hm : m ≤ lo)
    (henabled : s.config.resourceVersion.enabled = true)
    (htoken : toString m ≠ s.config.resourceVersion.disabledToken) :
    (s.delete v cascade (some (toString m)) true).run g =
      .error (if (g.vertex? v.id).isSome then .optimisticLock .delete .mismatch v.uriOrUnknown
        else .notFound v.uriOrUnknown, g.clock) := by
  cases hv : g.vertex? v.id with
  | none => simp [delete, hv, GraphM.run_fail]
  | some live =>
    obtain ⟨n, hlo, -, hrv⟩ := hfresh live hv
    have hne : some m.repr ≠ live.resourceVersion? := by
      rw [hrv]
      intro h
      have := Clock.version_inj (Option.some.inj h)
      omega
    have htoken' : m.repr ≠ s.config.resourceVersion.disabledToken := htoken
    simp [delete, hv, ResourceVersionConfig.verify, henabled, htoken', hne, GraphM.run_lift,
      Except.map]

theorem delete_restamps {s : Serializer} {v : Vertex} {cascade : List Vertex}
    {supplied : Option String} {enforce : Bool} {g g' : Graph}
    (h : (s.delete v cascade supplied enforce).run g = .ok ((), g')) : g.Restamps g' := by
  obtain ⟨live, -, -, -, hrm⟩ := (delete_run_eq_ok s v cascade supplied enforce).mp h
  exact removeLive_restamps hrm

end Serializer

/-! ### A process of requests -/

/-- A call that writes an object: the serializer it runs with, the parent the object goes under,
    if any, and the vertex it is written onto, if given. -/
structure WriteCall where
  serializer : Serializer
  parent : Option Vertex
  object : SchemaObject
  existing : Option Vertex

namespace WriteCall

def run (c : WriteCall) : GraphM Vertex := c.serializer.write c.parent c.object c.existing

def runAll : List WriteCall → GraphM Unit
  | [] => pure ()
  | c :: cs => do
    let _ ← c.run
    runAll cs

/-- The call, run from `g`, lands on the vertex of id `u`, as its object or as a nested child. -/
def WritesOnto (c : WriteCall) (g : Graph) (u : VertexId) : Prop :=
  c.serializer.WritesOnto c.parent c.object c.existing g u

/-- One of the calls, run one after another from `g`, lands on the vertex of id `u`. -/
inductive WritesIn : List WriteCall → Graph → VertexId → Prop
  | head {c : WriteCall} {cs : List WriteCall} {g : Graph} {u : VertexId} :
      c.WritesOnto g u → WritesIn (c :: cs) g u
  | tail {c : WriteCall} {cs : List WriteCall} {g g₁ : Graph} {w : Vertex} {u : VertexId} :
      c.run.run g = .ok (w, g₁) → WritesIn cs g₁ u → WritesIn (c :: cs) g u

theorem runAll_cons_run_inv {c : WriteCall} {cs : List WriteCall} {g g' : Graph}
    (h : (runAll (c :: cs)).run g = .ok ((), g')) :
    ∃ w g₁, c.run.run g = .ok (w, g₁) ∧ (runAll cs).run g₁ = .ok ((), g') := by
  rw [runAll, GraphM.run_bind_eq_ok] at h
  exact h

theorem runAll_restamps : ∀ {cs : List WriteCall} {g g' : Graph},
    (runAll cs).run g = .ok ((), g') → g.Restamps g'
  | [], g, g', h => by
    obtain ⟨-, rfl⟩ := GraphM.run_pure_eq_ok.mp h
    exact Graph.Restamps.refl g
  | c :: _, _, _, h => by
    obtain ⟨w, g₁, hc, hrest⟩ := runAll_cons_run_inv h
    exact (c.serializer.write_restamps _ _ _ hc).trans (runAll_restamps hrest)

theorem runAll_keepsCounter : ∀ cs : List WriteCall, (runAll cs).KeepsCounter
  | [] => GraphM.keepsCounter_pure ()
  | c :: cs => by
    rw [runAll]
    exact (c.serializer.write_keepsCounter _ _ _).bind fun _ => runAll_keepsCounter cs

theorem WritesIn.freshAt {cs : List WriteCall} {g g' : Graph} {u : VertexId}
    (hw : WritesIn cs g u) (h : (runAll cs).run g = .ok ((), g')) : g'.FreshAt g.clock.last u := by
  induction hw generalizing g' with
  | head hc =>
    obtain ⟨w, g₁, hrun, hrest⟩ := runAll_cons_run_inv h
    exact (hc.freshAt hrun).restamps (runAll_restamps hrest)
      (Serializer.write_restamps _ _ _ _ hrun).clock
  | @tail c cs g g₁ w u hrun _ ih =>
    obtain ⟨w', g₁', hrun', hrest⟩ := runAll_cons_run_inv h
    obtain rfl := congrArg Prod.snd (Except.ok.inj (hrun.symm.trans hrun'))
    exact (ih hrest).mono (Serializer.write_restamps _ _ _ _ hrun).clock

end WriteCall

/-- What a process asks of the store: a transaction of write calls, or a delete of a vertex with
    its cascade that quotes a resource version, checked when enforced. -/
inductive Request where
  | transaction (calls : List WriteCall)
  | delete (serializer : Serializer) (v : Vertex) (cascade : List Vertex) (supplied : Option String)
      (enforce : Bool)

namespace Request

def run : Request → GraphM Unit
  | transaction calls => WriteCall.runAll calls
  | delete s v cascade supplied enforce => s.delete v cascade supplied enforce

def commit (r : Request) (g : Graph) : Graph :=
  match r.run.run g with
  | .ok (_, g') => g'
  | .error (_, c) => { g with clock := c }

/-- The process takes the store from `g` to `g'` by one request. -/
def Step (g g' : Graph) : Prop := ∃ r : Request, r.commit g = g'

theorem commit_of_error {r : Request} {g : Graph} {e : GraphError} {c : Clock}
    (h : r.run.run g = .error (e, c)) : r.commit g = { g with clock := c } := by
  simp only [commit, h]

theorem run_keepsCounter : ∀ r : Request, r.run.KeepsCounter
  | transaction calls => WriteCall.runAll_keepsCounter calls
  | delete s v cascade supplied enforce => s.delete_keepsCounter v cascade supplied enforce

theorem commit_restamps (r : Request) (g : Graph) : g.Restamps (r.commit g) := by
  have hkeep := r.run_keepsCounter g
  unfold commit
  split
  · next g' h =>
    cases r with
    | transaction calls => exact WriteCall.runAll_restamps h
    | delete s v cascade supplied enforce => exact Serializer.delete_restamps h
  · next c h =>
    rw [h] at hkeep
    exact Graph.Restamps.withClock g hkeep

theorem Step.restamps {g g' : Graph} (h : Relation.ReflTransGen Step g g') : g.Restamps g' := by
  induction h with
  | refl => exact Graph.Restamps.refl g
  | tail _ hstep ih =>
    obtain ⟨r, rfl⟩ := hstep
    exact ih.trans (commit_restamps r _)

end Request

/-- A resource version read in a committed store is stale once a later committed transaction has
    written the vertex, as its object or as a nested child: whatever the clock reads, a checked
    delete quoting it, under a config that checks versions, fails and the store stays as it was,
    with a mismatch while the vertex is live and not found once it is gone. -/
theorem stale_version_never_deletes {c : Clock} {S₀ T T' g : Graph} {calls : List WriteCall}
    {s : Serializer} {v : Vertex} {cascade : List Vertex} {x : String}
    (h₀ : Relation.ReflTransGen Request.Step (Graph.startingAt c) S₀)
    (hx : (S₀.vertex? v.id).bind Vertex.resourceVersion? = some x)
    (h₁ : Relation.ReflTransGen Request.Step S₀ T) (hwrote : WriteCall.WritesIn calls T v.id)
    (hcommit : (WriteCall.runAll calls).run T = .ok ((), T'))
    (h₂ : Relation.ReflTransGen Request.Step T' g)
    (henabled : s.config.resourceVersion.enabled = true)
    (htoken : x ≠ s.config.resourceVersion.disabledToken) :
    (Request.delete s v cascade (some x) true).commit g = g ∧
    (s.delete v cascade (some x) true).run g =
      .error (if (g.vertex? v.id).isSome then .optimisticLock .delete .mismatch v.uriOrUnknown
        else .notFound v.uriOrUnknown, g.clock) := by
  obtain ⟨w₀, hw₀, hxw⟩ := Option.bind_eq_some_iff.mp hx
  have hS₀ := (Graph.startingAt_stamped c).restamps (Request.Step.restamps h₀)
  obtain ⟨m, -, hm, hxm⟩ := (hS₀ v.id w₀ hw₀).resolve_left (by simp [hxw])
  -- the transaction stamps the vertex past `m`, and no later request takes that back
  have hT := Request.Step.restamps h₁
  have hTT' := WriteCall.runAll_restamps hcommit
  have hg := Request.Step.restamps h₂
  have hfresh : g.FreshAt T.clock.last v.id := (hwrote.freshAt hcommit).restamps hg hTT'.clock
  obtain rfl : x = toString m := Option.some.inj (hxw.symm.trans hxm)
  have hrun := Serializer.delete_of_freshAt cascade hfresh (hm.trans hT.clock) henabled htoken
  exact ⟨Request.commit_of_error hrun, hrun⟩

namespace RewrittenPallet

def pallet : Identifier := ⟨"pallet", by decide⟩
def tag : Identifier := ⟨"tag", by decide⟩

def palletType : NodeType := (NodeType.new pallet SchemaVersion.v12).withKey tag

def serializer : Serializer where
  scope := ⟨⟨[palletType], []⟩, SchemaVersion.v12⟩
  config := {}
  sourceOfTruth := "depot"

def tagged (l : String) : SchemaObject := (SchemaObject.new pallet).withProperty "tag" (.str l)

def stuck : Clock where
  readings _ := 1786403915000000
  uuids n := "sid-" ++ toString n

def handle : Vertex := Vertex.new ⟨1⟩ pallet 0

def first : Request := .transaction [⟨serializer, none, tagged "p", none⟩]

def committed : Graph := first.commit (Graph.startingAt stuck)

def failing : Request :=
  .transaction [⟨serializer, none, tagged "q", none⟩, ⟨serializer, none, SchemaObject.new pallet, none⟩]

def rolledBack : Graph := failing.commit committed

def again : WriteCall := ⟨serializer, none, tagged "p", some handle⟩

def prepared : (SchemaObject × Vertex × Bool) × Graph :=
  ((serializer.prepare none (tagged "p") (some handle)).run rolledBack).toOption.getD
    ((tagged "p", handle, false), rolledBack)

def rewriting : Unit × Graph :=
  ((WriteCall.runAll [again]).run rolledBack).toOption.getD ((), rolledBack)

def rewritten : Graph := rewriting.2

theorem stuck_clock_version_goes_stale :
    (committed.vertex? handle.id).bind Vertex.resourceVersion? = some "1786403915000000" ∧
    rolledBack.vertices.map (·.id) = [handle.id] ∧ rolledBack.clock.last = 1786403915000001 ∧
    (rewritten.vertex? handle.id).bind Vertex.resourceVersion? = some "1786403915000002" ∧
    (serializer.delete handle [] (some "1786403915000000") true).run rewritten =
      .error (.optimisticLock .delete .mismatch handle.uriOrUnknown, rewritten.clock) := by
  have hx : (committed.vertex? handle.id).bind Vertex.resourceVersion? = some "1786403915000000" := by
    decide +kernel
  have hrun : (serializer.prepare none (tagged "p") (some handle)).run rolledBack =
      .ok (prepared.1, prepared.2) :=
    Except.eq_ok_getD (by decide +kernel) ((tagged "p", handle, false), rolledBack)
  have hprep : (serializer.prepare none (tagged "p") (some handle)).run rolledBack =
      .ok ((prepared.1.1, prepared.1.2.1, prepared.1.2.2), prepared.2) := by
    simpa only [Prod.mk.eta] using hrun
  have hid : prepared.1.2.1.id = handle.id := by decide +kernel
  have hall : (WriteCall.runAll [again]).run rolledBack = .ok (rewriting.1, rewriting.2) :=
    Except.eq_ok_getD (by decide +kernel) ((), rolledBack)
  have hcommit : (WriteCall.runAll [again]).run rolledBack = .ok ((), rewritten) := by
    rw [hall, Subsingleton.elim rewriting.1 ()]
    rfl
  have hlive : (rewritten.vertex? handle.id).isSome = true := by decide +kernel
  have htoken : "1786403915000000" ≠ serializer.config.resourceVersion.disabledToken := by
    decide +kernel
  have hwrote : WriteCall.WritesIn [again] rolledBack prepared.1.2.1.id :=
    .head (Serializer.WritesOnto.prepared hprep)
  rw [hid] at hwrote
  obtain ⟨-, hdel⟩ := stale_version_never_deletes (.single ⟨first, rfl⟩) hx
    (.single ⟨failing, rfl⟩) hwrote hcommit .refl rfl htoken
  rw [if_pos hlive] at hdel
  exact ⟨hx, by decide +kernel, by decide +kernel, by decide +kernel, hdel⟩

example : ((serializer.delete handle [] (some "1786403915000000") true).run rolledBack).isOk = true := by
  decide +kernel

end RewrittenPallet
end InventoryGraph
