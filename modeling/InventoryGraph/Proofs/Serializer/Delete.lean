import InventoryGraph.Proofs.Cascade.Plan
import InventoryGraph.Serializer.Write

/-!
Deleting a vertex with a precomputed cascade. The delete checks, before it removes anything,
that the vertex is live, that its resource version passes when checking is enforced, and that
no stored vertex outside the doomed set (the cascade and the vertex) blocks it; then it removes
every doomed vertex still live. So it either fails, and the store it started from stands, or
it succeeds, leaving exactly the store without the doomed vertices and the edges touching them.
-/
namespace InventoryGraph

namespace GraphM

theorem removeLive_nil (g : Graph) : (removeLive []).run g = .ok ((), g) := rfl

theorem removeLive_cons (d : Vertex) (ds : List Vertex) (g : Graph) :
    (removeLive (d :: ds)).run g =
      if (g.vertex? d.id).isSome then (removeVertex d.id).run g >>= fun r => (removeLive ds).run r.2
      else (removeLive ds).run g := by
  simp only [removeLive, List.forIn_cons, StateT.run_bind, StateT.run_get, pure_bind]
  split
  · simp only [StateT.run_bind, bind_assoc, StateT.run_pure, pure_bind]
  · simp only [StateT.run_pure, pure_bind]

end GraphM

namespace Graph

theorem removeVertex_ok_of_live {g : Graph} {x : VertexId} (h : (g.vertex? x).isSome) :
    ∃ es g', g.removeVertex x = .ok (es, g') := by
  obtain ⟨v, hv⟩ := Option.isSome_iff_exists.mp h
  simp [removeVertex, hv]

theorem removeLive_step {g : Graph} (h : g.Consistent) (d : Vertex) (ds : List Vertex) :
    ∃ g₁, g₁.Consistent ∧ g₁.vertices = g.vertices.filter (·.id != d.id) ∧
      g₁.edges = g.edges.filter (!·.touches d.id) ∧
      (GraphM.removeLive (d :: ds)).run g = (GraphM.removeLive ds).run g₁ := by
  rw [GraphM.removeLive_cons]
  by_cases hlive : (g.vertex? d.id).isSome
  · obtain ⟨es, g₁, hrm⟩ := removeVertex_ok_of_live hlive
    obtain ⟨-, hv, he, -, hc⟩ := removeVertex_spec h hrm
    refine ⟨g₁, hc, hv, he, ?_⟩
    rw [if_pos hlive, GraphM.run_removeVertex, hrm]
    rfl
  · have hdead : ¬ g.Live d.id := fun hl => hlive ((g.vertex?_isSome_iff d.id).mpr hl)
    refine ⟨g, h, ?_, ?_, by rw [if_neg hlive]⟩
    · refine (List.filter_eq_self.mpr fun w hw => ?_).symm
      simpa using fun hwd => hdead ⟨w, hw, hwd⟩
    · refine (List.filter_eq_self.mpr fun e he => ?_).symm
      obtain ⟨hout, hin⟩ := h.ends_live e he
      simp only [Edge.touches, Bool.not_or, Bool.and_eq_true, Bool.not_eq_true', beq_eq_false_iff_ne]
      exact ⟨fun hd => hdead (hd ▸ hout), fun hd => hdead (hd ▸ hin)⟩

theorem removeLive_run {g : Graph} (h : g.Consistent) (ds : List Vertex) :
    ∃ g', (GraphM.removeLive ds).run g = .ok ((), g') ∧ g'.Consistent ∧
      g'.vertices = g.vertices.filter (·.id ∉ ds.map (·.id)) ∧
      g'.edges = g.edges.filter (fun e => e.outV ∉ ds.map (·.id) ∧ e.inV ∉ ds.map (·.id)) := by
  induction ds generalizing g with
  | nil => exact ⟨g, GraphM.removeLive_nil g, h, by simp, by simp⟩
  | cons d ds ih =>
    obtain ⟨g₁, hc₁, hv₁, he₁, hrun⟩ := removeLive_step h d ds
    obtain ⟨g', hrun', hc', hv', he'⟩ := ih hc₁
    refine ⟨g', hrun.trans hrun', hc', ?_, ?_⟩
    · rw [hv', hv₁, List.filter_filter]
      refine List.filter_congr fun w _ => ?_
      by_cases hw : w.id = d.id <;> simp [hw]
    · rw [he', he₁, List.filter_filter]
      refine List.filter_congr fun e _ => ?_
      simp only [Edge.touches, List.map_cons, List.mem_cons, not_or]
      by_cases ho : e.outV = d.id <;> by_cases hi : e.inV = d.id <;> simp [ho, hi]

end Graph

namespace Serializer

theorem mem_doomed_ids {L : List Vertex} {live : Vertex} {d : VertexId} :
    d ∈ (doomed L live).map (·.id) ↔ d = live.id ∨ d ∈ L.map (·.id) := by
  unfold doomed
  split
  · next hany =>
    obtain ⟨w, hw, hwid⟩ := List.any_eq_true.mp hany
    constructor
    · exact .inr
    · rintro (rfl | hd)
      · exact List.mem_map.mpr ⟨w, hw, by simpa using hwid⟩
      · exact hd
  · simp [or_comm]

theorem delete_run_eq_ok (s : Serializer) {S S' : Graph} (v : Vertex) (L : List Vertex)
    (supplied : Option String) (enforce : Bool) :
    (s.delete v L supplied enforce).run S = .ok ((), S') ↔
      ∃ live, S.vertex? v.id = some live ∧
        (enforce = true → s.config.resourceVersion.verify .delete supplied live.resourceVersion?
          v.uriOrUnknown = .ok ()) ∧
        S.blockingTypes (doomed L live) = [] ∧
        (GraphM.removeLive (doomed L live)).run S = .ok ((), S') := by
  cases hv : S.vertex? v.id with
  | none => simp [delete, hv, GraphM.run_fail]
  | some live =>
    simp only [delete, StateT.run_bind, StateT.run_get, pure_bind, hv, Option.some.injEq,
      exists_eq_left']
    cases enforce with
    | false => cases S.blockingTypes (doomed L live) <;> simp [GraphM.run_fail]
    | true =>
      cases s.config.resourceVersion.verify .delete supplied live.resourceVersion? v.uriOrUnknown with
      | error e => simp [GraphM.run_lift, Except.map, Except.mapError]
      | ok u =>
        cases S.blockingTypes (doomed L live) <;>
          simp [GraphM.run_lift, Except.map, Except.mapError, GraphM.run_fail]

end Serializer

namespace Serializer
open InventoryGraph.Graph

theorem blockingTypes_doomed_eq_nil_iff {S : Graph} (h : S.Consistent) {v live : Vertex}
    (hlid : live.id = v.id) (L : List Vertex) :
    S.blockingTypes (doomed L live) = [] ↔
      ∀ o ∈ S.vertices, o.id ∉ v.id :: L.map (·.id) → ∀ d ∈ v.id :: L.map (·.id), ∀ e ∈ S.edges,
        e.edgeType = .cousin → e.blockedBy? d ≠ some o.id := by
  have hD : ∀ d, d ∈ (doomed L live).map (·.id) ↔ d ∈ v.id :: L.map (·.id) := fun d => by
    rw [mem_doomed_ids, hlid, List.mem_cons]
  rw [blockingTypes_eq_nil_iff h]
  constructor
  · rintro hnone o ho hout d hd e he hcousin hblk
    obtain ⟨p, hp, rfl⟩ := List.mem_map.mp ((hD d).mpr hd)
    exact hnone o ⟨ho, fun hin => hout ((hD _).mp hin), p, hp, e, he, hcousin, hblk⟩
  · rintro hall o ⟨ho, hout, p, hp, e, he, hcousin, hblk⟩
    exact hall o ho (fun hin => hout ((hD _).mpr hin)) p.id ((hD p.id).mp (List.mem_map_of_mem hp))
      e he hcousin hblk

/-- A delete on any store the writes reach either fails, the store it started from standing,
    or succeeds and leaves exactly that store without the doomed vertices (the cascade and the
    vertex) and every edge touching one of them. It succeeds exactly when the vertex is live,
    its resource version passes when checking is enforced, and no stored vertex outside the
    doomed set is named by a cousin edge flagged to prevent deleting a doomed vertex. -/
theorem delete_removes_doomed_or_nothing {S : Graph} (hS : S.Reachable) (s : Serializer)
    (v : Vertex) (L : List Vertex) (supplied : Option String) (enforce : Bool) :
    let D := v.id :: L.map (·.id)
    (∀ S', (s.delete v L supplied enforce).run S = .ok ((), S') →
      S'.vertices = S.vertices.filter (·.id ∉ D) ∧
      S'.edges = S.edges.filter (fun e => e.outV ∉ D ∧ e.inV ∉ D) ∧ S'.Consistent) ∧
    ((∃ S', (s.delete v L supplied enforce).run S = .ok ((), S')) ↔
      ∃ live, S.vertex? v.id = some live ∧
        (enforce = true →
          s.config.resourceVersion.verify .delete supplied live.resourceVersion? v.uriOrUnknown =
            .ok ()) ∧
        ∀ o ∈ S.vertices, o.id ∉ D → ∀ d ∈ D, ∀ e ∈ S.edges,
          e.edgeType = .cousin → e.blockedBy? d ≠ some o.id) := by
  intro D
  have h := hS.consistent
  -- the removal loop over the doomed list of a live vertex, read over `D`
  have hloop : ∀ live, S.vertex? v.id = some live → ∃ g', (GraphM.removeLive (doomed L live)).run S =
      .ok ((), g') ∧ g'.vertices = S.vertices.filter (·.id ∉ D) ∧
      g'.edges = S.edges.filter (fun e => e.outV ∉ D ∧ e.inV ∉ D) ∧ g'.Consistent := by
    intro live hv
    have hlid := (mem_of_vertex? hv).2
    obtain ⟨g', hrun, hc', hv', he'⟩ := removeLive_run h (doomed L live)
    have hD : ∀ d, d ∈ (doomed L live).map (·.id) ↔ d ∈ D := fun d => by
      rw [mem_doomed_ids, hlid, List.mem_cons]
    simp only [hD] at hv' he'
    exact ⟨g', hrun, hv', he', hc'⟩
  refine ⟨fun S' hok => ?_, ⟨fun ⟨S', hok⟩ => ?_, fun ⟨live, hv, hver, hfree⟩ => ?_⟩⟩
  · obtain ⟨live, hv, -, -, hrun⟩ := (delete_run_eq_ok s v L supplied enforce).mp hok
    obtain ⟨g', hrun', hgood⟩ := hloop live hv
    rw [hrun] at hrun'
    cases hrun'
    exact hgood
  · obtain ⟨live, hv, hver, hfree, -⟩ := (delete_run_eq_ok s v L supplied enforce).mp hok
    exact ⟨live, hv, hver, (blockingTypes_doomed_eq_nil_iff h (mem_of_vertex? hv).2 L).mp hfree⟩
  · obtain ⟨g', hrun, -⟩ := hloop live hv
    exact ⟨g', (delete_run_eq_ok s v L supplied enforce).mpr ⟨live, hv, hver,
      (blockingTypes_doomed_eq_nil_iff h (mem_of_vertex? hv).2 L).mpr hfree, hrun⟩⟩

namespace BlockedRack
open InventoryGraph.Graph.BlockedRack

def serializer : Serializer :=
  { scope := ⟨Catalog.empty, default⟩, config := {}, sourceOfTruth := "inventory" }

def rackVertex : Vertex := Vertex.new ⟨2⟩ rack 2

theorem delete_removes_doomed_or_nothing_blocked_rack :
    cabled.Reachable ∧
    (let D := root.id :: [rackVertex, root].map (·.id)
    (∀ S', (serializer.delete root [rackVertex, root] none true).run cabled = .ok ((), S') →
      S'.vertices = cabled.vertices.filter (·.id ∉ D) ∧
      S'.edges = cabled.edges.filter (fun e => e.outV ∉ D ∧ e.inV ∉ D) ∧ S'.Consistent) ∧
    ((∃ S', (serializer.delete root [rackVertex, root] none true).run cabled = .ok ((), S')) ↔
      ∃ live, cabled.vertex? root.id = some live ∧
        (true = true →
          serializer.config.resourceVersion.verify .delete none live.resourceVersion?
            root.uriOrUnknown = .ok ()) ∧
        ∀ o ∈ cabled.vertices, o.id ∉ D → ∀ d ∈ D, ∀ e ∈ cabled.edges,
          e.edgeType = .cousin → e.blockedBy? d ≠ some o.id)) ∧
    cabled.vertex? rackVertex.id = some rackVertex ∧
    (serializer.delete root [rackVertex, root] none true).run cabled =
      .error (.blockedDelete ["cable"], cabled.clock) :=
  let hS := (Reachable.start _).writeAll _
  ⟨hS, delete_removes_doomed_or_nothing hS _ _ _ _ _, by decide +kernel, rfl⟩

end BlockedRack

end Serializer
end InventoryGraph
