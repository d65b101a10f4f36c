import InventoryGraph.Proofs.Serializer.DistinctAddresses
import Mathlib.Logic.Relation
import Mathlib.Data.List.Perm.Subperm

/-!
The address of a vertex found by walking up. From a vertex, the walk takes its segment and goes
on to the stored vertex of its tree parent, until it reaches a vertex with no tree parent; the
address is the segments joined, root first. The walk finds no address when a segment is
missing, when a parent is not stored, or when it comes back to a vertex it has walked.

Computing an address stops early, at the first parent holding a cached address other than the
unknown one, and takes that address for the rest of the walk. Where every cached address is
the walked address of its vertex, the early stop changes nothing: a parent's walk cannot meet
the vertices below it, since their walk goes through it, so its address is the rest of theirs.
The walk's bound is never reached: each step walks a stored id not walked before.
-/
namespace InventoryGraph
namespace Scope

variable (s : Scope)

/-- `s.UpwardUri g seen v u`: walking up from `v`, meeting no id of `seen`, finds address `u`. -/
inductive UpwardUri (g : Graph) : List VertexId → Vertex → String → Prop
  | root {seen : List VertexId} {v : Vertex} {seg : String} :
      v.id ∉ seen → s.segment? v = some seg → g.treeParent? v.id = none →
      UpwardUri g seen v seg
  | up {seen : List VertexId} {v pv : Vertex} {seg u : String} {p : VertexId} :
      v.id ∉ seen → s.segment? v = some seg → g.treeParent? v.id = some p →
      g.vertex? p = some pv → UpwardUri g (v.id :: seen) pv u →
      UpwardUri g seen v (u ++ seg)

/-- Every cached address other than the unknown one is the walked address of its vertex. -/
def CachedRight (g : Graph) : Prop :=
  ∀ x v, g.vertex? x = some v → ∀ u, v.uri? = some u → u ≠ unknownUri → s.UpwardUri g [] v u

/-- The cached addresses above a vertex, other than the unknown one, are the walked addresses of
    their vertices. -/
def CachedRightAbove (g : Graph) (x : VertexId) : Prop :=
  ∀ p pv, Relation.TransGen g.ParentOf p x → g.vertex? p = some pv →
    ∀ u, pv.uri? = some u → u ≠ unknownUri → s.UpwardUri g [] pv u

variable {s} {g : Graph}

theorem CachedRight.above (h : s.CachedRight g) (x : VertexId) : s.CachedRightAbove g x :=
  fun p pv _ hpv => h p pv hpv

theorem UpwardUri.cases_iff {seen : List VertexId} {v : Vertex} {u : String} :
    s.UpwardUri g seen v u ↔ v.id ∉ seen ∧ ∃ seg, s.segment? v = some seg ∧
      ((g.treeParent? v.id = none ∧ u = seg) ∨
        ∃ p pv u', g.treeParent? v.id = some p ∧ g.vertex? p = some pv ∧
          s.UpwardUri g (v.id :: seen) pv u' ∧ u = u' ++ seg) := by
  constructor
  · rintro (⟨hv, hseg, hp⟩ | ⟨hv, hseg, hp, hpv, hu⟩)
    · exact ⟨hv, _, hseg, .inl ⟨hp, rfl⟩⟩
    · exact ⟨hv, _, hseg, .inr ⟨_, _, _, hp, hpv, hu, rfl⟩⟩
  · rintro ⟨hv, seg, hseg, ⟨hp, rfl⟩ | ⟨p, pv, u', hp, hpv, hu, rfl⟩⟩
    · exact .root hv hseg hp
    · exact .up hv hseg hp hpv hu

theorem UpwardUri.up_iff {seen : List VertexId} {v pv : Vertex} {seg : String} {p : VertexId}
    (hnot : v.id ∉ seen) (hseg : s.segment? v = some seg) (hp : g.treeParent? v.id = some p)
    (hpv : g.vertex? p = some pv) (w : String) :
    s.UpwardUri g seen v w ↔ ∃ u', s.UpwardUri g (v.id :: seen) pv u' ∧ w = u' ++ seg := by
  constructor
  · intro hw
    obtain ⟨-, seg', hseg', ⟨hp', -⟩ | ⟨p', pv', u', hp', hpv', hu', rfl⟩⟩ :=
      UpwardUri.cases_iff.mp hw
    · rw [hp] at hp'
      cases hp'
    · rw [hp] at hp'
      cases hp'
      rw [hpv] at hpv'
      cases hpv'
      rw [hseg] at hseg'
      cases hseg'
      exact ⟨u', hu', rfl⟩
  · rintro ⟨u', hu', rfl⟩
    exact .up hnot hseg hp hpv hu'

theorem UpwardUri.unique {seen : List VertexId} {v : Vertex} {u u' : String}
    (h : s.UpwardUri g seen v u) (h' : s.UpwardUri g seen v u') : u = u' := by
  induction h generalizing u' with
  | root _ hseg hp =>
    obtain ⟨-, seg', hseg', ⟨-, rfl⟩ | ⟨p, -, -, hp', -⟩⟩ := UpwardUri.cases_iff.mp h'
    · exact Option.some.inj (hseg.symm.trans hseg')
    · rw [hp] at hp'
      cases hp'
  | up hnot hseg hp hpv _ ih =>
    obtain ⟨w, hw, rfl⟩ := (UpwardUri.up_iff hnot hseg hp hpv u').mp h'
    rw [ih hw]

theorem parentOf_of_vertex? {v pv : Vertex} {p : VertexId} (hp : g.treeParent? v.id = some p)
    (hpv : g.vertex? p = some pv) : g.ParentOf pv.id v.id := by
  rw [(Graph.mem_of_vertex? hpv).2]
  exact hp

theorem UpwardUri.fresh {seen : List VertexId} {v : Vertex} {u : String}
    (h : s.UpwardUri g seen v u) :
    ∀ y, Relation.ReflTransGen g.ParentOf y v.id → y ∉ seen := by
  induction h with
  | root hv _ hp =>
    intro y hy
    rcases hy.cases_tail with rfl | ⟨z, -, hz⟩
    · exact hv
    · rw [Graph.ParentOf, hp] at hz
      cases hz
  | up hv _ hp hpv _ ih =>
    intro y hy
    rcases hy.cases_tail with rfl | ⟨z, hyz, hz⟩
    · exact hv
    · -- the step above the start is the parent's vertex, from where the walk avoids more
      have hzp : z = _ := Option.some.inj (hz.symm.trans (parentOf_of_vertex? hp hpv))
      subst hzp
      exact fun hmem => ih y hyz (List.mem_cons_of_mem _ hmem)

theorem UpwardUri.reseed {seen : List VertexId} {v : Vertex} {u : String}
    (h : s.UpwardUri g seen v u) :
    ∀ seen' : List VertexId, (∀ z ∈ seen', Relation.TransGen g.ParentOf v.id z) →
      s.UpwardUri g seen' v u := by
  induction h with
  | root _ hseg hp =>
    intro seen' hbelow
    refine .root (fun hmem => ?_) hseg hp
    obtain ⟨z, -, hz⟩ := Relation.TransGen.tail'_iff.mp (hbelow _ hmem)
    rw [Graph.ParentOf, hp] at hz
    cases hz
  | @up seen v pv seg u p _ hseg hp hpv hu ih =>
    intro seen' hbelow
    have hpar := parentOf_of_vertex? hp hpv
    refine .up (fun hmem => ?_) hseg hp hpv (ih _ fun z hz => ?_)
    · -- a cycle through `v` would put `v` above its parent's vertex
      obtain ⟨z, hvz, hz⟩ := Relation.TransGen.tail'_iff.mp (hbelow _ hmem)
      have hzp : z = pv.id := Option.some.inj (hz.symm.trans hpar)
      subst hzp
      exact hu.fresh v.id hvz List.mem_cons_self
    · rcases List.mem_cons.mp hz with rfl | hz
      · exact .single hpar
      · exact .head hpar (hbelow z hz)

/-! ### The walk and the address relation

For a stored vertex, the walk finds exactly the address of `Address`, read top down from a
root: an address reaches a root, so following parents from its vertex ends, and a chain that
ends never comes back to a vertex. -/

theorem AddressBelow.bottom {p : Option VertexId} {x : VertexId} {u : String}
    (h : s.AddressBelow g p x u) : ∃ seg, s.segAt g x = some seg ∧
      ((g.treeParent? x = p ∧ u = seg) ∨
        ∃ y u', g.treeParent? x = some y ∧ s.AddressBelow g p y u' ∧ u = u' ++ seg) := by
  induction h with
  | here hp hs => exact ⟨_, hs, .inl ⟨hp, rfl⟩⟩
  | @down p y x sy u hp hs _ ih =>
    obtain ⟨seg, hseg, ⟨hx, hu⟩ | ⟨y', u', hx, hy', hu⟩⟩ := ih
    · exact ⟨seg, hseg, .inr ⟨y, sy, hx, .here hp hs, by rw [hu]⟩⟩
    · exact ⟨seg, hseg, .inr ⟨y', sy ++ u', hx, .down hp hs hy', by rw [hu, String.append_assoc]⟩⟩

theorem AddressBelow.acc {p : Option VertexId} {x : VertexId} {u : String}
    (h : s.AddressBelow g p x u) (hp : ∀ y, p = some y → Acc g.ParentOf y) : Acc g.ParentOf x := by
  induction h with
  | here hx _ => exact ⟨_, fun y hy => hp y (hx.symm.trans hy)⟩
  | down hy _ _ ih =>
    exact ih fun y' hy' => (Option.some.inj hy') ▸ ⟨_, fun z hz => hp z (hy.symm.trans hz)⟩

theorem UpwardUri.address {seen : List VertexId} {v : Vertex} {u : String}
    (h : s.UpwardUri g seen v u) (hv : g.vertex? v.id = some v) : s.Address g v.id u := by
  induction h with
  | root _ hseg hp => exact .here hp ((segAt_of_vertex? hv).trans hseg)
  | up _ hseg hp hpv _ ih =>
    have hpid := (Graph.mem_of_vertex? hpv).2
    have hpar : g.treeParent? _ = some _ := parentOf_of_vertex? hp hpv
    exact (ih (hpid ▸ hpv)).snoc hpar ((segAt_of_vertex? hv).trans hseg)

theorem Address.upwardUri {x : VertexId} {u : String} (h : s.Address g x u) {v : Vertex}
    (hv : g.vertex? x = some v) : s.UpwardUri g [] v u := by
  have hacc : Acc g.ParentOf x := AddressBelow.acc h (by simp)
  revert u v
  induction hacc with
  | intro x _ ih =>
    intro u h v hv
    have hvid : v.id = x := (Graph.mem_of_vertex? hv).2
    obtain ⟨seg, hseg, ⟨hp, hu⟩ | ⟨y, u', hp, hy, hu⟩⟩ := AddressBelow.bottom h
    · have hseg' : s.segment? v = some seg := (segAt_of_vertex? hv).symm.trans hseg
      rw [hu]
      exact .root List.not_mem_nil hseg' (hvid ▸ hp)
    · have hseg' : s.segment? v = some seg := (segAt_of_vertex? hv).symm.trans hseg
      rw [hu]
      obtain ⟨sy, hsy, -⟩ := AddressBelow.bottom hy
      obtain ⟨pv, hpv, -⟩ := Option.bind_eq_some_iff.mp hsy
      have hup := (ih y hp hy hpv).reseed [v.id] fun z hz => by
        rw [List.mem_singleton.mp hz, (Graph.mem_of_vertex? hpv).2, hvid]
        exact .single hp
      exact .up List.not_mem_nil hseg' (hvid ▸ hp) hpv hup

theorem upwardUri_iff_address {v : Vertex} (hv : g.vertex? v.id = some v) (u : String) :
    s.UpwardUri g [] v u ↔ s.Address g v.id u :=
  ⟨fun h => h.address hv, fun h => h.upwardUri hv⟩

theorem UrisCorrect.cachedRight (h : s.UrisCorrect g) : s.CachedRight g := by
  intro x v hv u hu _
  obtain ⟨p, hp, hpu⟩ := Option.bind_eq_some_iff.mp hu
  obtain ⟨u', rfl, haddr⟩ := h x v hv p hp
  cases hpu
  exact haddr.upwardUri hv

theorem climb_eq (x₀ : Vertex) (hcache : s.CachedRightAbove g x₀.id) :
    ∀ (fuel : Nat) (seen : List VertexId) (acc : List String) (v : Vertex),
      seen.Nodup → (∀ z ∈ seen, z ∈ x₀.id :: g.vertices.map (·.id)) →
      v.id ∈ x₀.id :: g.vertices.map (·.id) → g.vertices.length + 1 < fuel + seen.length →
      (∀ z ∈ seen, Relation.TransGen g.ParentOf v.id z) → v = x₀ ∨ x₀.id ∈ seen →
      (∀ u, s.UpwardUri g seen v u → s.climb g fuel seen acc v = String.join (u :: acc)) ∧
        ((∀ u, ¬ s.UpwardUri g seen v u) → s.climb g fuel seen acc v = unknownUri)
  | 0, seen, _, _, hnodup, hsub, _, hfuel, _, _ => by
    -- the walked ids are distinct and among the stored ones and the start
    have hle := (List.Nodup.subperm hnodup hsub).length_le
    simp only [List.length_cons, List.length_map] at hle
    omega
  | fuel + 1, seen, acc, v, hnodup, hsub, hv, hfuel, hbelow, hstart => by
    generalize hr : s.climb g (fuel + 1) seen acc v = r
    by_cases hseen : seen.contains v.id = true
    · rw [climb, if_pos hseen] at hr
      subst hr
      have hmem : v.id ∈ seen := by simpa using hseen
      exact ⟨fun u hu => absurd hmem (UpwardUri.cases_iff.mp hu).1, fun _ => rfl⟩
    rw [climb, if_neg hseen] at hr
    have hnot : v.id ∉ seen := by simpa using hseen
    split at hr
    · next hseg =>
      subst hr
      refine ⟨fun u hu => ?_, fun _ => rfl⟩
      obtain ⟨-, seg, hseg', -⟩ := UpwardUri.cases_iff.mp hu
      rw [hseg] at hseg'
      cases hseg'
    · next seg hseg =>
      dsimp only at hr
      split at hr
      · next hroot =>
        subst hr
        have hup : s.UpwardUri g seen v seg := .root hnot hseg hroot
        exact ⟨fun u hu => by rw [← hup.unique hu], fun hnone => absurd hup (hnone seg)⟩
      · next p hp =>
        split at hr
        · next hpv =>
          subst hr
          refine ⟨fun u hu => ?_, fun _ => rfl⟩
          obtain ⟨-, -, -, ⟨hp', -⟩ | ⟨p', pv', -, hp', hpv', -⟩⟩ := UpwardUri.cases_iff.mp hu
          · rw [hp] at hp'
            cases hp'
          · rw [hp] at hp'
            cases hp'
            rw [hpv] at hpv'
            cases hpv'
        · next pv hpv =>
          have hpar := parentOf_of_vertex? hp hpv
          have habove : Relation.TransGen g.ParentOf pv.id x₀.id := by
            rcases hstart with rfl | hx₀
            · exact .single hpar
            · exact .head hpar (hbelow _ hx₀)
          have hbelow' : ∀ z ∈ v.id :: seen, Relation.TransGen g.ParentOf pv.id z := by
            intro z hz
            rcases List.mem_cons.mp hz with rfl | hz
            · exact .single hpar
            · exact .head hpar (hbelow z hz)
          have hstep := UpwardUri.up_iff hnot hseg hp hpv
          have hjoin : ∀ u', String.join (u' :: seg :: acc) = String.join ((u' ++ seg) :: acc) := by
            intro u'
            simp only [String.join_cons, String.append_assoc]
          have hon : s.climb g fuel (v.id :: seen) (seg :: acc) pv = r →
              (∀ u, s.UpwardUri g seen v u → r = String.join (u :: acc)) ∧
                ((∀ u, ¬ s.UpwardUri g seen v u) → r = unknownUri) := by
            intro hrec
            have hpv_mem : pv.id ∈ x₀.id :: g.vertices.map (·.id) :=
              List.mem_cons_of_mem _ (List.mem_map_of_mem (Graph.mem_of_vertex? hpv).1)
            obtain ⟨hsome, hnone⟩ := climb_eq x₀ hcache fuel (v.id :: seen) (seg :: acc) pv
              (List.nodup_cons.mpr ⟨hnot, hnodup⟩)
              (fun z hz => (List.mem_cons.mp hz).elim (· ▸ hv) (hsub z)) hpv_mem
              (by simp only [List.length_cons]; omega) hbelow'
              (.inr (hstart.elim (fun h => h ▸ List.mem_cons_self)
                (List.mem_cons_of_mem _)))
            refine ⟨fun u hu => ?_, fun hno => ?_⟩
            · obtain ⟨u', hu', rfl⟩ := (hstep u).mp hu
              rw [← hrec, hsome u' hu', hjoin]
            · rw [← hrec]
              exact hnone fun u' hu' => hno _ ((hstep _).mpr ⟨u', hu', rfl⟩)
          split at hr
          · next cached hcached =>
            split at hr
            · next hknown =>
              subst hr
              have hpu := (hcache p pv ((Graph.mem_of_vertex? hpv).2 ▸ habove) hpv cached
                hcached hknown).reseed _ hbelow'
              have hup : s.UpwardUri g seen v (cached ++ seg) := .up hnot hseg hp hpv hpu
              exact ⟨fun u hu => by rw [← hup.unique hu, hjoin],
                fun hnone => absurd hup (hnone _)⟩
            · exact hon hr
          · exact hon hr

theorem computeUri_eq_walk_above {x : Vertex} (hcache : s.CachedRightAbove g x.id) :
    (∀ u, s.UpwardUri g [] x u → s.computeUri g x = u) ∧
      ((∀ u, ¬ s.UpwardUri g [] x u) → s.computeUri g x = unknownUri) := by
  obtain ⟨hsome, hnone⟩ := climb_eq x hcache (g.vertices.length + 2) [] [] x List.nodup_nil
    (by simp) List.mem_cons_self (by simp) (by simp) (.inl rfl)
  refine ⟨fun u hu => ?_, hnone⟩
  rw [computeUri, hsome u hu, String.join_cons, String.join_nil, String.append_empty]

/-- Computing the address of any vertex, stored or not, where every cached address other than
    the unknown one is its vertex's walked address: it is the address found by walking tree
    parents from the vertex to a root and joining the segments root first, and the unknown
    address when that walk finds none, because a segment is missing, a parent is not stored or
    a vertex comes back. -/
theorem computeUri_eq_walk (hcache : s.CachedRight g) (x : Vertex) :
    (∀ u, s.UpwardUri g [] x u → s.computeUri g x = u) ∧
      ((∀ u, ¬ s.UpwardUri g [] x u) → s.computeUri g x = unknownUri) :=
  computeUri_eq_walk_above (hcache.above x.id)

end Scope

namespace Serializer.TwoCrates

theorem first_crate_address_is_walked :
    serializer.scope.CachedRight second.2 ∧
      (∀ u, serializer.scope.UpwardUri second.2 [] first.1 u →
        serializer.scope.computeUri second.2 first.1 = u) ∧
      ((∀ u, ¬ serializer.scope.UpwardUri second.2 [] first.1 u) →
        serializer.scope.computeUri second.2 first.1 = unknownUri) := by
  have hcache := ((reaches_second.addressInv serializer_addressable).uris).cachedRight
  exact ⟨hcache, Scope.computeUri_eq_walk hcache first.1⟩

end Serializer.TwoCrates
end InventoryGraph
