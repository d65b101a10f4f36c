import InventoryGraph.Proofs.Uri.Walk

/-!
Recomputing the addresses below a vertex. `refreshUri` visits the vertex and then, breadth
first, the vertices it contains: a visit clears the stored address, computes the address afresh
(the walk may stop at the address just stored at the parent) and stores it when it is known.

In a store whose tree edges form a forest and whose addresses outside the subtree are right, the
run succeeds, leaves each vertex of the subtree holding its address in the new store (none when
that address is unknown), changes nothing else, and answers the address of the subtree's root.
Between two visits `Refreshing` holds: the visited vertices are closed upward within the subtree
and hold their addresses, every vertex of the subtree above a waiting one is visited, the
children of visited vertices are visited or waiting, and nothing unvisited has moved. The
waiting vertices and the tree edges whose parent is not visited yet bound the visits left.
-/

namespace InventoryGraph

namespace Vertex

/-- `w'` is `w` but for its address: the id, the node type, the creation instant and every other
    property are those of `w`. -/
def OffUri (w' w : Vertex) : Prop := w'.remove Bookkeeping.uri = w.remove Bookkeeping.uri

theorem offUri_iff {w' w : Vertex} :
    w'.OffUri w ↔ w'.id = w.id ∧ w'.nodeType = w.nodeType ∧ w'.createdAt = w.createdAt ∧
      ∀ k, k ≠ Bookkeeping.uri → w'.property? k = w.property? k := by
  constructor
  · intro h
    have h' : w'.remove Bookkeeping.uri = w.remove Bookkeeping.uri := h
    have hid := congrArg Vertex.id h'
    have ht := congrArg Vertex.nodeType h'
    have hc := congrArg Vertex.createdAt h'
    refine ⟨hid, ht, hc, fun k hk => ?_⟩
    have hk' := congrArg (·.property? k) h'
    simpa [hk] using hk'
  · rintro ⟨hid, ht, hc, hp⟩
    obtain ⟨id', t', c', m'⟩ := w'
    obtain ⟨id, t, c, m⟩ := w
    simp only at hid ht hc
    subst hid ht hc
    simp only [OffUri, remove, Vertex.mk.injEq, true_and]
    refine PropertyMap.ext_get? fun k => ?_
    by_cases hk : k = Bookkeeping.uri
    · simp [hk]
    · simpa [hk, Vertex.property?] using hp k hk

theorem offUri_remove (v : Vertex) : (v.remove Bookkeeping.uri).OffUri v :=
  offUri_iff.mpr ⟨rfl, rfl, rfl, fun k hk => by simp [hk]⟩

theorem offUri_set (v : Vertex) (x : PropertyValue) :
    ((v.remove Bookkeeping.uri).set Bookkeeping.uri x).OffUri v :=
  offUri_iff.mpr ⟨rfl, rfl, rfl, fun k hk => by simp [hk]⟩

theorem property?_of_uri? {w : Vertex} {u : String} (h : w.uri? = some u) :
    w.property? Bookkeeping.uri = some (.str u) := by
  obtain ⟨p, hp, hpu⟩ := Option.bind_eq_some_iff.mp h
  cases p <;> cases hpu
  exact hp

end Vertex

namespace Graph

theorem updateVertex_spec {g : Graph} {w old : Vertex} (hc : g.Consistent)
    (hold : g.vertex? w.id = some old) (ht : old.nodeType = w.nodeType)
    (hcr : w.createdAt = old.createdAt) :
    ∃ g', g.updateVertex w = .ok g' ∧ g'.edges = g.edges ∧ g'.Consistent ∧
      ∀ x, g'.vertex? x = if x = w.id then some w else g.vertex? x := by
  obtain ⟨g', hup⟩ : ∃ g', g.updateVertex w = .ok g' := by simp [updateVertex, hold, ht]
  refine ⟨g', hup, updateVertex_edges hup, updateVertex_consistent hc hup, fun x => ?_⟩
  obtain ⟨old', hold', hx⟩ := vertex?_updateVertex hup x
  rw [hold, Option.some.injEq] at hold'
  subst hold'
  have hw : updated old w = w := by rw [updated, ← hcr]
  rw [hx, hw]

theorem parentOf_eq_of_treeParent? {g g' : Graph} (h : g'.treeParent? = g.treeParent?) :
    g'.ParentOf = g.ParentOf := by
  funext a b
  rw [ParentOf, ParentOf, h]

theorem Forest.not_transGen_self {g : Graph} (h : g.Forest) (x : VertexId) :
    ¬ Relation.TransGen g.ParentOf x x :=
  h.wf.transGen.irrefl.irrefl x

theorem treeChildren_congr {g g' : Graph} (h : g.EdgeIndexed) (h' : g'.EdgeIndexed)
    (he : g'.edges = g.edges) : g'.treeChildren = g.treeChildren := by
  funext x
  rw [treeChildren, treeChildren, edgesOf_eq h, edgesOf_eq h', he]

def pendingEdges (g : Graph) (seen : List VertexId) : Nat :=
  g.edges.countP fun e => decide (e.edgeType = .tree) && e.parentEnd?.any (!seen.contains ·)

theorem length_treeChildren_add_pending {g : Graph} (h : g.EdgeIndexed) {y : VertexId}
    {seen : List VertexId} (hy : y ∉ seen) :
    (g.treeChildren y).length + g.pendingEdges (y :: seen) ≤ g.pendingEdges seen := by
  rw [treeChildren, edgesOf_eq h, pendingEdges, pendingEdges]
  -- one edge at a time: a tree edge out of `y` queues at most one child and stops pending
  induction g.edges with
  | nil => simp
  | cons e l ih =>
    rw [List.filter_cons]
    by_cases hey : e.edgeType = .tree ∧ e.parentEnd? = some y
    · have hruns : e.runs y .both = true := Edge.runs_of_parentEnd? hey.2
      have hP : (decide (e.edgeType = .tree) && e.parentEnd?.any (!seen.contains ·)) = true := by
        simp [hey.1, hey.2, hy]
      have hP' : (decide (e.edgeType = .tree) &&
          e.parentEnd?.any (!(y :: seen).contains ·)) = false := by
        simp [hey.2]
      rw [if_pos hruns, List.filterMap_cons, if_pos hey, List.countP_cons, List.countP_cons, hP,
        hP', if_pos rfl, if_neg Bool.false_ne_true]
      split
      · omega
      · rw [List.length_cons]
        omega
    · have hle : (decide (e.edgeType = .tree) &&
          e.parentEnd?.any (!(y :: seen).contains ·)) = true →
          (decide (e.edgeType = .tree) && e.parentEnd?.any (!seen.contains ·)) = true := by
        intro h
        cases hp : e.parentEnd? <;> simp_all
      have hf : (if e.runs y .both = true then e :: l.filter (·.runs y .both)
          else l.filter (·.runs y .both)).filterMap
            (fun e => if e.edgeType = .tree ∧ e.parentEnd? = some y then e.childEnd? else none) =
          (l.filter (·.runs y .both)).filterMap
            (fun e => if e.edgeType = .tree ∧ e.parentEnd? = some y then e.childEnd? else none) := by
        split
        · rw [List.filterMap_cons, if_neg hey]
        · rfl
      rw [hf, List.countP_cons, List.countP_cons]
      by_cases h₁ : (decide (e.edgeType = .tree) &&
          e.parentEnd?.any (!(y :: seen).contains ·)) = true
      · rw [if_pos h₁, if_pos (hle h₁)]
        omega
      · rw [if_neg h₁]
        split <;> omega

theorem Forest.live_of_below {g : Graph} (h : g.Forest) {r y : VertexId} (hr : g.Live r)
    (hy : Relation.ReflTransGen g.ParentOf r y) : g.Live y := by
  rcases hy.cases_tail with rfl | ⟨b, -, hb⟩
  · exact hr
  · exact (h.live_of_parentOf hb).2

/-- A breadth-first sweep of the subtree of `r`, between two steps: `seen` holds the visited
    vertices and `queue` the waiting ones. Both lie in the subtree; the subtree above a visited
    vertex is visited, and so is the subtree strictly above a waiting one; the children of a
    visited vertex, and `r` itself, are visited or waiting. -/
structure SubtreeSweep (g : Graph) (r : VertexId) (queue seen : List VertexId) : Prop where
  seen_below : ∀ x ∈ seen, Relation.ReflTransGen g.ParentOf r x
  queue_below : ∀ y ∈ queue, Relation.ReflTransGen g.ParentOf r y
  seen_closed : ∀ x ∈ seen, ∀ a, Relation.ReflTransGen g.ParentOf a x →
    Relation.ReflTransGen g.ParentOf r a → a ∈ seen
  queue_closed : ∀ y ∈ queue, ∀ a, Relation.TransGen g.ParentOf a y →
    Relation.ReflTransGen g.ParentOf r a → a ∈ seen
  frontier : ∀ x ∈ seen, ∀ c, g.ParentOf x c → c ∈ seen ∨ c ∈ queue
  root : r ∈ seen ∨ r ∈ queue

namespace SubtreeSweep

variable {g : Graph} {r y : VertexId} {queue seen : List VertexId}

theorem start (h : g.Forest) (r : VertexId) : g.SubtreeSweep r [r] [] where
  seen_below _ hx := absurd hx List.not_mem_nil
  queue_below y hy := by
    rw [List.mem_singleton.mp hy]
  seen_closed _ hx := absurd hx List.not_mem_nil
  queue_closed y hy a hay har := by
    rw [List.mem_singleton.mp hy] at hay
    exact absurd (hay.trans_left har) (h.not_transGen_self a)
  frontier _ hx := absurd hx List.not_mem_nil
  root := .inr List.mem_cons_self

theorem skip (h : g.SubtreeSweep r (y :: queue) seen) (hy : y ∈ seen) :
    g.SubtreeSweep r queue seen where
  seen_below := h.seen_below
  queue_below z hz := h.queue_below z (List.mem_cons_of_mem y hz)
  seen_closed := h.seen_closed
  queue_closed z hz := h.queue_closed z (List.mem_cons_of_mem y hz)
  frontier x hx c hc := by
    rcases h.frontier x hx c hc with hc | hc
    · exact .inl hc
    · rcases List.mem_cons.mp hc with rfl | hc
      · exact .inl hy
      · exact .inr hc
  root := by
    rcases h.root with hr | hr
    · exact .inl hr
    · rcases List.mem_cons.mp hr with rfl | hr
      · exact .inl hy
      · exact .inr hr

theorem not_above (h : g.SubtreeSweep r queue seen) (hy : y ∉ seen)
    (hyr : Relation.ReflTransGen g.ParentOf r y) {x : VertexId} (hx : x ∈ seen) :
    ¬ Relation.ReflTransGen g.ParentOf y x :=
  fun hyx => hy (h.seen_closed x hx y hyx hyr)

theorem visit (hf : g.Forest) (h : g.SubtreeSweep r (y :: queue) seen) (hy : y ∉ seen) :
    g.SubtreeSweep r (queue ++ g.treeChildren y) (y :: seen) := by
  have hyr := h.queue_below y List.mem_cons_self
  -- the subtree above `y` is visited once `y` is
  have hclosed : ∀ a, Relation.ReflTransGen g.ParentOf a y →
      Relation.ReflTransGen g.ParentOf r a → a ∈ y :: seen := by
    intro a hay har
    rcases Relation.reflTransGen_iff_eq_or_transGen.mp hay with rfl | hay
    · exact List.mem_cons_self
    · exact List.mem_cons_of_mem y (h.queue_closed y List.mem_cons_self a hay har)
  refine ⟨fun x hx => ?_, fun z hz => ?_, fun x hx a hax har => ?_, fun z hz a haz har => ?_,
    fun x hx c hc => ?_, ?_⟩
  · rcases List.mem_cons.mp hx with rfl | hx
    · exact hyr
    · exact h.seen_below x hx
  · rcases List.mem_append.mp hz with hz | hz
    · exact h.queue_below z (List.mem_cons_of_mem y hz)
    · exact hyr.tail (hf.parentOf_of_mem_treeChildren hz)
  · rcases List.mem_cons.mp hx with rfl | hx
    · exact hclosed a hax har
    · exact List.mem_cons_of_mem y (h.seen_closed _ hx a hax har)
  · rcases List.mem_append.mp hz with hz | hz
    · exact List.mem_cons_of_mem y (h.queue_closed z (List.mem_cons_of_mem y hz) a haz har)
    · -- a child's only parent is `y`, so what is strictly above it is at or above `y`
      obtain ⟨b, hab, hbz⟩ := Relation.TransGen.tail'_iff.mp haz
      have hb : b = y := Option.some.inj (hbz.symm.trans (hf.parentOf_of_mem_treeChildren hz))
      exact hclosed a (hb ▸ hab) har
  · rcases List.mem_cons.mp hx with rfl | hx
    · exact .inr (List.mem_append_right _ (mem_treeChildren_of_parentOf hf.consistent.edgeIndexed hc))
    · rcases h.frontier x hx c hc with hc | hc
      · exact .inl (List.mem_cons_of_mem y hc)
      · rcases List.mem_cons.mp hc with rfl | hc
        · exact .inl List.mem_cons_self
        · exact .inr (List.mem_append_left _ hc)
  · rcases h.root with hr | hr
    · exact .inl (List.mem_cons_of_mem y hr)
    · rcases List.mem_cons.mp hr with rfl | hr
      · exact .inl List.mem_cons_self
      · exact .inr (List.mem_append_left _ hr)

theorem mem_seen (h : g.SubtreeSweep r [] seen) {x : VertexId}
    (hx : Relation.ReflTransGen g.ParentOf r x) : x ∈ seen := by
  induction hx with
  | refl => exact h.root.resolve_right List.not_mem_nil
  | tail _ hbc ih => exact (h.frontier _ ih _ hbc).resolve_right List.not_mem_nil

end SubtreeSweep

end Graph

namespace Scope

variable (s : Scope)

/-- `w`, stored at `x`, holds the address of `x` when that is known, and no address otherwise. -/
def StoresAddress (g : Graph) (x : VertexId) (w : Vertex) : Prop :=
  ∀ p, w.property? Bookkeeping.uri = some p ↔ ∃ u, p = .str u ∧ s.Address g x u ∧ u ≠ unknownUri

/-- Every address cached outside the subtree of `r`, other than the unknown one, is the address
    of its vertex. -/
def CachedOutside (g : Graph) (r : VertexId) : Prop :=
  ∀ x w, ¬ Relation.ReflTransGen g.ParentOf r x → g.vertex? x = some w →
    ∀ u, w.uri? = some u → u ≠ unknownUri → s.Address g x u

variable {s} {g g' : Graph}

theorem UrisCorrect.cachedOutside (h : s.UrisCorrect g) (r : VertexId) : s.CachedOutside g r := by
  intro x w _ hw u hu _
  obtain ⟨u', hu', haddr⟩ := h x w hw _ (Vertex.property?_of_uri? hu)
  cases hu'
  exact haddr

/-! ### What an address reads -/

theorem AddressBelow.above {y x : VertexId} {u : String} (h : s.AddressBelow g (some y) x u) :
    Relation.TransGen g.ParentOf y x := by
  generalize hp : some y = p at h
  induction h generalizing y with
  | here hx _ => exact .single (hx.trans hp.symm)
  | down hy _ _ ih => exact .head (hy.trans hp.symm) (ih rfl)

theorem AddressBelow.frame_above {p : Option VertexId} {x : VertexId} {u : String}
    (h : s.AddressBelow g p x u) (hp : g'.treeParent? = g.treeParent?)
    (hseg : ∀ z, Relation.ReflTransGen g.ParentOf z x → s.segAt g' z = s.segAt g z) :
    s.AddressBelow g' p x u := by
  induction h with
  | here hx hs => exact .here (by rw [hp]; exact hx) ((hseg _ .refl).trans hs)
  | down hy hs hrest ih =>
    exact .down (by rw [hp]; exact hy) ((hseg _ hrest.above.to_reflTransGen).trans hs) (ih hseg)

theorem address_iff_of_above {x : VertexId} {u : String} (hp : g'.treeParent? = g.treeParent?)
    (hseg : ∀ z, Relation.ReflTransGen g.ParentOf z x → s.segAt g' z = s.segAt g z) :
    s.Address g' x u ↔ s.Address g x u := by
  have hpar := Graph.parentOf_eq_of_treeParent? hp
  exact ⟨fun h => AddressBelow.frame_above h hp.symm fun z hz => (hseg z (hpar ▸ hz)).symm,
    fun h => AddressBelow.frame_above h hp hseg⟩

theorem address_iff_of_off {y x : VertexId} {u : String} (hp : g'.treeParent? = g.treeParent?)
    (hv : ∀ z, z ≠ y → g'.vertex? z = g.vertex? z)
    (hyx : ¬ Relation.ReflTransGen g.ParentOf y x) :
    s.Address g' x u ↔ s.Address g x u :=
  address_iff_of_above hp fun z hz => by
    rw [segAt, segAt, hv z fun hzy => hyx (hzy ▸ hz)]

theorem Address.functional {x : VertexId} {u u' : String} (h : s.Address g x u)
    (h' : s.Address g x u') : u = u' := by
  obtain ⟨seg, hseg, -⟩ := AddressBelow.bottom h
  obtain ⟨v, hv, -⟩ := Option.bind_eq_some_iff.mp hseg
  exact (h.upwardUri hv).unique (h'.upwardUri hv)

theorem computeUri_known_iff {x : Vertex} (hx : g.vertex? x.id = some x)
    (hcache : s.CachedRightAbove g x.id) (u : String) :
    (s.computeUri g x = u ∧ u ≠ unknownUri) ↔ (s.Address g x.id u ∧ u ≠ unknownUri) := by
  obtain ⟨hsome, hnone⟩ := computeUri_eq_walk_above hcache
  constructor
  · rintro ⟨hu, hne⟩
    by_cases hw : ∃ u', s.UpwardUri g [] x u'
    · obtain ⟨u', hu'⟩ := hw
      obtain rfl : u = u' := hu.symm.trans (hsome u' hu')
      exact ⟨(upwardUri_iff_address hx u).mp hu', hne⟩
    · simp only [not_exists] at hw
      exact absurd (hu.symm.trans (hnone hw)) hne
  · rintro ⟨ha, hne⟩
    exact ⟨hsome u ((upwardUri_iff_address hx u).mpr ha), hne⟩

theorem StoresAddress.congr {x : VertexId} {w : Vertex} (h : s.StoresAddress g x w)
    (hiff : ∀ u, s.Address g' x u ↔ s.Address g x u) : s.StoresAddress g' x w := fun p => by
  simpa only [hiff] using h p

theorem KeyPart.isSome_of_forall₂ {v : Vertex} {ks : List Identifier} {parts : List String}
    (h : List.Forall₂ (KeyPart v) ks parts) {k : Identifier} (hk : k ∈ ks) :
    (v.property? k.text).isSome := by
  induction h with
  | nil => exact absurd hk List.not_mem_nil
  | cons hkp _ ih =>
    rcases List.mem_cons.mp hk with rfl | hk
    · obtain ⟨x, hx, -⟩ := hkp
      simp [hx]
    · exact ih hk

theorem segment?_set_of_absent {v : Vertex} {k seg : String} (x : PropertyValue)
    (hk : v.property? k = none) (hseg : s.segment? v = some seg) :
    s.segment? (v.set k x) = s.segment? v := by
  obtain ⟨t, parts, ht, hparts, -⟩ := segment?_eq_some hseg
  refine segment?_congr rfl fun t' ht' key hkey => ?_
  rw [ht, Option.some.injEq] at ht'
  subst ht'
  have hne : key.text ≠ k := fun heq => by
    have hsome := KeyPart.isSome_of_forall₂ hparts hkey
    rw [heq, hk] at hsome
    cases hsome
  rw [Vertex.property?_set, if_neg hne]

/-! ### One visit -/

theorem refreshQueue_skip (root : VertexId) (fuel : Nat) {y : VertexId} (queue : List VertexId)
    {seen : List VertexId} (own : Option String) (hy : y ∈ seen) :
    s.refreshQueue root (fuel + 1) (y :: queue) seen own =
      s.refreshQueue root fuel queue seen own := by
  rw [refreshQueue.eq_3, if_pos (List.elem_iff.mpr hy)]

theorem run_refreshQueue_unknown {root y : VertexId} {fuel : Nat} {queue seen : List VertexId}
    {own : Option String} {g₁ : Graph} {v : Vertex} (hy : y ∉ seen) (hv : g.vertex? y = some v)
    (hup : g.updateVertex (v.remove Bookkeeping.uri) = .ok g₁)
    (hu : s.computeUri g₁ (v.remove Bookkeeping.uri) = unknownUri) :
    (s.refreshQueue root (fuel + 1) (y :: queue) seen own).run g =
      (s.refreshQueue root fuel (queue ++ g₁.treeChildren y) (y :: seen)
        (if y = root then none else own)).run g₁ := by
  rw [refreshQueue.eq_3, if_neg (fun h => hy (List.elem_iff.mp h))]
  have h₁ := GraphM.run_updateVertex_eq_ok.mpr hup
  simp [hv, h₁, hu]

theorem run_refreshQueue_known {root y : VertexId} {fuel : Nat} {queue seen : List VertexId}
    {own : Option String} {g₁ g₂ : Graph} {v : Vertex} {u : String} (hy : y ∉ seen)
    (hv : g.vertex? y = some v) (hup : g.updateVertex (v.remove Bookkeeping.uri) = .ok g₁)
    (hu : s.computeUri g₁ (v.remove Bookkeeping.uri) = u) (hne : u ≠ unknownUri)
    (hup₂ : g₁.updateVertex ((v.remove Bookkeeping.uri).set Bookkeeping.uri (.str u)) = .ok g₂) :
    (s.refreshQueue root (fuel + 1) (y :: queue) seen own).run g =
      (s.refreshQueue root fuel (queue ++ g₂.treeChildren y) (y :: seen)
        (if y = root then some u else own)).run g₂ := by
  rw [refreshQueue.eq_3, if_neg (fun h => hy (List.elem_iff.mp h))]
  have h₁ := GraphM.run_updateVertex_eq_ok.mpr hup
  have h₂ := GraphM.run_updateVertex_eq_ok.mpr hup₂
  simp [hv, h₁, hu, hne, h₂]

/-! ### Between two visits -/

variable (s) in
/-- What holds between two visits of the refresh below `r` started on `g₀`, in the store `g`
    with `queue` waiting, `seen` visited and `own` answered so far: the sweep's order, the
    edges and consistency of the start, every unvisited vertex as it was, every visited one as
    it was but for an address that is its address, and the answer the address of `r`. -/
structure Refreshing (g₀ : Graph) (r : VertexId) (g : Graph) (queue seen : List VertexId)
    (own : Option String) : Prop extends g₀.SubtreeSweep r queue seen where
  edges : g.edges = g₀.edges
  consistent : g.Consistent
  untouched : ∀ x, x ∉ seen → g.vertex? x = g₀.vertex? x
  refreshed : ∀ x ∈ seen, ∃ w w', g₀.vertex? x = some w ∧ g.vertex? x = some w' ∧
    w'.OffUri w ∧ s.StoresAddress g x w'
  answer : ∀ u, own = some u ↔ r ∈ seen ∧ s.Address g r u ∧ u ≠ unknownUri

section Refreshing

variable {g₀ : Graph} {r y : VertexId} {queue seen : List VertexId} {own : Option String}

theorem Refreshing.start (hf : g₀.Forest) (r : VertexId) : s.Refreshing g₀ r g₀ [r] [] none where
  toSubtreeSweep := .start hf r
  edges := rfl
  consistent := hf.consistent
  untouched _ _ := rfl
  refreshed _ hx := absurd hx List.not_mem_nil
  answer u := by simp

theorem Refreshing.skip (h : s.Refreshing g₀ r g (y :: queue) seen own) (hy : y ∈ seen) :
    s.Refreshing g₀ r g queue seen own :=
  { h with toSubtreeSweep := h.toSubtreeSweep.skip hy }

theorem Refreshing.treeParent (hf : g₀.Forest) (h : s.Refreshing g₀ r g queue seen own) :
    g.treeParent? = g₀.treeParent? :=
  Graph.treeParent?_congr hf.consistent.edgeIndexed h.consistent.edgeIndexed h.edges

theorem Refreshing.address_outside (hf : g₀.Forest) (h : s.Refreshing g₀ r g queue seen own)
    {x : VertexId} (hx : ¬ Relation.ReflTransGen g₀.ParentOf r x) (u : String) :
    s.Address g x u ↔ s.Address g₀ x u :=
  address_iff_of_above (h.treeParent hf) fun z hz => by
    have hz' : z ∉ seen := fun hmem => hx ((h.seen_below z hmem).trans hz)
    rw [segAt, segAt, h.untouched z hz']

theorem Refreshing.stored (hf : g₀.Forest) (hr : g₀.Live r)
    (h : s.Refreshing g₀ r g (y :: queue) seen own) (hy : y ∉ seen) :
    ∃ v, g.vertex? y = some v ∧ g₀.vertex? y = some v := by
  have hlive := hf.live_of_below hr (h.queue_below y List.mem_cons_self)
  obtain ⟨v, hv⟩ := Option.isSome_iff_exists.mp ((g₀.vertex?_isSome_iff y).mpr hlive)
  exact ⟨v, (h.untouched y hy).trans hv, hv⟩

theorem Refreshing.cachedRightAbove (hf : g₀.Forest) (hcache : s.CachedOutside g₀ r)
    (h : s.Refreshing g₀ r g (y :: queue) seen own) {g₁ : Graph} (he₁ : g₁.edges = g.edges)
    (hc₁ : g₁.Consistent) (hv₁ : ∀ z, z ≠ y → g₁.vertex? z = g.vertex? z) :
    s.CachedRightAbove g₁ y := by
  have hp₁ : g₁.treeParent? = g.treeParent? :=
    Graph.treeParent?_congr h.consistent.edgeIndexed hc₁.edgeIndexed he₁
  have hpar₀ := Graph.parentOf_eq_of_treeParent? (h.treeParent hf)
  have hpar := (Graph.parentOf_eq_of_treeParent? hp₁).trans hpar₀
  intro p pv hpy hpv u hu hne
  rw [hpar] at hpy
  have hpy' : p ≠ y := fun hpy' => hf.not_transGen_self y (hpy' ▸ hpy)
  rw [hv₁ p hpy'] at hpv
  have hpid : pv.id = p := (Graph.mem_of_vertex? hpv).2
  have hyp : ¬ Relation.ReflTransGen g.ParentOf y p := by
    rw [hpar₀]
    exact fun hyp => hf.not_transGen_self p (hpy.trans_left hyp)
  suffices haddr : s.Address g p u by
    refine (upwardUri_iff_address (by rw [hpid, hv₁ p hpy', hpv]) u).mpr ?_
    rw [hpid]
    exact (address_iff_of_off hp₁ hv₁ hyp).mpr haddr
  by_cases hpr : Relation.ReflTransGen g₀.ParentOf r p
  · obtain ⟨w, w', -, hw', -, hstore⟩ :=
      h.refreshed p (h.queue_closed y List.mem_cons_self p hpy hpr)
    rw [hpv, Option.some.injEq] at hw'
    subst hw'
    obtain ⟨u', hu', haddr, -⟩ := (hstore _).mp (Vertex.property?_of_uri? hu)
    cases hu'
    exact haddr
  · have hp₀ : g₀.vertex? p = some pv := by
      rw [← h.untouched p fun hmem => hpr (h.seen_below p hmem)]
      exact hpv
    exact (h.address_outside hf hpr u).mpr (hcache p pv hpr hp₀ u hu hne)

theorem Refreshing.visited (hf : g₀.Forest) (h : s.Refreshing g₀ r g (y :: queue) seen own)
    (hy : y ∉ seen) {g₂ : Graph} {v w : Vertex} {known : Option String}
    (he₂ : g₂.edges = g.edges) (hc₂ : g₂.Consistent)
    (hv₂ : ∀ x, g₂.vertex? x = if x = y then some w else g.vertex? x)
    (hv₀ : g₀.vertex? y = some v) (hoff : w.OffUri v)
    (hstore : w.property? Bookkeeping.uri = known.map .str)
    (hknown : ∀ u, known = some u ↔ s.Address g₂ y u ∧ u ≠ unknownUri) :
    s.Refreshing g₀ r g₂ (queue ++ g₀.treeChildren y) (y :: seen)
      (if y = r then known else own) := by
  have hyr := h.queue_below y List.mem_cons_self
  have hoff_y : ∀ z, z ≠ y → g₂.vertex? z = g.vertex? z := fun z hz => by rw [hv₂, if_neg hz]
  have hp₂ : g₂.treeParent? = g.treeParent? :=
    Graph.treeParent?_congr h.consistent.edgeIndexed hc₂.edgeIndexed he₂
  have hpar₀ := Graph.parentOf_eq_of_treeParent? (h.treeParent hf)
  have hkeep : ∀ x ∈ seen, ∀ u, s.Address g₂ x u ↔ s.Address g x u := fun x hx u =>
    address_iff_of_off hp₂ hoff_y (hpar₀ ▸ h.toSubtreeSweep.not_above hy hyr hx)
  refine
    { toSubtreeSweep := h.toSubtreeSweep.visit hf hy
      edges := he₂.trans h.edges
      consistent := hc₂
      untouched := fun x hx => ?_
      refreshed := fun x hx => ?_
      answer := fun u => ?_ }
  · rw [List.mem_cons, not_or] at hx
    rw [hoff_y x hx.1, h.untouched x hx.2]
  · rcases List.mem_cons.mp hx with rfl | hx
    · refine ⟨v, w, hv₀, by rw [hv₂, if_pos rfl], hoff, fun p => ?_⟩
      rw [hstore]
      constructor
      · intro hp
        obtain ⟨u, hu, rfl⟩ := Option.map_eq_some_iff.mp hp
        exact ⟨u, rfl, (hknown u).mp hu⟩
      · rintro ⟨u, rfl, hu⟩
        rw [(hknown u).mpr hu]
        rfl
    · obtain ⟨w₀, w', hw₀, hw', hoff', hstore'⟩ := h.refreshed x hx
      have hxy : x ≠ y := fun hxy => hy (hxy ▸ hx)
      exact ⟨w₀, w', hw₀, by rw [hoff_y x hxy, hw'], hoff', hstore'.congr (hkeep x hx)⟩
  · by_cases hyr' : y = r
    · subst hyr'
      rw [if_pos rfl, hknown u]
      simp
    · rw [if_neg hyr', h.answer u]
      have hr' : r ∈ y :: seen ↔ r ∈ seen := by simp [Ne.symm hyr']
      rw [hr']
      constructor
      · rintro ⟨hrs, ha, hne⟩
        exact ⟨hrs, (hkeep r hrs u).mpr ha, hne⟩
      · rintro ⟨hrs, ha, hne⟩
        exact ⟨hrs, (hkeep r hrs u).mp ha, hne⟩

theorem Refreshing.visit (hf : g₀.Forest) (hr : g₀.Live r) (hcache : s.CachedOutside g₀ r)
    (h : s.Refreshing g₀ r g (y :: queue) seen own) (hy : y ∉ seen) (fuel : Nat) :
    ∃ g' own', (s.refreshQueue r (fuel + 1) (y :: queue) seen own).run g =
        (s.refreshQueue r fuel (queue ++ g₀.treeChildren y) (y :: seen) own').run g' ∧
      s.Refreshing g₀ r g' (queue ++ g₀.treeChildren y) (y :: seen) own' := by
  obtain ⟨v, hv, hv₀⟩ := h.stored hf hr hy
  have hvid : v.id = y := (Graph.mem_of_vertex? hv).2
  have hv' : g.vertex? (v.remove Bookkeeping.uri).id = some v := by
    rw [Vertex.remove_id, hvid, hv]
  obtain ⟨g₁, hup₁, he₁, hc₁, hv₁⟩ := Graph.updateVertex_spec h.consistent hv' rfl rfl
  rw [Vertex.remove_id, hvid] at hv₁
  have hoff₁ : ∀ z, z ≠ y → g₁.vertex? z = g.vertex? z := fun z hz => by rw [hv₁, if_neg hz]
  have hchildren : ∀ {g' : Graph}, g'.edges = g₁.edges → g'.Consistent →
      g'.treeChildren = g₀.treeChildren := fun he hc =>
    Graph.treeChildren_congr hf.consistent.edgeIndexed hc.edgeIndexed (he.trans (he₁.trans h.edges))
  have hself₁ : g₁.vertex? (v.remove Bookkeeping.uri).id = some (v.remove Bookkeeping.uri) := by
    rw [hv₁, Vertex.remove_id, hvid, if_pos rfl]
  have hknown₁ : ∀ u, (s.computeUri g₁ (v.remove Bookkeeping.uri) = u ∧ u ≠ unknownUri) ↔
      s.Address g₁ y u ∧ u ≠ unknownUri := fun u => by
    have hcache₁ : s.CachedRightAbove g₁ (v.remove Bookkeeping.uri).id := by
      rw [Vertex.remove_id, hvid]
      exact h.cachedRightAbove hf hcache he₁ hc₁ hoff₁
    have hiff := computeUri_known_iff hself₁ hcache₁ u
    rwa [Vertex.remove_id, hvid] at hiff
  obtain ⟨u₀, hu₀⟩ : ∃ u₀, s.computeUri g₁ (v.remove Bookkeeping.uri) = u₀ := ⟨_, rfl⟩
  by_cases hu : u₀ = unknownUri
  · -- no address is known: `y` is left without one
    refine ⟨g₁, if y = r then none else own, ?_, ?_⟩
    · rw [run_refreshQueue_unknown hy hv hup₁ (hu₀.trans hu), hchildren rfl hc₁]
    · refine h.visited hf hy he₁ hc₁ hv₁ hv₀ (Vertex.offUri_remove v)
        (by simp : (v.remove Bookkeeping.uri).property? Bookkeeping.uri = none) fun u => ?_
      refine ⟨fun hnone => absurd hnone (Option.some_ne_none u).symm, fun hau => ?_⟩
      obtain ⟨hcomp, hne⟩ := (hknown₁ u).mpr hau
      exact absurd (hcomp.symm.trans (hu₀.trans hu)) hne
  · -- an address is known, so `y` has a segment, which storing the address keeps
    obtain ⟨seg, hseg, -⟩ := AddressBelow.bottom ((hknown₁ u₀).mp ⟨hu₀, hu⟩).1
    have hv'' : g₁.vertex? ((v.remove Bookkeeping.uri).set Bookkeeping.uri (.str u₀)).id =
        some (v.remove Bookkeeping.uri) := by
      rw [Vertex.set_id]
      exact hself₁
    obtain ⟨g₂, hup₂, he₂, hc₂, hv₂⟩ := Graph.updateVertex_spec hc₁ hv'' rfl rfl
    rw [Vertex.set_id, Vertex.remove_id, hvid] at hv₂
    have hseg₂ : s.segment? ((v.remove Bookkeeping.uri).set Bookkeeping.uri (.str u₀)) =
        s.segAt g₁ ((v.remove Bookkeeping.uri).set Bookkeeping.uri (.str u₀)).id := by
      rw [Vertex.set_id, segAt_of_vertex? hself₁]
      have hseg' : s.segment? (v.remove Bookkeeping.uri) = some seg := by
        rwa [← segAt_of_vertex? hself₁, Vertex.remove_id, hvid]
      exact segment?_set_of_absent _ (by simp) hseg'
    have haddr₂ : ∀ u, s.Address g₂ y u ↔ s.Address g₁ y u := fun u =>
      address_iff_of_above (treeParent?_updateVertex hc₁ hup₂) fun z _ => by
        rw [segAt_updateVertex hup₂ hseg₂]
    refine ⟨g₂, if y = r then some u₀ else own, ?_, ?_⟩
    · rw [run_refreshQueue_known hy hv hup₁ hu₀ hu hup₂, hchildren he₂ hc₂]
    · refine h.visited hf hy (he₂.trans he₁) hc₂ (fun x => ?_) hv₀ (Vertex.offUri_set v _)
        (by simp : ((v.remove Bookkeeping.uri).set Bookkeeping.uri (.str u₀)).property?
          Bookkeeping.uri = some (.str u₀)) fun u => ?_
      · by_cases hx : x = y
        · rw [hv₂, if_pos hx, if_pos hx]
        · rw [hv₂, if_neg hx, if_neg hx, hoff₁ x hx]
      · rw [Option.some.injEq, haddr₂ u, ← hknown₁ u, hu₀]
        exact ⟨fun hu' => ⟨hu', hu' ▸ hu⟩, And.left⟩

theorem refreshQueue_run (hf : g₀.Forest) (hr : g₀.Live r) (hcache : s.CachedOutside g₀ r) :
    ∀ (fuel : Nat) (queue seen : List VertexId) (own : Option String) (g : Graph),
      s.Refreshing g₀ r g queue seen own → queue.length + g₀.pendingEdges seen ≤ fuel →
      ∃ seen' own' g', (s.refreshQueue r fuel queue seen own).run g = .ok (own', g') ∧
        s.Refreshing g₀ r g' [] seen' own'
  | 0, queue, seen, own, g, h, hfuel => by
    have hq : queue = [] := List.eq_nil_of_length_eq_zero (by omega)
    subst hq
    exact ⟨seen, own, g, by rw [refreshQueue.eq_1]; rfl, h⟩
  | _ + 1, [], seen, own, g, h, _ => ⟨seen, own, g, by rw [refreshQueue.eq_2]; rfl, h⟩
  | fuel + 1, y :: queue, seen, own, g, h, hfuel => by
    rw [List.length_cons] at hfuel
    by_cases hy : y ∈ seen
    · rw [refreshQueue_skip r fuel queue own hy]
      exact refreshQueue_run hf hr hcache fuel queue seen own g (h.skip hy) (by omega)
    · obtain ⟨g', own', hrun, h'⟩ := h.visit hf hr hcache hy fuel
      rw [hrun]
      have hpending := Graph.length_treeChildren_add_pending hf.consistent.edgeIndexed hy
      exact refreshQueue_run hf hr hcache fuel _ _ own' g' h'
        (by rw [List.length_append]; omega)

end Refreshing

variable (s) in
/-- What refreshing the addresses below `r` in `g` leaves in `g'` with answer `own`: the edges
    of `g` in a consistent store; outside the subtree every vertex as it was; in it every vertex
    as it was but for its address, which is its address in `g'`, or none when that is unknown;
    and the answer the address of `r` when known. -/
structure Refreshed (g : Graph) (r : VertexId) (own : Option String) (g' : Graph) : Prop where
  edges : g'.edges = g.edges
  consistent : g'.Consistent
  outside : ∀ x, ¬ Relation.ReflTransGen g.ParentOf r x → g'.vertex? x = g.vertex? x
  inside : ∀ x, Relation.ReflTransGen g.ParentOf r x → ∃ w w', g.vertex? x = some w ∧
    g'.vertex? x = some w' ∧ w'.OffUri w ∧ s.StoresAddress g' x w'
  answer : ∀ u, own = some u ↔ s.Address g' r u ∧ u ≠ unknownUri

theorem Refreshing.refreshed_all {g₀ : Graph} {r : VertexId} {seen : List VertexId}
    {own : Option String} (h : s.Refreshing g₀ r g [] seen own) : s.Refreshed g₀ r own g where
  edges := h.edges
  consistent := h.consistent
  outside x hx := h.untouched x fun hmem => hx (h.seen_below x hmem)
  inside x hx := h.refreshed x (h.toSubtreeSweep.mem_seen hx)
  answer u := by
    rw [h.answer u]
    exact ⟨fun ⟨_, ha, hne⟩ => ⟨ha, hne⟩,
      fun ⟨ha, hne⟩ => ⟨h.toSubtreeSweep.mem_seen .refl, ha, hne⟩⟩

theorem Refreshed.address_iff (hk : s.UriNotKey) (hc : g.Consistent) {r : VertexId}
    {own : Option String} (h : s.Refreshed g r own g') (x : VertexId) (u : String) :
    s.Address g' x u ↔ s.Address g x u :=
  address_iff_of_above (Graph.treeParent?_congr hc.edgeIndexed h.consistent.edgeIndexed h.edges)
    fun z _ => by
      by_cases hz : Relation.ReflTransGen g.ParentOf r z
      · obtain ⟨w, w', hw, hw', hoff, -⟩ := h.inside z hz
        obtain ⟨-, ht, -, hp⟩ := Vertex.offUri_iff.mp hoff
        rw [segAt_of_vertex? hw', segAt_of_vertex? hw]
        exact segment?_eq_of_agree hk ht hp
      · rw [segAt, segAt, h.outside z hz]

theorem refreshUri_of_not_live {r : VertexId} (hr : ¬ g.Live r) :
    (s.refreshUri r).run g = .error (.notFound r.handle, g.clock) := by
  have hv : g.vertex? r = none := by
    rw [← Option.not_isSome_iff_eq_none, Graph.vertex?_isSome_iff]
    exact hr
  rw [refreshUri, StateT.run_bind]
  show (s.refreshQueue r (g.vertices.length + g.edges.length + 1 + 1) [r] [] none).run g = _
  rw [refreshQueue.eq_3]
  simp [hv]
  rfl

/-- Refreshing the addresses below a stored vertex of a forest, whose addresses outside the
    vertex's subtree are right, goes through: every vertex of the subtree then holds its
    address, or none when it is unknown, nothing else has changed, and the answer is the
    vertex's address when known. -/
theorem refreshUri_refreshes {r : VertexId} (hf : g.Forest) (hr : g.Live r)
    (hcache : s.CachedOutside g r) :
    ∃ own g', (s.refreshUri r).run g = .ok (own, g') ∧ s.Refreshed g r own g' := by
  have hpending : g.pendingEdges [] ≤ g.edges.length := List.countP_le_length
  obtain ⟨seen, own, g', hrun, h⟩ := refreshQueue_run hf hr hcache
    (g.vertices.length + g.edges.length + 2) [r] [] none g (Refreshing.start hf r)
    (by rw [List.length_singleton]; omega)
  refine ⟨own, g', ?_, h.refreshed_all⟩
  rw [refreshUri, GraphM.run_get_bind_eq_ok]
  exact hrun

end Scope

namespace Serializer.TwoCrates

theorem refreshing_first_crate_goes_through :
    second.2.Forest ∧ second.2.Live first.1.id ∧
      serializer.scope.CachedOutside second.2 first.1.id ∧
      ∃ own g', (serializer.scope.refreshUri first.1.id).run second.2 = .ok (own, g') ∧
        serializer.scope.Refreshed second.2 first.1.id own g' := by
  have hinv := reaches_second.addressInv serializer_addressable
  have hlive : second.2.Live first.1.id := (second.2.vertex?_isSome_iff _).mp (by decide +kernel)
  have hcache := hinv.uris.cachedOutside first.1.id
  exact ⟨hinv.forest, hlive, hcache, Scope.refreshUri_refreshes hinv.forest hlive hcache⟩

end Serializer.TwoCrates
end InventoryGraph
