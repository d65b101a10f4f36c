import Mathlib.Data.List.Perm.Subperm
import InventoryGraph.Graph.Cascade
import InventoryGraph.Proofs.Store.Writes

/-!
The breadth-first walk of cascading deletes. A cascade step goes from `u` to the vertex that
some edge's delete flag names from `u`; the depth of `x` below a root is the fewest steps that
reach it. On a consistent store the walk lists every vertex the root reaches, each once,
deepest first and the root last. The argument is the usual one for a queue: the vertices
taken and queued so far are sorted by depth, the queue spans at most two depths, and every
vertex no deeper than the queue's head has been seen.
-/
namespace InventoryGraph
namespace Graph

/-- Deleting `u` takes `v` along: an edge of the store names `v` from `u` by its delete flag. -/
def CascadeStep (g : Graph) (u v : VertexId) : Prop := ∃ e ∈ g.edges, e.cascadesFrom? u = some v

/-- A chain of `n` cascade steps from `r` to the vertex id in the index. -/
inductive CascadePath (g : Graph) (r : VertexId) : VertexId → Nat → Prop
  | root : CascadePath g r r 0
  | step {u v : VertexId} {n : Nat} :
      CascadePath g r u n → g.CascadeStep u v → CascadePath g r v (n + 1)

def CascadeReaches (g : Graph) (r x : VertexId) : Prop := ∃ n, g.CascadePath r x n

open Classical in
noncomputable def cascadeDepth (g : Graph) (r x : VertexId) : Nat :=
  if h : g.CascadeReaches r x then Nat.find h else 0

/-! ### Depth -/

section Depth
variable {g : Graph} {r u v x : VertexId}

theorem CascadeReaches.root : g.CascadeReaches r r := ⟨0, .root⟩

theorem CascadeReaches.step (hu : g.CascadeReaches r u) (hs : g.CascadeStep u v) :
    g.CascadeReaches r v :=
  let ⟨n, hp⟩ := hu
  ⟨n + 1, hp.step hs⟩

theorem cascadeDepth_path (h : g.CascadeReaches r x) : g.CascadePath r x (g.cascadeDepth r x) := by
  classical
  rw [cascadeDepth, dif_pos h]
  exact Nat.find_spec h

theorem cascadeDepth_le {n : Nat} (h : g.CascadePath r x n) : g.cascadeDepth r x ≤ n := by
  classical
  rw [cascadeDepth, dif_pos ⟨n, h⟩]
  exact Nat.find_min' _ h

theorem cascadeDepth_step (hu : g.CascadeReaches r u) (hs : g.CascadeStep u v) :
    g.cascadeDepth r v ≤ g.cascadeDepth r u + 1 :=
  cascadeDepth_le ((cascadeDepth_path hu).step hs)

theorem eq_of_cascadeDepth_eq_zero (h : g.CascadeReaches r x) (h0 : g.cascadeDepth r x = 0) :
    x = r := by
  have hp := cascadeDepth_path h
  rw [h0] at hp
  cases hp
  rfl

theorem exists_cascade_parent {k : Nat} (h : g.CascadeReaches r x)
    (hd : g.cascadeDepth r x = k + 1) :
    ∃ p, g.CascadeReaches r p ∧ g.cascadeDepth r p = k ∧ g.CascadeStep p x := by
  have hp := cascadeDepth_path h
  rw [hd] at hp
  cases hp with
  | step hu hs =>
    have hle := cascadeDepth_le hu
    have hge := cascadeDepth_step ⟨k, hu⟩ hs
    exact ⟨_, ⟨k, hu⟩, by omega, hs⟩

end Depth

/-! ### One vertex of the walk -/

/-- What folding `cascadeVisit x` over the edges `es` does to the seen ids `V`: it marks seen
    every vertex the edges name from `x`, and queues `N`, the stored vertices among them that
    were not seen before, once each. -/
structure Discovers (g : Graph) (x : VertexId) (es : List Edge) (V : List VertexId)
    (N : List Vertex) (V' : List VertexId) : Prop where
  seen : ∀ z, z ∈ V' ↔ z ∈ V ∨ ∃ e ∈ es, e.cascadesFrom? x = some z
  fresh : ∀ z, z ∈ N.map (·.id) ↔ z ∉ V ∧ ∃ e ∈ es, e.cascadesFrom? x = some z
  nodup : (N.map (·.id)).Nodup
  stored : ∀ w ∈ N, w ∈ g.vertices

theorem Discovers.nil (g : Graph) (x : VertexId) (V : List VertexId) :
    Discovers g x [] V [] V := ⟨by simp, by simp, List.nodup_nil, by simp⟩

theorem Discovers.append {g : Graph} {x : VertexId} {es es' : List Edge}
    {V V₁ V₂ : List VertexId} {M N : List Vertex}
    (h : Discovers g x es V M V₁) (h' : Discovers g x es' V₁ N V₂) :
    Discovers g x (es ++ es') V (M ++ N) V₂ where
  seen z := by
    rw [h'.seen, h.seen]
    simp only [List.mem_append, or_and_right, exists_or, or_assoc]
  fresh z := by
    rw [List.map_append, List.mem_append, h.fresh, h'.fresh, h.seen]
    simp only [List.mem_append, or_and_right, exists_or]
    by_cases hz : z ∈ V <;> by_cases hes : ∃ e ∈ es, e.cascadesFrom? x = some z <;> simp [hz, hes]
  nodup := by
    rw [List.map_append, List.nodup_append]
    refine ⟨h.nodup, h'.nodup, fun a ha b hb hab => ?_⟩
    have hseen : a ∈ V₁ := (h.seen a).mpr (.inr ((h.fresh a).mp ha).2)
    exact ((h'.fresh b).mp hb).1 (hab ▸ hseen)
  stored w hw := (List.mem_append.mp hw).elim (h.stored w) (h'.stored w)

theorem cascadeVisit_discovers {g : Graph} {x : VertexId} {e : Edge}
    (hlive : ∀ z, e.cascadesFrom? x = some z → g.Live z) (Q : List Vertex) (V : List VertexId) :
    ∃ M, (g.cascadeVisit x (Q, V) e).1 = Q ++ M ∧
      Discovers g x [e] V M (g.cascadeVisit x (Q, V) e).2 := by
  unfold cascadeVisit
  cases hc : e.cascadesFrom? x with
  | none => exact ⟨[], by simp, ⟨fun z => by simp [hc], fun z => by simp [hc], List.nodup_nil,
      by simp⟩⟩
  | some next =>
    by_cases hv : next ∈ V
    · refine ⟨[], by simp [hv], ?_⟩
      simp only [hv, List.contains_iff_mem, if_true]
      refine ⟨fun z => ?_, fun z => ?_, List.nodup_nil, by simp⟩
      · simp only [hc, List.mem_singleton, exists_eq_left, Option.some.injEq]
        constructor
        · exact .inl
        · rintro (hz | rfl)
          exacts [hz, hv]
      · simp only [hc, List.map_nil, List.not_mem_nil, List.mem_singleton, exists_eq_left,
          Option.some.injEq, false_iff, not_and]
        rintro hz rfl
        exact hz hv
    · obtain ⟨w, hw⟩ := Option.isSome_iff_exists.mp ((g.vertex?_isSome_iff next).mpr (hlive next hc))
      obtain ⟨hwm, hwid⟩ := mem_of_vertex? hw
      simp only [List.contains_iff_mem, hv, if_false, hw]
      refine ⟨[w], rfl, ⟨fun z => ?_, fun z => ?_, List.nodup_singleton _, by simpa using hwm⟩⟩
      · simp [hc, eq_comm, or_comm]
      · simp only [List.map_cons, List.map_nil, hwid, List.mem_cons,
          List.not_mem_nil, or_false, exists_eq_left, hc, Option.some.injEq]
        constructor
        · rintro rfl
          exact ⟨hv, rfl⟩
        · rintro ⟨-, rfl⟩
          rfl

theorem foldl_cascadeVisit_discovers {g : Graph} {x : VertexId} :
    ∀ {es : List Edge}, (∀ e ∈ es, ∀ z, e.cascadesFrom? x = some z → g.Live z) →
    ∀ (Q : List Vertex) (V : List VertexId),
    ∃ N, (es.foldl (g.cascadeVisit x) (Q, V)).1 = Q ++ N ∧
      Discovers g x es V N (es.foldl (g.cascadeVisit x) (Q, V)).2
  | [], _, Q, V => ⟨[], by simp, Discovers.nil g x V⟩
  | e :: es, hlive, Q, V => by
    obtain ⟨M, hM, hd⟩ := cascadeVisit_discovers (hlive e List.mem_cons_self) Q V
    generalize hp : g.cascadeVisit x (Q, V) e = p at hM hd
    obtain ⟨Q₁, V₁⟩ := p
    obtain ⟨N, hN, hd'⟩ :=
      foldl_cascadeVisit_discovers (fun e' he' => hlive e' (List.mem_cons_of_mem e he')) Q₁ V₁
    refine ⟨M ++ N, ?_, ?_⟩
    · rw [List.foldl_cons, hp, hN, ← List.append_assoc, ← hM]
    · rw [List.foldl_cons, hp]
      exact hd.append hd'

theorem flaggedFrom?_ends {e : Edge} {f : FlagDirection} {x z : VertexId}
    (h : e.flaggedFrom? f x = some z) : e.touches x = true ∧ (z = e.outV ∨ z = e.inV) := by
  unfold Edge.flaggedFrom? at h
  split at h
  · split at h <;> simp_all [Edge.touches]
  · split at h <;> simp_all [Edge.touches]
  · cases h

theorem cascade_targets_edgesOf {g : Graph} (h : g.Consistent) (x z : VertexId) :
    (∃ e ∈ g.edgesOf x .both, e.cascadesFrom? x = some z) ↔ g.CascadeStep x z := by
  rw [edgesOf_eq h.edgeIndexed]
  constructor
  · rintro ⟨e, he, hz⟩
    exact ⟨e, (List.mem_filter.mp he).1, hz⟩
  · rintro ⟨e, he, hz⟩
    refine ⟨e, List.mem_filter.mpr ⟨he, ?_⟩, hz⟩
    simpa [Edge.runs, Edge.touches] using (flaggedFrom?_ends hz).1

theorem cascade_targets_live {g : Graph} (h : g.Consistent) (x : VertexId) :
    ∀ e ∈ g.edgesOf x .both, ∀ z, e.cascadesFrom? x = some z → g.Live z := by
  intro e he z hz
  rw [edgesOf_eq h.edgeIndexed] at he
  obtain ⟨hout, hin⟩ := h.ends_live e (List.mem_filter.mp he).1
  rcases (flaggedFrom?_ends hz).2 with rfl | rfl
  · exact hout
  · exact hin

/-! ### The queue invariant -/

/-- The state of the walk below `r`, with `order` the vertices taken (latest first), `queue`
    the vertices waiting and `seen` the ids marked. -/
structure WalkInv (g : Graph) (r : Vertex) (order queue : List Vertex) (seen : List VertexId) :
    Prop where
  root : ∃ rest, order.reverse ++ queue = r :: rest ∧ ∀ w ∈ rest, w ∈ g.vertices
  nodup : ((order.reverse ++ queue).map (·.id)).Nodup
  seen_iff : ∀ z, z ∈ seen ↔ z ∈ (order.reverse ++ queue).map (·.id)
  reaches : ∀ w ∈ order.reverse ++ queue, g.CascadeReaches r.id w.id
  sorted : (order.reverse ++ queue).Pairwise
    fun a b => g.cascadeDepth r.id a.id ≤ g.cascadeDepth r.id b.id
  spread : ∀ a ∈ queue, ∀ b ∈ queue, g.cascadeDepth r.id b.id ≤ g.cascadeDepth r.id a.id + 1
  closed : ∀ p ∈ order, ∀ z, g.CascadeStep p.id z → z ∈ seen
  complete : ∀ q ∈ queue.head?, ∀ x, g.CascadeReaches r.id x →
    g.cascadeDepth r.id x ≤ g.cascadeDepth r.id q.id → x ∈ seen

theorem WalkInv.start (g : Graph) (r : Vertex) : WalkInv g r [] [r] [r.id] where
  root := ⟨[], rfl, by simp⟩
  nodup := List.nodup_singleton _
  seen_iff z := by simp
  reaches w hw := by
    rw [List.mem_singleton.mp hw]
    exact .root
  sorted := List.pairwise_singleton _ _
  spread a ha b hb := by
    rw [List.mem_singleton.mp ha, List.mem_singleton.mp hb]
    exact Nat.le_succ _
  closed p hp := by simp at hp
  complete q hq x hx hd := by
    rw [show q = r from (Option.mem_some_iff.mp hq).symm] at hd
    have h0 : g.cascadeDepth r.id x = 0 := Nat.le_zero.mp ((cascadeDepth_le .root).trans' hd)
    simp [eq_of_cascadeDepth_eq_zero hx h0]

theorem head_depth_le {d : Vertex → Nat} {L queue : List Vertex} {q a : Vertex}
    (hs : (L ++ queue).Pairwise fun a b => d a ≤ d b) (hq : q ∈ queue.head?) (ha : a ∈ queue) :
    d q ≤ d a := by
  obtain ⟨rest, rfl⟩ : ∃ rest, queue = q :: rest := by
    cases queue with
    | nil => simp at hq
    | cons q' rest => exact ⟨rest, by rw [Option.mem_some_iff.mp hq]⟩
  have hcons := (List.pairwise_append.mp hs).2.1
  rcases List.mem_cons.mp ha with rfl | ha
  · exact Nat.le_refl _
  · exact (List.pairwise_cons.mp hcons).1 a ha

section Step
variable {g : Graph} {r y : Vertex} {order queue N : List Vertex} {seen seen' : List VertexId}

theorem WalkInv.take (h : g.Consistent) (hi : WalkInv g r order (y :: queue) seen)
    (hd : Discovers g y.id (g.edgesOf y.id .both) seen N seen') :
    WalkInv g r (y :: order) (queue ++ N) seen' := by
  have hseen' : ∀ z, z ∈ seen' ↔ z ∈ seen ∨ g.CascadeStep y.id z := fun z => by
    rw [hd.seen, cascade_targets_edgesOf h]
  have hfresh : ∀ z, z ∈ N.map (·.id) ↔ z ∉ seen ∧ g.CascadeStep y.id z := fun z => by
    rw [hd.fresh, cascade_targets_edgesOf h]
  have hlist : (y :: order).reverse ++ (queue ++ N) = (order.reverse ++ y :: queue) ++ N := by
    simp
  have hy : g.CascadeReaches r.id y.id := hi.reaches y (by simp)
  have hstep : ∀ w ∈ N, g.CascadeStep y.id w.id :=
    fun w hw => ((hfresh w.id).mp (List.mem_map_of_mem hw)).2
  -- A vertex seen for the first time from `y` cannot be as shallow as `y`: everything that
  -- shallow was already seen.
  have hN : ∀ w ∈ N, g.cascadeDepth r.id w.id = g.cascadeDepth r.id y.id + 1 := by
    intro w hw
    have hnew := ((hfresh w.id).mp (List.mem_map_of_mem hw)).1
    have hle := cascadeDepth_step hy (hstep w hw)
    by_contra hne
    exact hnew (hi.complete y (by simp) w.id (hy.step (hstep w hw)) (by omega))
  have hsorted := List.pairwise_append.mp hi.sorted
  have hqueue : ∀ b ∈ queue, g.cascadeDepth r.id y.id ≤ g.cascadeDepth r.id b.id := fun b hb =>
    (List.pairwise_cons.mp hsorted.2.1).1 b hb
  have hbelow : ∀ a ∈ order.reverse ++ y :: queue, g.cascadeDepth r.id a.id ≤ g.cascadeDepth r.id y.id + 1 := by
    intro a ha
    rcases List.mem_append.mp ha with ha | ha
    · exact Nat.le_succ_of_le (hsorted.2.2 a ha y List.mem_cons_self)
    · exact hi.spread y List.mem_cons_self a ha
  have hsorted' : ((y :: order).reverse ++ (queue ++ N)).Pairwise fun a b => g.cascadeDepth r.id a.id ≤ g.cascadeDepth r.id b.id := by
    rw [hlist, List.pairwise_append]
    refine ⟨hi.sorted, ?_, fun a ha b hb => (hN b hb) ▸ hbelow a ha⟩
    exact List.Pairwise.imp_of_mem (fun ha hb _ => (hN _ ha).trans (hN _ hb).symm ▸ Nat.le_refl _)
      (List.pairwise_of_forall (fun _ _ => trivial))
  refine ⟨?_, ?_, ?_, ?_, hsorted', ?_, ?_, ?_⟩
  · obtain ⟨rest, hrest, hstored⟩ := hi.root
    refine ⟨rest ++ N, by rw [hlist, hrest, List.cons_append], fun w hw => ?_⟩
    rcases List.mem_append.mp hw with hw | hw
    · exact hstored w hw
    · exact hd.stored w hw
  · rw [hlist, List.map_append, List.nodup_append]
    refine ⟨hi.nodup, hd.nodup, fun a ha b hb hab => ?_⟩
    exact ((hfresh b).mp hb).1 ((hi.seen_iff b).mpr (hab ▸ ha))
  · intro z
    rw [hseen', hlist, List.map_append, List.mem_append, ← hi.seen_iff, hfresh]
    by_cases hz : z ∈ seen <;> simp [hz]
  · intro w hw
    rw [hlist] at hw
    rcases List.mem_append.mp hw with hw | hw
    · exact hi.reaches w hw
    · exact hy.step (hstep w hw)
  · intro a ha b hb
    have hb' : g.cascadeDepth r.id b.id ≤ g.cascadeDepth r.id y.id + 1 := by
      rcases List.mem_append.mp hb with hb | hb
      · exact hbelow b (by simp [hb])
      · exact (hN b hb).le
    have ha' : g.cascadeDepth r.id y.id ≤ g.cascadeDepth r.id a.id := by
      rcases List.mem_append.mp ha with ha | ha
      · exact hqueue a ha
      · rw [hN a ha]
        exact Nat.le_succ _
    omega
  · intro p hp z hz
    rcases List.mem_cons.mp hp with rfl | hp
    · exact (hseen' z).mpr (.inr hz)
    · exact (hseen' z).mpr (.inl (hi.closed p hp z hz))
  · intro q hq x hx hdx
    have hqd : g.cascadeDepth r.id y.id ≤ g.cascadeDepth r.id q.id ∧ g.cascadeDepth r.id q.id ≤ g.cascadeDepth r.id y.id + 1 := by
      have hqm : q ∈ queue ++ N := List.mem_of_mem_head? hq
      rcases List.mem_append.mp hqm with hqm | hqm
      · exact ⟨hqueue q hqm, hbelow q (by simp [hqm])⟩
      · exact ⟨by rw [hN q hqm]; exact Nat.le_succ _, (hN q hqm).le⟩
    by_cases hshallow : g.cascadeDepth r.id x ≤ g.cascadeDepth r.id y.id
    · exact (hseen' x).mpr (.inl (hi.complete y (by simp) x hx hshallow))
    -- `x` is one below `y`; its parent on a shortest chain is as deep as `y`, so was seen,
    -- and was taken by now: a parent still queued behind `y` would put the head above `x`.
    obtain ⟨p, hpr, hpd, hpx⟩ := exists_cascade_parent hx (show g.cascadeDepth r.id x = g.cascadeDepth r.id y.id + 1 by omega)
    have hpseen := (hi.seen_iff p).mp (hi.complete y (by simp) p hpr (by omega))
    obtain ⟨a, ha, rfl⟩ := List.mem_map.mp hpseen
    rcases List.mem_append.mp ha with ha | ha
    · exact (hseen' x).mpr (.inl (hi.closed a (List.mem_reverse.mp ha) x hpx))
    rcases List.mem_cons.mp ha with rfl | ha
    · exact (hseen' x).mpr (.inr hpx)
    · have := head_depth_le hsorted' hq (List.mem_append_left N ha)
      omega

end Step

/-! ### The whole walk -/

/-- What the walk lists: the vertices the root reaches, each once, deepest first, root last. -/
structure CascadeOrder (g : Graph) (r : Vertex) (L : List Vertex) : Prop where
  nodup : (L.map (·.id)).Nodup
  root_last : L.getLast? = some r
  mem_iff : ∀ x, x ∈ L.map (·.id) ↔ g.CascadeReaches r.id x
  deepest_first : L.Pairwise fun a b => g.cascadeDepth r.id b.id ≤ g.cascadeDepth r.id a.id

theorem WalkInv.finish {g : Graph} {r : Vertex} {order : List Vertex} {seen : List VertexId}
    (hi : WalkInv g r order [] seen) : CascadeOrder g r order := by
  have hseen : ∀ z, z ∈ seen ↔ z ∈ order.map (·.id) := fun z => by
    rw [hi.seen_iff, List.append_nil, List.map_reverse, List.mem_reverse]
  obtain ⟨rest, hrest, -⟩ := hi.root
  rw [List.append_nil] at hrest
  refine ⟨?_, ?_, fun x => ⟨fun hx => ?_, fun hx => ?_⟩, ?_⟩
  · simpa [List.map_reverse] using hi.nodup
  · rw [← List.reverse_reverse order, hrest]
    simp
  · obtain ⟨w, hw, rfl⟩ := List.mem_map.mp hx
    exact hi.reaches w (by simpa using hw)
  · obtain ⟨n, hp⟩ := hx
    induction hp with
    | root =>
      have : r ∈ order.reverse := by simp [hrest]
      exact List.mem_map_of_mem (List.mem_reverse.mp this)
    | step _ hs ih =>
      obtain ⟨p, hp, rfl⟩ := List.mem_map.mp ih
      exact (hseen _).mp (hi.closed p hp _ hs)
  · have hsorted := hi.sorted
    rw [List.append_nil, List.pairwise_reverse] at hsorted
    exact hsorted

theorem WalkInv.length_le {g : Graph} {r : Vertex} {order queue : List Vertex}
    {seen : List VertexId} (hi : WalkInv g r order queue seen) :
    order.length + queue.length ≤ g.vertices.length + 1 := by
  obtain ⟨rest, hrest, hstored⟩ := hi.root
  have hnodup : rest.Nodup := by
    have := hi.nodup
    rw [hrest, List.map_cons] at this
    exact (List.nodup_cons.mp this).2.of_map _
  have hlen := (hnodup.subperm hstored).length_le
  have := congrArg List.length hrest
  simp only [List.length_append, List.length_reverse, List.length_cons] at this
  omega

theorem cascadeWalk_order {g : Graph} (h : g.Consistent) {r : Vertex} :
    ∀ (fuel : Nat) (order queue : List Vertex) (seen : List VertexId),
    WalkInv g r order queue seen → g.vertices.length + 1 < order.length + fuel →
    CascadeOrder g r (g.cascadeWalk fuel queue seen order)
  | 0, order, [], seen, hi, _ => hi.finish
  | 0, order, y :: queue, seen, hi, hfuel => by
    have := hi.length_le
    simp only [List.length_cons] at this
    omega
  | fuel + 1, order, [], seen, hi, _ => hi.finish
  | fuel + 1, order, y :: queue, seen, hi, hfuel => by
    obtain ⟨N, hN, hd⟩ := foldl_cascadeVisit_discovers (cascade_targets_live h y.id) queue seen
    simp only [cascadeWalk]
    rw [hN]
    exact cascadeWalk_order h fuel _ _ _ (hi.take h hd) (by simp only [List.length_cons]; omega)

theorem collectCascade_order {g : Graph} (h : g.Consistent) (r : Vertex) :
    CascadeOrder g r (g.collectCascade r) :=
  cascadeWalk_order h _ [] [r] [r.id] (WalkInv.start g r) (by simp)

theorem CascadeOrder.parent_later {g : Graph} {r : Vertex} {L : List Vertex}
    (h : CascadeOrder g r L) {L₁ L₂ : List Vertex} {x : Vertex} (hL : L = L₁ ++ x :: L₂)
    (hx : x.id ≠ r.id) : ∃ p ∈ L₂, g.CascadeStep p.id x.id := by
  have hxr : g.CascadeReaches r.id x.id := (h.mem_iff x.id).mp (List.mem_map_of_mem (by simp [hL]))
  obtain ⟨k, hk⟩ : ∃ k, g.cascadeDepth r.id x.id = k + 1 :=
    Nat.exists_eq_succ_of_ne_zero fun h0 => hx (eq_of_cascadeDepth_eq_zero hxr h0)
  obtain ⟨p, hpr, hpd, hpx⟩ := exists_cascade_parent hxr hk
  obtain ⟨a, ha, rfl⟩ := List.mem_map.mp ((h.mem_iff p).mpr hpr)
  have hsorted := h.deepest_first
  rw [hL, List.pairwise_append] at hsorted
  rw [hL] at ha
  rcases List.mem_append.mp ha with ha | ha
  · have := hsorted.2.2 a ha x List.mem_cons_self
    omega
  rcases List.mem_cons.mp ha with rfl | ha
  · omega
  · exact ⟨a, ha, hpx⟩

end Graph
end InventoryGraph
