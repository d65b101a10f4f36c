import InventoryGraph.Schema.Sync
import InventoryGraph.Proofs.Store.Writes

/-!
Reconciling a store's schema with a declared one adds and never changes. Every property key
is handled before any index, and every name is looked up before anything is made under it,
so making a key, an index or a label never meets one that exists, even when the declared
schema repeats a name: the first definition of a new name is made and later ones are
compared with it. The one way to fail is an index made anew over a key that neither the
store nor the declared schema defines, and a failure is reported as a failed sync.
-/
namespace InventoryGraph
namespace SchemaStore

def firstNew {α : Type} (name : α → String) : List String → List α → List α
  | _, [] => []
  | known, x :: xs =>
    if name x ∈ known then firstNew name known xs else x :: firstNew name (known ++ [name x]) xs

def extend (s : SchemaStore) (d : DeclaredSchema) : SchemaStore where
  propertyKeys := s.propertyKeys ++ firstNew (·.name) (s.propertyKeys.map (·.name)) d.propertyKeys
  indexes := s.indexes ++ firstNew (·.name) (s.indexes.map (·.name)) d.indexes
  edgeLabels := s.edgeLabels ++ firstNew id s.edgeLabels d.edgeLabels

def syncReport (s : SchemaStore) (d : DeclaredSchema) : SyncReport where
  createdKeys := (firstNew (·.name) (s.propertyKeys.map (·.name)) d.propertyKeys).map (·.name)
  conflictingKeys :=
    (d.propertyKeys.filter fun k => (s.extend d).propertyKey? k.name != some k).map (·.name)
  createdIndexes := (firstNew (·.name) (s.indexes.map (·.name)) d.indexes).map (·.name)
  changedIndexes := (d.indexes.filter fun i => (s.extend d).index? i.name != some i).map (·.name)
  createdLabels := firstNew id s.edgeLabels d.edgeLabels

/-- Some index of the list would be made anew, its name being neither in the schema nor that
    of an earlier index of the list, over a key the schema does not define. -/
def BreaksIndex (s : SchemaStore) (is : List IndexDef) : Prop :=
  ∃ pre i post, is = pre ++ i :: post ∧ i.name ∉ s.indexes.map (·.name) ∧
    i.name ∉ pre.map (·.name) ∧ ∃ k ∈ i.keys, k ∉ s.propertyKeys.map (·.name)

/-- Reconciling fails: some declared index would be made anew, its name being neither in the
    store nor that of an earlier declared index, over a key that neither the store nor the
    declared schema defines. -/
def SyncFails (s : SchemaStore) (d : DeclaredSchema) : Prop :=
  ∃ pre i post, d.indexes = pre ++ i :: post ∧ i.name ∉ s.indexes.map (·.name) ∧
    i.name ∉ pre.map (·.name) ∧
    ∃ k ∈ i.keys, k ∉ s.propertyKeys.map (·.name) ∧ k ∉ d.propertyKeys.map (·.name)

theorem mem_firstNew_names {α : Type} (name : α → String) (n : String) :
    ∀ (known : List String) (xs : List α),
      n ∈ known ++ (firstNew name known xs).map name ↔ n ∈ known ∨ n ∈ xs.map name
  | known, [] => by simp [firstNew]
  | known, x :: xs => by
    by_cases hx : name x ∈ known
    · simp only [firstNew, hx, if_true, mem_firstNew_names name n known xs, List.map_cons,
        List.mem_cons]
      constructor
      · rintro (h | h)
        · exact .inl h
        · exact .inr (.inr h)
      · rintro (h | rfl | h)
        · exact .inl h
        · exact .inl hx
        · exact .inr h
    · have key := mem_firstNew_names name n (known ++ [name x]) xs
      simp only [List.append_assoc, List.singleton_append] at key
      simp only [firstNew, hx, if_false, List.map_cons, key, List.mem_append, List.mem_cons]
      tauto

theorem find?_name_eq_none {α : Type} {name : α → String} {l : List α} {n : String} :
    l.find? (fun x => name x == n) = none ↔ n ∉ l.map name := by
  simp [List.find?_eq_none]

theorem propertyKey?_eq_none {s : SchemaStore} {n : String} :
    s.propertyKey? n = none ↔ n ∉ s.propertyKeys.map (·.name) := find?_name_eq_none

theorem index?_eq_none {s : SchemaStore} {n : String} :
    s.index? n = none ↔ n ∉ s.indexes.map (·.name) := find?_name_eq_none

theorem mem_names_of_find? {α : Type} {name : α → String} {l : List α} {n : String} {x : α}
    (h : l.find? (fun y => name y == n) = some x) : n ∈ l.map name ∧ name x = n := by
  have hx := List.find?_some h
  simp only [beq_iff_eq] at hx
  exact ⟨hx ▸ List.mem_map_of_mem (List.mem_of_find?_eq_some h), hx⟩

/-! ### Property keys -/

section Keys

variable {f : SyncReport × SchemaStore → PropertyKeyDef → Outcome (SyncReport × SchemaStore)}

theorem keys_foldlM
    (hnew : ∀ r s k, s.propertyKey? k.name = none → f (r, s) k =
      .ok ({ r with createdKeys := r.createdKeys ++ [k.name] },
        { s with propertyKeys := s.propertyKeys ++ [k] }))
    (hold : ∀ r s k live, s.propertyKey? k.name = some live → f (r, s) k =
      if live ≠ k then .ok ({ r with conflictingKeys := r.conflictingKeys ++ [k.name] }, s)
      else .ok (r, s)) :
    ∀ (ks : List PropertyKeyDef) (r : SyncReport) (s : SchemaStore),
      ks.foldlM f (r, s) = .ok (
        { r with
          createdKeys :=
            r.createdKeys ++ (firstNew (·.name) (s.propertyKeys.map (·.name)) ks).map (·.name)
          conflictingKeys := r.conflictingKeys ++ (ks.filter fun k =>
            ({ s with propertyKeys :=
              s.propertyKeys ++ firstNew (·.name) (s.propertyKeys.map (·.name)) ks } :
              SchemaStore).propertyKey? k.name != some k).map (·.name) },
        { s with propertyKeys := s.propertyKeys ++ firstNew (·.name) (s.propertyKeys.map (·.name)) ks })
  | [], r, s => by
    simp only [List.foldlM_nil, firstNew, List.map_nil, List.append_nil, List.filter_nil]
    rfl
  | k :: ks, r, s => by
    rw [List.foldlM_cons]
    cases hk : s.propertyKey? k.name with
    | none =>
      have hnot := propertyKey?_eq_none.mp hk
      have hfirst : firstNew (·.name) (s.propertyKeys.map (·.name)) (k :: ks) =
          k :: firstNew (·.name) (s.propertyKeys.map (·.name) ++ [k.name]) ks := by
        simp [firstNew, hnot]
      have hlook : ∀ rest, ({ s with propertyKeys := s.propertyKeys ++ k :: rest } :
          SchemaStore).propertyKey? k.name = some k := by
        intro rest
        simp only [propertyKey?, List.find?_append]
        rw [show s.propertyKeys.find? (·.name == k.name) = none from hk]
        simp
      rw [hnew r s k hk, Except.ok_bind, keys_foldlM hnew hold ks, hfirst]
      simp [hlook]
    | some live =>
      have hmem := (mem_names_of_find? hk).1
      have hfirst : firstNew (·.name) (s.propertyKeys.map (·.name)) (k :: ks) =
          firstNew (·.name) (s.propertyKeys.map (·.name)) ks := by
        simp [firstNew, hmem]
      have hlook : ∀ rest, ({ s with propertyKeys := s.propertyKeys ++ rest } :
          SchemaStore).propertyKey? k.name = some live := by
        intro rest
        simp only [propertyKey?, List.find?_append]
        rw [show s.propertyKeys.find? (·.name == k.name) = some live from hk]
        rfl
      rw [hold r s k live hk]
      by_cases hdiff : live ≠ k
      · rw [if_pos hdiff, Except.ok_bind, keys_foldlM hnew hold ks, hfirst]
        simp [hlook, hdiff]
      · rw [if_neg hdiff, Except.ok_bind, keys_foldlM hnew hold ks, hfirst]
        simp [hlook, not_not.mp hdiff]

end Keys

/-! ### Indexes -/

section Indexes

variable {f : SyncReport × SchemaStore → IndexDef → Outcome (SyncReport × SchemaStore)}

theorem IndexDef.ne_iff_of_name {live i : IndexDef} (h : live.name = i.name) :
    live ≠ i ↔ live.keys ≠ i.keys ∨ live.unique ≠ i.unique := by
  obtain ⟨n, ks, u⟩ := live
  obtain ⟨n', ks', u'⟩ := i
  simp only at h
  subst h
  simp only [ne_eq, IndexDef.mk.injEq, true_and]
  tauto

theorem BreaksIndex.cons {s s' : SchemaStore} {i : IndexDef} {is : List IndexDef}
    (hidx : ∀ n ∈ s.indexes.map (·.name), n ∈ s'.indexes.map (·.name))
    (hi : i.name ∈ s'.indexes.map (·.name)) (hkeys : s'.propertyKeys = s.propertyKeys)
    (h : s'.BreaksIndex is) : s.BreaksIndex (i :: is) := by
  obtain ⟨pre, j, post, rfl, hj, hpre, k, hk, hmiss⟩ := h
  refine ⟨i :: pre, j, post, rfl, fun hs => hj (hidx _ hs), ?_, k, hk, hkeys ▸ hmiss⟩
  simp only [List.map_cons, List.mem_cons, not_or]
  exact ⟨fun heq => hj (heq ▸ hi), hpre⟩

theorem indexes_foldlM_ok
    (hnew : ∀ r s i, s.index? i.name = none → (∀ k ∈ i.keys, k ∈ s.propertyKeys.map (·.name)) →
      f (r, s) i = .ok ({ r with createdIndexes := r.createdIndexes ++ [i.name] },
        { s with indexes := s.indexes ++ [i] }))
    (hold : ∀ r s i live, s.index? i.name = some live → f (r, s) i =
      if live.keys ≠ i.keys ∨ live.unique ≠ i.unique then
        .ok ({ r with changedIndexes := r.changedIndexes ++ [i.name] }, s)
      else .ok (r, s)) :
    ∀ (is : List IndexDef) (r : SyncReport) (s : SchemaStore), ¬ s.BreaksIndex is →
      is.foldlM f (r, s) = .ok (
        { r with
          createdIndexes :=
            r.createdIndexes ++ (firstNew (·.name) (s.indexes.map (·.name)) is).map (·.name)
          changedIndexes := r.changedIndexes ++ (is.filter fun i =>
            ({ s with indexes := s.indexes ++ firstNew (·.name) (s.indexes.map (·.name)) is } :
              SchemaStore).index? i.name != some i).map (·.name) },
        { s with indexes := s.indexes ++ firstNew (·.name) (s.indexes.map (·.name)) is })
  | [], r, s, _ => by
    simp only [List.foldlM_nil, firstNew, List.map_nil, List.append_nil, List.filter_nil]
    rfl
  | i :: is, r, s, hok => by
    rw [List.foldlM_cons]
    cases hi : s.index? i.name with
    | none =>
      have hnot := index?_eq_none.mp hi
      -- the index is new, so its keys must all be defined or it would break
      have hkeys : ∀ k ∈ i.keys, k ∈ s.propertyKeys.map (·.name) := by
        intro k hk
        by_contra hmiss
        exact hok ⟨[], i, is, rfl, hnot, by simp, k, hk, hmiss⟩
      have hrest : ¬ ({ s with indexes := s.indexes ++ [i] } : SchemaStore).BreaksIndex is :=
        fun h => hok (BreaksIndex.cons (fun n hn => by simp [hn]) (by simp)
          (rfl : ({ s with indexes := s.indexes ++ [i] } : SchemaStore).propertyKeys = _) h)
      have hfirst : firstNew (·.name) (s.indexes.map (·.name)) (i :: is) =
          i :: firstNew (·.name) (s.indexes.map (·.name) ++ [i.name]) is := by
        simp [firstNew, hnot]
      have hlook : ∀ rest, ({ s with indexes := s.indexes ++ i :: rest } :
          SchemaStore).index? i.name = some i := by
        intro rest
        simp only [index?, List.find?_append]
        rw [show s.indexes.find? (·.name == i.name) = none from hi]
        simp
      rw [hnew r s i hi hkeys, Except.ok_bind, indexes_foldlM_ok hnew hold is _ _ hrest, hfirst]
      simp [hlook]
    | some live =>
      have ⟨hmem, hname⟩ := mem_names_of_find? hi
      have hrest : ¬ s.BreaksIndex is := fun h => hok (BreaksIndex.cons (fun _ h => h) hmem rfl h)
      have hfirst : firstNew (·.name) (s.indexes.map (·.name)) (i :: is) =
          firstNew (·.name) (s.indexes.map (·.name)) is := by
        simp [firstNew, hmem]
      have hlook : ∀ rest, ({ s with indexes := s.indexes ++ rest } :
          SchemaStore).index? i.name = some live := by
        intro rest
        simp only [index?, List.find?_append]
        rw [show s.indexes.find? (·.name == i.name) = some live from hi]
        rfl
      have hdiff := IndexDef.ne_iff_of_name hname
      rw [hold r s i live hi]
      by_cases hchanged : live.keys ≠ i.keys ∨ live.unique ≠ i.unique
      · rw [if_pos hchanged, Except.ok_bind, indexes_foldlM_ok hnew hold is _ _ hrest, hfirst]
        simp [hlook, hdiff.mpr hchanged]
      · rw [if_neg hchanged, Except.ok_bind, indexes_foldlM_ok hnew hold is _ _ hrest, hfirst]
        simp [hlook, not_not.mp (mt hdiff.mp hchanged)]

theorem indexes_foldlM_ne_ok
    (hnew : ∀ r s i, s.index? i.name = none → (∀ k ∈ i.keys, k ∈ s.propertyKeys.map (·.name)) →
      f (r, s) i = .ok ({ r with createdIndexes := r.createdIndexes ++ [i.name] },
        { s with indexes := s.indexes ++ [i] }))
    (hmissing : ∀ r s i, s.index? i.name = none →
      (∃ k ∈ i.keys, k ∉ s.propertyKeys.map (·.name)) → ∀ x, f (r, s) i ≠ .ok x)
    (hold : ∀ r s i live, s.index? i.name = some live → f (r, s) i =
      if live.keys ≠ i.keys ∨ live.unique ≠ i.unique then
        .ok ({ r with changedIndexes := r.changedIndexes ++ [i.name] }, s)
      else .ok (r, s)) :
    ∀ (is : List IndexDef) (r : SyncReport) (s : SchemaStore), s.BreaksIndex is →
      ∀ x, is.foldlM f (r, s) ≠ .ok x
  | [], _, _, ⟨pre, _, _, h, _⟩ => by simp at h
  | i :: is, r, s, ⟨pre, j, post, heq, hj, hpre, k, hk, hmiss⟩ => by
    intro x hx
    rw [List.foldlM_cons, Except.bind_eq_ok] at hx
    obtain ⟨a, ha, hrest⟩ := hx
    cases pre with
    | nil =>
      have hij : i = j := (List.cons.inj heq).1
      subst hij
      exact hmissing r s i (index?_eq_none.mpr hj) ⟨k, hk, hmiss⟩ a ha
    | cons i' pre =>
      obtain ⟨hii', his⟩ := List.cons.inj heq
      subst hii'
      simp only [List.map_cons, List.mem_cons, not_or] at hpre
      have hnext : ∀ (r' : SyncReport) (s' : SchemaStore),
          (∀ n ∈ s'.indexes.map (·.name), n ∈ s.indexes.map (·.name) ∨ n = i.name) →
          s'.propertyKeys = s.propertyKeys → is.foldlM f (r', s') ≠ .ok x := by
        intro r' s' hidx hkeys
        refine indexes_foldlM_ne_ok hnew hmissing hold is r' s'
          ⟨pre, j, post, his, fun hs => ?_, hpre.2, k, hk, hkeys ▸ hmiss⟩ x
        rcases hidx _ hs with hs | hs
        · exact hj hs
        · exact hpre.1 hs
      cases hi : s.index? i.name with
      | none =>
        by_cases hkeys : ∀ k ∈ i.keys, k ∈ s.propertyKeys.map (·.name)
        · rw [hnew r s i hi hkeys, Except.ok.injEq] at ha
          subst ha
          refine hnext _ { s with indexes := s.indexes ++ [i] } (fun n hn => ?_) rfl hrest
          simpa only [List.map_append, List.map_cons, List.map_nil, List.mem_append,
            List.mem_singleton] using hn
        · push Not at hkeys
          exact hmissing r s i hi hkeys a ha
      | some live =>
        rw [hold r s i live hi] at ha
        split at ha <;>
        · rw [Except.ok.injEq] at ha
          subst ha
          exact hnext _ _ (fun n hn => .inl hn) rfl hrest

end Indexes

/-! ### Edge labels -/

section Labels

variable {f : SyncReport × SchemaStore → String → Outcome (SyncReport × SchemaStore)}

theorem labels_foldlM
    (hnew : ∀ r s l, s.containsEdgeLabel l = false → f (r, s) l =
      .ok ({ r with createdLabels := r.createdLabels ++ [l] },
        { s with edgeLabels := s.edgeLabels ++ [l] }))
    (hold : ∀ r s l, s.containsEdgeLabel l = true → f (r, s) l = .ok (r, s)) :
    ∀ (ls : List String) (r : SyncReport) (s : SchemaStore),
      ls.foldlM f (r, s) = .ok (
        { r with createdLabels := r.createdLabels ++ firstNew id s.edgeLabels ls },
        { s with edgeLabels := s.edgeLabels ++ firstNew id s.edgeLabels ls })
  | [], r, s => by
    simp only [List.foldlM_nil, firstNew, List.append_nil]
    rfl
  | l :: ls, r, s => by
    rw [List.foldlM_cons]
    cases hl : s.containsEdgeLabel l with
    | false =>
      have hnot : l ∉ s.edgeLabels := by simpa [containsEdgeLabel] using hl
      rw [hnew r s l hl, Except.ok_bind, labels_foldlM hnew hold ls]
      simp [firstNew, hnot]
    | true =>
      have hmem : l ∈ s.edgeLabels := by simpa [containsEdgeLabel] using hl
      rw [hold r s l hl, Except.ok_bind, labels_foldlM hnew hold ls]
      simp [firstNew, hmem]

end Labels

/-! ### The whole reconciliation -/

theorem makePropertyKey_ok {s : SchemaStore} {k : PropertyKeyDef} (h : s.propertyKey? k.name = none) :
    s.makePropertyKey k = .ok { s with propertyKeys := s.propertyKeys ++ [k] } := by
  simp [makePropertyKey, h]

theorem buildIndex_ok {s : SchemaStore} {i : IndexDef} (h : s.index? i.name = none)
    (hkeys : ∀ k ∈ i.keys, k ∈ s.propertyKeys.map (·.name)) :
    s.buildIndex i = .ok { s with indexes := s.indexes ++ [i] } := by
  have hfind : i.keys.find? (fun k => (s.propertyKey? k).isNone) = none := by
    refine List.find?_eq_none.mpr fun k hk hnone => ?_
    exact propertyKey?_eq_none.mp (Option.isNone_iff_eq_none.mp hnone) (hkeys k hk)
  simp [buildIndex, hfind, h]

theorem buildIndex_missing {s : SchemaStore} {i : IndexDef}
    (hk : ∃ k ∈ i.keys, k ∉ s.propertyKeys.map (·.name)) : ∀ x, s.buildIndex i ≠ .ok x := by
  obtain ⟨k, hk, hmiss⟩ := hk
  cases hfind : i.keys.find? (fun k => (s.propertyKey? k).isNone) with
  | some k' => simp [buildIndex, hfind]
  | none =>
    have := List.find?_eq_none.mp hfind k hk
    simp [propertyKey?_eq_none.mpr hmiss] at this

theorem makeEdgeLabel_ok {s : SchemaStore} {l : String} (h : s.containsEdgeLabel l = false) :
    s.makeEdgeLabel l = .ok { s with edgeLabels := s.edgeLabels ++ [l] } := by
  simp [makeEdgeLabel, h]

theorem apply_eq_ok {s : SchemaStore} {d : DeclaredSchema}
    (h : ¬ ({ s with propertyKeys := (s.extend d).propertyKeys } : SchemaStore).BreaksIndex
      d.indexes) :
    s.apply d = .ok (s.syncReport d, s.extend d) := by
  have h' : ¬ BreaksIndex { s with
      propertyKeys := s.propertyKeys ++ firstNew (·.name) (s.propertyKeys.map (·.name)) d.propertyKeys }
      d.indexes := h
  unfold apply
  rw [keys_foldlM (fun r s k hk => by simp only [hk, makePropertyKey_ok hk]; rfl)
    (fun r s k live hk => by simp only [hk]; rfl), Except.ok_bind]
  dsimp only
  rw [indexes_foldlM_ok (fun r s i hi hkeys => by simp only [hi, buildIndex_ok hi hkeys]; rfl)
    (fun r s i live hi => by simp only [hi]; rfl) _ _ _ h', Except.ok_bind]
  dsimp only
  rw [labels_foldlM (fun r s l hl => by simp only [hl, makeEdgeLabel_ok hl]; rfl)
    (fun r s l hl => by simp only [hl]; rfl)]
  rfl

theorem apply_ne_ok {s : SchemaStore} {d : DeclaredSchema}
    (h : BreaksIndex { s with propertyKeys := (s.extend d).propertyKeys } d.indexes) :
    ∀ x, s.apply d ≠ .ok x := by
  have h' : BreaksIndex { s with
      propertyKeys := s.propertyKeys ++ firstNew (·.name) (s.propertyKeys.map (·.name)) d.propertyKeys }
      d.indexes := h
  intro x hx
  unfold apply at hx
  rw [keys_foldlM (fun r s k hk => by simp only [hk, makePropertyKey_ok hk]; rfl)
    (fun r s k live hk => by simp only [hk]; rfl), Except.ok_bind] at hx
  dsimp only at hx
  obtain ⟨a, ha, -⟩ := Except.bind_eq_ok.mp hx
  refine indexes_foldlM_ne_ok (fun r s i hi hkeys => by simp only [hi, buildIndex_ok hi hkeys]; rfl)
    (fun r s i hi hmiss y hy => ?_) (fun r s i live hi => by simp only [hi]; rfl) _ _ _ h' a ha
  simp only [hi, Except.bind_eq_ok] at hy
  obtain ⟨s', hs', -⟩ := hy
  exact buildIndex_missing hmiss s' hs'

theorem syncFails_iff (s : SchemaStore) (d : DeclaredSchema) :
    s.SyncFails d ↔ BreaksIndex { s with propertyKeys := (s.extend d).propertyKeys } d.indexes := by
  simp only [SyncFails, BreaksIndex, extend]
  refine exists_congr fun pre => exists_congr fun i => exists_congr fun post =>
    and_congr_right fun _ => and_congr_right fun _ => and_congr_right fun _ =>
      exists_congr fun k => and_congr_right fun _ => ?_
  rw [List.map_append, mem_firstNew_names, not_or]

/-- Reconciling a live schema with a declared one, for every live schema and declared schema,
    repeated names included: it fails exactly when some declared index would be made anew over
    a key that neither defines, and then fails as a schema sync, leaving no new schema. Otherwise
    the new schema is the live one with the first definition of each missing name added, and
    the report lists those additions in declared order and the declared keys and indexes that
    differ from the definition then live under their name. -/
theorem reconcile_adds_only_missing (s : SchemaStore) (d : DeclaredSchema) :
    ((∃ e, s.reconcile d = .error e) ↔ s.SyncFails d) ∧
    (∀ e, s.reconcile d = .error e → ∃ m, e = .schemaSync m) ∧
    (¬ s.SyncFails d → s.reconcile d = .ok (s.syncReport d, s.extend d)) := by
  have hok : ¬ s.SyncFails d → s.reconcile d = .ok (s.syncReport d, s.extend d) := by
    intro h
    rw [reconcile, apply_eq_ok (mt (syncFails_iff s d).mpr h)]
  refine ⟨⟨fun ⟨e, he⟩ => ?_, fun h => ?_⟩, fun e he => ?_, hok⟩
  · by_contra hnot
    rw [hok hnot] at he
    cases he
  · cases happ : s.apply d with
    | ok x => exact absurd happ (apply_ne_ok ((syncFails_iff s d).mp h) x)
    | error e => exact ⟨_, by rw [reconcile, happ]⟩
  · unfold reconcile at he
    split at he
    · cases he
    · cases he
      exact ⟨_, rfl⟩

example : (SchemaStore.reconcile {}
    { propertyKeys := [⟨"a", .string, .single⟩]
      indexes := [⟨"b-index", ["b"], false⟩]
      edgeLabels := ["c"] }).isOk = false := by decide

example : (SchemaStore.reconcile { propertyKeys := [⟨"vnf-type", .string, .single⟩] }
    { propertyKeys := [⟨"vnf-type", .integer, .single⟩] }).toOption =
    some ({ conflictingKeys := ["vnf-type"] },
      { propertyKeys := [⟨"vnf-type", .string, .single⟩] }) := by
  decide

/-! ### Reconciling twice

A successful reconciliation leaves every declared name in the schema, and a schema that holds
every declared name is its own extension with an empty report of creations. So the second run
meets only known names: nothing is made, no index is built, and it cannot fail. -/

/-- Every name the declared schema uses is in the schema. -/
structure Covers (s : SchemaStore) (d : DeclaredSchema) : Prop where
  keys : ∀ k ∈ d.propertyKeys, k.name ∈ s.propertyKeys.map (·.name)
  indexes : ∀ i ∈ d.indexes, i.name ∈ s.indexes.map (·.name)
  labels : ∀ l ∈ d.edgeLabels, l ∈ s.edgeLabels

theorem firstNew_eq_nil {α : Type} (name : α → String) {known : List String} :
    ∀ {xs : List α}, (∀ x ∈ xs, name x ∈ known) → firstNew name known xs = []
  | [], _ => rfl
  | x :: xs, h => by
    rw [firstNew, if_pos (h x List.mem_cons_self)]
    exact firstNew_eq_nil name fun y hy => h y (List.mem_cons_of_mem x hy)

theorem mem_names_extend {α : Type} (name : α → String) (known : List α) {xs : List α} {x : α}
    (hx : x ∈ xs) : name x ∈ (known ++ firstNew name (known.map name) xs).map name := by
  rw [List.map_append, mem_firstNew_names]
  exact .inr (List.mem_map_of_mem hx)

theorem covers_extend (s : SchemaStore) (d : DeclaredSchema) : (s.extend d).Covers d where
  keys _ hk := mem_names_extend (·.name) s.propertyKeys hk
  indexes _ hi := mem_names_extend (·.name) s.indexes hi
  labels l hl := by
    have h := mem_names_extend id s.edgeLabels hl
    simp only [List.map_id] at h
    exact h

theorem Covers.extend_eq {s : SchemaStore} {d : DeclaredSchema} (h : s.Covers d) :
    s.extend d = s := by
  have hl : firstNew id s.edgeLabels d.edgeLabels = [] := firstNew_eq_nil id h.labels
  simp only [extend, firstNew_eq_nil _ h.keys, firstNew_eq_nil _ h.indexes, hl,
    List.append_nil]

theorem Covers.isNoop {s : SchemaStore} {d : DeclaredSchema} (h : s.Covers d) :
    (s.syncReport d).isNoop = true := by
  have hl : firstNew id s.edgeLabels d.edgeLabels = [] := firstNew_eq_nil id h.labels
  simp [syncReport, SyncReport.isNoop, firstNew_eq_nil _ h.keys, firstNew_eq_nil _ h.indexes, hl]

theorem Covers.not_syncFails {s : SchemaStore} {d : DeclaredSchema} (h : s.Covers d) :
    ¬ s.SyncFails d := by
  rintro ⟨pre, i, post, hd, hnew, -⟩
  exact hnew (h.indexes i (hd ▸ List.mem_append_right pre List.mem_cons_self))

theorem reconcile_of_not_syncFails {s : SchemaStore} {d : DeclaredSchema} (h : ¬ s.SyncFails d) :
    s.reconcile d = .ok (s.syncReport d, s.extend d) := by
  rw [reconcile, apply_eq_ok (mt (syncFails_iff s d).mpr h)]

theorem eq_of_reconcile_ok {s s' : SchemaStore} {d : DeclaredSchema} {r : SyncReport}
    (h : s.reconcile d = .ok (r, s')) : r = s.syncReport d ∧ s' = s.extend d := by
  by_cases hf : s.SyncFails d
  · -- a failing run of `apply` is reported as a failed sync, never as a result
    exfalso
    unfold reconcile at h
    split at h
    · next x hx => exact apply_ne_ok ((syncFails_iff s d).mp hf) x hx
    · cases h
  · rw [reconcile_of_not_syncFails hf, Except.ok.injEq, Prod.mk.injEq] at h
    exact ⟨h.1.symm, h.2.symm⟩

/-- Reconciling is idempotent, for every live schema and every declared schema, repeated and
    conflicting names included: once a reconciliation succeeds, a second one with the same
    declared schema succeeds, leaves the schema as the first left it, and creates nothing. -/
theorem reconcile_idempotent {s s' : SchemaStore} {d : DeclaredSchema} {r : SyncReport}
    (h : s.reconcile d = .ok (r, s')) :
    ∃ r', s'.reconcile d = .ok (r', s') ∧ r'.isNoop = true := by
  obtain ⟨-, rfl⟩ := eq_of_reconcile_ok h
  have hcov := covers_extend s d
  refine ⟨(s.extend d).syncReport d, ?_, hcov.isNoop⟩
  rw [reconcile_of_not_syncFails hcov.not_syncFails, hcov.extend_eq]

/-! A declared key repeated with another type, over an empty store: the first run makes the key,
its index and its label and reports the conflict; the second run makes nothing. -/

namespace RepeatedKey

def declared : DeclaredSchema where
  propertyKeys := [⟨"name", .string, .single⟩, ⟨"name", .integer, .single⟩]
  indexes := [⟨"name-index", ["name"], false⟩]
  edgeLabels := ["has"]

def settled : SchemaStore where
  propertyKeys := [⟨"name", .string, .single⟩]
  indexes := [⟨"name-index", ["name"], false⟩]
  edgeLabels := ["has"]

def firstReport : SyncReport where
  createdKeys := ["name"]
  conflictingKeys := ["name"]
  createdIndexes := ["name-index"]
  createdLabels := ["has"]

theorem settles_after_one_run :
    SchemaStore.reconcile {} declared = .ok (firstReport, settled) ∧
      ∃ r', settled.reconcile declared = .ok (r', settled) ∧ r'.isNoop = true := by
  have h : SchemaStore.reconcile {} declared = .ok (firstReport, settled) := by rfl
  exact ⟨h, reconcile_idempotent h⟩

end RepeatedKey

end SchemaStore
end InventoryGraph
