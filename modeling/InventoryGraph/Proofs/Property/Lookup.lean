import InventoryGraph.Proofs.Store.Consistent

namespace InventoryGraph

namespace PropertyMap

@[simp]
theorem get?_empty (k : String) : empty.get? k = none := rfl

theorem find?_insertEntry (k k' : String) (x : PropertyValue) :
    ∀ l : List (String × PropertyValue), ((insertEntry k x l).find? fun e => e.1 == k').map (·.2) =
      if k' = k then some x else (l.find? fun e => e.1 == k').map (·.2)
  | [] => by
    by_cases h : k' = k
    · subst h
      simp [insertEntry]
    · simp [insertEntry, h, Ne.symm h]
  | (k₀, x₀) :: rest => by
    unfold insertEntry
    split
    · by_cases h : k' = k
      · subst h
        simp
      · simp [h, Ne.symm h]
    · split
      · next heq =>
        subst heq
        by_cases h : k' = k
        · subst h
          simp
        · simp [h, Ne.symm h]
      · next hne =>
        by_cases h₀ : k₀ = k'
        · subst h₀
          simp [Ne.symm hne]
        · have hb : (k₀ == k') = false := by simpa using h₀
          simp only [List.find?_cons, hb, find?_insertEntry k k' x rest]

@[simp]
theorem get?_insert (m : PropertyMap) (k k' : String) (x : PropertyValue) :
    (m.insert k x).get? k' = if k' = k then some x else m.get? k' :=
  find?_insertEntry k k' x m.entries

@[simp]
theorem get?_erase (m : PropertyMap) (k k' : String) :
    (m.erase k).get? k' = if k' = k then none else m.get? k' := by
  simp only [get?, erase, List.find?_filter]
  by_cases h : k' = k
  · subst h
    simp only [if_true, Option.map_eq_none_iff, List.find?_eq_none]
    simp
  · rw [if_neg h]
    congr 1
    refine congrArg (List.find? · m.entries) (funext fun e => ?_)
    by_cases he : e.1 = k' <;> simp [he, h]

theorem contains_eq (m : PropertyMap) (k : String) : m.contains k = (m.get? k).isSome := rfl

theorem ext_get? {m m' : PropertyMap} (h : ∀ k, m.get? k = m'.get? k) : m = m' := by
  have hsorted (n : PropertyMap) : n.entries.Pairwise fun p q => p.1 < q.1 :=
    List.pairwise_map.mp n.ascending
  have : Std.Irrefl fun p q : String × PropertyValue => p.1 < q.1 := ⟨fun p => String.lt_irrefl p.1⟩
  have : Std.Antisymm fun p q : String × PropertyValue => p.1 < q.1 :=
    ⟨fun _ _ hpq hqp => absurd (String.lt_trans hpq hqp) (String.lt_irrefl _)⟩
  obtain ⟨l, hl⟩ := m
  obtain ⟨l', hl'⟩ := m'
  congr
  refine List.Pairwise.eq_of_mem_iff (hsorted ⟨l, hl⟩) (hsorted ⟨l', hl'⟩) fun p => ?_
  have hp := h p.1
  constructor
  · intro hm
    exact (get?_eq_some_iff ⟨l', hl'⟩ p.1 p.2).mp (hp ▸ (get?_eq_some_iff ⟨l, hl⟩ p.1 p.2).mpr hm)
  · intro hm
    exact (get?_eq_some_iff ⟨l, hl⟩ p.1 p.2).mp (hp.symm ▸ (get?_eq_some_iff ⟨l', hl'⟩ p.1 p.2).mpr hm)

end PropertyMap

namespace Vertex

@[simp] theorem set_id (v : Vertex) (k : String) (x : PropertyValue) : (v.set k x).id = v.id := rfl
@[simp] theorem set_nodeType (v : Vertex) (k : String) (x : PropertyValue) :
    (v.set k x).nodeType = v.nodeType := rfl
@[simp] theorem set_createdAt (v : Vertex) (k : String) (x : PropertyValue) :
    (v.set k x).createdAt = v.createdAt := rfl
@[simp] theorem remove_id (v : Vertex) (k : String) : (v.remove k).id = v.id := rfl
@[simp] theorem remove_nodeType (v : Vertex) (k : String) : (v.remove k).nodeType = v.nodeType := rfl
@[simp] theorem remove_createdAt (v : Vertex) (k : String) :
    (v.remove k).createdAt = v.createdAt := rfl

@[simp]
theorem property?_set (v : Vertex) (k k' : String) (x : PropertyValue) :
    (v.set k x).property? k' = if k' = k then some x else v.property? k' :=
  PropertyMap.get?_insert _ _ _ _

@[simp]
theorem property?_remove (v : Vertex) (k k' : String) :
    (v.remove k).property? k' = if k' = k then none else v.property? k' :=
  PropertyMap.get?_erase _ _ _

end Vertex
end InventoryGraph
