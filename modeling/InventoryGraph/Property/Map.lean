import InventoryGraph.Property.Value

/-!
Property maps: from property names to values, kept sorted by name in byte order with one
entry per name. A map carries the proof that its names ascend strictly, so a set of
entries has one representation and two maps with the same entries are equal.
-/
namespace InventoryGraph

/-- Property values by name, sorted by name. -/
structure PropertyMap where
  entries : List (String × PropertyValue)
  ascending : (entries.map (·.1)).Pairwise (· < ·)
  deriving DecidableEq, Repr

namespace PropertyMap

def empty : PropertyMap := ⟨[], List.Pairwise.nil⟩

instance : Inhabited PropertyMap := ⟨empty⟩

def get? (m : PropertyMap) (k : String) : Option PropertyValue :=
  (m.entries.find? fun e => e.1 == k).map (·.2)

def contains (m : PropertyMap) (k : String) : Bool := (m.get? k).isSome

def insertEntry (k : String) (v : PropertyValue) :
    List (String × PropertyValue) → List (String × PropertyValue)
  | [] => [(k, v)]
  | (k', v') :: rest =>
    if k < k' then (k, v) :: (k', v') :: rest
    else if k = k' then (k, v) :: rest
    else (k', v') :: insertEntry k v rest

theorem mem_insertEntry_names {k x : String} {v : PropertyValue} :
    ∀ {l : List (String × PropertyValue)}, x ∈ (insertEntry k v l).map (·.1) →
      x = k ∨ x ∈ l.map (·.1)
  | [], h => by simpa [insertEntry] using h
  | (k', v') :: rest, h => by
    unfold insertEntry at h
    split at h
    · simpa [or_assoc] using h
    · split at h
      · simp only [List.map_cons, List.mem_cons] at h ⊢
        rcases h with h | h
        · exact .inl h
        · exact .inr (.inr h)
      · simp only [List.map_cons, List.mem_cons] at h ⊢
        rcases h with h | h
        · exact .inr (.inl h)
        · rcases mem_insertEntry_names h with h | h
          · exact .inl h
          · exact .inr (.inr h)

theorem insertEntry_ascending (k : String) (v : PropertyValue) :
    ∀ {l : List (String × PropertyValue)}, (l.map (·.1)).Pairwise (· < ·) →
      ((insertEntry k v l).map (·.1)).Pairwise (· < ·)
  | [], _ => by simp [insertEntry]
  | (k', v') :: rest, h => by
    simp only [List.map_cons, List.pairwise_cons] at h
    unfold insertEntry
    split
    · next hlt =>
      simp only [List.map_cons, List.pairwise_cons, List.mem_cons]
      refine ⟨?_, h.1, h.2⟩
      rintro x (rfl | hx)
      · exact hlt
      · exact String.lt_trans hlt (h.1 x hx)
    · split
      · next heq =>
        subst heq
        simpa only [List.map_cons, List.pairwise_cons] using h
      · next hlt hne =>
        have hgt : k' < k := by
          rcases Decidable.em (k' < k) with h' | h'
          · exact h'
          · exact absurd (String.le_antisymm (String.not_lt.mp hlt) (String.not_lt.mp h'))
              (Ne.symm hne)
        simp only [List.map_cons, List.pairwise_cons]
        refine ⟨fun x hx => ?_, insertEntry_ascending k v h.2⟩
        rcases mem_insertEntry_names hx with rfl | hx
        · exact hgt
        · exact h.1 x hx

def insert (m : PropertyMap) (k : String) (v : PropertyValue) : PropertyMap :=
  ⟨insertEntry k v m.entries, insertEntry_ascending k v m.ascending⟩

theorem filter_ascending (m : PropertyMap) (p : String × PropertyValue → Bool) :
    ((m.entries.filter p).map (·.1)).Pairwise (· < ·) :=
  m.ascending.sublist ((List.filter_sublist).map _)

def erase (m : PropertyMap) (k : String) : PropertyMap :=
  ⟨m.entries.filter fun e => e.1 != k, m.filter_ascending _⟩

def toList (m : PropertyMap) : List (String × PropertyValue) := m.entries

def keys (m : PropertyMap) : List String := m.entries.map (·.1)

/-- The map of a list of entries; a later entry of a name replaces an earlier one. -/
def ofList (xs : List (String × PropertyValue)) : PropertyMap :=
  xs.foldl (fun m e => m.insert e.1 e.2) empty

def isEmpty (m : PropertyMap) : Bool := m.entries.isEmpty

def filter (m : PropertyMap) (p : String → Bool) : PropertyMap :=
  ⟨m.entries.filter fun e => p e.1, m.filter_ascending _⟩

end PropertyMap
end InventoryGraph
