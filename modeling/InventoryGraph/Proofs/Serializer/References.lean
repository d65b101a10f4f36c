import InventoryGraph.Proofs.Serializer.DistinctAddresses

/-!
Following a reference back to its vertex. The reference a serializer builds for a vertex carries
the vertex's stored address, and looking an address up first trims its trailing slashes. An
address ends in the segment of its vertex, and a segment ends in the encoding of its last key,
which holds no slash and is empty only for an empty key; a keyed segment also holds two slashes,
which the unknown address does not. So in a store that creating writes reach under addressable
types, the reference of a vertex whose keys are not empty leads back to exactly that vertex.
-/

namespace InventoryGraph

namespace Text

/-- The text ends in a character other than a slash. -/
def EndsUnslashed (l : List Char) : Prop := ∃ c, l.getLast? = some c ∧ c ≠ '/'

theorem EndsUnslashed.append_left {a b : List Char} (h : EndsUnslashed b) :
    EndsUnslashed (a ++ b) := by
  obtain ⟨c, hc, hne⟩ := h
  exact ⟨c, by rw [List.getLast?_append, hc]; rfl, hne⟩

theorem EndsUnslashed.ne_nil {l : List Char} (h : EndsUnslashed l) : l ≠ [] := by
  obtain ⟨c, hc, -⟩ := h
  rintro rfl
  cases hc

theorem endsUnslashed_slash_percentEncode {x : String} (hx : x ≠ "") :
    EndsUnslashed ("/" ++ percentEncode x).toList := by
  have hne : (percentEncode x).toList ≠ [] := fun h =>
    hx (percentEncode_eq_empty.mp (String.toList_eq_nil_iff.mp h))
  obtain ⟨c, hc⟩ := Option.isSome_iff_exists.mp (List.getLast?_isSome.mpr hne)
  refine ⟨c, ?_, fun hslash => slash_not_mem_percentEncode x ?_⟩
  · rw [String.toList_append, List.getLast?_append, hc]
    rfl
  · exact hslash ▸ List.mem_of_getLast? hc

end Text

namespace Scope

theorem normalizeUri_of_endsUnslashed {u : String} (h : Text.EndsUnslashed u.toList) :
    normalizeUri u = u := by
  obtain ⟨c, hc, hne⟩ := h
  obtain ⟨r, hr⟩ : ∃ r, u.toList.reverse = c :: r := by
    rw [List.getLast?_eq_head?_reverse] at hc
    exact List.head?_eq_some_iff.mp hc
  unfold normalizeUri
  rw [hr, List.dropWhile_cons_of_neg (by simpa using hne), ← hr, List.reverse_reverse,
    String.ofList_toList]

variable {s : Scope}

theorem KeyPart.endsUnslashed {v : Vertex} {k : Identifier} {part : String}
    (h : KeyPart v k part) (hne : ∀ x, v.property? k.text = some x → x.display ≠ "") :
    Text.EndsUnslashed part.toList := by
  obtain ⟨x, hx, -, rfl⟩ := h
  exact Text.endsUnslashed_slash_percentEncode (hne x hx)

theorem KeyPart.join_endsUnslashed {v : Vertex} {ks : List Identifier} {parts : List String}
    (h : List.Forall₂ (KeyPart v) ks parts) (hks : ks ≠ [])
    (hne : ∀ k ∈ ks, ∀ x, v.property? k.text = some x → x.display ≠ "") :
    Text.EndsUnslashed (String.join parts).toList := by
  induction h with
  | nil => exact absurd rfl hks
  | cons hk hrest ih =>
    rw [String.join_cons, String.toList_append]
    cases hrest with
    | nil => simpa using hk.endsUnslashed (hne _ List.mem_cons_self)
    | cons =>
      exact (ih (List.cons_ne_nil _ _)
        fun k hk' x hx => hne k (List.mem_cons_of_mem _ hk') x hx).append_left

theorem KeyPart.join_count_slash {v : Vertex} {ks : List Identifier} {parts : List String}
    (h : List.Forall₂ (KeyPart v) ks parts) (hks : ks ≠ []) :
    1 ≤ (String.join parts).toList.count '/' := by
  cases h with
  | nil => exact absurd rfl hks
  | cons hk _ =>
    obtain ⟨e, he, -⟩ := hk.shape
    rw [String.join_cons, String.toList_append, List.count_append, he, List.count_cons_self]
    omega

theorem AddressBelow.endsWithSegment {g : Graph} {p : Option VertexId} {x : VertexId} {u : String}
    (h : s.AddressBelow g p x u) : ∃ w seg, s.segAt g x = some seg ∧ u = w ++ seg := by
  induction h with
  | here _ hs => exact ⟨"", _, hs, by simp⟩
  | down _ _ _ ih =>
    obtain ⟨w, seg, hseg, rfl⟩ := ih
    exact ⟨_ ++ w, seg, hseg, String.append_assoc.symm⟩

theorem Address.lookupForm (hs : s.Addressable) {g : Graph} {x : VertexId} {v : Vertex} {u : String}
    (ha : s.Address g x u) (hv : g.vertex? x = some v)
    (hne : ∀ t, s.nodeType? v.nodeType.text = some t →
      ∀ k ∈ t.keyProperties, ∀ y, v.property? k.text = some y → y.display ≠ "") :
    normalizeUri u = u ∧ u ≠ "" ∧ u ≠ unknownUri := by
  obtain ⟨w, seg, hseg, rfl⟩ := AddressBelow.endsWithSegment ha
  rw [segAt_of_vertex? hv] at hseg
  obtain ⟨t, parts, ht, hparts, rfl⟩ := segment?_eq_some hseg
  have hkeyed := (hs _ _ ht).keyed
  have hsplit : (w ++ ("/" ++ v.nodeType.text ++ String.join parts)).toList =
      (w ++ "/" ++ v.nodeType.text).toList ++ (String.join parts).toList := by
    simp only [String.toList_append, List.append_assoc]
  have hend : Text.EndsUnslashed (w ++ ("/" ++ v.nodeType.text ++ String.join parts)).toList := by
    rw [hsplit]
    exact (KeyPart.join_endsUnslashed hparts hkeyed (hne t ht)).append_left
  refine ⟨normalizeUri_of_endsUnslashed hend, fun h => hend.ne_nil (by rw [h]; rfl),
    fun h => ?_⟩
  -- the unknown address holds one slash, a keyed segment two
  have hcount := congrArg (fun u : String => u.toList.count '/') h
  have hunknown : unknownUri.toList.count '/' = 1 := by decide
  have hparts := KeyPart.join_count_slash hparts hkeyed
  have hslash : ("/" : String).toList.count '/' = 1 := by decide
  simp only [String.toList_append, List.count_append, hunknown, hslash] at hcount
  omega

theorem findByUri_stored {g : Graph} (hc : g.Consistent) (hd : g.UrisDistinct) {x : VertexId}
    {t : Vertex} {u : String} (ht : g.vertex? x = some t)
    (hu : t.property? Bookkeeping.uri = some (.str u)) (hn : normalizeUri u = u) (hne : u ≠ "")
    (hunk : u ≠ unknownUri) : findByUri g u = .ok (some t) := by
  have hmem : t ∈ g.verticesWith Bookkeeping.uri (.str u) := by
    rw [Graph.verticesWith_eq hc.vertexIndexed]
    exact List.mem_filter.mpr ⟨(Graph.mem_of_vertex? ht).1, by simp [hu]⟩
  have hle := Graph.length_verticesWith_uri_le hc hd u
  have hone : g.verticesWith Bookkeeping.uri (.str u) = [t] := by
    generalize g.verticesWith Bookkeeping.uri (.str u) = l at hmem hle
    rcases l with _ | ⟨v, _ | ⟨w, rest⟩⟩
    · cases hmem
    · rw [List.mem_singleton.mp hmem]
    · simp at hle
  unfold findByUri
  simp [hn, hne, hunk, hone]

end Scope

namespace Serializer

theorem mem_keyData {s : Serializer} {v : Vertex} {t : NodeType}
    (ht : s.scope.nodeType? v.nodeType.text = some t) {k : Identifier} (hk : k ∈ t.keyProperties)
    {x : PropertyValue} (hx : v.property? k.text = some x) :
    RelationshipData.new v.nodeType.text k.text x.display ∈ s.keyData v := by
  unfold keyData
  rw [ht]
  exact List.mem_filterMap.mpr ⟨k, hk, by simp [hx]⟩

/-- In every store that creating writes reach under a catalog version whose types are
    addressable, the reference built for a vertex with a stored address and no empty key leads
    back to exactly that vertex. -/
theorem reference_leads_back {s : Serializer} {g : Graph} (hs : s.scope.Addressable)
    (hg : s.Reaches Creating g) {x : VertexId} {t : Vertex} (ht : g.vertex? x = some t)
    (huri : t.uri?.isSome) (hkeys : ∀ d ∈ s.keyData t, d.value ≠ "") :
    s.locateTarget g (s.referenceTo g t) = .ok t := by
  have h := hg.addressInv hs
  obtain ⟨u, hu⟩ := Option.isSome_iff_exists.mp huri
  obtain ⟨p, hp, hpu⟩ := Option.bind_eq_some_iff.mp hu
  obtain ⟨u', rfl, haddr⟩ := h.uris x t ht p hp
  cases hpu
  obtain ⟨hn, hne, hunk⟩ := haddr.lookupForm hs ht fun nt hnt k hk y hy =>
    hkeys _ (mem_keyData hnt hk hy)
  have hfind := Scope.findByUri_stored h.forest.consistent (h.urisDistinct hs.slashFree) ht hp hn
    hne hunk
  simp [locateTarget, referenceTo, Vertex.uriOrUnknown, hu, hfind]
  rfl

namespace TwoCrates

theorem first_crate_found_by_reference :
    second.2.vertex? first.1.id = some first.1 ∧ first.1.uri? = some "/crate/a" ∧
      (∀ d ∈ serializer.keyData first.1, d.value ≠ "") ∧
      serializer.locateTarget second.2 (serializer.referenceTo second.2 first.1) = .ok first.1 := by
  have hv : second.2.vertex? first.1.id = some first.1 := by decide +kernel
  have hu : first.1.uri? = some "/crate/a" := by decide +kernel
  have hk : ∀ d ∈ serializer.keyData first.1, d.value ≠ "" := by decide +kernel
  exact ⟨hv, hu, hk,
    reference_leads_back serializer_addressable reaches_second hv (by rw [hu]; rfl) hk⟩

end TwoCrates

/-! ### An empty key -/

namespace BlankCrate

open TwoCrates

def blank : Vertex × Graph :=
  ((serializer.write none (labelled "") none).run (Graph.startingAt (.steady 0 ""))).toOption.getD
    (Vertex.new ⟨0⟩ crate 0, Graph.startingAt (.steady 0 ""))

theorem blank_label_reference_is_lost :
    serializer.Reaches Creating blank.2 ∧ blank.2.vertex? blank.1.id = some blank.1 ∧
      blank.1.uri? = some "/crate/" ∧
      serializer.locateTarget blank.2 (serializer.referenceTo blank.2 blank.1) =
        .error (.invalidRelationship "Node of type crate. Could not find object at: /crate/") := by
  have h₁ : (serializer.write none (labelled "") none).run (Graph.startingAt (.steady 0 "")) =
      .ok (blank.1, blank.2) :=
    Except.eq_ok_getD (by decide +kernel) (Vertex.new ⟨0⟩ crate 0, Graph.startingAt (.steady 0 ""))
  exact ⟨.write (.start _) (by simp) rfl h₁, by decide +kernel, by decide +kernel,
    by decide +kernel⟩

end BlankCrate

end Serializer

end InventoryGraph
