import InventoryGraph.Proofs.Serializer.DistinctAddresses
import InventoryGraph.Proofs.Serializer.StaleVersions

/-!
The check of an object against its declaration, and what it guards. A primitive type holds
values of its own kind, a float type integers too; a single declaration holds what its type
holds, a list or set declaration a list of such values, so lists do not nest. The check passes
exactly when the object's type is declared at the serializer's version, every property of the
object is declared and held by its declaration, and the object holds every key.

Main statement: the check answers the declaration exactly under those conditions; a write of an
object that fails it fails with the check's error and leaves the store as it was; and a write of
a checked object of a keyed type at the root, where a root vertex of its type already has its
keys, fails as already existing and leaves the store as it was.
-/
namespace InventoryGraph

/-- The values a primitive type holds: those of its own kind, and integers for floats. -/
inductive PrimitiveType.Admits : PrimitiveType → PropertyValue → Prop
  | string (s : String) : Admits .string (.str s)
  | integer (i : Int) : Admits .integer (.int i)
  | float (x : Binary64) : Admits .float (.float x)
  | floatOfInteger (i : Int) : Admits .float (.int i)
  | boolean (b : Bool) : Admits .boolean (.bool b)

theorem PrimitiveType.accepts_iff {p : PrimitiveType} {x : PropertyValue} :
    p.accepts x = true ↔ p.Admits x := by
  constructor
  · intro h
    cases p <;> cases x <;> simp only [accepts, Bool.false_eq_true] at h <;> constructor
  · rintro (_ | _ | _ | _ | _) <;> rfl

theorem PrimitiveType.not_admits_list (p : PrimitiveType) (items : List PropertyValue) :
    ¬ p.Admits (.list items) := by
  intro h
  cases h

/-- The values a declaration holds: for a single value, a value its type holds; for a list or
    a set, a list of such values. -/
def PropertyDef.Admits (d : PropertyDef) (x : PropertyValue) : Prop :=
  match d.cardinality with
  | .single => d.dataType.Admits x
  | .list | .set => ∃ items, x = .list items ∧ ∀ i ∈ items, d.dataType.Admits i

theorem PropertyDef.validate_eq_ok_iff {d : PropertyDef} {x : PropertyValue} :
    d.validate x = .ok () ↔ d.Admits x := by
  unfold validate Admits
  cases d.cardinality <;> cases x <;>
    simp [PrimitiveType.accepts_iff, PrimitiveType.not_admits_list, List.all_eq_true]

example (n : Identifier) : (PropertyDef.new n .float).Admits (.int 3) :=
  PrimitiveType.Admits.floatOfInteger 3

/-- An object conforms to a declaration: the first declaration of each of its property names
    holds the property's value, and it has a value for every key. -/
structure SchemaObject.Conforms (o : SchemaObject) (t : NodeType) : Prop where
  declared : ∀ k x, o.properties.get? k = some x → ∃ d, t.property? k = some d ∧ d.Admits x
  keyed : ∀ k ∈ t.keyProperties, o.properties.contains k.text = true

theorem Outcome.forIn_eq_ok_of_all {α : Type} {f : α → Unit → Outcome (ForInStep Unit)} :
    ∀ (l : List α), (∀ a ∈ l, f a () = .ok (.yield ())) → forIn l () f = .ok ()
  | [], _ => rfl
  | a :: l, hf => by
    rw [List.forIn_cons, hf a List.mem_cons_self]
    exact Outcome.forIn_eq_ok_of_all l fun b hb => hf b (List.mem_cons_of_mem a hb)

namespace GraphM

theorem run_bind_of_error {α β : Type} {x : GraphM α} {f : α → GraphM β} {g : Graph}
    {e : GraphError × Clock} (h : x.run g = .error e) : (x >>= f).run g = .error e := by
  rw [StateT.run_bind, h]
  rfl

theorem run_lift_bind_of_ok {α β : Type} {r : Outcome α} {a : α} {f : α → GraphM β}
    (h : r = .ok a) (g : Graph) : (lift r >>= f).run g = (f a).run g := by
  rw [h]
  rfl

theorem run_get_bind {α : Type} (f : Graph → GraphM α) (g : Graph) :
    (get >>= f).run g = (f g).run g := rfl

end GraphM

theorem Request.commit_write_of_error {s : Serializer} {parent existing : Option Vertex}
    {o : SchemaObject} {g : Graph} {e : GraphError}
    (h : (s.write parent o existing).run g = .error (e, g.clock)) :
    (Request.transaction [⟨s, parent, o, existing⟩]).commit g = g :=
  commit_of_error (GraphM.run_bind_of_error h)

namespace Serializer

theorem validateObject_eq_ok_iff {s : Serializer} {o : SchemaObject} {t : NodeType} :
    s.validateObject o = .ok t ↔ s.scope.nodeType? o.nodeType.text = some t ∧ o.Conforms t := by
  constructor
  · intro h
    obtain ⟨ht, hprops, hkeys⟩ := validateObject_inv h
    refine ⟨nodeType_eq_ok.mp ht, fun k x hx => ?_, hkeys⟩
    obtain ⟨d, hd, hv⟩ := hprops k x hx
    exact ⟨d, hd, PropertyDef.validate_eq_ok_iff.mp hv⟩
  · rintro ⟨ht, hdecl, hkeys⟩
    unfold validateObject
    rw [nodeType_eq_ok.mpr ht, Except.ok_bind, Except.bind_eq_ok]
    refine ⟨(), Outcome.forIn_eq_ok_of_all _ fun p hp => ?_, ?_⟩
    · obtain ⟨name, x⟩ := p
      obtain ⟨d, hd, hx⟩ := hdecl name x ((PropertyMap.get?_eq_some_iff _ _ _).mpr hp)
      simp only [hd, PropertyDef.validate_eq_ok_iff.mpr hx]
      rfl
    · rw [Except.bind_eq_ok]
      refine ⟨(), Outcome.forIn_eq_ok_of_all _ fun k hk => ?_, rfl⟩
      rw [hkeys k hk]
      rfl

theorem write_of_prepare_error {s : Serializer} {parent existing : Option Vertex}
    {o : SchemaObject} {g : Graph} {e : GraphError × Clock}
    (h : (s.prepare parent o existing).run g = .error e) :
    (s.write parent o existing).run g = .error e := by
  obtain ⟨nt, props, rv, rels, children⟩ := o
  rw [write.eq_1]
  exact GraphM.run_bind_of_error h

theorem write_of_validate_error {s : Serializer} {o : SchemaObject} {e : GraphError}
    (h : s.validateObject o = .error e) (parent existing : Option Vertex) (g : Graph) :
    (s.write parent o existing).run g = .error (e, g.clock) := by
  apply write_of_prepare_error
  rw [prepare]
  apply GraphM.run_bind_of_error
  rw [GraphM.run_lift, h]
  rfl

theorem findExisting_ok {s : Serializer} {o : SchemaObject} {t : NodeType}
    (ht : s.nodeType o.nodeType = .ok t) (g : Graph) (parent : Option Vertex) :
    ∃ f, s.findExisting g parent o = .ok f := by
  unfold findExisting
  cases parent with
  | some p =>
    dsimp only
    rw [findChild, ht]
    exact ⟨_, rfl⟩
  | none =>
    dsimp only
    rw [ht, Except.ok_bind]
    split
    · exact ⟨none, rfl⟩
    · split
      · exact ⟨none, rfl⟩
      · exact ⟨_, rfl⟩

theorem target_of_found {s : Serializer} {o : SchemaObject} {parent : Option Vertex} {g : Graph}
    {f : Vertex} (h : s.findExisting g parent o = .ok (some f)) :
    (s.target parent o none).run g =
      .error (.alreadyExists (o.nodeType.text ++ " already exists at " ++ f.uriOrUnknown), g.clock) := by
  rw [target, GraphM.run_get_bind]
  dsimp only
  rw [StateT.run_bind, GraphM.run_lift, h]
  rfl

theorem write_of_found {s : Serializer} {o : SchemaObject} {t : NodeType} {parent : Option Vertex}
    {g : Graph} {f : Vertex} (hval : s.validateObject o = .ok t)
    (h : s.findExisting g parent o = .ok (some f)) :
    (s.write parent o none).run g =
      .error (.alreadyExists (o.nodeType.text ++ " already exists at " ++ f.uriOrUnknown), g.clock) := by
  apply write_of_prepare_error
  rw [prepare, GraphM.run_lift_bind_of_ok hval]
  exact GraphM.run_bind_of_error (target_of_found h)

theorem write_of_root_with_keys {s : Serializer} {o : SchemaObject} {t : NodeType} {g : Graph}
    (hc : g.Consistent) (hval : s.validateObject o = .ok t) (hkeyed : t.keyProperties ≠ [])
    (hroot : ∃ v ∈ g.vertices, v.nodeType = o.nodeType ∧ g.treeParent? v.id = none ∧
      ∀ k ∈ t.keyProperties, v.property? k.text = o.properties.get? k.text) :
    ∃ msg, (s.write none o none).run g = .error (.alreadyExists msg, g.clock) := by
  obtain ⟨ht, -, hpresent⟩ := validateObject_inv hval
  obtain ⟨v, hv, hvt, hvroot, hvk⟩ := hroot
  obtain ⟨found, hfound⟩ := findExisting_ok ht g none
  cases found with
  | none =>
    exact absurd hfound (findExisting_ne_none hc ht hkeyed hpresent
      (Graph.vertex?_of_mem hc.vertexIndexed hv) hvt hvk hvroot)
  | some f => exact ⟨_, write_of_found hval hfound⟩

/-- The check passes exactly on an object of a declared type that conforms to its declaration.
    A write of an object that fails it fails with its error, and a write at the root of a
    checked object of a keyed type that a root vertex of that type already has the keys of
    fails as already existing; either way the store stays as it was. -/
theorem validateObject_gates_write (s : Serializer) (o : SchemaObject) :
    (∀ t, s.validateObject o = .ok t ↔ s.scope.nodeType? o.nodeType.text = some t ∧ o.Conforms t) ∧
    (∀ e parent existing g, s.validateObject o = .error e →
      (s.write parent o existing).run g = .error (e, g.clock) ∧
        (Request.transaction [⟨s, parent, o, existing⟩]).commit g = g) ∧
    (∀ t g, g.Consistent → s.validateObject o = .ok t → t.keyProperties ≠ [] →
      (∃ v ∈ g.vertices, v.nodeType = o.nodeType ∧ g.treeParent? v.id = none ∧
        ∀ k ∈ t.keyProperties, v.property? k.text = o.properties.get? k.text) →
      ∃ msg, (s.write none o none).run g = .error (.alreadyExists msg, g.clock) ∧
        (Request.transaction [⟨s, none, o, none⟩]).commit g = g) := by
  refine ⟨fun t => validateObject_eq_ok_iff, fun e parent existing g h => ?_,
    fun t g hc hval hkeyed hroot => ?_⟩
  · have hw := write_of_validate_error h parent existing g
    exact ⟨hw, Request.commit_write_of_error hw⟩
  · obtain ⟨msg, hw⟩ := write_of_root_with_keys hc hval hkeyed hroot
    exact ⟨msg, hw, Request.commit_write_of_error hw⟩

namespace TwoCrates

def painted : SchemaObject := (labelled "a").withProperty "colour" (.str "red")

theorem second_consistent : second.2.Consistent :=
  (Reaches.addressInv serializer_addressable reaches_second).forest.consistent

theorem crate_writes_checked_first :
    serializer.validateObject painted = .error (.validation (.unexpectedProperty "colour")) ∧
    (serializer.write none painted none).run second.2 =
      .error (.validation (.unexpectedProperty "colour"), second.2.clock) ∧
    serializer.validateObject (labelled "a") = .ok crateType ∧
    ∃ msg, (serializer.write none (labelled "a") none).run second.2 =
      .error (.alreadyExists msg, second.2.clock) := by
  have hbad : serializer.validateObject painted =
      .error (.validation (.unexpectedProperty "colour")) := by
    decide +kernel
  have hgood : serializer.validateObject (labelled "a") = .ok crateType := by decide +kernel
  refine ⟨hbad, ((validateObject_gates_write serializer painted).2.1 _ none none second.2 hbad).1,
    hgood, ?_⟩
  obtain ⟨msg, hw, -⟩ := (validateObject_gates_write serializer (labelled "a")).2.2 crateType
    second.2 second_consistent hgood (by decide) (by decide +kernel)
  exact ⟨msg, hw⟩

end TwoCrates

end Serializer
end InventoryGraph
