import InventoryGraph.Proofs.Schema.Declared

/-!
The schema a catalog declares, exactly. Declaring walks the bookkeeping keys and indexes first,
then the versions oldest first, the node types of a version by name, and the properties of a node
type in order, each key index after its type's properties. A key declared again must be the same
key, and an index declared again replaces the older one.

The walk is two passes side by side over the declarations in walk order: one over the keys, which
goes through exactly when no name is declared two ways and then holds every declared key once;
and one over the indexes, in which the last declaration of each name wins.
-/
namespace InventoryGraph

theorem Outcome.foldlM_prod {α β γ : Type} (F : α → γ → Outcome α) (G : β → γ → β)
    {f : α × β → γ → Outcome (α × β)} (hf : ∀ a b x, f (a, b) x = (F a x).map fun a' => (a', G b x)) :
    ∀ (l : List γ) (a : α) (b : β),
      l.foldlM f (a, b) = (l.foldlM F a).map fun a' => (a', l.foldl G b)
  | [], _, _ => rfl
  | x :: l, a, b => by
    rw [List.foldlM_cons, List.foldlM_cons, List.foldl_cons, hf]
    cases F a x with
    | error e => rfl
    | ok a' => exact Outcome.foldlM_prod F G hf l a' (G b x)

theorem Outcome.foldlM_flatMap {α β γ : Type} (g : γ → List β) (f : α → β → Outcome α) :
    ∀ (l : List γ) (a : α),
      (l.flatMap g).foldlM f a = l.foldlM (fun a x => (g x).foldlM f a) a
  | [], _ => rfl
  | x :: l, a => by
    rw [List.flatMap_cons, List.foldlM_append, List.foldlM_cons]
    cases (g x).foldlM f a with
    | error e => rfl
    | ok a' => exact Outcome.foldlM_flatMap g f l a'

namespace DeclaredSchema

def addIndex (is : List IndexDef) (i : IndexDef) : List IndexDef := insertByName (·.name) i is

/-- The key a property declares. -/
def keyOf (p : PropertyDef) : PropertyKeyDef := ⟨p.name.text, p.dataType, p.cardinality⟩

/-- The index an indexed property declares. -/
def indexOf (p : PropertyDef) : IndexDef := ⟨p.name.text ++ "-index", [p.name.text], p.unique⟩

def keyIndexOf (t : NodeType) : IndexDef :=
  ⟨t.name.text ++ "-key-index", Bookkeeping.nodeType :: t.keyProperties.map (·.text), false⟩

def typeKeys (t : NodeType) : List PropertyKeyDef := t.properties.map keyOf

def typeIndexes (t : NodeType) : List IndexDef :=
  (t.properties.filter (·.indexed)).map indexOf ++
    if t.keyProperties.isEmpty then [] else [keyIndexOf t]

def walk (c : Catalog) : List NodeType := c.versions.flatMap c.nodeTypesOf

def keyDecls (c : Catalog) : List PropertyKeyDef := bookkeepingKeys ++ (walk c).flatMap typeKeys

def indexDecls (c : Catalog) : List IndexDef := bookkeepingIndexes ++ (walk c).flatMap typeIndexes

/-! ### Declaring is two passes -/

theorem declareType_eq (keys : List PropertyKeyDef) (indexes : List IndexDef) (t : NodeType) :
    declareType (keys, indexes) t =
      ((typeKeys t).foldlM declareKey keys).map fun keys' =>
        (keys', (typeIndexes t).foldl addIndex indexes) := by
  unfold declareType
  rw [Outcome.foldlM_prod (fun keys p => declareKey keys (keyOf p))
    (fun is p => if p.indexed then addIndex is (indexOf p) else is) (fun a b p => ?_)]
  · rw [typeKeys, List.foldlM_map]
    cases (t.properties.foldlM (fun keys p => declareKey keys (keyOf p)) keys :
        Outcome (List PropertyKeyDef)) with
    | error e => rfl
    | ok keys' =>
      have hprops : List.foldl addIndex indexes ((t.properties.filter (·.indexed)).map indexOf) =
          t.properties.foldl (fun is p => if p.indexed then addIndex is (indexOf p) else is)
            indexes := by
        rw [List.foldl_map, List.foldl_filter]
      simp only [typeIndexes, List.foldl_append, hprops]
      split <;> rfl
  · dsimp only [keyOf]
    cases (declareKey a ⟨p.name.text, p.dataType, p.cardinality⟩ : Outcome (List PropertyKeyDef)) <;>
      rfl

theorem foldlM_declareType (ts : List NodeType) (keys : List PropertyKeyDef)
    (indexes : List IndexDef) :
    ts.foldlM declareType (keys, indexes) =
      ((ts.flatMap typeKeys).foldlM declareKey keys).map fun keys' =>
        (keys', (ts.flatMap typeIndexes).foldl addIndex indexes) := by
  rw [Outcome.foldlM_prod (fun keys t => (typeKeys t).foldlM declareKey keys)
    (fun is t => (typeIndexes t).foldl addIndex is) declareType_eq, Outcome.foldlM_flatMap,
    List.foldl_flatMap]

theorem ofCatalog_eq (c : Catalog) :
    ofCatalog c = ((keyDecls c).foldlM declareKey []).map fun keys =>
      { propertyKeys := keys, indexes := (indexDecls c).foldl addIndex [],
        edgeLabels := GraphError.sortedUnique ((c.versions.flatMap c.rulesOf).map (·.label.text)) } := by
  have hwalk : ∀ keys indexes, c.versions.foldlM
      (fun acc v => (c.nodeTypesOf v).foldlM declareType acc) (keys, indexes) =
      (((walk c).flatMap typeKeys).foldlM declareKey keys).map fun keys' =>
        (keys', ((walk c).flatMap typeIndexes).foldl addIndex indexes) := by
    intro keys indexes
    rw [Outcome.foldlM_prod (fun keys v => ((c.nodeTypesOf v).flatMap typeKeys).foldlM declareKey keys)
      (fun is v => ((c.nodeTypesOf v).flatMap typeIndexes).foldl addIndex is)
      (fun a b v => foldlM_declareType _ a b), walk, List.flatMap_assoc, List.flatMap_assoc,
      Outcome.foldlM_flatMap, List.foldl_flatMap]
  unfold ofCatalog
  rw [keyDecls, List.foldlM_append]
  cases (bookkeepingKeys.foldlM declareKey [] : Outcome (List PropertyKeyDef)) with
  | error e => rfl
  | ok keys =>
    simp only [Except.ok_bind]
    rw [hwalk]
    cases (((walk c).flatMap typeKeys).foldlM declareKey keys : Outcome (List PropertyKeyDef)) with
    | error e => rfl
    | ok keys' =>
      simp only [indexDecls, List.foldl_append]
      rfl

/-! ### The pass over keys -/

/-- No key name is declared two ways. -/
def Agree (ks : List PropertyKeyDef) : Prop := ∀ k ∈ ks, ∀ k' ∈ ks, k.name = k'.name → k = k'

theorem Agree.mono {ks ks' : List PropertyKeyDef} (h : Agree ks') (hsub : ∀ k ∈ ks, k ∈ ks') :
    Agree ks :=
  fun k hk k' hk' hn => h k (hsub k hk) k' (hsub k' hk') hn

theorem agree_of_ascending {ks : List PropertyKeyDef} (h : (ks.map (·.name)).Pairwise (· < ·)) :
    Agree ks :=
  fun _ hk _ hk' hn => List.inj_on_of_nodup_map (nodup_of_ascending h) hk hk' hn

section ByName

variable {α : Type} (name : α → String)

theorem mem_insertByName_self (x : α) : ∀ (l : List α), x ∈ insertByName name x l
  | [] => List.mem_singleton_self x
  | z :: zs => by
    unfold insertByName
    split
    · exact List.mem_cons_self
    · split
      · exact List.mem_cons_self
      · exact List.mem_cons_of_mem z (mem_insertByName_self x zs)

theorem mem_insertByName_iff {x y : α} :
    ∀ {l : List α}, (l.map name).Pairwise (· < ·) →
      (y ∈ insertByName name x l ↔ y = x ∨ (y ∈ l ∧ name y ≠ name x))
  | [], _ => by simp [insertByName]
  | z :: zs, hs => by
    obtain ⟨hz, hzs⟩ := List.pairwise_cons.mp (List.map_cons ▸ hs)
    have habove : ∀ w ∈ zs, name z < name w := fun w hw => hz (name w) (List.mem_map_of_mem hw)
    unfold insertByName
    split
    · next hxz =>
      rw [List.mem_cons]
      constructor
      · rintro (rfl | hy)
        · exact .inl rfl
        · refine .inr ⟨hy, fun hn => ?_⟩
          rcases List.mem_cons.mp hy with rfl | hy
          · exact String.lt_irrefl _ (hn ▸ hxz)
          · exact String.lt_irrefl _ (hn ▸ String.lt_trans hxz (habove y hy))
      · rintro (rfl | ⟨hy, -⟩)
        · exact .inl rfl
        · exact .inr hy
    · split
      · next heq =>
        rw [List.mem_cons]
        constructor
        · rintro (rfl | hy)
          · exact .inl rfl
          · exact .inr ⟨List.mem_cons_of_mem z hy,
              fun hn => String.lt_irrefl _ (hn ▸ heq ▸ habove y hy)⟩
        · rintro (rfl | ⟨hy, hn⟩)
          · exact .inl rfl
          · rcases List.mem_cons.mp hy with rfl | hy
            · exact absurd heq.symm hn
            · exact .inr hy
      · next hxz hne =>
        rw [List.mem_cons, mem_insertByName_iff (List.map_cons ▸ hs |> List.Pairwise.of_cons),
          List.mem_cons]
        constructor
        · rintro (rfl | rfl | ⟨hy, hn⟩)
          · exact .inr ⟨.inl rfl, Ne.symm hne⟩
          · exact .inl rfl
          · exact .inr ⟨.inr hy, hn⟩
        · rintro (rfl | ⟨rfl | hy, hn⟩)
          · exact .inr (.inl rfl)
          · exact .inl rfl
          · exact .inr (.inr ⟨hy, hn⟩)

end ByName

theorem declareKey_ok_iff {keys : List PropertyKeyDef} {k : PropertyKeyDef}
    (hs : (keys.map (·.name)).Pairwise (· < ·)) :
    (∃ keys', declareKey keys k = .ok keys') ↔ ∀ x ∈ keys, x.name = k.name → x = k := by
  unfold declareKey
  split
  · next old hold =>
    have hmem := List.mem_of_find?_eq_some hold
    have hname : old.name = k.name := by simpa using List.find?_some hold
    split
    · next heq =>
      refine iff_of_true ⟨keys, rfl⟩ fun x hx hn => ?_
      exact (agree_of_ascending hs x hx old hmem (hn.trans hname.symm)).trans heq
    · next hne =>
      refine iff_of_false (fun ⟨_, h⟩ => by cases h) fun h => hne (h old hmem hname)
  · next hnone =>
    refine iff_of_true ⟨_, rfl⟩ fun x hx hn => ?_
    exact absurd (by simpa using hn) (List.find?_eq_none.mp hnone x hx)

theorem declareKey_mem {keys keys' : List PropertyKeyDef} {k : PropertyKeyDef}
    (hs : (keys.map (·.name)).Pairwise (· < ·)) (h : declareKey keys k = .ok keys') (x : PropertyKeyDef) :
    x ∈ keys' ↔ x ∈ keys ∨ x = k := by
  unfold declareKey at h
  split at h
  · next old hold =>
    split at h
    · next heq =>
      cases h
      subst heq
      exact ⟨.inl, fun hx => hx.elim id fun hx => hx ▸ List.mem_of_find?_eq_some hold⟩
    · cases h
  · next hnone =>
    cases h
    rw [mem_insertByName_iff _ hs]
    constructor
    · rintro (rfl | ⟨hx, -⟩)
      · exact .inr rfl
      · exact .inl hx
    · rintro (hx | rfl)
      · exact .inr ⟨hx, fun hn => List.find?_eq_none.mp hnone x hx (by simpa using hn)⟩
      · exact .inl rfl

theorem declareKey_error {keys : List PropertyKeyDef} {k : PropertyKeyDef} {e : GraphError}
    (h : declareKey keys k = .error e) : ∃ msg, e = .configuration msg := by
  unfold declareKey at h
  split at h
  · split at h
    · cases h
    · cases h
      exact ⟨_, rfl⟩
  · cases h

theorem foldlM_declareKey_ok :
    ∀ (l : List PropertyKeyDef) {acc keys : List PropertyKeyDef},
      (acc.map (·.name)).Pairwise (· < ·) → l.foldlM declareKey acc = .ok keys →
        (keys.map (·.name)).Pairwise (· < ·) ∧ (∀ k, k ∈ keys ↔ k ∈ acc ++ l) ∧ Agree (acc ++ l)
  | [], acc, keys, hs, h => by
    cases h
    exact ⟨hs, by simp, by simpa using agree_of_ascending hs⟩
  | k :: l, acc, keys, hs, h => by
    rw [List.foldlM_cons, Except.bind_eq_ok] at h
    obtain ⟨acc', hk, h⟩ := h
    obtain ⟨hsorted, hmem, hagree⟩ := foldlM_declareKey_ok l (declareKey_ascending hk hs) h
    have hsame : ∀ x, x ∈ acc' ++ l ↔ x ∈ acc ++ k :: l := by
      intro x
      simp only [List.mem_append, declareKey_mem hs hk x, List.mem_cons]
      tauto
    exact ⟨hsorted, fun x => (hmem x).trans (hsame x), hagree.mono fun x hx => (hsame x).mpr hx⟩

theorem foldlM_declareKey_of_agree :
    ∀ (l acc : List PropertyKeyDef),
      (acc.map (·.name)).Pairwise (· < ·) → Agree (acc ++ l) → ∃ keys, l.foldlM declareKey acc = .ok keys
  | [], acc, _, _ => ⟨acc, rfl⟩
  | k :: l, acc, hs, h => by
    obtain ⟨acc', hk⟩ := (declareKey_ok_iff hs).mpr fun x hx hn =>
      h x (List.mem_append_left _ hx) k (List.mem_append_right _ List.mem_cons_self) hn
    have hsub : ∀ x ∈ acc' ++ l, x ∈ acc ++ k :: l := by
      intro x hx
      simp only [List.mem_append, declareKey_mem hs hk x, List.mem_cons] at hx ⊢
      tauto
    obtain ⟨keys, hkeys⟩ := foldlM_declareKey_of_agree l acc' (declareKey_ascending hk hs) (h.mono hsub)
    refine ⟨keys, ?_⟩
    rw [List.foldlM_cons, hk, Except.ok_bind, hkeys]

theorem foldlM_declareKey_error :
    ∀ (l : List PropertyKeyDef) {acc : List PropertyKeyDef} {e : GraphError},
      l.foldlM declareKey acc = .error e → ∃ msg, e = .configuration msg
  | [], _, _, h => by cases h
  | k :: l, acc, e, h => by
    rw [List.foldlM_cons] at h
    cases hk : (declareKey acc k : Outcome (List PropertyKeyDef)) with
    | error e' =>
      rw [hk, Except.error_bind] at h
      cases h
      exact declareKey_error hk
    | ok acc' =>
      rw [hk, Except.ok_bind] at h
      exact foldlM_declareKey_error l h

/-! ### The pass over indexes -/

/-- `x` stands in `l` with no entry of its name after it: the last entry of its name. -/
def LastOfName {α : Type} (name : α → String) (l : List α) (x : α) : Prop :=
  ∃ pre post, l = pre ++ x :: post ∧ ∀ y ∈ post, name y ≠ name x

theorem lastOfName_nil {α : Type} {name : α → String} {x : α} : ¬ LastOfName name [] x :=
  fun ⟨pre, _, h, _⟩ => by simp at h

theorem lastOfName_cons {α : Type} {name : α → String} {x y : α} {l : List α} :
    LastOfName name (y :: l) x ↔ LastOfName name l x ∨ (x = y ∧ ∀ z ∈ l, name z ≠ name x) := by
  constructor
  · rintro ⟨pre, post, heq, hpost⟩
    cases pre with
    | nil =>
      obtain ⟨rfl, rfl⟩ := List.cons.inj heq
      exact .inr ⟨rfl, hpost⟩
    | cons p pre =>
      exact .inl ⟨pre, post, (List.cons.inj heq).2, hpost⟩
  · rintro (⟨pre, post, heq, hpost⟩ | ⟨rfl, hl⟩)
    · exact ⟨y :: pre, post, by rw [heq, List.cons_append], hpost⟩
    · exact ⟨[], l, rfl, hl⟩

theorem mem_foldl_insertByName_iff {α : Type} (name : α → String) {y : α} :
    ∀ (l : List α) {acc : List α}, (acc.map name).Pairwise (· < ·) →
      (y ∈ l.foldl (fun is i => insertByName name i is) acc ↔
        LastOfName name l y ∨ (y ∈ acc ∧ ∀ z ∈ l, name z ≠ name y))
  | [], acc, _ => by simp [lastOfName_nil]
  | x :: l, acc, hs => by
    rw [List.foldl_cons, mem_foldl_insertByName_iff name l (insertByName_ascending name x hs),
      mem_insertByName_iff name hs, lastOfName_cons, List.forall_mem_cons]
    constructor
    · rintro (hlast | ⟨rfl | ⟨hy, hne⟩, hl⟩)
      · exact .inl (.inl hlast)
      · exact .inl (.inr ⟨rfl, hl⟩)
      · exact .inr ⟨hy, Ne.symm hne, hl⟩
    · rintro ((hlast | ⟨rfl, hl⟩) | ⟨hy, hne, hl⟩)
      · exact .inl hlast
      · exact .inr ⟨.inl rfl, hl⟩
      · exact .inr ⟨.inr ⟨hy, Ne.symm hne⟩, hl⟩

/-! ### The declared schema -/

/-- Some property name is declared with two different pairs of type and cardinality. -/
def Conflicting (c : Catalog) : Prop :=
  ∃ k ∈ keyDecls c, ∃ k' ∈ keyDecls c,
    k.name = k'.name ∧ (k.dataType, k.cardinality) ≠ (k'.dataType, k'.cardinality)

theorem conflicting_iff {c : Catalog} : Conflicting c ↔ ¬ Agree (keyDecls c) := by
  -- two keys of one name are one key exactly when their types and cardinalities agree
  have hsame : ∀ k k' : PropertyKeyDef, k.name = k'.name →
      (k = k' ↔ (k.dataType, k.cardinality) = (k'.dataType, k'.cardinality)) := by
    rintro ⟨n, t, m⟩ ⟨n', t', m'⟩ hn
    simp only at hn
    simp [hn]
  simp only [Conflicting, Agree, not_forall]
  constructor
  · rintro ⟨k, hk, k', hk', hn, hne⟩
    exact ⟨k, hk, k', hk', hn, fun heq => hne ((hsame k k' hn).mp heq)⟩
  · rintro ⟨k, hk, k', hk', hn, hne⟩
    exact ⟨k, hk, k', hk', hn, fun heq => hne ((hsame k k' hn).mpr heq)⟩

theorem mem_labels {c : Catalog} {l : String} :
    l ∈ GraphError.sortedUnique ((c.versions.flatMap c.rulesOf).map (·.label.text)) ↔
      ∃ r ∈ c.rules, r.label.text = l := by
  have hrules : ∀ r, r ∈ c.versions.flatMap c.rulesOf ↔ r ∈ c.rules := by
    intro r
    simp only [List.mem_flatMap, Catalog.rulesOf, List.mem_filter, beq_iff_eq]
    constructor
    · rintro ⟨v, -, hr, -⟩
      exact hr
    · intro hr
      refine ⟨r.version, ?_, hr, rfl⟩
      simp only [Catalog.versions, SchemaVersion.mem_sortedUnique, List.mem_append, List.mem_map]
      exact .inr ⟨r, hr, rfl⟩
  simp only [GraphError.mem_sortedUnique, List.mem_map, hrules]

/-- The schema a catalog declares. Declaring fails, and then with a configuration error, exactly
    when some property name is declared with two different types or cardinalities over the
    bookkeeping keys and the properties of every node type of every version. Otherwise the keys
    are sorted by name and are exactly the declared keys, so each name once with its one
    definition; the indexes are sorted by name and are, for each name among the bookkeeping
    indexes, the indexed properties and the keyed node types, its last declaration in walk order;
    and the labels are the labels of all rules, sorted and each once. -/
theorem ofCatalog_exact (c : Catalog) :
    ((∃ msg, ofCatalog c = .error (.configuration msg)) ↔ Conflicting c) ∧
    (∀ e, ofCatalog c = .error e → ∃ msg, e = .configuration msg) ∧
    ∀ d, ofCatalog c = .ok d →
      (d.propertyKeys.map (·.name)).Pairwise (· < ·) ∧ (∀ k, k ∈ d.propertyKeys ↔ k ∈ keyDecls c) ∧
      (d.indexes.map (·.name)).Pairwise (· < ·) ∧
        (∀ i, i ∈ d.indexes ↔ LastOfName (·.name) (indexDecls c) i) ∧
      d.edgeLabels.Pairwise (· < ·) ∧ ∀ l, l ∈ d.edgeLabels ↔ ∃ r ∈ c.rules, r.label.text = l := by
  rw [ofCatalog_eq]
  cases hkeys : ((keyDecls c).foldlM declareKey [] : Outcome (List PropertyKeyDef)) with
  | error e =>
    obtain ⟨msg, rfl⟩ := foldlM_declareKey_error _ hkeys
    have hconflict : Conflicting c := conflicting_iff.mpr fun hagree => by
      obtain ⟨keys, hok⟩ := foldlM_declareKey_of_agree (keyDecls c) [] List.Pairwise.nil
        (by simpa using hagree)
      rw [hok] at hkeys
      cases hkeys
    refine ⟨iff_of_true ⟨msg, rfl⟩ hconflict, fun e he => ?_, fun d hd => by cases hd⟩
    cases he
    exact ⟨msg, rfl⟩
  | ok keys =>
    obtain ⟨hsorted, hmem, hagree⟩ := foldlM_declareKey_ok (keyDecls c) List.Pairwise.nil hkeys
    refine ⟨iff_of_false (fun ⟨_, h⟩ => by cases h) fun hc => conflicting_iff.mp hc (by simpa using hagree),
      fun e he => (by cases he), fun d hd => ?_⟩
    cases hd
    have hidx : ∀ i, i ∈ (indexDecls c).foldl addIndex [] ↔ LastOfName (·.name) (indexDecls c) i :=
      fun i => (mem_foldl_insertByName_iff (·.name) (indexDecls c) List.Pairwise.nil).trans
        (or_iff_left fun h => List.not_mem_nil h.1)
    exact ⟨hsorted, fun k => (hmem k).trans (by simp),
      foldl_insertByName_ascending (·.name) (indexDecls c) List.Pairwise.nil, hidx,
      GraphError.sortedUnique_ascending _, fun l => mem_labels⟩

end DeclaredSchema
end InventoryGraph
