import InventoryGraph.Proofs.Schema.Sync
import InventoryGraph.Proofs.Rules.Catalog
import InventoryGraph.Proofs.Cascade.Plan

/-!
The schema a catalog declares, reconciled into an empty store. Declaring keeps each of its lists
sorted by name with every name once: a key declared again must be the same key, and an index
declared again replaces the older one. Every key an index names is then a bookkeeping name, a
property some node type declares, or a key property of some node type. The last are declared
keys only where the catalog declares them, which loading does not check.

Into an empty store, a declared schema with distinct names reconciles exactly when every key its
indexes name is one of its keys, and then every key, index and label is made, in order, and
nothing else is reported.
-/
namespace InventoryGraph

theorem Outcome.foldlM_all {α β : Type} (P : β → Prop) (Q : α → β → Prop) (f : β → α → Outcome β) :
    ∀ (l : List α), (∀ b x b', x ∈ l → P b → f b x = .ok b' → P b' ∧ Q x b') →
      (∀ b x b' y, x ∈ l → P b → Q y b → f b x = .ok b' → Q y b') →
      ∀ {b r : β}, P b → l.foldlM f b = .ok r → P r ∧ ∀ x ∈ l, Q x r
  | [], _, _, _, _, hP, h => by
    simp only [List.foldlM_nil] at h
    cases h
    exact ⟨hP, fun _ hx => absurd hx List.not_mem_nil⟩
  | x :: l, hstep, hkeep, _, _, hP, h => by
    rw [List.foldlM_cons, Except.bind_eq_ok] at h
    obtain ⟨b₁, hb₁, h⟩ := h
    obtain ⟨hP₁, hQ₁⟩ := hstep _ x b₁ List.mem_cons_self hP hb₁
    -- the head's fact rides along with `P` through the rest of the fold
    have hstep' : ∀ b y b', y ∈ l → P b ∧ Q x b → f b y = .ok b' → (P b' ∧ Q x b') ∧ Q y b' :=
      fun b y b' hy hb hf =>
        have hs := hstep b y b' (List.mem_cons_of_mem x hy) hb.1 hf
        ⟨⟨hs.1, hkeep b y b' x (List.mem_cons_of_mem x hy) hb.1 hb.2 hf⟩, hs.2⟩
    obtain ⟨⟨hPr, hQx⟩, hQr⟩ := Outcome.foldlM_all (fun b => P b ∧ Q x b) Q f l hstep'
      (fun b y b' z hy hb hz hf => hkeep b y b' z (List.mem_cons_of_mem x hy) hb.1 hz hf)
      ⟨hP₁, hQ₁⟩ h
    refine ⟨hPr, fun y hy => ?_⟩
    rcases List.mem_cons.mp hy with rfl | hy
    · exact hQx
    · exact hQr y hy

namespace DeclaredSchema

/-! ### Lists sorted by name -/

section ByName

variable {α : Type} (name : α → String)

theorem mem_insertByName {x y : α} : ∀ {l : List α}, y ∈ insertByName name x l → y = x ∨ y ∈ l
  | [], h => .inl (List.mem_singleton.mp h)
  | z :: zs, h => by
    unfold insertByName at h
    split at h
    · exact List.mem_cons.mp h
    · split at h
      · rcases List.mem_cons.mp h with rfl | h
        · exact .inl rfl
        · exact .inr (List.mem_cons_of_mem z h)
      · rcases List.mem_cons.mp h with rfl | h
        · exact .inr List.mem_cons_self
        · rcases mem_insertByName h with rfl | h
          · exact .inl rfl
          · exact .inr (List.mem_cons_of_mem z h)

theorem names_insertByName (x : α) (n : String) :
    ∀ (l : List α), n ∈ (insertByName name x l).map name ↔ n = name x ∨ n ∈ l.map name
  | [] => by simp [insertByName]
  | z :: zs => by
    unfold insertByName
    split
    · simp
    · split
      · next heq => simp only [List.map_cons, List.mem_cons, heq]; tauto
      · simp only [List.map_cons, List.mem_cons, names_insertByName x n zs]
        tauto

theorem insertByName_ascending (x : α) :
    ∀ {l : List α}, (l.map name).Pairwise (· < ·) → ((insertByName name x l).map name).Pairwise (· < ·)
  | [], _ => by simp [insertByName]
  | z :: zs, h => by
    obtain ⟨hz, hzs⟩ := List.pairwise_cons.mp h
    unfold insertByName
    split
    · next hxz =>
      refine List.pairwise_cons.mpr ⟨fun n hn => ?_, h⟩
      rcases List.mem_cons.mp hn with rfl | hn
      · exact hxz
      · exact String.lt_trans hxz (hz n hn)
    · split
      · next heq => simpa only [List.map_cons, heq] using h
      · next hxz hne =>
        have hzx : name z < name x :=
          String.not_le.mp fun hle => hne (String.le_antisymm hle (String.not_lt.mp hxz))
        refine List.pairwise_cons.mpr ⟨fun n hn => ?_, insertByName_ascending x hzs⟩
        rcases (names_insertByName name x n zs).mp hn with rfl | hn
        · exact hzx
        · exact hz n hn

theorem foldl_insertByName_ascending :
    ∀ (xs : List α) {l : List α}, (l.map name).Pairwise (· < ·) →
      ((xs.foldl (fun l x => insertByName name x l) l).map name).Pairwise (· < ·)
  | [], _, h => h
  | x :: xs, _, h => foldl_insertByName_ascending xs (insertByName_ascending name x h)

theorem mem_foldl_insertByName {y : α} :
    ∀ (xs : List α) {l : List α}, y ∈ xs.foldl (fun l x => insertByName name x l) l → y ∈ xs ∨ y ∈ l
  | [], _, h => .inr h
  | x :: xs, _, h => by
    rcases mem_foldl_insertByName xs h with h | h
    · exact .inl (List.mem_cons_of_mem x h)
    · rcases mem_insertByName name h with rfl | h
      · exact .inl List.mem_cons_self
      · exact .inr h

end ByName

/-! ### Declaring keys and indexes -/

theorem declareKey_names {keys keys' : List PropertyKeyDef} {k : PropertyKeyDef}
    (h : declareKey keys k = .ok keys') (n : String) :
    n ∈ keys'.map (·.name) ↔ n = k.name ∨ n ∈ keys.map (·.name) := by
  unfold declareKey at h
  split at h
  · next old hold =>
    split at h
    · cases h
      have hmem := (SchemaStore.mem_names_of_find? hold).1
      constructor
      · exact .inr
      · rintro (rfl | hn)
        · exact hmem
        · exact hn
    · cases h
  · cases h
    exact names_insertByName _ k n keys

theorem declareKey_ascending {keys keys' : List PropertyKeyDef} {k : PropertyKeyDef}
    (h : declareKey keys k = .ok keys') (hs : (keys.map (·.name)).Pairwise (· < ·)) :
    (keys'.map (·.name)).Pairwise (· < ·) := by
  unfold declareKey at h
  split at h
  · split at h
    · cases h
      exact hs
    · cases h
  · cases h
    exact insertByName_ascending _ k hs

/-- What the declarations read so far keep true, for node types among `T`: both lists sorted by
    name, the bookkeeping keys present, and every key an index names either a declared key or a
    key property of one of the node types. -/
structure Declares (T : List NodeType) (acc : List PropertyKeyDef × List IndexDef) : Prop where
  keys_ascending : (acc.1.map (·.name)).Pairwise (· < ·)
  indexes_ascending : (acc.2.map (·.name)).Pairwise (· < ·)
  bookkeeping : ∀ n ∈ Bookkeeping.names, n ∈ acc.1.map (·.name)
  index_keys : ∀ i ∈ acc.2, ∀ k ∈ i.keys,
    k ∈ acc.1.map (·.name) ∨ ∃ t ∈ T, k ∈ t.keyProperties.map (·.text)

/-- The declared keys of an accumulator include the names `S`. -/
def Holds (S : List String) (acc : List PropertyKeyDef × List IndexDef) : Prop :=
  ∀ n ∈ S, n ∈ acc.1.map (·.name)

theorem Declares.step {T : List NodeType} {acc acc' : List PropertyKeyDef × List IndexDef}
    (h : Declares T acc) (hkeys : ∀ n ∈ acc.1.map (·.name), n ∈ acc'.1.map (·.name))
    (hsorted : (acc'.1.map (·.name)).Pairwise (· < ·))
    (hidx : (acc'.2.map (·.name)).Pairwise (· < ·))
    (hnew : ∀ i ∈ acc'.2, i ∉ acc.2 → ∀ k ∈ i.keys,
      k ∈ acc'.1.map (·.name) ∨ ∃ t ∈ T, k ∈ t.keyProperties.map (·.text)) :
    Declares T acc' where
  keys_ascending := hsorted
  indexes_ascending := hidx
  bookkeeping n hn := hkeys n (h.bookkeeping n hn)
  index_keys i hi k hk := by
    by_cases hin : i ∈ acc.2
    · rcases h.index_keys i hin k hk with hk | hk
      · exact .inl (hkeys k hk)
      · exact .inr hk
    · exact hnew i hi hin k hk

theorem Holds.mono {S : List String} {acc acc' : List PropertyKeyDef × List IndexDef}
    (h : Holds S acc) (hkeys : ∀ n ∈ acc.1.map (·.name), n ∈ acc'.1.map (·.name)) :
    Holds S acc' :=
  fun n hn => hkeys n (h n hn)

theorem declareProperty {T : List NodeType} {keys keys' : List PropertyKeyDef}
    {indexes : List IndexDef} {p : PropertyDef}
    (hk : declareKey keys ⟨p.name.text, p.dataType, p.cardinality⟩ = .ok keys')
    (h : Declares T (keys, indexes)) :
    Declares T (keys', if p.indexed then
        insertByName (·.name) ⟨p.name.text ++ "-index", [p.name.text], p.unique⟩ indexes
      else indexes) ∧
    (∀ n ∈ keys.map (·.name), n ∈ keys'.map (·.name)) ∧ p.name.text ∈ keys'.map (·.name) := by
  have hgrow : ∀ n ∈ keys.map (·.name), n ∈ keys'.map (·.name) :=
    fun n hn => (declareKey_names hk n).mpr (.inr hn)
  have hmem : p.name.text ∈ keys'.map (·.name) := (declareKey_names hk _).mpr (.inl rfl)
  refine ⟨h.step hgrow (declareKey_ascending hk h.keys_ascending) ?_ fun i hi hnew k hk => ?_,
    hgrow, hmem⟩
  · split
    · exact insertByName_ascending _ _ h.indexes_ascending
    · exact h.indexes_ascending
  · -- the one index not there before is the property's own, over its name alone
    split at hi
    · rcases mem_insertByName _ hi with rfl | hi
      · rcases List.mem_singleton.mp hk with rfl
        exact .inl hmem
      · exact absurd hi hnew
    · exact absurd hi hnew

theorem declareProperties {T : List NodeType}
    {f : List PropertyKeyDef × List IndexDef → PropertyDef →
      Outcome (List PropertyKeyDef × List IndexDef)}
    (hf : ∀ keys indexes p r, f (keys, indexes) p = .ok r →
      ∃ keys', declareKey keys ⟨p.name.text, p.dataType, p.cardinality⟩ = .ok keys' ∧
        r = (keys', if p.indexed then
          insertByName (·.name) ⟨p.name.text ++ "-index", [p.name.text], p.unique⟩ indexes
          else indexes))
    (ps : List PropertyDef) {acc acc' : List PropertyKeyDef × List IndexDef}
    (h : Declares T acc) (hfold : ps.foldlM f acc = .ok acc') :
    Declares T acc' ∧ Holds (acc.1.map (·.name)) acc' ∧
      ∀ p ∈ ps, p.name.text ∈ acc'.1.map (·.name) := by
  have := Outcome.foldlM_all (fun b => Declares T b ∧ Holds (acc.1.map (·.name)) b)
    (fun p b => p.name.text ∈ b.1.map (·.name)) f ps
    (fun acc p b' _ hb hstep => by
      obtain ⟨keys, indexes⟩ := acc
      obtain ⟨keys', hk, rfl⟩ := hf keys indexes p b' hstep
      obtain ⟨hd, hgrow, hmem⟩ := declareProperty hk hb.1
      exact ⟨⟨hd, hb.2.mono hgrow⟩, hmem⟩)
    (fun acc p b' q _ hb hq hstep => by
      obtain ⟨keys, indexes⟩ := acc
      obtain ⟨keys', hk, rfl⟩ := hf keys indexes p b' hstep
      exact (declareProperty hk hb.1).2.1 _ hq)
    ⟨h, fun n hn => hn⟩ hfold
  exact ⟨this.1.1, this.1.2, this.2⟩

theorem declareType_declares {T : List NodeType} {t : NodeType} (ht : t ∈ T)
    {acc acc' : List PropertyKeyDef × List IndexDef} (h : Declares T acc)
    (hd : declareType acc t = .ok acc') :
    Declares T acc' ∧ Holds (acc.1.map (·.name)) acc' ∧
      ∀ p ∈ t.properties, p.name.text ∈ acc'.1.map (·.name) := by
  unfold declareType at hd
  obtain ⟨⟨keys, indexes⟩, hmid, hd⟩ := Except.bind_eq_ok.mp hd
  obtain ⟨hdecl, hgrow, hprops⟩ := declareProperties (fun keys indexes p r hr => by
      obtain ⟨keys', hk, hr⟩ := Except.bind_eq_ok.mp hr
      exact ⟨keys', hk, (Except.ok.inj hr).symm⟩) t.properties h hmid
  dsimp only at hd
  split at hd
  · cases hd
    exact ⟨hdecl, hgrow, hprops⟩
  · cases hd
    refine ⟨hdecl.step (fun n hn => hn) hdecl.keys_ascending
      (insertByName_ascending _ _ hdecl.indexes_ascending) fun i hi hnew k hk => ?_, hgrow, hprops⟩
    rcases mem_insertByName _ hi with rfl | hi
    · -- the key index: the node type's bookkeeping key, then its key properties
      rcases List.mem_cons.mp hk with rfl | hk
      · exact .inl (hdecl.bookkeeping _ (by decide))
      · exact .inr ⟨t, ht, hk⟩
    · exact absurd hi hnew

theorem declareTypes {T : List NodeType} (ts : List NodeType) (hts : ∀ t ∈ ts, t ∈ T)
    {acc acc' : List PropertyKeyDef × List IndexDef} (h : Declares T acc)
    (hd : ts.foldlM declareType acc = .ok acc') :
    Declares T acc' ∧ Holds (acc.1.map (·.name)) acc' ∧
      ∀ t ∈ ts, Holds (t.properties.map (·.name.text)) acc' := by
  have := Outcome.foldlM_all (fun b => Declares T b ∧ Holds (acc.1.map (·.name)) b)
    (fun t b => Holds (t.properties.map (·.name.text)) b) declareType ts
    (fun b t b' ht hb hstep => by
      obtain ⟨hd, hgrow, hprops⟩ := declareType_declares (hts t ht) hb.1 hstep
      refine ⟨⟨hd, fun n hn => hgrow n (hb.2 n hn)⟩, fun n hn => ?_⟩
      obtain ⟨p, hp, rfl⟩ := List.mem_map.mp hn
      exact hprops p hp)
    (fun b t b' u ht hb hu hstep => fun n hn =>
      (declareType_declares (hts t ht) hb.1 hstep).2.1 n (hu n hn))
    ⟨h, fun n hn => hn⟩ hd
  exact ⟨this.1.1, this.1.2, this.2⟩

theorem bookkeeping_declares (T : List NodeType) {keys : List PropertyKeyDef}
    (h : bookkeepingKeys.foldlM declareKey [] = .ok keys) :
    Declares T (keys, bookkeepingIndexes.foldl (fun is i => insertByName (·.name) i is) []) := by
  obtain ⟨hsorted, hnames⟩ := Outcome.foldlM_all (fun b => (b.map (·.name)).Pairwise (· < ·))
    (fun k b => k.name ∈ b.map (·.name)) declareKey bookkeepingKeys
    (fun b k b' _ hb hk => ⟨declareKey_ascending hk hb, (declareKey_names hk _).mpr (.inl rfl)⟩)
    (fun b k b' q _ _ hq hk => (declareKey_names hk _).mpr (.inr hq)) List.Pairwise.nil h
  have hbook : ∀ n ∈ Bookkeeping.names, n ∈ keys.map (·.name) := by
    intro n hn
    have hk : n ∈ bookkeepingKeys.map (·.name) := by
      revert n
      decide
    obtain ⟨k, hkb, rfl⟩ := List.mem_map.mp hk
    exact hnames k hkb
  refine ⟨hsorted, foldl_insertByName_ascending _ _ List.Pairwise.nil, hbook, fun i hi k hk => ?_⟩
  have hidx : ∀ i ∈ bookkeepingIndexes, ∀ k ∈ i.keys, k ∈ Bookkeeping.names := by decide
  rcases mem_foldl_insertByName _ _ hi with hi | hi
  · exact .inl (hbook k (hidx i hi k hk))
  · exact absurd hi List.not_mem_nil

end DeclaredSchema

namespace Catalog

theorem mem_insertByName {t u : NodeType} : ∀ {l : List NodeType}, t ∈ insertByName u l ↔ t = u ∨ t ∈ l
  | [] => by simp [insertByName]
  | w :: ws => by
    unfold insertByName
    split
    · exact List.mem_cons
    · simp only [List.mem_cons, mem_insertByName]
      exact or_left_comm

theorem mem_nodeTypesOf {c : Catalog} {v : SchemaVersion} {t : NodeType} :
    t ∈ c.nodeTypesOf v ↔ t ∈ c.nodeTypes ∧ t.version = v := by
  have : ∀ l : List NodeType, t ∈ l.foldr insertByName [] ↔ t ∈ l := by
    intro l
    induction l with
    | nil => rfl
    | cons u l ih => simp [List.foldr_cons, mem_insertByName, ih]
  simp [nodeTypesOf, this]

theorem mem_walk {c : Catalog} {t : NodeType} (ht : t ∈ c.nodeTypes) :
    t.version ∈ c.versions ∧ t ∈ c.nodeTypesOf t.version := by
  refine ⟨?_, mem_nodeTypesOf.mpr ⟨ht, rfl⟩⟩
  simp only [versions, SchemaVersion.mem_sortedUnique, List.mem_append, List.mem_map]
  exact .inl ⟨t, ht, rfl⟩

/-- Every key property of every node type is a bookkeeping name or a property that some node
    type of the catalog declares. -/
def KeysDeclared (c : Catalog) : Prop :=
  ∀ t ∈ c.nodeTypes, ∀ k ∈ t.keyProperties,
    k.text ∈ Bookkeeping.names ∨ ∃ t' ∈ c.nodeTypes, ∃ p ∈ t'.properties, p.name = k

instance (c : Catalog) : Decidable c.KeysDeclared :=
  inferInstanceAs (Decidable (∀ t ∈ c.nodeTypes, ∀ k ∈ t.keyProperties,
    k.text ∈ Bookkeeping.names ∨ ∃ t' ∈ c.nodeTypes, ∃ p ∈ t'.properties, p.name = k))

end Catalog

namespace DeclaredSchema

/-- Every key an index names is a declared key. -/
def IndexKeysDeclared (d : DeclaredSchema) : Prop :=
  ∀ i ∈ d.indexes, ∀ k ∈ i.keys, k ∈ d.propertyKeys.map (·.name)

instance (d : DeclaredSchema) : Decidable d.IndexKeysDeclared :=
  inferInstanceAs (Decidable (∀ i ∈ d.indexes, ∀ k ∈ i.keys, k ∈ d.propertyKeys.map (·.name)))

/-- No name is declared twice, in keys, indexes or labels. -/
structure DistinctNames (d : DeclaredSchema) : Prop where
  keys : (d.propertyKeys.map (·.name)).Nodup
  indexes : (d.indexes.map (·.name)).Nodup
  labels : d.edgeLabels.Nodup

def toStore (d : DeclaredSchema) : SchemaStore := ⟨d.propertyKeys, d.indexes, d.edgeLabels⟩

def creationReport (d : DeclaredSchema) : SyncReport where
  createdKeys := d.propertyKeys.map (·.name)
  createdIndexes := d.indexes.map (·.name)
  createdLabels := d.edgeLabels

theorem ofCatalog_declares {c : Catalog} {d : DeclaredSchema} (hd : ofCatalog c = .ok d) :
    Declares c.nodeTypes (d.propertyKeys, d.indexes) ∧
      (∀ t ∈ c.nodeTypes, ∀ p ∈ t.properties, p.name.text ∈ d.propertyKeys.map (·.name)) ∧
      d.edgeLabels.Pairwise (· < ·) := by
  unfold ofCatalog at hd
  obtain ⟨keys, hkeys, hd⟩ := Except.bind_eq_ok.mp hd
  obtain ⟨⟨keys', indexes'⟩, hfold, hd⟩ := Except.bind_eq_ok.mp hd
  cases hd
  have hwalk := Outcome.foldlM_all (fun b => Declares c.nodeTypes b)
    (fun v b => ∀ t ∈ c.nodeTypesOf v, Holds (t.properties.map (·.name.text)) b)
    (fun acc v => (c.nodeTypesOf v).foldlM declareType acc) c.versions
    (fun b v b' _ hb hstep =>
      have h := declareTypes (c.nodeTypesOf v) (fun t ht => (Catalog.mem_nodeTypesOf.mp ht).1) hb hstep
      ⟨h.1, h.2.2⟩)
    (fun b v b' u _ hb hu hstep => by
      intro t ht n hn
      exact (declareTypes (c.nodeTypesOf v) (fun t ht => (Catalog.mem_nodeTypesOf.mp ht).1) hb
        hstep).2.1 n (hu t ht n hn))
    (bookkeeping_declares c.nodeTypes hkeys) hfold
  refine ⟨hwalk.1, fun t ht p hp => ?_, GraphError.sortedUnique_ascending _⟩
  obtain ⟨hv, htv⟩ := Catalog.mem_walk ht
  exact hwalk.2 t.version hv t htv _ (List.mem_map_of_mem hp)

theorem nodup_of_ascending {l : List String} (h : l.Pairwise (· < ·)) : l.Nodup :=
  h.imp fun {a b} (hlt : a < b) (heq : a = b) => String.lt_irrefl b (heq ▸ hlt)

theorem ofCatalog_distinctNames {c : Catalog} {d : DeclaredSchema} (hd : ofCatalog c = .ok d) :
    d.DistinctNames := by
  obtain ⟨h, -, hlabels⟩ := ofCatalog_declares hd
  exact ⟨nodup_of_ascending h.keys_ascending, nodup_of_ascending h.indexes_ascending,
    nodup_of_ascending hlabels⟩

theorem ofCatalog_indexKeysDeclared {c : Catalog} {d : DeclaredSchema} (hd : ofCatalog c = .ok d)
    (hkeys : c.KeysDeclared) : d.IndexKeysDeclared := by
  obtain ⟨h, hprops, -⟩ := ofCatalog_declares hd
  intro i hi k hk
  rcases h.index_keys i hi k hk with hk | ⟨t, ht, hkt⟩
  · exact hk
  · obtain ⟨kp, hkp, rfl⟩ := List.mem_map.mp hkt
    rcases hkeys t ht kp hkp with hbook | ⟨t', ht', p, hp, rfl⟩
    · exact h.bookkeeping _ hbook
    · exact hprops t' ht' p hp

/-! ### Reconciling into an empty store -/

theorem firstNew_self {α : Type} (name : α → String) :
    ∀ {known : List String} {xs : List α}, (xs.map name).Nodup → (∀ x ∈ xs, name x ∉ known) →
      SchemaStore.firstNew name known xs = xs
  | _, [], _, _ => rfl
  | known, x :: xs, hnd, hout => by
    obtain ⟨hx, hnd⟩ := List.nodup_cons.mp hnd
    rw [SchemaStore.firstNew, if_neg (hout x List.mem_cons_self)]
    refine congrArg (x :: ·) (firstNew_self name hnd fun y hy hin => ?_)
    rcases List.mem_append.mp hin with hin | hin
    · exact hout y (List.mem_cons_of_mem x hy) hin
    · exact hx (List.mem_singleton.mp hin ▸ List.mem_map_of_mem hy)

theorem find?_name_self {α : Type} (name : α → String) {x : α} :
    ∀ {l : List α}, (l.map name).Nodup → x ∈ l → l.find? (fun y => name y == name x) = some x
  | [], _, hx => absurd hx List.not_mem_nil
  | y :: l, hnd, hx => by
    obtain ⟨hy, hnd⟩ := List.nodup_cons.mp hnd
    rcases List.mem_cons.mp hx with rfl | hx
    · simp
    · have hne : name y ≠ name x := fun h => hy (h ▸ List.mem_map_of_mem hx)
      rw [List.find?_cons_of_neg (by simpa using hne)]
      exact find?_name_self name hnd hx

theorem firstNew_empty {d : DeclaredSchema} (h : d.DistinctNames) :
    SchemaStore.firstNew (·.name) [] d.propertyKeys = d.propertyKeys ∧
      SchemaStore.firstNew (·.name) [] d.indexes = d.indexes ∧
      SchemaStore.firstNew id [] d.edgeLabels = d.edgeLabels :=
  ⟨firstNew_self _ h.keys fun _ _ => List.not_mem_nil,
    firstNew_self _ h.indexes fun _ _ => List.not_mem_nil,
    firstNew_self id (by simpa using h.labels) fun _ _ => List.not_mem_nil⟩

theorem extend_empty {d : DeclaredSchema} (h : d.DistinctNames) :
    SchemaStore.extend {} d = d.toStore := by
  obtain ⟨hk, hi, hl⟩ := firstNew_empty h
  simp only [SchemaStore.extend, List.map_nil, List.nil_append, hk, hi, hl]
  rfl

theorem syncReport_empty {d : DeclaredSchema} (h : d.DistinctNames) :
    SchemaStore.syncReport {} d = d.creationReport := by
  obtain ⟨hk, hi, hl⟩ := firstNew_empty h
  have hkeys : d.propertyKeys.filter (fun k => d.toStore.propertyKey? k.name != some k) = [] :=
    List.filter_eq_nil_iff.mpr fun k hk => by
      simp [SchemaStore.propertyKey?, toStore, find?_name_self _ h.keys hk]
  have hidx : d.indexes.filter (fun i => d.toStore.index? i.name != some i) = [] :=
    List.filter_eq_nil_iff.mpr fun i hi => by
      simp [SchemaStore.index?, toStore, find?_name_self _ h.indexes hi]
  simp only [SchemaStore.syncReport, extend_empty h, hkeys, hidx, List.map_nil, hk, hi, hl]
  rfl

theorem syncFails_empty_iff {d : DeclaredSchema} (h : d.DistinctNames) :
    SchemaStore.SyncFails {} d ↔ ¬ d.IndexKeysDeclared := by
  constructor
  · rintro ⟨pre, i, post, hd, -, -, k, hk, -, hmiss⟩ hdecl
    exact hmiss (hdecl i (hd ▸ List.mem_append_right pre List.mem_cons_self) k hk)
  · intro hnot
    simp only [IndexKeysDeclared, not_forall] at hnot
    obtain ⟨i, hi, k, hk, hmiss⟩ := hnot
    obtain ⟨pre, post, hd⟩ := List.append_of_mem hi
    have hnd := h.indexes
    rw [hd, List.map_append, List.map_cons] at hnd
    refine ⟨pre, i, post, hd, by simp, fun hpre => ?_, k, hk, by simp, hmiss⟩
    exact (List.nodup_append.mp hnd).2.2 _ hpre _ List.mem_cons_self rfl

theorem reconcile_ne_ok_of_syncFails {s : SchemaStore} {d : DeclaredSchema} (h : s.SyncFails d)
    (x : SyncReport × SchemaStore) : s.reconcile d ≠ .ok x := by
  intro hx
  unfold SchemaStore.reconcile at hx
  split at hx
  · next y hy => exact SchemaStore.apply_ne_ok ((SchemaStore.syncFails_iff s d).mp h) y hy
  · cases hx

theorem reconcile_empty {d : DeclaredSchema} (h : d.DistinctNames) :
    ((∃ r s, SchemaStore.reconcile {} d = .ok (r, s)) ↔ d.IndexKeysDeclared) ∧
    (d.IndexKeysDeclared → SchemaStore.reconcile {} d = .ok (d.creationReport, d.toStore)) := by
  have hok : d.IndexKeysDeclared → SchemaStore.reconcile {} d = .ok (d.creationReport, d.toStore) := by
    intro hdecl
    rw [SchemaStore.reconcile_of_not_syncFails (fun hf => (syncFails_empty_iff h).mp hf hdecl),
      syncReport_empty h, extend_empty h]
  refine ⟨⟨fun ⟨r, s, hrs⟩ => ?_, fun hdecl => ⟨_, _, hok hdecl⟩⟩, hok⟩
  by_contra hnot
  exact reconcile_ne_ok_of_syncFails ((syncFails_empty_iff h).mpr hnot) _ hrs

/-- The schema a catalog declares, reconciled into an empty store, for every catalog whose
    declaration succeeds: it reconciles exactly when every key its indexes name is a declared
    key, which holds whenever every key property of every node type is a bookkeeping name or a
    property some node type declares; and then the run makes every declared key, index and label,
    in name order, reports no conflict and no change, and leaves the declared schema live. -/
theorem ofCatalog_reconciles_fresh {c : Catalog} {d : DeclaredSchema} (hd : ofCatalog c = .ok d) :
    (c.KeysDeclared → d.IndexKeysDeclared) ∧
    ((∃ r s, SchemaStore.reconcile {} d = .ok (r, s)) ↔ d.IndexKeysDeclared) ∧
    (d.IndexKeysDeclared → SchemaStore.reconcile {} d = .ok (d.creationReport, d.toStore)) :=
  ⟨ofCatalog_indexKeysDeclared hd, reconcile_empty (ofCatalog_distinctNames hd)⟩

/-! Ledgers holding lines, each type keyed by a folio it declares: the declared schema reconciles
into an empty store. A ledger whose key is named but never declared, as a catalog read from a
document may have it, is loaded all the same, and its key index names a key that nothing
declares. -/

namespace Ledgers

def ledger : Identifier := ⟨"ledger", by decide⟩
def line : Identifier := ⟨"line", by decide⟩
def folio : Identifier := ⟨"folio", by decide⟩
def holds : Identifier := ⟨"holds", by decide⟩

def keyed : Catalog :=
  ⟨[(NodeType.new ledger SchemaVersion.v12).withKey folio,
      (NodeType.new line SchemaVersion.v12).withKey folio],
    [{ Rule.new ledger line holds SchemaVersion.v12 with contains := .out }]⟩

def keyedSchema : DeclaredSchema := (ofCatalog keyed).toOption.getD {}

theorem keyed_ledgers_reconcile :
    ofCatalog keyed = .ok keyedSchema ∧
      SchemaStore.reconcile {} keyedSchema = .ok (keyedSchema.creationReport, keyedSchema.toStore) := by
  have hd : ofCatalog keyed = .ok keyedSchema := by decide +kernel
  exact ⟨hd, (ofCatalog_reconciles_fresh hd).2.2 ((ofCatalog_reconciles_fresh hd).1 (by decide))⟩

def undeclaredKey : Catalog :=
  ⟨[{ NodeType.new ledger SchemaVersion.v12 with keyProperties := [folio] }], []⟩

def undeclaredSchema : DeclaredSchema := (ofCatalog undeclaredKey).toOption.getD {}

theorem undeclared_key_breaks_reconcile :
    (Catalog.load undeclaredKey.nodeTypes undeclaredKey.rules).isOk = true ∧
      ofCatalog undeclaredKey = .ok undeclaredSchema ∧ ¬ undeclaredSchema.IndexKeysDeclared ∧
      (SchemaStore.reconcile {} undeclaredSchema).isOk = false := by
  refine ⟨by decide +kernel, by decide +kernel, by decide +kernel, by decide +kernel⟩

end Ledgers

end DeclaredSchema
end InventoryGraph
