import InventoryGraph.Proofs.Serializer.Forest
import InventoryGraph.Proofs.Text.PercentEncoding

/-!
Addresses of vertices as a relation. `AddressBelow g p x u` says that `u` is the address of `x`
read from below `p`: the segments of the vertices on the tree path from just below `p` down to
`x`, joined. The upward walk that computes addresses, when it knows one, computes the address
of this relation, so recomputing addresses keeps every stored address right.

Segments are read back: a segment is a slash, the node type, and a slash with the
percent-encoded value of each key. Neither type names nor encodings hold a slash, so a path of
segments splits into its segments, each naming a type and the values of its keys. Where two
vertices under one parent never share a segment, an address names one vertex.
-/

namespace InventoryGraph
namespace Scope

variable (s : Scope)

def segAt (g : Graph) (x : VertexId) : Option String := (g.vertex? x).bind s.segment?

/-- `u` is the address of `x` below `p`: the segments of the vertices from the one just below
    `p` down to `x`, joined. Below `none` it is the address of `x` from its root. -/
inductive AddressBelow (g : Graph) : Option VertexId → VertexId → String → Prop
  | here {p : Option VertexId} {x : VertexId} {seg : String} :
      g.treeParent? x = p → s.segAt g x = some seg → AddressBelow g p x seg
  | down {p : Option VertexId} {y x : VertexId} {seg u : String} :
      g.treeParent? y = p → s.segAt g y = some seg → AddressBelow g (some y) x u →
      AddressBelow g p x (seg ++ u)

/-- The address of a vertex, from its root. -/
def Address (g : Graph) (x : VertexId) (u : String) : Prop := s.AddressBelow g none x u

/-- Every address the store holds is the address of its vertex. -/
def UrisCorrect (g : Graph) : Prop :=
  ∀ x v, g.vertex? x = some v → ∀ p, v.property? Bookkeeping.uri = some p →
    ∃ u, p = .str u ∧ s.Address g x u

/-- No key of a declared type is named like the address, so storing an address never changes
    a segment. -/
def UriNotKey : Prop :=
  ∀ n t, s.nodeType? n = some t → ∀ k ∈ t.keyProperties, k.text ≠ Bookkeeping.uri

variable {s}

theorem segAt_of_vertex? {g : Graph} {x : VertexId} {v : Vertex} (hv : g.vertex? x = some v) :
    s.segAt g x = s.segment? v := by
  simp [segAt, hv]

theorem live_of_segAt {g : Graph} {x : VertexId} {seg : String} (h : s.segAt g x = some seg) :
    g.Live x := by
  obtain ⟨v, hv, -⟩ := Option.bind_eq_some_iff.mp h
  obtain ⟨hmem, hid⟩ := Graph.mem_of_vertex? hv
  exact ⟨v, hmem, hid⟩

theorem AddressBelow.snoc {g : Graph} {p : Option VertexId} {y x : VertexId} {u seg : String}
    (h : s.AddressBelow g p y u) (hx : g.treeParent? x = some y) (hseg : s.segAt g x = some seg) :
    s.AddressBelow g p x (u ++ seg) := by
  induction h with
  | here hp hs => exact .down hp hs (.here hx hseg)
  | down hp hs _ ih =>
    rw [String.append_assoc]
    exact .down hp hs (ih hx)

variable (s) in
/-- A vertex keeps its tree parent and its segment from one store to another. -/
def Stays (g g' : Graph) (z : VertexId) : Prop :=
  g'.treeParent? z = g.treeParent? z ∧ s.segAt g' z = s.segAt g z

theorem AddressBelow.frame {g g' : Graph} {p : Option VertexId} {x : VertexId} {u : String}
    (h : s.AddressBelow g p x u) (hkeep : ∀ z, g.Live z → s.Stays g g' z) :
    s.AddressBelow g' p x u := by
  induction h with
  | here hp hs =>
    obtain ⟨ht, hseg⟩ := hkeep _ (live_of_segAt hs)
    exact .here (ht.trans hp) (hseg.trans hs)
  | down hp hs _ ih =>
    obtain ⟨ht, hseg⟩ := hkeep _ (live_of_segAt hs)
    exact .down (ht.trans hp) (hseg.trans hs) ih

theorem climb_address {g : Graph} (hinv : s.UrisCorrect g) :
    ∀ (fuel : Nat) (seen : List VertexId) (acc : List String) (v : Vertex),
      g.vertex? v.id = some v → s.climb g fuel seen acc v ≠ unknownUri →
      ∃ u, s.Address g v.id u ∧ s.climb g fuel seen acc v = String.join (u :: acc)
  | 0, _, _, _, _, hne => absurd (by rw [climb]) hne
  | fuel + 1, seen, acc, v, hv, hne => by
    generalize hr : s.climb g (fuel + 1) seen acc v = r at hne ⊢
    rw [climb] at hr
    split at hr
    · exact absurd hr.symm hne
    · split at hr
      · exact absurd hr.symm hne
      · next seg hseg =>
        have hsegAt : s.segAt g v.id = some seg := (segAt_of_vertex? hv).trans hseg
        dsimp only at hr
        split at hr
        · next hroot =>
          exact ⟨seg, .here hroot hsegAt, by rw [← hr]⟩
        · next p hp =>
          split at hr
          · exact absurd hr.symm hne
          · next pv hpv =>
            obtain ⟨hpmem, rfl⟩ := Graph.mem_of_vertex? hpv
            -- the walk stops at a known address or climbs on from the parent
            have hup : ∀ r', s.climb g fuel (v.id :: seen) (seg :: acc) pv = r' → r' = r →
                ∃ u, s.Address g v.id u ∧ r = String.join (u :: acc) := by
              rintro r' hr' rfl
              obtain ⟨u, hu, heq⟩ := climb_address hinv fuel _ _ pv hpv (hr' ▸ hne)
              refine ⟨u ++ seg, hu.snoc hp hsegAt, ?_⟩
              rw [← hr', heq, String.join_cons, String.join_cons, String.join_cons,
                String.append_assoc]
            split at hr
            · next cached hcached =>
              split at hr
              · obtain ⟨x, hx, hstr⟩ := Option.bind_eq_some_iff.mp hcached
                obtain ⟨u, rfl, hu⟩ := hinv pv.id pv hpv x hx
                cases hstr
                refine ⟨cached ++ seg, hu.snoc hp hsegAt, ?_⟩
                rw [← hr, String.join_cons, String.join_cons, String.join_cons,
                  String.append_assoc]
              · exact hup _ hr rfl
            · exact hup _ hr rfl

theorem computeUri_address {g : Graph} (hinv : s.UrisCorrect g) {v : Vertex}
    (hv : g.vertex? v.id = some v) (hne : s.computeUri g v ≠ unknownUri) :
    s.Address g v.id (s.computeUri g v) := by
  obtain ⟨u, hu, heq⟩ := climb_address hinv _ [] [] v hv hne
  rw [computeUri, heq, String.join_cons, String.join_nil, String.append_empty]
  exact hu

theorem mapM_congr_mem {α β : Type} {f f' : α → Option β} :
    ∀ {l : List α}, (∀ a ∈ l, f a = f' a) → l.mapM f = l.mapM f'
  | [], _ => rfl
  | a :: l, h => by
    rw [List.mapM_cons, List.mapM_cons, h a List.mem_cons_self,
      mapM_congr_mem fun b hb => h b (List.mem_cons_of_mem a hb)]

theorem segment?_congr {v w : Vertex} (ht : w.nodeType = v.nodeType)
    (hk : ∀ t, s.nodeType? v.nodeType.text = some t → ∀ k ∈ t.keyProperties,
      w.property? k.text = v.property? k.text) :
    s.segment? w = s.segment? v := by
  unfold segment?
  rw [ht]
  cases hnt : s.nodeType? v.nodeType.text with
  | none => rfl
  | some t =>
    simp only [Option.bind_eq_bind, Option.bind_some]
    rw [mapM_congr_mem fun k hkey => by rw [hk t hnt k hkey]]

theorem segment?_eq_of_agree (hk : s.UriNotKey) {v w : Vertex} (ht : w.nodeType = v.nodeType)
    (hp : ∀ k, k ≠ Bookkeeping.uri → w.property? k = v.property? k) :
    s.segment? w = s.segment? v :=
  segment?_congr ht fun t hnt k hkey => hp k.text (hk _ t hnt k hkey)

theorem treeParent?_updateVertex {g g' : Graph} {w : Vertex} (hc : g.Consistent)
    (hup : g.updateVertex w = .ok g') : g'.treeParent? = g.treeParent? :=
  Graph.treeParent?_congr hc.edgeIndexed (Graph.updateVertex_consistent hc hup).edgeIndexed
    (Graph.updateVertex_edges hup)

theorem segAt_updateVertex {g g' : Graph} {w : Vertex} (hup : g.updateVertex w = .ok g')
    (hseg : s.segment? w = s.segAt g w.id) : s.segAt g' = s.segAt g := by
  funext x
  obtain ⟨old, hold, hx⟩ := Graph.vertex?_updateVertex hup x
  by_cases hxw : x = w.id
  · subst hxw
    rw [segAt, hx, if_pos rfl, Option.bind_some, ← hseg]
    rfl
  · rw [segAt, segAt, hx, if_neg hxw]

theorem UrisCorrect.frame {g g' : Graph} (hkeep : ∀ z, g.Live z → s.Stays g g' z)
    (huri : ∀ x v', g'.vertex? x = some v' → ∀ p, v'.property? Bookkeeping.uri = some p →
      ∃ u, p = .str u ∧ s.Address g x u) :
    s.UrisCorrect g' := fun x v hv p hp => by
  obtain ⟨u, rfl, hu⟩ := huri x v hv p hp
  exact ⟨u, rfl, hu.frame hkeep⟩

theorem UrisCorrect.updateVertex {g g' : Graph} {w : Vertex} (hinv : s.UrisCorrect g)
    (hc : g.Consistent) (hup : g.updateVertex w = .ok g')
    (hseg : s.segment? w = s.segAt g w.id)
    (huri : ∀ p, w.property? Bookkeeping.uri = some p → ∃ u, p = .str u ∧ s.Address g w.id u) :
    s.UrisCorrect g' := by
  have hkeep : ∀ z, g.Live z → s.Stays g g' z := fun z _ =>
    ⟨by rw [treeParent?_updateVertex hc hup], by rw [segAt_updateVertex hup hseg]⟩
  refine UrisCorrect.frame hkeep fun x v hv p hp => ?_
  obtain ⟨old, -, hx⟩ := Graph.vertex?_updateVertex hup x
  by_cases hxw : x = w.id
  · subst hxw
    rw [hx, if_pos rfl] at hv
    cases hv
    exact huri p hp
  · rw [hx, if_neg hxw] at hv
    exact hinv x v hv p hp

theorem UrisCorrect.refreshUri (hk : s.UriNotKey) {g g' : Graph} {x : VertexId} {r : Option String}
    (hinv : s.UrisCorrect g) (hc : g.Consistent) (h : (s.refreshUri x).run g = .ok (r, g')) :
    s.UrisCorrect g' := by
  have hseg : ∀ {g : Graph} {v : Vertex} (w : Vertex), g.vertex? v.id = some v → w.id = v.id →
      w.nodeType = v.nodeType → (∀ k, k ≠ Bookkeeping.uri → w.property? k = v.property? k) →
      s.segment? w = s.segAt g w.id := fun w hv hid ht hp => by
    rw [hid, segAt_of_vertex? hv]
    exact segment?_eq_of_agree hk ht hp
  rw [Scope.refreshUri, GraphM.run_get_bind_eq_ok] at h
  refine (refreshQueue_induct (fun g => s.UrisCorrect g ∧ g.Consistent) s ?_ ?_ x _ _ _ _
    ⟨hinv, hc⟩ h).1
  · intro g g' v hP hv hup
    obtain ⟨hinv, hc⟩ := hP
    refine ⟨hinv.updateVertex hc hup (hseg _ hv rfl rfl fun k hk => by simp [hk]) ?_,
      Graph.updateVertex_consistent hc hup⟩
    intro p hp
    simp at hp
  · intro g g' v hP hv hne hup
    obtain ⟨hinv, hc⟩ := hP
    refine ⟨hinv.updateVertex hc hup (hseg _ hv rfl rfl fun k hk => by simp [hk]) ?_,
      Graph.updateVertex_consistent hc hup⟩
    intro p hp
    simp only [Vertex.property?_set, if_true, Option.some.injEq] at hp
    refine ⟨_, hp.symm, ?_⟩
    rw [Vertex.set_id]
    exact computeUri_address hinv hv hne

/-! ### Reading segments back -/

theorem forall₂_of_mapM {α β : Type} {f : α → Option β} :
    ∀ {l : List α} {l' : List β}, l.mapM f = some l' → List.Forall₂ (fun a b => f a = some b) l l'
  | [], l', h => by
    cases h
    exact .nil
  | a :: l, l', h => by
    simp only [List.mapM_cons, Option.bind_eq_bind, Option.bind_eq_some_iff] at h
    obtain ⟨b, hb, bs, hbs, h⟩ := h
    cases h
    exact .cons hb (forall₂_of_mapM hbs)

/-- How a key reads into a segment: present, not a list, and percent-encoded after a slash. -/
def KeyPart (v : Vertex) (k : Identifier) (part : String) : Prop :=
  ∃ x, v.property? k.text = some x ∧ (∀ l, x ≠ .list l) ∧ part = "/" ++ Text.percentEncode x.display

theorem segment?_eq_some {v : Vertex} {seg : String} (h : s.segment? v = some seg) :
    ∃ t parts, s.nodeType? v.nodeType.text = some t ∧
      List.Forall₂ (KeyPart v) t.keyProperties parts ∧ seg = "/" ++ v.nodeType.text ++ String.join parts := by
  unfold segment? at h
  simp only [Option.bind_eq_bind, Option.bind_eq_some_iff, Option.pure_def, Option.some.injEq] at h
  obtain ⟨t, ht, parts, hparts, rfl⟩ := h
  refine ⟨t, parts, ht, (forall₂_of_mapM hparts).imp fun k part hk => ?_, rfl⟩
  obtain ⟨x, hx, hpart⟩ := Option.bind_eq_some_iff.mp hk
  refine ⟨x, hx, ?_⟩
  split at hpart
  · cases hpart
  · next hnot =>
    cases hpart
    exact ⟨hnot, rfl⟩

theorem KeyPart.shape {v : Vertex} {k : Identifier} {part : String} (h : KeyPart v k part) :
    ∃ e, part.toList = '/' :: e ∧ '/' ∉ e := by
  obtain ⟨x, -, -, rfl⟩ := h
  exact ⟨(Text.percentEncode x.display).toList, by simp [String.toList_append],
    Text.slash_not_mem_percentEncode _⟩

theorem KeyPart.shape_of_forall₂ {v : Vertex} {ks : List Identifier} {parts : List String}
    (h : List.Forall₂ (KeyPart v) ks parts) : ∀ p ∈ parts, ∃ e, p.toList = '/' :: e ∧ '/' ∉ e := by
  induction h with
  | nil => simp
  | cons hk _ ih =>
    intro p hp
    rcases List.mem_cons.mp hp with rfl | hp
    · exact hk.shape
    · exact ih p hp

variable (s) in
/-- No declared node type is named with a slash. -/
def SlashFreeTypes : Prop := ∀ n t, s.nodeType? n = some t → '/' ∉ n.toList

theorem segment?_append_inj (hn : s.SlashFreeTypes) {v w : Vertex} {sv sw R R' : String}
    (hv : s.segment? v = some sv) (hw : s.segment? w = some sw) (hR : Text.Slashed R.toList)
    (hR' : Text.Slashed R'.toList) (h : sv ++ R = sw ++ R') :
    sv = sw ∧ R = R' ∧ v.nodeType = w.nodeType ∧ ∃ t parts, s.nodeType? v.nodeType.text = some t ∧
      List.Forall₂ (KeyPart v) t.keyProperties parts ∧ List.Forall₂ (KeyPart w) t.keyProperties parts := by
  obtain ⟨t, parts, ht, hparts, rfl⟩ := segment?_eq_some hv
  obtain ⟨t', parts', ht', hparts', rfl⟩ := segment?_eq_some hw
  have hl := congrArg String.toList h
  simp only [String.toList_append, List.append_assoc] at hl
  simp only [show "/".toList = ['/'] from rfl, List.singleton_append, List.cons.injEq, true_and] at hl
  -- the type names agree up to the first key part, so both vertices have one type
  obtain ⟨hname, hrest⟩ := Text.append_slashed_inj (hn _ _ ht) (hn _ _ ht')
    (Text.Slashed.join (KeyPart.shape_of_forall₂ hparts) hR)
    (Text.Slashed.join (KeyPart.shape_of_forall₂ hparts') hR') hl
  have htext : v.nodeType.text = w.nodeType.text := String.toList_inj.mp hname
  rw [← htext, ht] at ht'
  cases ht'
  obtain ⟨rfl, hRR⟩ := Text.join_parts_inj (hparts.length_eq.symm.trans hparts'.length_eq)
    (KeyPart.shape_of_forall₂ hparts) (KeyPart.shape_of_forall₂ hparts') hR hR' hrest
  exact ⟨by rw [htext], String.toList_inj.mp hRR, Identifier.eq_of_text_eq htext, t, parts, ht, hparts,
    hparts'⟩

theorem KeyPart.display_eq {v w : Vertex} {k : Identifier} {part : String} (hv : KeyPart v k part)
    (hw : KeyPart w k part) :
    ∃ a b, v.property? k.text = some a ∧ w.property? k.text = some b ∧ (∀ l, a ≠ .list l) ∧
      (∀ l, b ≠ .list l) ∧ a.display = b.display := by
  obtain ⟨a, ha, hal, rfl⟩ := hv
  obtain ⟨b, hb, hbl, he⟩ := hw
  have hl := congrArg String.toList he
  simp only [String.toList_append, List.append_cancel_left_eq] at hl
  have henc : Text.percentEncode a.display = Text.percentEncode b.display := String.toList_inj.mp hl
  exact ⟨a, b, ha, hb, hal, hbl, Text.percentEncode_injective henc⟩

theorem KeyPart.forall₂_display_eq {v w : Vertex} :
    ∀ {ks : List Identifier} {parts : List String}, List.Forall₂ (KeyPart v) ks parts →
      List.Forall₂ (KeyPart w) ks parts → ∀ k ∈ ks,
        ∃ a b, v.property? k.text = some a ∧ w.property? k.text = some b ∧ (∀ l, a ≠ .list l) ∧
          (∀ l, b ≠ .list l) ∧ a.display = b.display
  | [], [], .nil, .nil => by simp
  | _ :: _, _ :: _, .cons hv hvs, .cons hw hws => by
    intro k hk
    rcases List.mem_cons.mp hk with rfl | hk
    · exact hv.display_eq hw
    · exact KeyPart.forall₂_display_eq hvs hws k hk

theorem segment?_inj (hn : s.SlashFreeTypes) {v w : Vertex} {seg : String}
    (hv : s.segment? v = some seg) (hw : s.segment? w = some seg) :
    v.nodeType = w.nodeType ∧ ∃ t, s.nodeType? v.nodeType.text = some t ∧ ∀ k ∈ t.keyProperties,
      ∃ a b, v.property? k.text = some a ∧ w.property? k.text = some b ∧ (∀ l, a ≠ .list l) ∧
        (∀ l, b ≠ .list l) ∧ a.display = b.display := by
  obtain ⟨-, -, hty, t, parts, ht, hvs, hws⟩ :=
    segment?_append_inj hn hv hw (show Text.Slashed "".toList from .inl rfl)
      (show Text.Slashed "".toList from .inl rfl) rfl
  exact ⟨hty, t, ht, KeyPart.forall₂_display_eq hvs hws⟩

theorem segAt_append_inj (hn : s.SlashFreeTypes) {g : Graph} {a b : VertexId} {sa sb R R' : String}
    (ha : s.segAt g a = some sa) (hb : s.segAt g b = some sb) (hR : Text.Slashed R.toList)
    (hR' : Text.Slashed R'.toList) (h : sa ++ R = sb ++ R') : sa = sb ∧ R = R' := by
  obtain ⟨v, -, hv⟩ := Option.bind_eq_some_iff.mp ha
  obtain ⟨w, -, hw⟩ := Option.bind_eq_some_iff.mp hb
  obtain ⟨hseg, hrest, -⟩ := segment?_append_inj hn hv hw hR hR' h
  exact ⟨hseg, hrest⟩

theorem segAt_head {g : Graph} {a : VertexId} {sa : String} (h : s.segAt g a = some sa) :
    sa.toList.head? = some '/' := by
  obtain ⟨v, -, hv⟩ := Option.bind_eq_some_iff.mp h
  obtain ⟨t, parts, -, -, rfl⟩ := segment?_eq_some hv
  simp [String.toList_append]

theorem AddressBelow.head {g : Graph} {p : Option VertexId} {x : VertexId} {u : String}
    (h : s.AddressBelow g p x u) : u.toList.head? = some '/' := by
  cases h with
  | here _ hs => exact segAt_head hs
  | down _ hs _ =>
    have hseg := segAt_head hs
    rw [String.toList_append, List.head?_append, hseg]
    rfl

variable (s) in
/-- Two vertices under one parent, or two roots, never have one segment unless they are one. -/
def SiblingsDistinct (g : Graph) : Prop :=
  ∀ a b seg, g.treeParent? a = g.treeParent? b → s.segAt g a = some seg → s.segAt g b = some seg →
    a = b

theorem SiblingsDistinct.frame {g g' : Graph} (hd : s.SiblingsDistinct g)
    (hkeep : ∀ z, g.Live z → s.Stays g g' z) (hlive : ∀ z, g'.Live z → g.Live z) :
    s.SiblingsDistinct g' := by
  intro a b seg hp ha hb
  obtain ⟨hpa, hsa⟩ := hkeep a (hlive a (live_of_segAt ha))
  obtain ⟨hpb, hsb⟩ := hkeep b (hlive b (live_of_segAt hb))
  exact hd a b seg (hpa ▸ hpb ▸ hp) (hsa ▸ ha) (hsb ▸ hb)

theorem SiblingsDistinct.extend {g g' : Graph} {x : VertexId} (hd : s.SiblingsDistinct g)
    (hkeep : ∀ z, g.Live z → s.Stays g g' z) (hlive : ∀ z, g'.Live z → g.Live z ∨ z = x)
    (hx : ∀ y seg, y ≠ x → g'.treeParent? y = g'.treeParent? x → s.segAt g' y = some seg →
      s.segAt g' x ≠ some seg) :
    s.SiblingsDistinct g' := by
  intro a b seg hp ha hb
  by_cases hax : a = x
  · by_cases hbx : b = x
    · exact hax.trans hbx.symm
    · subst hax
      exact absurd ha (hx b seg hbx hp.symm hb)
  · by_cases hbx : b = x
    · subst hbx
      exact absurd hb (hx a seg hax hp ha)
    · have hla := (hlive a (live_of_segAt ha)).resolve_right hax
      have hlb := (hlive b (live_of_segAt hb)).resolve_right hbx
      obtain ⟨hpa, hsa⟩ := hkeep a hla
      obtain ⟨hpb, hsb⟩ := hkeep b hlb
      exact hd a b seg (hpa ▸ hpb ▸ hp) (hsa ▸ ha) (hsb ▸ hb)

theorem AddressBelow.unique (hn : s.SlashFreeTypes) {g : Graph} (hd : s.SiblingsDistinct g)
    {p : Option VertexId} {x : VertexId} {u : String} (h : s.AddressBelow g p x u) :
    ∀ {x' u'}, s.AddressBelow g p x' u' → u = u' → x = x' := by
  have hempty : Text.Slashed "".toList := .inl rfl
  induction h with
  | here hp hs =>
    intro x' u' h' hu
    cases h' with
    | here hp' hs' => exact hd _ _ _ (hp.trans hp'.symm) hs (hu ▸ hs')
    | down hp' hs' hrest =>
      obtain ⟨-, hnil⟩ := segAt_append_inj hn hs hs' hempty (.inr hrest.head)
        (by rw [String.append_empty, hu])
      have := hrest.head
      rw [← hnil] at this
      cases this
  | down hp hs hrest ih =>
    intro x' u' h' hu
    cases h' with
    | here hp' hs' =>
      obtain ⟨-, hnil⟩ := segAt_append_inj hn hs hs' (.inr hrest.head) hempty
        (by rw [String.append_empty, hu])
      have := hrest.head
      rw [hnil] at this
      cases this
    | down hp' hs' hrest' =>
      obtain ⟨rfl, hrest_eq⟩ := segAt_append_inj hn hs hs' (.inr hrest.head) (.inr hrest'.head) hu
      have hy := hd _ _ _ (hp.trans hp'.symm) hs hs'
      subst hy
      exact ih hrest' hrest_eq

theorem Address.unique (hn : s.SlashFreeTypes) {g : Graph} (hd : s.SiblingsDistinct g)
    {x x' : VertexId} {u : String} (h : s.Address g x u) (h' : s.Address g x' u) : x = x' :=
  AddressBelow.unique hn hd h h' rfl

end Scope
end InventoryGraph
