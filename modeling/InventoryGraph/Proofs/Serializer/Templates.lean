import InventoryGraph.Serializer.DataCopy

/-!
Data-copy templates, read declaratively. The address part of a template is read from left to
right as a `Layout`: literal texts, each followed by a placeholder `{name}`, then a last literal
text. A placeholder runs from a `{` to the first `}` after it, so its name may hold `{` but not
`}`; a `{` with no `}` after it starts literal text that runs to the end.

Every address has exactly one such reading (`Layout.exists_reads`, `Layout.Reads.unique`), and
the scanner of `DataCopy.pieces` makes the reading's pieces (`Layout.Reads.pieces_eq`). From
these, `resolve_reads_template` says what resolving a template answers: a configuration error
exactly when there is no `#`; nothing when every placeholder is missing; the missing names in
template order when only some are; otherwise the filled address, taken relative to the
object's own address when it starts with `./`.
-/
namespace InventoryGraph
namespace DataCopy

/-- An address template read as literal texts each followed by the name of a placeholder,
    then the literal text that ends it. -/
structure Layout where
  slots : List (List Char × List Char)
  tail : List Char

namespace Layout

def text (L : Layout) : List Char :=
  L.slots.flatMap (fun s => s.1 ++ '{' :: (s.2 ++ ['}'])) ++ L.tail

def names (L : Layout) : List String :=
  L.slots.map fun s => String.ofList s.2

/-- The names of the placeholders that the properties lack, in template order. -/
def missing (L : Layout) (props : PropertyMap) : List String :=
  L.names.filter fun n => !props.contains n

/-- The text standing for a placeholder in a built address: the percent-encoded text of the
    property it names, or nothing when there is no such property. -/
def value (props : PropertyMap) (n : String) : String :=
  match props.get? n with
  | some x => Text.percentEncode x.display
  | none => ""

/-- The address a layout builds: its literal texts, each placeholder replaced by its value. -/
def address (L : Layout) (props : PropertyMap) : String :=
  String.join (L.slots.map fun s => String.ofList s.1 ++ value props (String.ofList s.2)) ++
    String.ofList L.tail

/-- Literal text that ends a template: either it holds no `{`, or its first `{` has no `}`
    after it. -/
def OpenTail (t : List Char) : Prop :=
  '{' ∉ t ∨ ∃ a b, t = a ++ '{' :: b ∧ '{' ∉ a ∧ '}' ∉ b

/-- `L` is the left-to-right reading of the address template `U`. -/
structure Reads (L : Layout) (U : List Char) : Prop where
  spells : L.text = U
  literal : ∀ s ∈ L.slots, '{' ∉ s.1
  closed : ∀ s ∈ L.slots, '}' ∉ s.2
  tail : OpenTail L.tail

def toPieces (L : Layout) : List Piece :=
  L.slots.flatMap (fun s => [.text (String.ofList s.1), .slot (String.ofList s.2)]) ++
    [.text (String.ofList L.tail)]

end Layout

open Layout

/-! ### The scanner, piece by piece -/

theorem pieces_literal {a : List Char} (h : '{' ∉ a) (cs lit : List Char) :
    pieces (a ++ cs) lit none = pieces cs (lit ++ a) none := by
  induction a generalizing lit with
  | nil => simp
  | cons c a ih =>
    simp only [List.mem_cons, not_or] at h
    simp only [List.cons_append, pieces, Ne.symm h.1, if_false, ih h.2]
    simp

theorem pieces_name {a : List Char} (h : '}' ∉ a) (cs lit name : List Char) :
    pieces (a ++ cs) lit (some name) = pieces cs lit (some (name ++ a)) := by
  induction a generalizing name with
  | nil => simp
  | cons c a ih =>
    simp only [List.mem_cons, not_or] at h
    simp only [List.cons_append, pieces, Ne.symm h.1, if_false, ih h.2]
    simp

theorem pieces_slot {a n : List Char} (ha : '{' ∉ a) (hn : '}' ∉ n) (cs lit : List Char) :
    pieces (a ++ '{' :: (n ++ '}' :: cs)) lit none =
      .text (String.ofList (lit ++ a)) :: .slot (String.ofList n) :: pieces cs [] none := by
  rw [pieces_literal ha, pieces, if_pos rfl, pieces_name hn, List.nil_append, pieces, if_pos rfl]

theorem pieces_openTail {t : List Char} (ht : OpenTail t) (lit : List Char) :
    pieces t lit none = [.text (String.ofList (lit ++ t))] := by
  rcases ht with ht | ⟨a, b, rfl, ha, hb⟩
  · simpa [pieces] using pieces_literal ht [] lit
  · -- the unclosed `{` opens a name that the end of the text turns back into literal text
    rw [pieces_literal ha, pieces, if_pos rfl, ← List.append_nil b, pieces_name hb, pieces]
    simp

theorem pieces_text (slots : List (List Char × List Char)) (tail : List Char)
    (hlit : ∀ s ∈ slots, '{' ∉ s.1) (hname : ∀ s ∈ slots, '}' ∉ s.2) (ht : OpenTail tail) :
    pieces (Layout.text ⟨slots, tail⟩) [] none = toPieces ⟨slots, tail⟩ := by
  induction slots with
  | nil => simpa [Layout.text, toPieces] using pieces_openTail ht []
  | cons s slots ih =>
    have hrest := ih (fun s' hs' => hlit s' (List.mem_cons_of_mem _ hs'))
      (fun s' hs' => hname s' (List.mem_cons_of_mem _ hs'))
    simp only [Layout.text, toPieces, List.flatMap_cons, List.append_assoc, List.cons_append,
      List.nil_append] at hrest ⊢
    rw [pieces_slot (hlit s List.mem_cons_self) (hname s List.mem_cons_self), hrest,
      List.nil_append]

namespace Layout

theorem Reads.pieces_eq {L : Layout} {U : List Char} (h : L.Reads U) :
    pieces U [] none = L.toPieces := by
  rw [← h.spells]
  exact pieces_text L.slots L.tail h.literal h.closed h.tail

theorem toPieces_injective {L L' : Layout} (h : L.toPieces = L'.toPieces) : L = L' := by
  obtain ⟨slots, tail⟩ := L
  obtain ⟨slots', tail'⟩ := L'
  induction slots generalizing slots' with
  | nil =>
    cases slots' with
    | nil => simpa [toPieces, String.ofList_inj] using h
    | cons s' slots' => simp [toPieces] at h
  | cons s slots ih =>
    cases slots' with
    | nil => simp [toPieces] at h
    | cons s' slots' =>
      simp only [toPieces, List.flatMap_cons, List.cons_append, List.nil_append, List.cons.injEq,
        Piece.text.injEq, Piece.slot.injEq, String.ofList_inj] at h
      obtain ⟨h1, h2, hrest⟩ := h
      have := ih slots' (by simpa [toPieces] using hrest)
      simp only [mk.injEq, List.cons.injEq] at this ⊢
      exact ⟨⟨Prod.ext h1 h2, this.1⟩, this.2⟩

theorem Reads.unique {L L' : Layout} {U : List Char} (h : L.Reads U) (h' : L'.Reads U) :
    L = L' :=
  toPieces_injective (h.pieces_eq ▸ h'.pieces_eq)

theorem Reads.cons {L : Layout} {a n r : List Char} (h : L.Reads r) (ha : '{' ∉ a)
    (hn : '}' ∉ n) : Reads ⟨(a, n) :: L.slots, L.tail⟩ (a ++ '{' :: (n ++ '}' :: r)) where
  spells := by simp [Layout.text, ← h.spells]
  literal s hs := by
    rcases List.mem_cons.1 hs with rfl | hs
    · exact ha
    · exact h.literal s hs
  closed s hs := by
    rcases List.mem_cons.1 hs with rfl | hs
    · exact hn
    · exact h.closed s hs
  tail := h.tail

theorem exists_reads (U : List Char) : ∃ L : Layout, L.Reads U := by
  induction hlen : U.length using Nat.strongRecOn generalizing U with
  | ind len ih =>
    have plain : OpenTail U → ∃ L : Layout, L.Reads U := fun ht =>
      ⟨⟨[], U⟩, ⟨by simp [Layout.text], by simp, by simp, ht⟩⟩
    cases hopen : Text.splitOnce '{' U with
    | none => exact plain (.inl ((Text.splitOnce_eq_none_iff _ _).1 hopen))
    | some ab =>
      obtain ⟨a, b⟩ := ab
      obtain ⟨rfl, ha⟩ := (Text.splitOnce_eq_some_iff _ _ _ _).1 hopen
      cases hclose : Text.splitOnce '}' b with
      | none => exact plain (.inr ⟨a, b, rfl, ha, (Text.splitOnce_eq_none_iff _ _).1 hclose⟩)
      | some nr =>
        obtain ⟨n, r⟩ := nr
        obtain ⟨rfl, hn⟩ := (Text.splitOnce_eq_some_iff _ _ _ _).1 hclose
        obtain ⟨L, hL⟩ := ih r.length (by simp [← hlen]; omega) r rfl
        exact ⟨_, hL.cons ha hn⟩

end Layout

/-! ### What the scanned pieces give -/

theorem slots_toPieces (L : Layout) : slots L.toPieces = L.names := by
  obtain ⟨slots, tail⟩ := L
  induction slots with
  | nil => rfl
  | cons s slots ih => simpa [DataCopy.slots, toPieces, Layout.names] using ih

theorem join_toPieces (L : Layout) (props : PropertyMap) (render : Piece → String)
    (htext : ∀ s, render (.text s) = s) (hslot : ∀ n, render (.slot n) = value props n) :
    String.join (L.toPieces.map render) = L.address props := by
  obtain ⟨slots, tail⟩ := L
  induction slots with
  | nil => simp [toPieces, address, htext]
  | cons s slots ih =>
    simp only [toPieces, address, List.flatMap_cons, List.map_append, List.map_cons,
      List.map_nil, String.join_append, String.join_cons, String.join_nil, String.append_empty,
      String.append_assoc] at ih ⊢
    rw [ih, htext, hslot]

/-! ### Resolving a template -/

section Resolve
variable {template : String} {props : PropertyMap} {selfUri : Option String} {U p : List Char}
  {L : Layout}

theorem resolve_of_reads (hsplit : Text.splitOnce '#' template.toList = some (U, p))
    (hL : L.Reads U) :
    resolve template props selfUri =
      if !L.names.isEmpty && (L.missing props).length = L.names.length then .ok none
      else if !(L.missing props).isEmpty then
        .error (.validation (.missingPropertyValue
          ("Cannot complete data copy uri. Missing properties [" ++
            ", ".intercalate (L.missing props) ++ "]")))
      else match (L.address props).toList with
        | '.' :: '/' :: relative =>
          match selfUri with
          | none => .ok none
          | some base =>
            .ok (some (Scope.normalizeUri base ++ "/" ++ String.ofList relative, String.ofList p))
        | _ => .ok (some (L.address props, String.ofList p)) := by
  simp only [resolve, hsplit]
  rw [hL.pieces_eq, slots_toPieces, join_toPieces L props]
  · rfl
  · intro s; rfl
  · intro n; rfl

theorem resolve_of_no_property (h : '#' ∉ template.toList) :
    resolve template props selfUri =
      .error (.configuration ("data copy template " ++ template ++ " names no property")) := by
  simp only [resolve, (Text.splitOnce_eq_none_iff _ _).2 h]

theorem resolve_all_missing (hsplit : Text.splitOnce '#' template.toList = some (U, p))
    (hL : L.Reads U) (hk : 0 < L.names.length)
    (hm : (L.missing props).length = L.names.length) :
    resolve template props selfUri = .ok none := by
  rw [resolve_of_reads hsplit hL, if_pos]
  simpa [List.isEmpty_iff, ← List.length_pos_iff] using ⟨hk, hm⟩

theorem resolve_some_missing (hsplit : Text.splitOnce '#' template.toList = some (U, p))
    (hL : L.Reads U) (hm : 0 < (L.missing props).length)
    (hmk : (L.missing props).length < L.names.length) :
    resolve template props selfUri =
      .error (.validation (.missingPropertyValue
        ("Cannot complete data copy uri. Missing properties [" ++
          ", ".intercalate (L.missing props) ++ "]"))) := by
  rw [resolve_of_reads hsplit hL, if_neg (by simp [Nat.ne_of_lt hmk]), if_pos]
  simpa [List.isEmpty_iff, ← List.length_pos_iff] using hm

theorem resolve_complete (hsplit : Text.splitOnce '#' template.toList = some (U, p))
    (hL : L.Reads U) (hm : L.missing props = []) :
    resolve template props selfUri =
      match (L.address props).toList with
      | '.' :: '/' :: relative =>
        .ok (selfUri.map fun base =>
          (Scope.normalizeUri base ++ "/" ++ String.ofList relative, String.ofList p))
      | _ => .ok (some (L.address props, String.ofList p)) := by
  have hfirst : ¬ (!L.names.isEmpty && (L.missing props).length = L.names.length) = true := by
    rw [hm]
    cases L.names <;> simp
  rw [resolve_of_reads hsplit hL, if_neg hfirst, if_neg (by simp [hm])]
  split <;> cases selfUri <;> rfl

theorem resolve_relative (hsplit : Text.splitOnce '#' template.toList = some (U, p))
    (hL : L.Reads U) (hm : L.missing props = []) {rest : List Char}
    (hrel : (L.address props).toList = '.' :: '/' :: rest) :
    resolve template props selfUri =
      .ok (selfUri.map fun base =>
        (Scope.normalizeUri base ++ "/" ++ String.ofList rest, String.ofList p)) := by
  rw [resolve_complete hsplit hL hm, hrel]
  rfl

theorem resolve_absolute (hsplit : Text.splitOnce '#' template.toList = some (U, p))
    (hL : L.Reads U) (hm : L.missing props = [])
    (habs : ∀ rest, (L.address props).toList ≠ '.' :: '/' :: rest) :
    resolve template props selfUri = .ok (some (L.address props, String.ofList p)) := by
  rw [resolve_complete hsplit hL hm]
  split
  · rename_i relative hrel
    exact absurd hrel (habs relative)
  · rfl

theorem resolve_ne_configuration (hsplit : Text.splitOnce '#' template.toList = some (U, p))
    (msg : String) : resolve template props selfUri ≠ .error (.configuration msg) := by
  obtain ⟨L, hL⟩ := exists_reads U
  rw [resolve_of_reads hsplit hL]
  split
  · nofun
  · split
    · nofun
    · split
      · cases selfUri <;> nofun
      · nofun

/-- What resolving a data-copy template answers, for every template, object and own address.
    It is a configuration error exactly when the template has no `#`. Otherwise the template
    splits at its first `#` into an address `U` and a property `p`. `U` has exactly one
    left-to-right reading. With `k` placeholders of which `m` are missing from the object,
    `0 < k = m` copies nothing, `0 < m < k` is an error naming the missing ones in template
    order, and `m = 0` fills the address, which is relative to the own address when it starts
    with `./`. -/
theorem resolve_reads_template (template : String) (props : PropertyMap)
    (selfUri : Option String) :
    ((∃ msg, resolve template props selfUri = .error (.configuration msg)) ↔
      '#' ∉ template.toList) ∧
    ∀ U p, template.toList = U ++ '#' :: p → '#' ∉ U →
      (∃ L : Layout, L.Reads U ∧ ∀ L' : Layout, L'.Reads U → L' = L) ∧ ∀ L : Layout, L.Reads U →
        (0 < L.names.length ∧ (L.missing props).length = L.names.length →
          resolve template props selfUri = .ok none) ∧
        (0 < (L.missing props).length ∧ (L.missing props).length < L.names.length →
          resolve template props selfUri = .error (.validation (.missingPropertyValue
            ("Cannot complete data copy uri. Missing properties [" ++
              ", ".intercalate (L.missing props) ++ "]")))) ∧
        (L.missing props = [] → ∀ rest, (L.address props).toList = '.' :: '/' :: rest →
          resolve template props selfUri = .ok (selfUri.map fun base =>
            (Scope.normalizeUri base ++ "/" ++ String.ofList rest, String.ofList p))) ∧
        (L.missing props = [] → (∀ rest, (L.address props).toList ≠ '.' :: '/' :: rest) →
          resolve template props selfUri = .ok (some (L.address props, String.ofList p))) := by
  refine ⟨⟨fun ⟨msg, h⟩ hmem => ?_, fun h => ⟨_, resolve_of_no_property h⟩⟩, ?_⟩
  · -- a `#` splits the template, and a split template is never a configuration error
    cases hsplit : Text.splitOnce '#' template.toList with
    | none => exact (Text.splitOnce_eq_none_iff _ _).1 hsplit hmem
    | some Up => exact resolve_ne_configuration hsplit msg h
  · intro U p htemplate hU
    have hsplit : Text.splitOnce '#' template.toList = some (U, p) :=
      (Text.splitOnce_eq_some_iff _ _ _ _).2 ⟨htemplate, hU⟩
    obtain ⟨L, hL⟩ := exists_reads U
    refine ⟨⟨L, hL, fun L' hL' => hL'.unique hL⟩, fun L hL => ⟨?_, ?_, ?_, ?_⟩⟩
    · rintro ⟨hk, hm⟩
      exact resolve_all_missing hsplit hL hk hm
    · rintro ⟨hm, hmk⟩
      exact resolve_some_missing hsplit hL hm hmk
    · intro hm rest hrel
      exact resolve_relative hsplit hL hm hrel
    · intro hm habs
      exact resolve_absolute hsplit hL hm habs

theorem dotted_kiln_template_resolves :
    Layout.Reads ⟨[([], "here".toList), ("/kiln/".toList, "lot".toList)], []⟩
        "{here}/kiln/{lot}".toList ∧
      resolve "{here}/kiln/{lot}#glaze"
          ((PropertyMap.empty.insert "here" (.str ".")).insert "lot" (.str "a b"))
          (some "/site/s1/") =
        .ok (some ("/site/s1/kiln/a%20b", "glaze")) := by
  have hL : Layout.Reads ⟨[([], "here".toList), ("/kiln/".toList, "lot".toList)], []⟩
      "{here}/kiln/{lot}".toList := ⟨by decide, by decide, by decide, .inl (by decide)⟩
  refine ⟨hL, ?_⟩
  rw [(((resolve_reads_template _ _ _).2 "{here}/kiln/{lot}".toList "glaze".toList
    (by decide) (by decide)).2 _ hL).2.2.1 (by decide +kernel) "kiln/a%20b".toList
    (by decide +kernel)]
  simp only [Option.map_some, Except.ok.injEq, Option.some.injEq, Prod.mk.injEq]
  exact ⟨by decide +kernel, by decide +kernel⟩

end Resolve

end DataCopy
end InventoryGraph
