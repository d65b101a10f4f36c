import Mathlib.Data.Sym.Sym2
import InventoryGraph.Proofs.Rules.Lookup

/-!
Pair keys. A name holds no `|`, so the key of two names, their texts in byte order joined by
`|`, comes apart at its one `|`. Main statement: the key of two names does not depend on
their order, and two pairs of names have one key exactly when they are the same unordered
pair. So the groups of rules by pair key are the rules of each unordered pair of node
types, and a loaded version has at most one rule of an unordered pair under a label.
-/
namespace InventoryGraph

namespace Identifier

theorem bar_not_mem_toList (i : Identifier) : '|' ∉ i.text.toList := by
  intro h
  have hbar : allowed '|' = true := List.all_eq_true.mp i.valid.2.2 '|' h
  exact absurd hbar (by decide)

theorem join_eq_join_iff {a b c d : Identifier} :
    a.text ++ "|" ++ b.text = c.text ++ "|" ++ d.text ↔ a = c ∧ b = d := by
  constructor
  · intro h
    have hl := congrArg String.toList h
    simp only [String.toList_append, List.append_assoc] at hl
    obtain ⟨hac, -, hbd⟩ :=
      (List.append_cons_inj_of_notMem (bar_not_mem_toList a) (bar_not_mem_toList b)).mp hl
    exact ⟨eq_of_text_eq (String.toList_injective hac), eq_of_text_eq (String.toList_injective hbd)⟩
  · rintro ⟨rfl, rfl⟩
    rfl

end Identifier

theorem pairKey_of_le {a b : String} (h : a ≤ b) : pairKey a b = a ++ "|" ++ b := if_pos h

theorem exists_sorted_pair (x y : Identifier) :
    ∃ x' y' : Identifier, x'.text ≤ y'.text ∧
      pairKey x.text y.text = pairKey x'.text y'.text ∧ s(x, y) = s(x', y') := by
  rcases String.le_total x.text y.text with h | h
  · exact ⟨x, y, h, rfl, rfl⟩
  · exact ⟨y, x, h, pairKey_comm _ _, Sym2.eq_swap⟩

theorem pairKey_eq_iff_of_le {a b c d : Identifier} (hab : a.text ≤ b.text)
    (hcd : c.text ≤ d.text) : pairKey a.text b.text = pairKey c.text d.text ↔ s(a, b) = s(c, d) := by
  rw [pairKey_of_le hab, pairKey_of_le hcd, Identifier.join_eq_join_iff, Sym2.eq_iff]
  constructor
  · exact .inl
  · rintro (h | ⟨rfl, rfl⟩)
    · exact h
    · -- crossed pairs in byte order, `a ≤ b` and `b ≤ a`, are one name twice
      obtain rfl : a = b := Identifier.eq_of_text_eq (String.le_antisymm hab hcd)
      exact ⟨rfl, rfl⟩

theorem pairKey_eq_iff (a b c d : Identifier) :
    pairKey a.text b.text = pairKey c.text d.text ↔ s(a, b) = s(c, d) := by
  obtain ⟨a', b', hab, hk, hs⟩ := exists_sorted_pair a b
  obtain ⟨c', d', hcd, hk', hs'⟩ := exists_sorted_pair c d
  rw [hk, hk', hs, hs']
  exact pairKey_eq_iff_of_le hab hcd

/-- The pair key of two names does not depend on their order, and it tells unordered pairs of
    names apart. -/
theorem pairKey_identifies_unordered_pairs (a b c d : Identifier) :
    pairKey a.text b.text = pairKey b.text a.text ∧
      (pairKey a.text b.text = pairKey c.text d.text ↔ s(a, b) = s(c, d)) :=
  ⟨pairKey_comm a.text b.text, pairKey_eq_iff a b c d⟩

theorem Rule.pairKey_eq_iff {r r' : Rule} :
    r.pairKey = r'.pairKey ↔ s(r.source, r.target) = s(r'.source, r'.target) :=
  InventoryGraph.pairKey_eq_iff _ _ _ _

theorem RuleGroups.mem_get_pairKey_iff (rs : List Rule) (r r' : Rule) :
    r' ∈ (ofList rs).get r.pairKey ↔ r' ∈ rs ∧ s(r'.source, r'.target) = s(r.source, r.target) := by
  rw [(groups_ofList rs).get, List.mem_filter, beq_iff_eq, Rule.pairKey_eq_iff]

theorem Catalog.load_rule_unique_of_pair {nodeTypes : List NodeType} {rules : List Rule}
    {c : Catalog} (hc : load nodeTypes rules = .ok c) {v : SchemaVersion} {r₁ r₂ : Rule}
    (h₁ : r₁ ∈ c.rulesOf v) (h₂ : r₂ ∈ c.rulesOf v)
    (hs : s(r₁.source, r₁.target) = s(r₂.source, r₂.target)) (hl : r₁.label = r₂.label) :
    r₁ = r₂ :=
  load_rule_unique hc h₁ h₂ (Rule.pairKey_eq_iff.mpr hs) hl

end InventoryGraph
