import InventoryGraph.Catalog.Resolve
import InventoryGraph.Proofs.Store.Writes

/-!
What a loaded catalog promises about its rules. A rule joins two node types and orients its
edges from its out type to its in type, so knowing one end of a rule's edge fixes the other.
Loading refuses a version with two rules of one pair key and label; so within a version, a
rule is fixed by its two ends and its label. And the rule a scope selects is a rule of its
version that passes the query.
-/
namespace InventoryGraph

theorem Identifier.eq_of_text_eq {a b : Identifier} (h : a.text = b.text) : a = b := by
  cases a
  cases b
  cases h
  rfl

theorem pairKey_comm (a b : String) : pairKey a b = pairKey b a := by
  unfold pairKey
  by_cases hab : a ≤ b <;> by_cases hba : b ≤ a
  · rw [String.le_antisymm hab hba]
  · simp [hab, hba]
  · simp [hab, hba]
  · exact absurd ((String.le_total a b).resolve_left hab) hba

namespace Rule

theorem joins_iff (r : Rule) (a b : Identifier) :
    r.joins a.text b.text = true ↔ (r.source = a ∧ r.target = b) ∨ (r.source = b ∧ r.target = a) := by
  have hid : ∀ x y : Identifier, x.text = y.text ↔ x = y :=
    fun x y => ⟨Identifier.eq_of_text_eq, congrArg _⟩
  simp [joins, hid]

theorem joins_symm {r : Rule} {a b : Identifier} (h : r.joins a.text b.text = true) :
    r.joins b.text a.text = true := by
  rw [joins_iff] at h ⊢
  exact h.symm

theorem inType_of_joins {r : Rule} {a b : Identifier} (h : r.joins a.text b.text = true)
    (ha : r.outType = a) : r.inType = b := by
  rw [joins_iff] at h
  cases hd : r.direction <;> simp only [outType, inType, hd] at ha ⊢ <;>
    rcases h with ⟨hs, ht⟩ | ⟨hs, ht⟩ <;> simp_all

theorem outType_of_joins {r : Rule} {a b : Identifier} (h : r.joins a.text b.text = true)
    (ha : r.inType = a) : r.outType = b := by
  rw [joins_iff] at h
  cases hd : r.direction <;> simp only [outType, inType, hd] at ha ⊢ <;>
    rcases h with ⟨hs, ht⟩ | ⟨hs, ht⟩ <;> simp_all

theorem outType_eq_of_joins {r : Rule} {a b : Identifier} (h : r.joins a.text b.text = true) :
    r.outType = a ∨ r.outType = b := by
  rw [joins_iff] at h
  cases hd : r.direction <;> simp only [outType, hd] <;>
    rcases h with ⟨hs, ht⟩ | ⟨hs, ht⟩ <;> simp_all

theorem pairKey_eq (r : Rule) : r.pairKey = InventoryGraph.pairKey r.outType.text r.inType.text := by
  unfold Rule.pairKey outType inType
  cases r.direction
  · rfl
  · exact pairKey_comm _ _

end Rule

namespace SchemaVersion

theorem mem_insertSorted {v w : SchemaVersion} {l : List SchemaVersion} :
    v ∈ insertSorted w l ↔ v = w ∨ v ∈ l := by
  induction l with
  | nil => simp [insertSorted]
  | cons u l ih =>
    unfold insertSorted
    split
    · exact List.mem_cons
    · split
      · next hwu =>
        have : w = u := by cases w; cases u; simp_all
        simp [this]
      · simp only [List.mem_cons, ih]
        exact or_left_comm

theorem mem_sortedUnique {v : SchemaVersion} {l : List SchemaVersion} :
    v ∈ sortedUnique l ↔ v ∈ l := by
  induction l with
  | nil => rfl
  | cons w l ih => simp [sortedUnique, mem_insertSorted, ← ih]

end SchemaVersion

namespace Catalog

theorem checkRules_keys {c : Catalog} {v : SchemaVersion} :
    ∀ {seen : List (String × String)} {rs : List Rule}, c.checkRules v seen rs = .ok () →
      (rs.map fun r => (r.pairKey, r.label.text)).Nodup ∧
        ∀ r ∈ rs, (r.pairKey, r.label.text) ∉ seen
  | _, [], _ => ⟨List.nodup_nil, by simp⟩
  | seen, r :: rs, h => by
    unfold checkRules at h
    by_cases hseen : seen.contains (r.pairKey, r.label.text) = true
    · simp only [hseen, if_true, reduceCtorEq] at h
    simp only [hseen, Bool.false_eq_true, if_false] at h
    split at h
    · cases h
    obtain ⟨hnodup, hout⟩ := checkRules_keys h
    refine ⟨List.nodup_cons.mpr ⟨fun hin => ?_, hnodup⟩, fun r' hr' => ?_⟩
    · obtain ⟨r', hr', hkey⟩ := List.mem_map.mp hin
      exact hout r' hr' (by rw [hkey]; exact List.mem_cons_self)
    · rcases List.mem_cons.mp hr' with rfl | hr'
      · simpa using hseen
      · exact fun hin => hout r' hr' (List.mem_cons_of_mem _ hin)

theorem checkVersions_checkRules {c : Catalog} :
    ∀ {vs : List SchemaVersion}, c.checkVersions vs = .ok () →
      ∀ v ∈ vs, c.checkRules v [] (c.rulesOf v) = .ok ()
  | [], _, v, hv => absurd hv List.not_mem_nil
  | w :: vs, h, v, hv => by
    unfold checkVersions at h
    cases hw : c.checkRules w [] (c.rulesOf w) with
    | error e => simp [hw] at h
    | ok u =>
      rw [hw, Except.ok_bind] at h
      split at h
      · cases h
      rcases List.mem_cons.mp hv with rfl | hv
      · exact hw
      · exact checkVersions_checkRules h v hv

theorem mem_ruleVersions {c : Catalog} {v : SchemaVersion} :
    v ∈ c.ruleVersions ↔ ∃ r ∈ c.rules, r.version = v := by
  simp [ruleVersions, SchemaVersion.mem_sortedUnique]

theorem load_eq {nodeTypes : List NodeType} {rules : List Rule} {c : Catalog}
    (h : load nodeTypes rules = .ok c) :
    c = ⟨nodeTypes, rules⟩ ∧ c.checkVersions c.ruleVersions = .ok () := by
  unfold load at h
  split at h
  · cases h
  obtain ⟨u, hu, hc⟩ := Graph.exists_of_map_eq_ok h
  subst hc
  exact ⟨rfl, hu⟩

theorem load_rule_unique {nodeTypes : List NodeType} {rules : List Rule} {c : Catalog}
    (hc : load nodeTypes rules = .ok c) {v : SchemaVersion} {r₁ r₂ : Rule}
    (h₁ : r₁ ∈ c.rulesOf v) (h₂ : r₂ ∈ c.rulesOf v) (hk : r₁.pairKey = r₂.pairKey)
    (hl : r₁.label = r₂.label) : r₁ = r₂ := by
  obtain ⟨-, hvers⟩ := load_eq hc
  have hv : v ∈ c.ruleVersions := by
    obtain ⟨hr, hrv⟩ := List.mem_filter.mp h₁
    exact mem_ruleVersions.mpr ⟨r₁, hr, by simpa using hrv⟩
  have hnodup := (checkRules_keys (checkVersions_checkRules hvers v hv)).1
  exact List.inj_on_of_nodup_map hnodup h₁ h₂ (by rw [hk, hl])

theorem mem_insertRule {r x : Rule} :
    ∀ {gs : List (String × List Rule)} {k : String} {rs : List Rule},
      (k, rs) ∈ RuleGroups.insertRule r gs → x ∈ rs → x = r ∨ ∃ g ∈ gs, x ∈ g.2
  | [], k, rs, hg, hx => by
    simp only [RuleGroups.insertRule, List.mem_singleton, Prod.mk.injEq] at hg
    obtain ⟨-, rfl⟩ := hg
    exact .inl (List.mem_singleton.mp hx)
  | (k', rs') :: gs, k, rs, hg, hx => by
    unfold RuleGroups.insertRule at hg
    split at hg
    · rcases List.mem_cons.mp hg with hg | hg
      · obtain ⟨-, rfl⟩ := Prod.mk.inj hg
        exact .inl (List.mem_singleton.mp hx)
      · exact .inr ⟨_, hg, hx⟩
    · split at hg
      · rcases List.mem_cons.mp hg with hg | hg
        · obtain ⟨-, rfl⟩ := Prod.mk.inj hg
          rcases List.mem_append.mp hx with hx | hx
          · exact .inr ⟨_, List.mem_cons_self, hx⟩
          · exact .inl (List.mem_singleton.mp hx)
        · exact .inr ⟨_, List.mem_cons_of_mem _ hg, hx⟩
      · rcases List.mem_cons.mp hg with hg | hg
        · exact .inr ⟨_, List.mem_cons_self, (Prod.mk.inj hg).2 ▸ hx⟩
        · rcases mem_insertRule hg hx with rfl | ⟨g, hg', hx'⟩
          · exact .inl rfl
          · exact .inr ⟨g, List.mem_cons_of_mem _ hg', hx'⟩

theorem mem_of_mem_ofList {l : List Rule} {k : String} {rs : List Rule} {x : Rule}
    (hg : (k, rs) ∈ (RuleGroups.ofList l).groups) (hx : x ∈ rs) : x ∈ l := by
  -- over the fold, a grouped rule is one of the rules folded in or of the groups started from
  have key : ∀ (l : List Rule) (gs : List (String × List Rule)) (k : String) (rs : List Rule),
      (k, rs) ∈ l.foldl (fun g r => RuleGroups.insertRule r g) gs → x ∈ rs →
        x ∈ l ∨ ∃ g ∈ gs, x ∈ g.2 := by
    intro l
    induction l with
    | nil => exact fun gs k rs hg hx => .inr ⟨_, hg, hx⟩
    | cons r l ih =>
      intro gs k rs hg hx
      rcases ih _ k rs hg hx with hx | ⟨g, hg', hx'⟩
      · exact .inl (List.mem_cons_of_mem _ hx)
      · rcases mem_insertRule hg' hx' with rfl | hold
        · exact .inl List.mem_cons_self
        · exact .inr hold
  rcases key l [] k rs hg hx with hx | ⟨_, hg', _⟩
  · exact hx
  · exact absurd hg' List.not_mem_nil

theorem mem_candidates_of_select {c : Catalog} {q : RuleQuery} {r : Rule}
    (h : c.select q = .ok r) : r ∈ c.candidates q := by
  unfold select at h
  split at h
  · cases h
  · next k rs hgroups =>
    have hmem : (k, rs) ∈ (RuleGroups.ofList (c.candidates q)).groups := by
      rw [hgroups]
      exact List.mem_singleton_self _
    refine mem_of_mem_ofList hmem ?_
    split at h
    · cases h
      exact List.mem_singleton_self _
    · split at h
      · next hdef =>
        cases h
        exact (List.mem_filter.mp (hdef ▸ List.mem_singleton_self r)).1
      · cases h
      · cases h
  · cases h

end Catalog

namespace Scope

theorem select_spec {s : Scope} {q : RuleQuery} {r : Rule} (h : s.select q = .ok r) :
    r ∈ s.catalog.rulesOf s.version ∧ q.admits r = true := by
  have hmem := Catalog.mem_candidates_of_select h
  simp only [Catalog.candidates] at hmem
  obtain ⟨hr, hadm⟩ := List.mem_filter.mp hmem
  exact ⟨hr, by simpa [RuleQuery.admits] using hadm⟩

theorem select_between {s : Scope} {q : RuleQuery} {a b : Identifier} {r : Rule}
    (hq : q.source = a ∧ q.target = some b) (h : s.select q = .ok r) :
    r ∈ s.catalog.rulesOf s.version ∧ r.joins a.text b.text = true := by
  obtain ⟨hr, hadm⟩ := select_spec h
  obtain ⟨hqs, hqt⟩ := hq
  refine ⟨hr, ?_⟩
  simp only [RuleQuery.admits, hqt, hqs, Bool.and_eq_true] at hadm
  exact hadm.1.1

end Scope
end InventoryGraph
