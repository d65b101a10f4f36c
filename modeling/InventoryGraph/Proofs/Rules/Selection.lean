import InventoryGraph.Proofs.Rules.Catalog
import InventoryGraph.Proofs.Cascade.Plan

/-!
Selecting the rule between two node types in a version of a loaded catalog. Every candidate
joins the two types, so all candidates share one pair key and fall into one group; loading
allows at most one default per pair key, and one rule per pair key and label. Selection
therefore answers the only candidate, or the one default among several, and refuses only
when nothing matches, or when several candidates, none of them a default, are asked for
without a label.
-/
namespace InventoryGraph

namespace Rule

theorem pairKey_of_joins {r : Rule} {a b : String} (h : r.joins a b = true) :
    r.pairKey = InventoryGraph.pairKey a b := by
  simp only [joins, Bool.or_eq_true, Bool.and_eq_true, beq_iff_eq] at h
  rcases h with ⟨hs, ht⟩ | ⟨hs, ht⟩
  · simp [pairKey, hs, ht]
  · rw [pairKey, hs, ht, pairKey_comm]

end Rule

namespace RuleGroups

theorem foldl_insertRule_same {k : String} :
    ∀ (rs acc : List Rule), (∀ r ∈ rs, r.pairKey = k) →
      rs.foldl (fun g r => insertRule r g) [(k, acc)] = [(k, acc ++ rs)]
  | [], acc, _ => by simp
  | r :: rs, acc, h => by
    have hr : r.pairKey = k := h r List.mem_cons_self
    have step : insertRule r [(k, acc)] = [(k, acc ++ [r])] := by
      simp [insertRule, hr]
    rw [List.foldl_cons, step,
      foldl_insertRule_same rs (acc ++ [r]) fun x hx => h x (List.mem_cons_of_mem r hx)]
    simp

theorem ofList_of_pairKey {k : String} {rs : List Rule} (hne : rs ≠ [])
    (h : ∀ r ∈ rs, r.pairKey = k) : (ofList rs).groups = [(k, rs)] := by
  obtain ⟨r, rs, rfl⟩ := List.exists_cons_of_ne_nil hne
  have hr : r.pairKey = k := h r List.mem_cons_self
  simp only [ofList, List.foldl_cons, insertRule, hr]
  rw [foldl_insertRule_same rs [r] fun x hx => h x (List.mem_cons_of_mem r hx)]
  rfl

end RuleGroups

namespace Catalog

theorem checkVersions_multipleDefaults {c : Catalog} :
    ∀ {vs : List SchemaVersion}, c.checkVersions vs = .ok () →
      ∀ v ∈ vs, multipleDefaults? (c.rulesOf v) = none
  | [], _, v, hv => absurd hv List.not_mem_nil
  | w :: vs, h, v, hv => by
    unfold checkVersions at h
    cases hw : c.checkRules w [] (c.rulesOf w) with
    | error e => simp [hw] at h
    | ok u =>
      rw [hw, Except.ok_bind] at h
      split at h
      · cases h
      · next hmd =>
        rcases List.mem_cons.mp hv with rfl | hv
        · exact hmd
        · exact checkVersions_multipleDefaults h v hv

theorem rulesOf_eq_nil {c : Catalog} {v : SchemaVersion} (hv : v ∉ c.ruleVersions) :
    c.rulesOf v = [] := by
  refine List.filter_eq_nil_iff.mpr fun r hr hrv => hv (mem_ruleVersions.mpr ⟨r, hr, ?_⟩)
  simpa using hrv

theorem load_keys_nodup {nodeTypes : List NodeType} {rules : List Rule} {c : Catalog}
    (hc : load nodeTypes rules = .ok c) (v : SchemaVersion) :
    ((c.rulesOf v).map fun r => (r.pairKey, r.label.text)).Nodup := by
  by_cases hv : v ∈ c.ruleVersions
  · exact (checkRules_keys (checkVersions_checkRules (load_eq hc).2 v hv)).1
  · rw [rulesOf_eq_nil hv]
    exact List.nodup_nil

theorem load_count_defaults {nodeTypes : List NodeType} {rules : List Rule} {c : Catalog}
    (hc : load nodeTypes rules = .ok c) (v : SchemaVersion) (k : String) :
    (((c.rulesOf v).filter (·.isDefault)).map (·.pairKey)).count k ≤ 1 := by
  have hmd : multipleDefaults? (c.rulesOf v) = none := by
    by_cases hv : v ∈ c.ruleVersions
    · exact checkVersions_multipleDefaults (load_eq hc).2 v hv
    · rw [rulesOf_eq_nil hv]
      rfl
  by_cases hk : k ∈ ((c.rulesOf v).filter (·.isDefault)).map (·.pairKey)
  · have hnot := List.find?_eq_none.mp hmd k (GraphError.mem_sortedUnique.mpr hk)
    simpa using hnot
  · simp [List.count_eq_zero_of_not_mem hk]

theorem load_defaults_le_one {nodeTypes : List NodeType} {rules : List Rule} {c : Catalog}
    (hc : load nodeTypes rules = .ok c) {v : SchemaVersion} {k : String} {rs : List Rule}
    (hsub : rs.Sublist (c.rulesOf v)) (hk : ∀ r ∈ rs, r.pairKey = k) :
    (rs.filter (·.isDefault)).length ≤ 1 := by
  have hsame : ((rs.filter (·.isDefault)).map (·.pairKey)).count k =
      (rs.filter (·.isDefault)).length := by
    rw [List.count_eq_length.mpr, List.length_map]
    intro x hx
    obtain ⟨r, hr, rfl⟩ := List.mem_map.mp hx
    exact (hk r (List.mem_filter.mp hr).1).symm ▸ rfl
  calc (rs.filter (·.isDefault)).length
      = ((rs.filter (·.isDefault)).map (·.pairKey)).count k := hsame.symm
    _ ≤ (((c.rulesOf v).filter (·.isDefault)).map (·.pairKey)).count k :=
      ((hsub.filter _).map _).count_le k
    _ ≤ 1 := load_count_defaults hc v k

theorem load_labelled_le_one {nodeTypes : List NodeType} {rules : List Rule} {c : Catalog}
    (hc : load nodeTypes rules = .ok c) {v : SchemaVersion} {k l : String} {rs : List Rule}
    (hsub : rs.Sublist (c.rulesOf v)) (hk : ∀ r ∈ rs, r.pairKey = k ∧ r.label.text = l) :
    rs.length ≤ 1 := by
  have hnodup := (load_keys_nodup hc v).sublist (hsub.map _)
  have hconst : ∀ x ∈ rs.map fun r => (r.pairKey, r.label.text), (k, l) = x := by
    intro x hx
    obtain ⟨r, hr, rfl⟩ := List.mem_map.mp hx
    simp [hk r hr]
  calc rs.length
      = (rs.map fun r => (r.pairKey, r.label.text)).length := by simp
    _ = (rs.map fun r => (r.pairKey, r.label.text)).count (k, l) :=
      (List.count_eq_length.mpr hconst).symm
    _ ≤ 1 := List.nodup_iff_count_le_one.mp hnodup (k, l)

theorem select_cases {nodeTypes : List NodeType} {rules : List Rule} {c : Catalog}
    (hc : load nodeTypes rules = .ok c) {q : RuleQuery} {b : Identifier} {v : SchemaVersion}
    (hb : q.target = some b) (hv : q.version = some v) :
    let found := (c.rulesOf v).filter q.admits
    (found = [] ∧ c.select q = .error (.ruleNotFound ("No rule found for " ++ q.display))) ∨
    (∃ r, found = [r] ∧ c.select q = .ok r) ∨
    (2 ≤ found.length ∧ ∃ d, found.filter (·.isDefault) = [d] ∧ c.select q = .ok d) ∨
    (2 ≤ found.length ∧ found.filter (·.isDefault) = [] ∧
      c.select q = .error (.ambiguousRule ("No default found. Query: " ++ q.display))) := by
  intro found
  have hcand : c.candidates q = found := by simp [candidates, hv, found]
  have hkey : ∀ r ∈ found, r.pairKey = InventoryGraph.pairKey q.source.text b.text := by
    intro r hr
    have hadm := (List.mem_filter.mp hr).2
    simp only [RuleQuery.admits, hb, Bool.and_eq_true] at hadm
    exact Rule.pairKey_of_joins hadm.1.1
  have hdef : (found.filter (·.isDefault)).length ≤ 1 :=
    load_defaults_le_one hc List.filter_sublist hkey
  unfold select
  rw [hcand]
  by_cases hnil : found = []
  · rw [hnil]
    exact .inl ⟨rfl, rfl⟩
  have hne : found ≠ [] := hnil
  rw [RuleGroups.ofList_of_pairKey hne hkey]
  dsimp only
  obtain ⟨r₁, rest, hcons⟩ := List.exists_cons_of_ne_nil hne
  rw [hcons] at hdef ⊢
  cases rest with
  | nil => exact .inr (.inl ⟨r₁, rfl, rfl⟩)
  | cons r₂ rs =>
    have hlen : 2 ≤ (r₁ :: r₂ :: rs).length := by simp
    rcases hd : (r₁ :: r₂ :: rs).filter (·.isDefault) with _ | ⟨d, _ | ⟨d', ds⟩⟩
    · exact .inr (.inr (.inr ⟨hlen, hd, by simp only [hd]⟩))
    · exact .inr (.inr (.inl ⟨hlen, d, hd, by simp only [hd]⟩))
    · rw [hd] at hdef
      simp at hdef

/-- Selection between two types in a version of a loaded catalog, whatever the label and
    edge-type filters: it finds nothing exactly when no rule of the version joins the two
    types and passes the filters; it answers a rule exactly when that rule passes and is the
    only one or the one default among those that pass; and it is ambiguous exactly when
    several pass, none of them a default, and no label was asked for. Its only errors are
    these two. -/
theorem select_between_exact {nodeTypes : List NodeType} {rules : List Rule} {c : Catalog}
    (hc : load nodeTypes rules = .ok c) {q : RuleQuery} {b : Identifier} {v : SchemaVersion}
    (hb : q.target = some b) (hv : q.version = some v) :
    ((∃ m, c.select q = .error (.ruleNotFound m)) ↔ (c.rulesOf v).filter q.admits = []) ∧
    (∀ r, c.select q = .ok r ↔ r ∈ (c.rulesOf v).filter q.admits ∧
      ((c.rulesOf v).filter q.admits = [r] ∨
        r.isDefault = true ∧ ∀ r' ∈ (c.rulesOf v).filter q.admits, r'.isDefault = true → r' = r)) ∧
    ((∃ m, c.select q = .error (.ambiguousRule m)) ↔
      2 ≤ ((c.rulesOf v).filter q.admits).length ∧
      (∀ r ∈ (c.rulesOf v).filter q.admits, r.isDefault = false) ∧ q.label = none) ∧
    (∀ e, c.select q = .error e →
      e = .ruleNotFound ("No rule found for " ++ q.display) ∨
      e = .ambiguousRule ("No default found. Query: " ++ q.display)) := by
  have hcases := select_cases hc hb hv
  dsimp only at hcases
  generalize hfound : (c.rulesOf v).filter q.admits = found at hcases ⊢
  -- with a label, the candidates share pair key and label, so there is at most one
  have hlabelled : ∀ l, q.label = some l → found.length ≤ 1 := by
    intro l hl
    have hsame : ∀ r ∈ found,
        r.pairKey = InventoryGraph.pairKey q.source.text b.text ∧ r.label.text = l := by
      intro r hr
      have hadm := (List.mem_filter.mp (hfound ▸ hr)).2
      simp only [RuleQuery.admits, hb, hl, Bool.and_eq_true, beq_iff_eq] at hadm
      exact ⟨Rule.pairKey_of_joins hadm.1.1, hadm.1.2⟩
    exact load_labelled_le_one hc (hfound ▸ List.filter_sublist) hsame
  rcases hcases with ⟨hnil, hsel⟩ | ⟨r, hone, hsel⟩ | ⟨hlen, d, hd, hsel⟩ | ⟨hlen, hd, hsel⟩
  · subst hnil
    simp [hsel]
  · subst hone
    refine ⟨by simp [hsel], fun r' => ?_, by simp [hsel], by simp [hsel]⟩
    simp only [hsel, Except.ok.injEq, List.mem_singleton]
    constructor
    · rintro rfl
      exact ⟨rfl, .inl rfl⟩
    · rintro ⟨rfl, -⟩
      rfl
  · have hne : found ≠ [] := by
      rintro rfl
      simp at hlen
    have hdmem : d ∈ found.filter (·.isDefault) := hd ▸ List.mem_singleton_self d
    have hdef : ∀ r ∈ found, r.isDefault = true → r = d := fun r hr hr' =>
      List.mem_singleton.mp (hd ▸ List.mem_filter.mpr ⟨hr, hr'⟩)
    refine ⟨by simp [hsel, hne], fun r => ?_, ?_, by simp [hsel]⟩
    · rw [hsel, Except.ok.injEq]
      constructor
      · rintro rfl
        have hd' := List.mem_filter.mp hdmem
        exact ⟨hd'.1, .inr ⟨hd'.2, hdef⟩⟩
      · rintro ⟨hr, hsingle | ⟨hrd, -⟩⟩
        · rw [hsingle] at hlen
          simp at hlen
        · exact (hdef r hr hrd).symm
    · simp only [hsel, reduceCtorEq, exists_false, false_iff, not_and]
      intro _ hnodef
      have hd' := List.mem_filter.mp hdmem
      simp [hnodef d hd'.1] at hd'
  · have hne : found ≠ [] := by
      rintro rfl
      simp at hlen
    have hnodef : ∀ r ∈ found, r.isDefault = false := by
      simpa using List.filter_eq_nil_iff.mp hd
    have hnolabel : q.label = none := by
      cases hl : q.label with
      | none => rfl
      | some l => exact absurd (hlabelled l hl) (by omega)
    refine ⟨by simp [hsel, hne], fun r => ?_, ⟨fun _ => ⟨hlen, hnodef, hnolabel⟩, fun _ => ⟨_, hsel⟩⟩,
      by simp [hsel]⟩
    simp only [hsel, reduceCtorEq, false_iff, not_and, not_or]
    intro hr
    refine ⟨fun hsingle => ?_, fun hrd => by simp [hnodef r hr] at hrd⟩
    rw [hsingle] at hlen
    simp at hlen

/-! A hub feeds its spokes by default and may also drain them. -/

namespace HubAndSpoke

def hub : Identifier := ⟨"hub", by decide⟩
def spoke : Identifier := ⟨"spoke", by decide⟩
def feeds : Rule := { Rule.new hub spoke ⟨"feeds", by decide⟩ SchemaVersion.v12 with isDefault := true }
def drains : Rule := Rule.new hub spoke ⟨"drains", by decide⟩ SchemaVersion.v12

def nodeTypes : List NodeType := [NodeType.new hub SchemaVersion.v12, NodeType.new spoke SchemaVersion.v12]
def catalog : Catalog := ⟨nodeTypes, [feeds, drains]⟩

theorem unlabelled_query_selects_the_default :
    let q := RuleQuery.between hub spoke
    let q := { q with version := some SchemaVersion.v12 }
    load nodeTypes [feeds, drains] = .ok catalog ∧ q.target = some spoke ∧
      q.version = some SchemaVersion.v12 ∧
      ((∃ m, catalog.select q = .error (.ruleNotFound m)) ↔
        (catalog.rulesOf SchemaVersion.v12).filter q.admits = []) ∧
      (∀ r, catalog.select q = .ok r ↔ r ∈ (catalog.rulesOf SchemaVersion.v12).filter q.admits ∧
        ((catalog.rulesOf SchemaVersion.v12).filter q.admits = [r] ∨
          r.isDefault = true ∧ ∀ r' ∈ (catalog.rulesOf SchemaVersion.v12).filter q.admits,
            r'.isDefault = true → r' = r)) ∧
      ((∃ m, catalog.select q = .error (.ambiguousRule m)) ↔
        2 ≤ ((catalog.rulesOf SchemaVersion.v12).filter q.admits).length ∧
        (∀ r ∈ (catalog.rulesOf SchemaVersion.v12).filter q.admits, r.isDefault = false) ∧
        q.label = none) ∧
      (∀ e, catalog.select q = .error e →
        e = .ruleNotFound ("No rule found for " ++ q.display) ∨
        e = .ambiguousRule ("No default found. Query: " ++ q.display)) := by
  have hload : load nodeTypes [feeds, drains] = .ok catalog := by rfl
  exact ⟨hload, rfl, rfl, select_between_exact hload rfl rfl⟩

example : catalog.select { RuleQuery.between hub spoke with version := some SchemaVersion.v12 } =
    .ok feeds := by rfl

example : catalog.select { RuleQuery.between spoke hub with
    label := some "drains", version := some SchemaVersion.v12 } = .ok drains := by rfl

end HubAndSpoke

end Catalog
end InventoryGraph
