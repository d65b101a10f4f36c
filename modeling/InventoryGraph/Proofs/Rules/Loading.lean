import InventoryGraph.Proofs.Rules.Selection

/-!
What loading a catalog accepts. Loading refuses with a configuration error, and accepts
declarations and rules exactly when four conditions hold: no two declarations share version and
name; within a version, no two rules share pair key and label; both types of every rule are
declared in its version; and within a version, no two rules of one pair key are both defaults.

The checks run declaration by declaration, then version by version and rule by rule, and stop
at the first failure. Each loop is read off as a condition on its list, and the conditions on
each version's rules are gathered into conditions on the whole rule list. A loaded catalog
lists each version's rules as they were given, and finds each declaration by name and version.
-/
namespace InventoryGraph
namespace Catalog

/-- What loading asks of declarations and rules. -/
structure Accepts (nodeTypes : List NodeType) (rules : List Rule) : Prop where
  types_distinct : nodeTypes.Pairwise fun t u => ¬ (t.version = u.version ∧ t.name = u.name)
  labels_distinct : rules.Pairwise fun r s =>
    ¬ (r.version = s.version ∧ r.pairKey = s.pairKey ∧ r.label = s.label)
  ends_declared : ∀ r ∈ rules, ∀ e ∈ [r.source, r.target],
    ∃ t ∈ nodeTypes, t.version = r.version ∧ t.name = e
  one_default : rules.Pairwise fun r s =>
    ¬ (r.version = s.version ∧ r.pairKey = s.pairKey ∧ r.isDefault ∧ s.isDefault)

instance (nodeTypes : List NodeType) (rules : List Rule) : Decidable (Accepts nodeTypes rules) :=
  decidable_of_iff
    ((nodeTypes.Pairwise fun t u => ¬ (t.version = u.version ∧ t.name = u.name)) ∧
      (rules.Pairwise fun r s =>
        ¬ (r.version = s.version ∧ r.pairKey = s.pairKey ∧ r.label = s.label)) ∧
      (∀ r ∈ rules, ∀ e ∈ [r.source, r.target],
        ∃ t ∈ nodeTypes, t.version = r.version ∧ t.name = e) ∧
      (rules.Pairwise fun r s =>
        ¬ (r.version = s.version ∧ r.pairKey = s.pairKey ∧ r.isDefault ∧ s.isDefault)))
    ⟨fun ⟨h₁, h₂, h₃, h₄⟩ => ⟨h₁, h₂, h₃, h₄⟩, fun h => ⟨h.1, h.2, h.3, h.4⟩⟩

/-! ### The loops of loading -/

theorem duplicateNodeType?_eq_none_iff :
    ∀ {seen ts : List NodeType}, duplicateNodeType? seen ts = none ↔
      ts.Pairwise (fun t u => ¬ (t.version = u.version ∧ t.name = u.name)) ∧
        ∀ t ∈ ts, ∀ u ∈ seen, ¬ (u.version = t.version ∧ u.name = t.name)
  | _, [] => by simp [duplicateNodeType?]
  | seen, t :: ts => by
    rw [duplicateNodeType?]
    by_cases hseen : seen.any (fun u => u.version == t.version && u.name == t.name) = true
    · -- `t` repeats a declaration seen before it
      rw [if_pos hseen]
      simp only [List.any_eq_true, Bool.and_eq_true, beq_iff_eq] at hseen
      obtain ⟨u, hu, hsame⟩ := hseen
      simp only [reduceCtorEq, false_iff]
      exact fun h => h.2 t List.mem_cons_self u hu hsame
    · rw [if_neg hseen, duplicateNodeType?_eq_none_iff, List.pairwise_cons, List.forall_mem_cons]
      simp only [List.any_eq_true, Bool.and_eq_true, beq_iff_eq, not_exists, not_and] at hseen
      constructor
      · rintro ⟨hts, hrest⟩
        refine ⟨⟨fun x hx hsame => hrest x hx t List.mem_cons_self hsame, hts⟩,
          fun u hu hsame => hseen u hu hsame.1 hsame.2,
          fun x hx u hu => hrest x hx u (List.mem_cons_of_mem t hu)⟩
      · rintro ⟨⟨hnew, hts⟩, -, hold⟩
        refine ⟨hts, fun x hx u hu => ?_⟩
        rcases List.mem_cons.mp hu with rfl | hu
        · exact hnew x hx
        · exact hold x hx u hu

theorem nodeType?_isSome_iff {c : Catalog} {n : String} {v : SchemaVersion} :
    (c.nodeType? n v).isSome ↔ ∃ t ∈ c.nodeTypes, t.version = v ∧ t.name.text = n := by
  simp [nodeType?, List.find?_isSome]

theorem checkRules_eq_ok_iff {c : Catalog} {v : SchemaVersion} :
    ∀ {seen : List (String × String)} {rs : List Rule}, c.checkRules v seen rs = .ok () ↔
      (rs.map fun r => (r.pairKey, r.label.text)).Nodup ∧
        (∀ r ∈ rs, (r.pairKey, r.label.text) ∉ seen) ∧
        ∀ r ∈ rs, ∀ e ∈ [r.source, r.target], (c.nodeType? e.text v).isSome
  | _, [] => by simp [checkRules]
  | seen, r :: rs => by
    unfold checkRules
    by_cases hseen : seen.contains (r.pairKey, r.label.text) = true
    · simp only [hseen, if_true, reduceCtorEq, false_iff]
      exact fun h => h.2.1 r List.mem_cons_self (by simpa using hseen)
    simp only [hseen, Bool.false_eq_true, if_false]
    split
    · next e he =>
      have hmem := List.mem_of_find?_eq_some he
      have hund := List.find?_some he
      simp only [reduceCtorEq, false_iff]
      intro h
      have hdecl := h.2.2 r List.mem_cons_self e hmem
      simp_all
    · next hnone =>
      have hdecl : ∀ e ∈ [r.source, r.target], (c.nodeType? e.text v).isSome := by
        intro e he
        have := List.find?_eq_none.mp hnone e he
        simpa [Option.isSome_iff_ne_none] using this
      have hfresh : (r.pairKey, r.label.text) ∉ seen := by simpa using hseen
      rw [checkRules_eq_ok_iff, List.map_cons, List.nodup_cons, List.forall_mem_cons,
        List.forall_mem_cons]
      constructor
      · rintro ⟨hnd, hnew, hrs⟩
        refine ⟨⟨fun hin => ?_, hnd⟩, ⟨hfresh, fun x hx hin => hnew x hx (List.mem_cons_of_mem _ hin)⟩,
          hdecl, hrs⟩
        obtain ⟨x, hx, hkey⟩ := List.mem_map.mp hin
        exact hnew x hx (hkey ▸ List.mem_cons_self)
      · rintro ⟨⟨hhead, hnd⟩, ⟨-, hold⟩, -, hrs⟩
        refine ⟨hnd, fun x hx hin => ?_, hrs⟩
        rcases List.mem_cons.mp hin with hkey | hin
        · exact hhead (hkey ▸ List.mem_map_of_mem hx)
        · exact hold x hx hin

theorem checkRules_error {c : Catalog} {v : SchemaVersion} :
    ∀ {seen : List (String × String)} {rs : List Rule} {e : GraphError},
      c.checkRules v seen rs = .error e → ∃ msg, e = .configuration msg
  | _, [], _, h => by simp [checkRules] at h
  | seen, r :: rs, e, h => by
    unfold checkRules at h
    dsimp only at h
    split at h
    · cases h
      exact ⟨_, rfl⟩
    · split at h
      · cases h
        exact ⟨_, rfl⟩
      · exact checkRules_error h

theorem multipleDefaults?_eq_none_iff {rs : List Rule} :
    multipleDefaults? rs = none ↔ ((rs.filter (·.isDefault)).map (·.pairKey)).Nodup := by
  rw [multipleDefaults?, List.find?_eq_none, List.nodup_iff_count_le_one]
  constructor
  · intro h k
    by_cases hk : k ∈ (rs.filter (·.isDefault)).map (·.pairKey)
    · simpa using h k (GraphError.mem_sortedUnique.mpr hk)
    · simp [List.count_eq_zero_of_not_mem hk]
  · intro h k _
    simpa using h k

theorem checkVersions_eq_ok_iff {c : Catalog} :
    ∀ {vs : List SchemaVersion}, c.checkVersions vs = .ok () ↔
      ∀ v ∈ vs, c.checkRules v [] (c.rulesOf v) = .ok () ∧ multipleDefaults? (c.rulesOf v) = none
  | [] => by simp [checkVersions]
  | w :: vs => by
    unfold checkVersions
    rw [List.forall_mem_cons]
    cases hw : c.checkRules w [] (c.rulesOf w) with
    | error e => simp
    | ok u =>
      rw [Except.ok_bind]
      split
      · next p hp => simp [hp]
      · next hmd =>
        rw [checkVersions_eq_ok_iff]
        simp [hmd]

theorem checkVersions_error {c : Catalog} :
    ∀ {vs : List SchemaVersion} {e : GraphError}, c.checkVersions vs = .error e →
      ∃ msg, e = .configuration msg
  | [], _, h => by simp [checkVersions] at h
  | w :: vs, e, h => by
    unfold checkVersions at h
    cases hw : c.checkRules w [] (c.rulesOf w) with
    | error e' =>
      rw [hw, Except.error_bind] at h
      cases h
      exact checkRules_error hw
    | ok u =>
      rw [hw, Except.ok_bind] at h
      split at h
      · cases h
        exact ⟨_, rfl⟩
      · exact checkVersions_error h

/-! ### From each version to the whole rule list -/

theorem pairwise_rulesOf_iff {c : Catalog} {R : Rule → Rule → Prop} :
    (∀ v, (c.rulesOf v).Pairwise R) ↔ c.rules.Pairwise fun r s => r.version = s.version → R r s := by
  simp only [rulesOf, List.pairwise_filter, beq_iff_eq]
  constructor
  · intro h
    rw [List.pairwise_iff_forall_sublist]
    intro r s hrs hv
    exact List.pairwise_iff_forall_sublist.mp (h r.version) hrs rfl hv.symm
  · intro h v
    exact h.imp fun hr hrv hsv => hr (hrv.trans hsv.symm)

theorem forall_rulesOf {c : Catalog} (P : List Rule → Prop) (hnil : P []) :
    (∀ v ∈ c.ruleVersions, P (c.rulesOf v)) ↔ ∀ v, P (c.rulesOf v) := by
  refine ⟨fun h v => ?_, fun h v _ => h v⟩
  by_cases hv : v ∈ c.ruleVersions
  · exact h v hv
  · rw [rulesOf_eq_nil hv]
    exact hnil

theorem labelEntries_nodup_iff (c : Catalog) :
    (∀ v ∈ c.ruleVersions, ((c.rulesOf v).map fun r => (r.pairKey, r.label.text)).Nodup) ↔
      c.rules.Pairwise fun r s =>
        ¬ (r.version = s.version ∧ r.pairKey = s.pairKey ∧ r.label = s.label) := by
  refine (forall_rulesOf (fun l => (l.map fun r => (r.pairKey, r.label.text)).Nodup)
    List.nodup_nil).trans ?_
  simp only [List.Nodup, List.pairwise_map]
  rw [pairwise_rulesOf_iff]
  refine List.Pairwise.iff fun r s => ?_
  simp only [ne_eq, Prod.mk.injEq, not_and]
  exact ⟨fun h hv hk hl => h hv hk (congrArg Identifier.text hl),
    fun h hv hk hl => h hv hk (Identifier.eq_of_text_eq hl)⟩

theorem defaultKeys_nodup_iff (c : Catalog) :
    (∀ v ∈ c.ruleVersions, (((c.rulesOf v).filter (·.isDefault)).map (·.pairKey)).Nodup) ↔
      c.rules.Pairwise fun r s =>
        ¬ (r.version = s.version ∧ r.pairKey = s.pairKey ∧ r.isDefault ∧ s.isDefault) := by
  refine (forall_rulesOf (fun l => ((l.filter (·.isDefault)).map (·.pairKey)).Nodup)
    List.nodup_nil).trans ?_
  simp only [List.Nodup, List.pairwise_map, List.pairwise_filter]
  rw [pairwise_rulesOf_iff]
  refine List.Pairwise.iff fun r s => ?_
  exact ⟨fun h ⟨hv, hk, hr, hs⟩ => h hv hr hs hk, fun h hv hr hs hk => h ⟨hv, hk, hr, hs⟩⟩

theorem ends_declared_iff (c : Catalog) :
    (∀ v ∈ c.ruleVersions, ∀ r ∈ c.rulesOf v, ∀ e ∈ [r.source, r.target],
      (c.nodeType? e.text v).isSome) ↔
      ∀ r ∈ c.rules, ∀ e ∈ [r.source, r.target],
        ∃ t ∈ c.nodeTypes, t.version = r.version ∧ t.name = e := by
  have hdecl : ∀ (e : Identifier) (v : SchemaVersion), (c.nodeType? e.text v).isSome ↔
      ∃ t ∈ c.nodeTypes, t.version = v ∧ t.name = e := fun e v => by
    rw [nodeType?_isSome_iff]
    exact exists_congr fun t => and_congr_right fun _ => and_congr_right fun _ =>
      ⟨Identifier.eq_of_text_eq, congrArg Identifier.text⟩
  constructor
  · -- a rule stands in the version it belongs to, which has rules
    intro h r hr e he
    have hrv : r ∈ c.rulesOf r.version := List.mem_filter.mpr ⟨hr, by simp⟩
    exact (hdecl e r.version).mp
      (h r.version (mem_ruleVersions.mpr ⟨r, hr, rfl⟩) r hrv e he)
  · intro h v _ r hr e he
    obtain ⟨hr, hrv⟩ := List.mem_filter.mp hr
    rw [beq_iff_eq] at hrv
    exact (hdecl e v).mpr (hrv ▸ h r hr e he)

theorem checkVersions_ok_iff (c : Catalog) :
    c.checkVersions c.ruleVersions = .ok () ↔
      (c.rules.Pairwise fun r s =>
        ¬ (r.version = s.version ∧ r.pairKey = s.pairKey ∧ r.label = s.label)) ∧
      (∀ r ∈ c.rules, ∀ e ∈ [r.source, r.target],
        ∃ t ∈ c.nodeTypes, t.version = r.version ∧ t.name = e) ∧
      (c.rules.Pairwise fun r s =>
        ¬ (r.version = s.version ∧ r.pairKey = s.pairKey ∧ r.isDefault ∧ s.isDefault)) := by
  rw [checkVersions_eq_ok_iff, ← labelEntries_nodup_iff, ← ends_declared_iff,
    ← defaultKeys_nodup_iff]
  simp only [checkRules_eq_ok_iff, multipleDefaults?_eq_none_iff, List.not_mem_nil,
    not_false_eq_true, implies_true, true_and]
  constructor
  · intro h
    exact ⟨fun v hv => (h v hv).1.1, fun v hv => (h v hv).1.2, fun v hv => (h v hv).2⟩
  · rintro ⟨hk, he, hd⟩ v hv
    exact ⟨⟨hk v hv, he v hv⟩, hd v hv⟩

theorem load_isOk_iff {nodeTypes : List NodeType} {rules : List Rule} :
    (∃ c, load nodeTypes rules = .ok c) ↔ Accepts nodeTypes rules := by
  constructor
  · rintro ⟨c, hc⟩
    have hdup : duplicateNodeType? [] nodeTypes = none := by
      unfold load at hc
      split at hc
      · cases hc
      · assumption
    obtain ⟨rfl, hvers⟩ := load_eq hc
    obtain ⟨hlabels, hends, hdefaults⟩ := (checkVersions_ok_iff _).mp hvers
    exact ⟨(duplicateNodeType?_eq_none_iff.mp hdup).1, hlabels, hends, hdefaults⟩
  · intro h
    have hdup : duplicateNodeType? [] nodeTypes = none :=
      duplicateNodeType?_eq_none_iff.mpr ⟨h.types_distinct, by simp⟩
    have hvers := (checkVersions_ok_iff ⟨nodeTypes, rules⟩).mpr
      ⟨h.labels_distinct, h.ends_declared, h.one_default⟩
    refine ⟨⟨nodeTypes, rules⟩, ?_⟩
    unfold load
    rw [hdup]
    exact congrArg (Except.map _) hvers

theorem load_error {nodeTypes : List NodeType} {rules : List Rule} {e : GraphError}
    (h : load nodeTypes rules = .error e) : ∃ msg, e = .configuration msg := by
  unfold load at h
  split at h
  · cases h
    exact ⟨_, rfl⟩
  · dsimp only at h
    cases hv : checkVersions ⟨nodeTypes, rules⟩ (Catalog.ruleVersions ⟨nodeTypes, rules⟩) with
    | error e' =>
      rw [hv] at h
      cases h
      exact checkVersions_error hv
    | ok u =>
      rw [hv] at h
      cases h

theorem nodeType?_eq_some_iff {c : Catalog}
    (hd : c.nodeTypes.Pairwise fun t u => ¬ (t.version = u.version ∧ t.name = u.name))
    {n : String} {v : SchemaVersion} {t : NodeType} :
    c.nodeType? n v = some t ↔ t ∈ c.nodeTypes ∧ t.version = v ∧ t.name.text = n := by
  have found : ∀ {u}, c.nodeType? n v = some u → u ∈ c.nodeTypes ∧ u.version = v ∧ u.name.text = n :=
    fun {u} h => by
      have hp := List.find?_some h
      simp only [Bool.and_eq_true, beq_iff_eq] at hp
      exact ⟨List.mem_of_find?_eq_some h, hp⟩
  refine ⟨found, fun ⟨ht, htv, htn⟩ => ?_⟩
  obtain ⟨u, hu⟩ := Option.isSome_iff_exists.mp (nodeType?_isSome_iff.mpr ⟨t, ht, htv, htn⟩)
  obtain ⟨hum, huv, hun⟩ := found hu
  have hnd : (c.nodeTypes.map fun t => (t.version, t.name)).Nodup :=
    List.pairwise_map.mpr (hd.imp fun h heq => h (Prod.mk.inj heq))
  have hut : u = t := List.inj_on_of_nodup_map hnd hum ht
    (by rw [huv, htv, Identifier.eq_of_text_eq (hun.trans htn.symm)])
  rw [hu, hut]

/-- Loading accepts declarations and rules exactly when no two declarations share version and
    name, no two rules of a version share pair key and label, the types of every rule are declared
    in its version, and no two rules of a version and pair key are both defaults; otherwise it
    refuses with a configuration error. A loaded catalog lists the rules of each version in the
    order they were given, and finds in a version the declaration of the name there. -/
theorem load_accepts_exactly (nodeTypes : List NodeType) (rules : List Rule) :
    ((∃ c, load nodeTypes rules = .ok c) ↔ Accepts nodeTypes rules) ∧
    (¬ Accepts nodeTypes rules → ∃ msg, load nodeTypes rules = .error (.configuration msg)) ∧
    ∀ c, load nodeTypes rules = .ok c →
      (∀ v, c.rulesOf v = rules.filter (·.version == v)) ∧
      ∀ n v t, c.nodeType? n v = some t ↔ t ∈ nodeTypes ∧ t.version = v ∧ t.name.text = n := by
  refine ⟨load_isOk_iff, fun hnot => ?_, fun c hc => ?_⟩
  · cases hl : load nodeTypes rules with
    | ok c => exact absurd (load_isOk_iff.mp ⟨c, hl⟩) hnot
    | error e =>
      obtain ⟨msg, rfl⟩ := load_error hl
      exact ⟨msg, rfl⟩
  · have haccepts := load_isOk_iff.mp ⟨c, hc⟩
    obtain ⟨rfl, -⟩ := load_eq hc
    exact ⟨fun v => rfl, fun n v t => nodeType?_eq_some_iff haccepts.types_distinct⟩

end Catalog
end InventoryGraph
