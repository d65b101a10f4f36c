import InventoryGraph.Proofs.Rules.Selection
import InventoryGraph.Catalog.Reference

/-!
Finding rules. Found rules are grouped by pair key: one group for each key found, the keys in
byte order, each group the found rules of its key in the order they were found, and as many
rules in all as were found.

With a version, a query finds the rules of that version that pass its filters. Without one,
it reads every version newest first and keeps the first rule of each (pair key, label); a
loaded version holds one rule of each pair key and label, so it finds, for each (pair key,
label) of a passing rule, the passing rule of the newest version that has one. The
containment and cousin lookups of a type filter what that search finds, so a rule of an old
version stays hidden behind a newer rule of its pair key and label even when the newer rule
fails the filter.
-/
namespace InventoryGraph

def Rule.labelKey (r : Rule) : String × String := (r.pairKey, r.label.text)

theorem Rule.labelKey_eq_iff {r r' : Rule} :
    r'.labelKey = r.labelKey ↔ r'.pairKey = r.pairKey ∧ r'.label = r.label := by
  simp only [labelKey, Prod.mk.injEq]
  exact and_congr_right fun _ => ⟨Identifier.eq_of_text_eq, congrArg _⟩

theorem SchemaVersion.eq_of_le_of_le {v w : SchemaVersion} (h : v ≤ w) (h' : w ≤ v) : v = w := by
  obtain ⟨n, _⟩ := v
  obtain ⟨m, _⟩ := w
  have : n = m := Nat.le_antisymm h h'
  subst this
  rfl

namespace RuleGroups

/-! ### Grouping -/

/-- The keys of the groups ascend. -/
def Ordered (gs : List (String × List Rule)) : Prop := (gs.map (·.1)).Pairwise (· < ·)

/-- Rules grouped under their pair keys: the groups of the found rules `rs`. -/
structure Groups (g : RuleGroups) (rs : List Rule) : Prop where
  get : ∀ k, g.get k = rs.filter (·.pairKey == k)
  containsKey : ∀ k, g.containsKey k = rs.any (·.pairKey == k)
  size : g.size = rs.length
  keys_ascend : g.keys.Pairwise (· < ·)

@[simp] theorem get_nil (k : String) : get ⟨[]⟩ k = [] := rfl

@[simp] theorem size_nil : size ⟨[]⟩ = 0 := rfl

theorem get_cons (k' : String) (rs : List Rule) (gs : List (String × List Rule)) (k : String) :
    get ⟨(k', rs) :: gs⟩ k = if k' = k then rs else get ⟨gs⟩ k := by
  by_cases h : k' = k
  · simp [get, h]
  · simp [get, h]

theorem get_of_not_mem {gs : List (String × List Rule)} {k : String} (h : k ∉ gs.map (·.1)) :
    get ⟨gs⟩ k = [] := by
  have hnone : gs.find? (·.1 == k) = none := List.find?_eq_none.mpr fun e he hk =>
    h (List.mem_map.mpr ⟨e, he, beq_iff_eq.mp hk⟩)
  simp [get, hnone]

theorem size_cons (k : String) (rs : List Rule) (gs : List (String × List Rule)) :
    size ⟨(k, rs) :: gs⟩ = rs.length + size ⟨gs⟩ := by
  -- the count folds from the left, so a head start passes through
  have shift : ∀ (gs : List (String × List Rule)) (a : Nat),
      gs.foldl (fun n e => n + e.2.length) a = a + gs.foldl (fun n e => n + e.2.length) 0 := by
    intro gs
    induction gs with
    | nil => simp
    | cons e gs ih =>
      intro a
      rw [List.foldl_cons, List.foldl_cons, ih, ih (0 + e.2.length)]
      omega
  simp only [size, List.foldl_cons]
  rw [shift]
  omega

theorem mem_keys_insertRule (r : Rule) (k : String) :
    ∀ gs : List (String × List Rule),
      k ∈ (insertRule r gs).map (·.1) ↔ k = r.pairKey ∨ k ∈ gs.map (·.1)
  | [] => by simp [insertRule]
  | (k', rs) :: gs => by
    by_cases hlt : r.pairKey < k'
    · simp [insertRule, hlt]
    by_cases heq : r.pairKey = k'
    · subst heq
      simp [insertRule]
    · simp only [insertRule, hlt, heq, if_false, List.map_cons, List.mem_cons,
        mem_keys_insertRule r k gs]
      tauto

theorem Ordered.cons {k : String} {rs : List Rule} {gs : List (String × List Rule)}
    (h : Ordered ((k, rs) :: gs)) : (∀ k' ∈ gs.map (·.1), k < k') ∧ Ordered gs :=
  List.pairwise_cons.mp h

theorem Ordered.not_mem_of_lt {k k' : String} {rs : List Rule} {gs : List (String × List Rule)}
    (h : Ordered ((k', rs) :: gs)) (hk : k < k') : k ∉ ((k', rs) :: gs).map (·.1) := by
  simp only [List.map_cons, List.mem_cons, not_or]
  refine ⟨fun he => String.lt_irrefl k (he ▸ hk), fun hmem => ?_⟩
  exact String.lt_irrefl k (String.lt_trans hk (h.cons.1 k hmem))

theorem ordered_insertRule (r : Rule) :
    ∀ {gs : List (String × List Rule)}, Ordered gs → Ordered (insertRule r gs)
  | [], _ => by simp [Ordered, insertRule]
  | (k', rs) :: gs, h => by
    obtain ⟨hlt', hgs⟩ := h.cons
    by_cases hlt : r.pairKey < k'
    · simp only [insertRule, hlt, if_true]
      refine List.pairwise_cons.mpr ⟨fun k hk => ?_, h⟩
      rcases List.mem_cons.mp hk with rfl | hk
      · exact hlt
      · exact String.lt_trans hlt (hlt' k hk)
    by_cases heq : r.pairKey = k'
    · simp only [insertRule]
      rw [if_neg hlt, if_pos heq]
      simpa only [Ordered, List.map_cons] using h
    · simp only [insertRule, hlt, heq, if_false]
      have hgt : k' < r.pairKey := Std.lt_of_le_of_ne (String.not_lt.mp hlt) (Ne.symm heq)
      refine List.pairwise_cons.mpr ⟨fun k hk => ?_, ordered_insertRule r hgs⟩
      rcases (mem_keys_insertRule r k gs).mp hk with rfl | hk
      · exact hgt
      · exact hlt' k hk

theorem get_insertRule (r : Rule) :
    ∀ {gs : List (String × List Rule)}, Ordered gs → ∀ k,
      get ⟨insertRule r gs⟩ k = get ⟨gs⟩ k ++ if r.pairKey = k then [r] else []
  | [], _, k => by
    by_cases hk : r.pairKey = k <;> simp [insertRule, get_cons, hk]
  | (k', rs) :: gs, h, k => by
    by_cases hlt : r.pairKey < k'
    · simp only [insertRule, hlt, if_true, get_cons]
      by_cases hk : r.pairKey = k
      · subst hk
        rw [if_pos rfl, if_pos rfl, ← get_cons, get_of_not_mem (h.not_mem_of_lt hlt),
          List.nil_append]
      · rw [if_neg hk, if_neg hk, List.append_nil]
    by_cases heq : r.pairKey = k'
    · simp only [insertRule]
      rw [if_neg hlt, if_pos heq, get_cons, get_cons]
      subst heq
      by_cases hk : r.pairKey = k <;> simp [hk]
    · simp only [insertRule, hlt, heq, if_false, get_cons, get_insertRule r h.cons.2 k]
      by_cases hk : k' = k
      · subst hk
        simp [heq]
      · simp [hk]

theorem size_insertRule (r : Rule) :
    ∀ gs : List (String × List Rule), size ⟨insertRule r gs⟩ = size ⟨gs⟩ + 1
  | [] => rfl
  | (k', rs) :: gs => by
    by_cases hlt : r.pairKey < k'
    · simp only [insertRule, hlt, if_true, size_cons, List.length_singleton]
      omega
    by_cases heq : r.pairKey = k'
    · simp only [insertRule]
      rw [if_neg hlt, if_pos heq, size_cons, size_cons, List.length_append]
      simp only [List.length_singleton]
      omega
    · simp only [insertRule, hlt, heq, if_false, size_cons, size_insertRule r gs]
      omega

theorem foldl_insertRule :
    ∀ (rs : List Rule) (gs : List (String × List Rule)), Ordered gs →
      let gs' := rs.foldl (fun g r => insertRule r g) gs
      Ordered gs' ∧ (∀ k, get ⟨gs'⟩ k = get ⟨gs⟩ k ++ rs.filter (·.pairKey == k)) ∧
        size ⟨gs'⟩ = size ⟨gs⟩ + rs.length ∧
        ∀ k, k ∈ gs'.map (·.1) ↔ k ∈ gs.map (·.1) ∨ ∃ r ∈ rs, r.pairKey = k
  | [], gs, h => by simp [h]
  | r :: rs, gs, h => by
    obtain ⟨hord, hget, hsize, hkeys⟩ := foldl_insertRule rs _ (ordered_insertRule r h)
    refine ⟨hord, fun k => ?_, ?_, fun k => ?_⟩
    · rw [List.foldl_cons, hget, get_insertRule r h, List.filter_cons]
      by_cases hk : r.pairKey = k <;> simp [hk]
    · rw [List.foldl_cons, hsize, size_insertRule, List.length_cons]
      omega
    · rw [List.foldl_cons, hkeys, mem_keys_insertRule]
      constructor
      · rintro ((rfl | h) | ⟨r', hr', rfl⟩)
        · exact .inr ⟨r, List.mem_cons_self, rfl⟩
        · exact .inl h
        · exact .inr ⟨r', List.mem_cons_of_mem r hr', rfl⟩
      · rintro (h | ⟨r', hr', rfl⟩)
        · exact .inl (.inr h)
        · rcases List.mem_cons.mp hr' with rfl | hr'
          · exact .inl (.inl rfl)
          · exact .inr ⟨r', hr', rfl⟩

theorem groups_ofList (rs : List Rule) : (ofList rs).Groups rs := by
  obtain ⟨hord, hget, hsize, hkeys⟩ := foldl_insertRule rs [] List.Pairwise.nil
  refine ⟨fun k => ?_, fun k => ?_, ?_, hord⟩
  · simpa [ofList] using hget k
  · have hk := hkeys k
    simp only [List.map_nil, List.not_mem_nil, false_or] at hk
    rw [Bool.eq_iff_iff, containsKey, List.any_eq_true, List.any_eq_true]
    simpa [ofList] using hk
  · simpa [ofList] using hsize

theorem isEmpty_ofList (rs : List Rule) : (ofList rs).isEmpty = rs.isEmpty := by
  cases rs with
  | nil => rfl
  | cons r rs =>
    have hsize := (groups_ofList (r :: rs)).size
    cases hg : (ofList (r :: rs)).groups with
    | nil =>
      rw [size, hg] at hsize
      simp at hsize
    | cons e gs => simp [isEmpty, hg]

end RuleGroups

namespace SchemaVersion

theorem pairwise_insertSorted (v : SchemaVersion) :
    ∀ {l : List SchemaVersion}, l.Pairwise (·.number < ·.number) →
      (insertSorted v l).Pairwise (·.number < ·.number)
  | [], _ => by simp [insertSorted]
  | w :: ws, h => by
    obtain ⟨hw, hws⟩ := List.pairwise_cons.mp h
    unfold insertSorted
    split
    · next hlt =>
      refine List.pairwise_cons.mpr ⟨fun u hu => ?_, h⟩
      rcases List.mem_cons.mp hu with rfl | hu
      · exact hlt
      · exact Nat.lt_trans hlt (hw u hu)
    · split
      · exact h
      · next hge hne =>
        refine List.pairwise_cons.mpr ⟨fun u hu => ?_, pairwise_insertSorted v hws⟩
        rcases mem_insertSorted.mp hu with rfl | hu
        · omega
        · exact hw u hu

theorem pairwise_sortedUnique (l : List SchemaVersion) :
    (sortedUnique l).Pairwise (·.number < ·.number) := by
  induction l with
  | nil => exact List.Pairwise.nil
  | cons v l ih => exact pairwise_insertSorted v ih

end SchemaVersion

namespace Catalog

/-! ### The newest rules -/

/-- `r` is a rule of the catalog that passes the query's filters, and every passing rule of its
    pair key and label is of its version or an older one. -/
def Newest (c : Catalog) (q : RuleQuery) (r : Rule) : Prop :=
  r ∈ c.rules ∧ q.admits r = true ∧
    ∀ r' ∈ c.rules, q.admits r' = true → r'.pairKey = r.pairKey → r'.label = r.label →
      r'.version ≤ r.version

theorem mem_rulesNewestFirst {c : Catalog} {r : Rule} : r ∈ c.rulesNewestFirst ↔ r ∈ c.rules := by
  simp only [rulesNewestFirst, List.mem_flatMap, List.mem_reverse, rulesOf, List.mem_filter,
    beq_iff_eq]
  constructor
  · rintro ⟨_, _, hr, _⟩
    exact hr
  · intro hr
    exact ⟨r.version, mem_ruleVersions.mpr ⟨r, hr, rfl⟩, hr, rfl⟩

theorem rulesNewestFirst_pairwise (c : Catalog) :
    c.rulesNewestFirst.Pairwise fun a b => b.version ≤ a.version := by
  have hblock : ∀ v, ∀ r ∈ c.rulesOf v, r.version = v := fun v r hr => by
    simpa using (List.mem_filter.mp hr).2
  refine List.pairwise_flatMap.mpr ⟨fun v _ => ?_, ?_⟩
  · -- one version's rules share it
    refine List.pairwise_of_forall_mem_list fun a ha b hb => ?_
    rw [hblock v a ha, hblock v b hb]
    exact Nat.le_refl _
  · refine List.pairwise_reverse.mpr ((SchemaVersion.pairwise_sortedUnique _).imp ?_)
    intro v w hvw a ha b hb
    rw [hblock w a ha, hblock v b hb]
    exact Nat.le_of_lt hvw

theorem version_le_of_find? {L : List Rule} (hL : L.Pairwise fun a b => b.version ≤ a.version)
    {p : Rule → Bool} {r : Rule} (h : L.find? p = some r) :
    ∀ r' ∈ L, p r' = true → r'.version ≤ r.version := by
  obtain ⟨-, pre, post, rfl, hpre⟩ := List.find?_eq_some_iff_append.mp h
  intro r' hr' hp
  obtain ⟨-, hcons, hcross⟩ := List.pairwise_append.mp hL
  rcases List.mem_append.mp hr' with hr' | hr'
  · exact absurd hp (by simpa using hpre r' hr')
  · rcases List.mem_cons.mp hr' with rfl | hr'
    · exact Nat.le_refl _
    · exact (List.pairwise_cons.mp hcons).1 r' hr'

theorem find?_labelKey_iff {L : List Rule} (hL : L.Pairwise fun a b => b.version ≤ a.version)
    (huniq : ∀ a ∈ L, ∀ b ∈ L, a.version = b.version → a.labelKey = b.labelKey → a = b)
    {r : Rule} :
    L.find? (·.labelKey == r.labelKey) = some r ↔
      r ∈ L ∧ ∀ r' ∈ L, r'.labelKey = r.labelKey → r'.version ≤ r.version := by
  constructor
  · intro h
    exact ⟨List.mem_of_find?_eq_some h,
      fun r' hr' hk => version_le_of_find? hL h r' hr' (beq_iff_eq.mpr hk)⟩
  · rintro ⟨hr, hmax⟩
    have hsome : (L.find? (·.labelKey == r.labelKey)).isSome = true :=
      List.find?_isSome.mpr ⟨r, hr, by simp⟩
    obtain ⟨r₀, h₀⟩ := Option.isSome_iff_exists.mp hsome
    have hr₀ := List.mem_of_find?_eq_some h₀
    have hk₀ : r₀.labelKey = r.labelKey := by simpa using List.find?_some h₀
    have hle : r.version ≤ r₀.version := version_le_of_find? hL h₀ r hr (beq_iff_eq.mpr rfl)
    have hge : r₀.version ≤ r.version := hmax r₀ hr₀ hk₀
    rw [h₀, huniq r₀ hr₀ r hr (SchemaVersion.eq_of_le_of_le hge hle) hk₀]

theorem mem_firstPerLabel :
    ∀ {seen : List (String × String)} {L : List Rule} {r : Rule},
      r ∈ firstPerLabel seen L ↔
        r.labelKey ∉ seen ∧ L.find? (·.labelKey == r.labelKey) = some r
  | _, [], _ => by simp [firstPerLabel]
  | seen, x :: L, r => by
    by_cases hx : x.labelKey ∈ seen
    · have hx' : seen.contains (x.pairKey, x.label.text) = true := by
        simpa [Rule.labelKey] using hx
      rw [firstPerLabel, if_pos hx', mem_firstPerLabel]
      by_cases hk : x.labelKey = r.labelKey
      · rw [← hk]
        simp [hx]
      · rw [List.find?_cons_of_neg (by simpa using hk)]
    · have hx' : seen.contains (x.pairKey, x.label.text) = false := by
        simpa [Rule.labelKey] using hx
      rw [firstPerLabel, if_neg (by rw [hx']; decide), List.mem_cons, mem_firstPerLabel]
      by_cases hk : x.labelKey = r.labelKey
      · rw [List.find?_cons_of_pos (by simpa using hk)]
        constructor
        · rintro (rfl | ⟨hnot, -⟩)
          · exact ⟨hx, rfl⟩
          · exact absurd (List.mem_cons.mpr (.inl hk.symm)) (by simpa [Rule.labelKey] using hnot)
        · rintro ⟨-, h⟩
          exact .inl (Option.some.inj h).symm
      · rw [List.find?_cons_of_neg (by simpa using hk)]
        constructor
        · rintro (rfl | ⟨hnot, h⟩)
          · exact absurd rfl hk
          · exact ⟨fun h' => hnot (List.mem_cons_of_mem _ h'), h⟩
        · rintro ⟨hnot, h⟩
          refine .inr ⟨fun h' => ?_, h⟩
          rcases List.mem_cons.mp h' with h' | h'
          · exact hk h'.symm
          · exact hnot h'

theorem firstPerLabel_nodup :
    ∀ (seen : List (String × String)) (L : List Rule),
      ((firstPerLabel seen L).map (·.labelKey)).Nodup
  | _, [] => List.nodup_nil
  | seen, x :: L => by
    unfold firstPerLabel
    split
    · exact firstPerLabel_nodup seen L
    · refine List.nodup_cons.mpr ⟨fun hmem => ?_, firstPerLabel_nodup _ L⟩
      obtain ⟨y, hy, hk⟩ := List.mem_map.mp hmem
      exact (mem_firstPerLabel.mp hy).1 (hk ▸ List.mem_cons_self)

theorem firstPerLabel_eq_nil {seen : List (String × String)} :
    ∀ {L : List Rule}, seen = [] → (firstPerLabel seen L = [] ↔ L = [])
  | [], _ => by simp [firstPerLabel]
  | x :: L, h => by
    subst h
    simp [firstPerLabel]

section Loaded

variable {nodeTypes : List NodeType} {rules : List Rule} {c : Catalog}

theorem load_labelKey_unique (hc : load nodeTypes rules = .ok c) {a b : Rule} (ha : a ∈ c.rules)
    (hb : b ∈ c.rules) (hv : a.version = b.version) (hk : a.labelKey = b.labelKey) : a = b := by
  have ha' : a ∈ c.rulesOf a.version := List.mem_filter.mpr ⟨ha, by simp⟩
  have hb' : b ∈ c.rulesOf a.version := List.mem_filter.mpr ⟨hb, by simp [hv]⟩
  obtain ⟨hp, hl⟩ := Rule.labelKey_eq_iff.mp hk
  exact load_rule_unique hc ha' hb' hp hl

theorem mem_candidates_unversioned (hc : load nodeTypes rules = .ok c) {q : RuleQuery}
    (hv : q.version = none) {r : Rule} : r ∈ c.candidates q ↔ c.Newest q r := by
  have hL := (rulesNewestFirst_pairwise c).filter q.admits
  have hmem : ∀ x, x ∈ c.rulesNewestFirst.filter q.admits ↔ x ∈ c.rules ∧ q.admits x = true :=
    fun x => by rw [List.mem_filter, mem_rulesNewestFirst]
  have huniq : ∀ a ∈ c.rulesNewestFirst.filter q.admits, ∀ b ∈ c.rulesNewestFirst.filter q.admits,
      a.version = b.version → a.labelKey = b.labelKey → a = b := fun a ha b hb =>
    load_labelKey_unique hc ((hmem a).mp ha).1 ((hmem b).mp hb).1
  simp only [candidates, hv, mem_firstPerLabel, List.not_mem_nil, not_false_eq_true, true_and,
    find?_labelKey_iff hL huniq, hmem, Newest, and_assoc]
  refine and_congr_right fun _ => and_congr_right fun _ => ?_
  constructor
  · intro h r' hr' hadm hp hl
    exact h r' ⟨hr', hadm⟩ (Rule.labelKey_eq_iff.mpr ⟨hp, hl⟩)
  · intro h r' hr' hk
    obtain ⟨hp, hl⟩ := Rule.labelKey_eq_iff.mp hk
    exact h r' hr'.1 hr'.2 hp hl

theorem exists_candidate_unversioned {q : RuleQuery} (hv : q.version = none) {r : Rule}
    (hr : r ∈ c.rules) (hadm : q.admits r = true) :
    ∃ r' ∈ c.candidates q, r'.labelKey = r.labelKey := by
  have hsome : ((c.rulesNewestFirst.filter q.admits).find? (·.labelKey == r.labelKey)).isSome :=
    List.find?_isSome.mpr ⟨r, List.mem_filter.mpr ⟨mem_rulesNewestFirst.mpr hr, hadm⟩, by simp⟩
  obtain ⟨r₀, h₀⟩ := Option.isSome_iff_exists.mp hsome
  have hk₀ : r₀.labelKey = r.labelKey := by simpa using List.find?_some h₀
  refine ⟨r₀, ?_, hk₀⟩
  simp only [candidates, hv, mem_firstPerLabel, List.not_mem_nil, not_false_eq_true, true_and]
  rw [hk₀]
  exact h₀

end Loaded

/-! ### Finding rules -/

theorem findRules_eq (c : Catalog) (q : RuleQuery) :
    c.findRules q = if (c.candidates q).isEmpty
      then .error (.ruleNotFound ("No rules found for " ++ q.display))
      else .ok (RuleGroups.ofList (c.candidates q)) := by
  simp only [findRules, RuleGroups.isEmpty_ofList]

theorem findRules_error_iff (c : Catalog) (q : RuleQuery) :
    (∃ e, c.findRules q = .error e) ↔ c.candidates q = [] := by
  rw [findRules_eq]
  by_cases h : (c.candidates q).isEmpty
  · simp [List.isEmpty_iff.mp h]
  · rw [if_neg h]
    simp only [reduceCtorEq, exists_false, false_iff]
    exact fun he => h (List.isEmpty_iff.mpr he)

theorem findRules_ok {c : Catalog} {q : RuleQuery} {g : RuleGroups} (h : c.findRules q = .ok g) :
    g = RuleGroups.ofList (c.candidates q) := by
  rw [findRules_eq] at h
  split at h
  · cases h
  · exact (Except.ok.inj h).symm

theorem candidates_versioned (c : Catalog) {q : RuleQuery} {v : SchemaVersion}
    (hv : q.version = some v) : c.candidates q = (c.rulesOf v).filter q.admits := by
  simp [candidates, hv]

theorem candidates_unversioned_eq_nil (c : Catalog) {q : RuleQuery} (hv : q.version = none) :
    c.candidates q = [] ↔ ∀ r ∈ c.rules, q.admits r = false := by
  simp only [candidates, hv, firstPerLabel_eq_nil rfl, List.filter_eq_nil_iff,
    mem_rulesNewestFirst, Bool.not_eq_true]

theorem labels_nodup_of_labelKeys {rs : List Rule} (h : (rs.map (·.labelKey)).Nodup) (k : String) :
    ((rs.filter (·.pairKey == k)).map (·.label)).Nodup := by
  have hsub : ((rs.filter (·.pairKey == k)).map (·.labelKey)).Nodup :=
    h.sublist (List.filter_sublist.map _)
  have hfac : (rs.filter (·.pairKey == k)).map (·.labelKey) =
      ((rs.filter (·.pairKey == k)).map (·.label)).map fun l => (k, l.text) := by
    rw [List.map_map]
    refine List.map_congr_left fun r hr => ?_
    have hk : r.pairKey = k := by simpa using (List.mem_filter.mp hr).2
    simp [Rule.labelKey, hk]
  rw [hfac] at hsub
  exact hsub.of_map _

/-- The rules a query finds in a loaded catalog. With a version: the failure when that version
    has no passing rule, and otherwise the groups of its passing rules. Without one: the failure
    when no version has a passing rule, and otherwise, grouped under its pair key, for each
    (pair key, label) of a passing rule the passing rule of the newest version that has one, and
    nothing else. The only error is that nothing was found. -/
structure FindsExactly (c : Catalog) (q : RuleQuery) : Prop where
  error_text : ∀ e, c.findRules q = .error e →
    e = .ruleNotFound ("No rules found for " ++ q.display)
  versioned_fails : ∀ v, q.version = some v →
    ((∃ e, c.findRules q = .error e) ↔ ∀ r ∈ c.rulesOf v, q.admits r = false)
  versioned_groups : ∀ v, q.version = some v → ∀ g, c.findRules q = .ok g →
    g.Groups ((c.rulesOf v).filter q.admits)
  unversioned_fails : q.version = none →
    ((∃ e, c.findRules q = .error e) ↔ ∀ r ∈ c.rules, q.admits r = false)
  unversioned_found : q.version = none → ∀ g, c.findRules q = .ok g →
    ∀ k r, r ∈ g.get k ↔ r.pairKey = k ∧ c.Newest q r
  unversioned_once : q.version = none → ∀ g, c.findRules q = .ok g →
    ∀ k, ((g.get k).map (·.label)).Nodup
  unversioned_covers : q.version = none → ∀ g, c.findRules q = .ok g →
    ∀ r ∈ c.rules, q.admits r = true → ∃ r' ∈ g.get r.pairKey, r'.label = r.label

/-- The containment and cousin lookups of a type over every version: the rules the search over
    every version finds for the type that pass the lookup's test, grouped by pair key. -/
structure FiltersNewest (c : Catalog) (t : Identifier) : Prop where
  child : ∀ k r, r ∈ (c.childRules t none).get k ↔
    r.pairKey = k ∧ c.Newest (.new t) r ∧ r.containerType = some t
  parent : ∀ k r, r ∈ (c.parentRules t none).get k ↔
    r.pairKey = k ∧ c.Newest (.new t) r ∧ r.containedType = some t
  cousin : ∀ k r, r ∈ (c.cousinRules t none).get k ↔
    r.pairKey = k ∧ c.Newest (.new t) r ∧ r.edgeType = .cousin

section Loaded

variable {nodeTypes : List NodeType} {rules : List Rule} {c : Catalog}

theorem mem_get_findRules_unversioned (hc : load nodeTypes rules = .ok c) {q : RuleQuery}
    (hv : q.version = none) {g : RuleGroups} (h : c.findRules q = .ok g) (k : String) (r : Rule) :
    r ∈ g.get k ↔ r.pairKey = k ∧ c.Newest q r := by
  rw [findRules_ok h, (RuleGroups.groups_ofList _).get, List.mem_filter,
    mem_candidates_unversioned hc hv, beq_iff_eq, and_comm]

theorem mem_get_filtered (hc : load nodeTypes rules = .ok c) (t : Identifier) (keep : Rule → Bool)
    (k : String) (r : Rule) :
    r ∈ (c.filtered t none keep).get k ↔ r.pairKey = k ∧ c.Newest (.new t) r ∧ keep r = true := by
  show r ∈ (RuleGroups.ofList ((c.candidates (.new t)).filter keep)).get k ↔ _
  rw [(RuleGroups.groups_ofList _).get, List.mem_filter, List.mem_filter,
    mem_candidates_unversioned hc rfl, beq_iff_eq]
  tauto

theorem findsExactly (hc : load nodeTypes rules = .ok c) (q : RuleQuery) : c.FindsExactly q where
  error_text e h := by
    rw [findRules_eq] at h
    split at h
    · exact (Except.error.inj h).symm
    · cases h
  versioned_fails v hv := by
    rw [findRules_error_iff, candidates_versioned c hv, List.filter_eq_nil_iff]
    simp only [Bool.not_eq_true]
  versioned_groups v hv g h := by
    rw [findRules_ok h, candidates_versioned c hv]
    exact RuleGroups.groups_ofList _
  unversioned_fails hv := by
    rw [findRules_error_iff, candidates_unversioned_eq_nil c hv]
  unversioned_found hv g h := mem_get_findRules_unversioned hc hv h
  unversioned_once hv g h k := by
    rw [findRules_ok h, (RuleGroups.groups_ofList _).get]
    refine labels_nodup_of_labelKeys ?_ k
    simpa only [candidates, hv] using firstPerLabel_nodup [] _
  unversioned_covers hv g h r hr hadm := by
    obtain ⟨r', hr', hk⟩ := exists_candidate_unversioned hv hr hadm
    obtain ⟨hp, hl⟩ := Rule.labelKey_eq_iff.mp hk
    refine ⟨r', ?_, hl⟩
    rw [findRules_ok h, (RuleGroups.groups_ofList _).get, List.mem_filter, hp]
    exact ⟨hr', by simp⟩

theorem filtersNewest (hc : load nodeTypes rules = .ok c) (t : Identifier) : c.FiltersNewest t where
  child k r := by
    rw [childRules, mem_get_filtered hc, beq_iff_eq]
  parent k r := by
    rw [parentRules, mem_get_filtered hc, beq_iff_eq]
  cousin k r := by
    rw [cousinRules, mem_get_filtered hc, beq_iff_eq]

/-- Finding rules in a loaded catalog, for every query: with a version, exactly that version's
    passing rules, grouped under their pair keys with their number; without one, for each
    (pair key, label) of a passing rule of any version exactly the passing rule of the newest
    version that has one; a failure, the rules not found, exactly when nothing passes. The
    containment and cousin lookups of a type over every version apply their test after that
    choice of the newest rules touching the type. -/
theorem findRules_exact (hc : load nodeTypes rules = .ok c) :
    (∀ q, c.FindsExactly q) ∧ ∀ t, c.FiltersNewest t :=
  ⟨findsExactly hc, filtersNewest hc⟩

end Loaded

/-! A drawer is held in a vault in v10; in v12 the same pair and label is lateral. -/

namespace VaultAndDrawer

def vault : Identifier := ⟨"vault", by decide⟩
def drawer : Identifier := ⟨"drawer", by decide⟩
def keeps : Identifier := ⟨"keeps", by decide⟩

def heldIn : Rule := { Rule.new vault drawer keeps v10 with contains := .out }
def standsBy : Rule := Rule.new vault drawer keeps v12

def nodeTypes : List NodeType :=
  [NodeType.new vault v10, NodeType.new drawer v10, NodeType.new vault v12, NodeType.new drawer v12]

def catalog : Catalog := ⟨nodeTypes, [heldIn, standsBy]⟩

theorem newer_lateral_rule_hides_containment :
    load nodeTypes [heldIn, standsBy] = .ok catalog ∧
      (∀ q, catalog.FindsExactly q) ∧ ∀ t, catalog.FiltersNewest t := by
  have hload : load nodeTypes [heldIn, standsBy] = .ok catalog := by rfl
  exact ⟨hload, findRules_exact hload⟩

example : ((catalog.findRules (.between drawer vault)).toOption.map (·.get "drawer|vault")) =
    some [standsBy] := by rfl

example : (catalog.parentRules drawer none).isEmpty = true := by rfl

example : (catalog.parentRules drawer (some v10)).get "drawer|vault" = [heldIn] := by rfl

end VaultAndDrawer

end Catalog
end InventoryGraph
