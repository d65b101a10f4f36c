import Mathlib.Data.List.Sort
import InventoryGraph.Graph.Basic

namespace InventoryGraph

namespace IdSet

@[simp] theorem mem_insert {i j : Nat} {s : List Nat} : j ∈ insert i s ↔ j = i ∨ j ∈ s := by
  induction s with
  | nil => simp [insert]
  | cons k s ih =>
    rw [insert]
    split
    · exact List.mem_cons
    · split
      · next heq => subst heq; simp
      · simp only [List.mem_cons, ih]
        tauto

theorem insert_ascending {i : Nat} {s : List Nat} (h : s.Pairwise (· < ·)) :
    (insert i s).Pairwise (· < ·) := by
  induction s with
  | nil => simp [insert]
  | cons k s ih =>
    obtain ⟨hk, hs⟩ := List.pairwise_cons.mp h
    rw [insert]
    split
    · next hlt =>
      refine List.pairwise_cons.mpr ⟨?_, h⟩
      intro j hj
      rcases List.mem_cons.mp hj with rfl | hj
      · exact hlt
      · exact Nat.lt_trans hlt (hk j hj)
    · split
      · exact h
      · next hge hne =>
        refine List.pairwise_cons.mpr ⟨fun j hj => ?_, ih hs⟩
        rcases mem_insert.mp hj with rfl | hj
        · omega
        · exact hk j hj

theorem insert_of_lt {i : Nat} {s : List Nat} (h : ∀ j ∈ s, j < i) : insert i s = s ++ [i] := by
  induction s with
  | nil => rfl
  | cons k s ih =>
    have hk : k < i := h k (by simp)
    rw [insert, if_neg (by omega), if_neg (by omega), ih fun j hj => h j (by simp [hj])]
    rfl

@[simp] theorem mem_union {j : Nat} {s t : List Nat} : j ∈ union s t ↔ j ∈ s ∨ j ∈ t := by
  induction t generalizing s with
  | nil => simp [union]
  | cons i t ih =>
    have hstep : union s (i :: t) = union (insert i s) t := rfl
    rw [hstep, ih, mem_insert, List.mem_cons]
    tauto

theorem union_ascending {s t : List Nat} (h : s.Pairwise (· < ·)) :
    (union s t).Pairwise (· < ·) := by
  induction t generalizing s with
  | nil => exact h
  | cons i t ih => exact ih (insert_ascending h)

section Ids

variable {α : Type} {f : α → Nat} {l : List α}

theorem ids_ascending (p : α → Bool) (h : (l.map f).Pairwise (· < ·)) :
    ((l.filter p).map f).Pairwise (· < ·) :=
  h.sublist ((List.filter_sublist).map f)

theorem eq_ids_of_mem {s : List Nat} (p : α → Bool) (hs : s.Pairwise (· < ·))
    (hl : (l.map f).Pairwise (· < ·)) (h : ∀ j, j ∈ s ↔ ∃ a ∈ l, p a ∧ f a = j) :
    s = (l.filter p).map f :=
  hs.eq_of_mem_iff (ids_ascending p hl) fun j => by simpa [and_assoc] using h j

theorem eq_of_ids_eq (h : (l.map f).Pairwise (· < ·)) {a b : α} (ha : a ∈ l) (hb : b ∈ l)
    (hab : f a = f b) : a = b :=
  List.inj_on_of_nodup_map h.nodup ha hb hab

theorem ids_append_fresh {a : α} (p : α → Bool) (hfresh : ∀ b ∈ l, f b < f a) :
    ((l ++ [a]).filter p).map f =
      if p a then IdSet.insert (f a) ((l.filter p).map f) else (l.filter p).map f := by
  by_cases hp : p a
  · rw [if_pos hp, IdSet.insert_of_lt]
    · simp [List.filter_append, hp]
    · intro j hj
      obtain ⟨b, hb, rfl⟩ := List.mem_map.mp hj
      exact hfresh b (List.mem_filter.mp hb).1
  · simp [List.filter_append, hp]

theorem mem_ids_erase (p : α → Bool) (h : (l.map f).Pairwise (· < ·)) {j n : Nat} :
    j ∈ ((l.filter p).map f).erase n ↔ j ≠ n ∧ ∃ a ∈ l, p a ∧ f a = j := by
  rw [(ids_ascending p h).nodup.mem_erase_iff]
  simp [and_assoc]

theorem ids_drop {old : α} (p q : α → Bool) (h : (l.map f).Pairwise (· < ·)) (hold : old ∈ l)
    (hq : ∀ b ∈ l, q b = true ↔ f b ≠ f old) :
    (if p old then ((l.filter p).map f).erase (f old) else (l.filter p).map f) =
      (((l.filter q).filter p).map f) := by
  have hl : ((l.filter q).map f).Pairwise (· < ·) := ids_ascending q h
  refine eq_ids_of_mem p ?_ hl fun j => ?_
  · split
    · exact (ids_ascending p h).sublist (List.erase_sublist)
    · exact ids_ascending p h
  · have hsame : ∀ b ∈ l, f b = f old → b = old := fun b hb hbo => eq_of_ids_eq h hb hold hbo
    split
    · next hp =>
      rw [mem_ids_erase p h]
      simp only [List.mem_filter]
      constructor
      · rintro ⟨hne, b, hb, hpb, rfl⟩
        exact ⟨b, ⟨hb, (hq b hb).mpr hne⟩, hpb, rfl⟩
      · rintro ⟨b, ⟨hb, hqb⟩, hpb, rfl⟩
        exact ⟨(hq b hb).mp hqb, b, hb, hpb, rfl⟩
    · next hp =>
      simp only [List.mem_map, List.mem_filter]
      constructor
      · rintro ⟨b, ⟨hb, hpb⟩, rfl⟩
        refine ⟨b, ⟨hb, (hq b hb).mpr fun hbo => ?_⟩, hpb, rfl⟩
        exact hp (hsame b hb hbo ▸ hpb)
      · rintro ⟨b, ⟨hb, _⟩, hpb, rfl⟩
        exact ⟨b, ⟨hb, hpb⟩, rfl⟩

theorem ids_replace {old new : α} (p : α → Bool) (r : α → α) (h : (l.map f).Pairwise (· < ·))
    (hold : old ∈ l) (hid : f new = f old) (hrold : r old = new)
    (hr : ∀ b ∈ l, f b ≠ f old → r b = b) :
    (if p new then
        IdSet.insert (f old)
          (if p old then ((l.filter p).map f).erase (f old) else (l.filter p).map f)
      else if p old then ((l.filter p).map f).erase (f old) else (l.filter p).map f) =
      ((l.map r).filter p).map f := by
  have hsame : ∀ b ∈ l, f b = f old → b = old := fun b hb hbo => eq_of_ids_eq h hb hold hbo
  have hfr : ∀ b ∈ l, f (r b) = f b := by
    intro b hb
    by_cases hbo : f b = f old
    · rw [hsame b hb hbo, hrold, hid]
    · rw [hr b hb hbo]
  have hmap : (l.map r).map f = l.map f := by
    rw [List.map_map]
    exact List.map_congr_left fun b hb => hfr b hb
  have hdrop : (if p old then ((l.filter p).map f).erase (f old) else (l.filter p).map f).Pairwise
      (· < ·) := by
    split
    · exact (ids_ascending p h).sublist (List.erase_sublist)
    · exact ids_ascending p h
  have hmemdrop : ∀ j, j ∈ (if p old then ((l.filter p).map f).erase (f old)
      else (l.filter p).map f) ↔ j ≠ f old ∧ ∃ a ∈ l, p a ∧ f a = j := by
    intro j
    split
    · exact mem_ids_erase p h
    · next hp =>
      simp only [List.mem_map, List.mem_filter]
      constructor
      · rintro ⟨b, ⟨hb, hpb⟩, rfl⟩
        exact ⟨fun hbo => hp (hsame b hb hbo ▸ hpb), b, hb, hpb, rfl⟩
      · rintro ⟨_, b, hb, hpb, rfl⟩
        exact ⟨b, ⟨hb, hpb⟩, rfl⟩
  refine eq_ids_of_mem p ?_ (hmap ▸ h) fun j => ?_
  · split
    · exact IdSet.insert_ascending hdrop
    · exact hdrop
  · simp only [List.mem_map]
    constructor
    · intro hj
      have hj' : (p new ∧ j = f old) ∨ (j ≠ f old ∧ ∃ a ∈ l, p a ∧ f a = j) := by
        split at hj
        · next hp => rcases IdSet.mem_insert.mp hj with rfl | hj
                     · exact .inl ⟨hp, rfl⟩
                     · exact .inr ((hmemdrop j).mp hj)
        · next hp => exact .inr ((hmemdrop j).mp hj)
      rcases hj' with ⟨hp, rfl⟩ | ⟨hne, b, hb, hpb, rfl⟩
      · exact ⟨new, ⟨old, hold, hrold⟩, hp, hid⟩
      · exact ⟨b, ⟨b, hb, hr b hb hne⟩, hpb, rfl⟩
    · rintro ⟨c, ⟨b, hb, rfl⟩, hpc, rfl⟩
      by_cases hbo : f b = f old
      · have hbold := hsame b hb hbo
        subst hbold
        rw [hrold] at hpc ⊢
        rw [if_pos hpc, hid]
        exact IdSet.mem_insert.mpr (.inl rfl)
      · have hrb := hr b hb hbo
        rw [hrb] at hpc ⊢
        have hin : f b ∈ (if p old then ((l.filter p).map f).erase (f old)
            else (l.filter p).map f) := (hmemdrop (f b)).mpr ⟨hbo, b, hb, hpc, rfl⟩
        split
        · exact IdSet.mem_insert.mpr (.inr hin)
        · exact hin

end Ids

end IdSet

namespace Slots

variable {κ : Type} [DecidableEq κ]

@[simp] theorem get_empty (k : κ) : get ({} : Slots κ) k = [] := rfl

theorem get_eq_of_find? {m : Slots κ} {k : κ} {e : κ × List Nat}
    (h : m.entries.find? (·.1 = k) = some e) : get m k = e.2 := by
  simp [get, h]

theorem get_eq_nil_of_find? {m : Slots κ} {k : κ} (h : m.entries.find? (·.1 = k) = none) :
    get m k = [] := by
  simp [get, h]

theorem find?_map_put (l : List (κ × List Nat)) (k k' : κ) (s : List Nat) (hk : k ≠ k') :
    (l.map fun e => if e.1 = k then (k, s) else e).find? (·.1 = k') = l.find? (·.1 = k') := by
  induction l with
  | nil => rfl
  | cons e l ih =>
    by_cases he : e.1 = k
    · simp [he, hk, ih]
    · simp only [List.map_cons, if_neg he, List.find?_cons, ih]

theorem find?_map_put_self (s : List Nat) (k : κ) :
    ∀ {l : List (κ × List Nat)}, l.any (·.1 = k) = true →
      (l.map fun e => if e.1 = k then (k, s) else e).find? (·.1 = k) = some (k, s)
  | [], h => by simp at h
  | e :: l, h => by
    by_cases he : e.1 = k
    · simp [he]
    · have ht : l.any (·.1 = k) = true := by simpa [he] using h
      simp [he, find?_map_put_self s k ht]

theorem get_put (m : Slots κ) (k k' : κ) (s : List Nat) :
    get (m.put k s) k' = if k = k' then s else get m k' := by
  unfold put
  split
  · next hk =>
    split
    · next h =>
      subst h
      simp [get, find?_map_put_self s k hk]
    · next h => simp only [get, find?_map_put _ _ _ _ h]
  · next hk =>
    have hnone : ∀ e ∈ m.entries, ¬ e.1 = k := fun e he hek =>
      hk (List.any_eq_true.mpr ⟨e, he, by simp [hek]⟩)
    split
    · next h =>
      subst h
      have hfind : m.entries.find? (·.1 = k) = none := List.find?_eq_none.mpr (by simpa using hnone)
      simp [get, List.find?_append, hfind]
    · next h => simp [get, List.find?_append, h]

theorem get_add (m : Slots κ) (k k' : κ) (i : Nat) :
    get (add m k i) k' = if k = k' then IdSet.insert i (get m k) else get m k' := by
  rw [add, get_put]

theorem get_of_not_contains {m : Slots κ} {k : κ} (hk : ¬ m.contains k = true) :
    get m k = [] := by
  refine get_eq_nil_of_find? (List.find?_eq_none.mpr fun e he hek => hk ?_)
  exact List.any_eq_true.mpr ⟨e, he, hek⟩

theorem get_remove (m : Slots κ) (k k' : κ) (i : Nat) :
    get (remove m k i) k' = if k = k' then (get m k).erase i else get m k' := by
  unfold remove
  split
  · exact get_put _ _ _ _
  · next hk =>
    split
    · next h =>
      subst h
      simp [get_of_not_contains hk]
    · rfl

theorem get_erase (m : Slots κ) (k k' : κ) :
    get (m.erase k) k' = if k = k' then [] else get m k' := by
  unfold erase
  split
  · next h =>
    subst h
    refine get_eq_nil_of_find? (List.find?_eq_none.mpr fun e he => ?_)
    simpa using (List.mem_filter.mp he).2
  · next h =>
    simp only [get, List.find?_filter]
    congr 2
    funext e
    by_cases he : e.1 = k' <;> simp [he, Ne.symm h]

theorem get_removeDropEmpty (m : Slots κ) (k k' : κ) (i : Nat) :
    get (removeDropEmpty m k i) k' = if k = k' then (get m k).erase i else get m k' := by
  unfold removeDropEmpty
  split
  · split
    · next hempty =>
      rw [get_erase]
      split
      · exact (List.isEmpty_iff.mp hempty).symm
      · rfl
    · exact get_put _ _ _ _
  · next hk =>
    split
    · next h =>
      subst h
      simp [get_of_not_contains hk]
    · rfl

theorem get_foldl_add (i : Nat) (k : κ) :
    ∀ {es : List κ} (m : Slots κ), es.Nodup →
      get (es.foldl (fun m e => add m e i) m) k =
        if k ∈ es then IdSet.insert i (get m k) else get m k
  | [], _, _ => by simp
  | e :: es, m, hnd => by
    obtain ⟨he, hes⟩ := List.nodup_cons.mp hnd
    rw [List.foldl_cons, get_foldl_add i k (add m e i) hes, get_add]
    by_cases hk : k = e
    · subst hk
      simp [he]
    · simp [hk, Ne.symm hk]

theorem get_foldl_removeDropEmpty (i : Nat) (k : κ) :
    ∀ {es : List κ} (m : Slots κ), es.Nodup →
      get (es.foldl (fun m e => removeDropEmpty m e i) m) k =
        if k ∈ es then (get m k).erase i else get m k
  | [], _, _ => by simp
  | e :: es, m, hnd => by
    obtain ⟨he, hes⟩ := List.nodup_cons.mp hnd
    rw [List.foldl_cons, get_foldl_removeDropEmpty i k (removeDropEmpty m e i) hes,
      get_removeDropEmpty]
    by_cases hk : k = e
    · subst hk
      simp [he]
    · simp [hk, Ne.symm hk]

end Slots
end InventoryGraph
