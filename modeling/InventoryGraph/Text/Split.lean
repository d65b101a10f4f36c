namespace InventoryGraph
namespace Text

def splitOnce (sep : Char) : List Char → Option (List Char × List Char)
  | [] => none
  | c :: cs => if c = sep then some ([], cs) else (splitOnce sep cs).map fun p => (c :: p.1, p.2)

theorem splitOnce_eq_none_iff (sep : Char) (cs : List Char) :
    splitOnce sep cs = none ↔ sep ∉ cs := by
  induction cs with
  | nil => simp [splitOnce]
  | cons c cs ih =>
    by_cases hc : c = sep
    · simp [splitOnce, hc]
    · simp [splitOnce, hc, ih, Ne.symm hc]

theorem splitOnce_eq_some_iff (sep : Char) (cs a b : List Char) :
    splitOnce sep cs = some (a, b) ↔ cs = a ++ sep :: b ∧ sep ∉ a := by
  induction cs generalizing a with
  | nil => simp [splitOnce]
  | cons c cs ih =>
    by_cases hc : c = sep
    · subst hc
      cases a with
      | nil => simp [splitOnce, eq_comm]
      -- a split after the first character would have to skip the separator standing there
      | cons x a =>
        simp [splitOnce]
        intro hx _ hne
        exact absurd hx hne
    · cases a with
      | nil => simp [splitOnce, hc]
      | cons x a => simp [splitOnce, hc, ih]; grind

end Text
end InventoryGraph
