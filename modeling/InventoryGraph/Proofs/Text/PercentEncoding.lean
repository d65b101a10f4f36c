import InventoryGraph.Text.PercentEncoding

/-!
Percent-encoding is read back: a decoder that undoes it byte by byte shows that distinct
texts have distinct encodings, and no encoding holds a slash. Together they let a path of
slash-separated encoded segments be split back into its segments.
-/

namespace InventoryGraph
namespace Text

def hexValue (c : Char) : Nat :=
  if c.toNat < 0x41 then c.toNat - 0x30 else c.toNat - 0x41 + 10

theorem hexValue_hexDigit : ∀ n, n < 16 → hexValue (hexDigit n) = n := by decide

theorem toNat_charOfNat {n : Nat} (h : n < 256) : (Char.ofNat n).toNat = n := by
  rw [Char.ofNat, dif_pos (Or.inl (by omega))]
  rfl

theorem hexDigit_ne_slash : ∀ n, n < 16 → hexDigit n ≠ '/' := by decide

def decodeBytes : List Char → List UInt8
  | '%' :: h :: l :: rest => UInt8.ofNat (hexValue h * 16 + hexValue l) :: decodeBytes rest
  | c :: rest => UInt8.ofNat c.toNat :: decodeBytes rest
  | [] => []

theorem decodeBytes_encodeByte (b : UInt8) (rest : List Char) :
    decodeBytes (encodeByte b ++ rest) = b :: decodeBytes rest := by
  have hb : b.toNat < 256 := b.toNat_lt
  unfold encodeByte
  split
  · next hu =>
    have hpct : b.toNat ≠ 0x25 := by
      intro h
      simp [isUnreserved, h] at hu
    have hc : (Char.ofNat b.toNat).toNat = b.toNat := toNat_charOfNat hb
    rw [List.singleton_append, decodeBytes]
    · rw [hc, UInt8.ofNat_toNat]
    · intro h l rest' heq
      have := congrArg Char.toNat heq
      rw [hc] at this
      exact fun _ => hpct this
  · rw [List.cons_append, List.cons_append, List.cons_append, List.nil_append, decodeBytes,
      hexValue_hexDigit _ (by omega), hexValue_hexDigit _ (by omega),
      show b.toNat / 16 * 16 + b.toNat % 16 = b.toNat by omega, UInt8.ofNat_toNat]

theorem decodeBytes_flatMap : ∀ bs : List UInt8, decodeBytes (bs.flatMap encodeByte) = bs
  | [] => rfl
  | b :: bs => by
    rw [List.flatMap_cons, decodeBytes_encodeByte, decodeBytes_flatMap bs]

theorem toList_loop (bs : ByteArray) (i : Nat) (r : List UInt8) (hi : i ≤ bs.size) :
    ByteArray.toList.loop bs i r = r.reverse ++ bs.data.toList.drop i := by
  induction i, r using ByteArray.toList.loop.induct bs with
  | case1 i r hlt ih =>
    have hdrop : bs.data.toList.drop i = bs.get! i :: bs.data.toList.drop (i + 1) := by
      have hlt' : i < bs.data.size := hlt
      rw [List.drop_eq_getElem_cons (by simpa using hlt'), ByteArray.get!, getElem!_pos bs.data i hlt']
      simp
    rw [ByteArray.toList.loop, if_pos hlt, ih (by omega), List.reverse_cons, List.append_assoc,
      List.singleton_append, hdrop]
  | case2 i r hge =>
    rw [ByteArray.toList.loop, if_neg hge, show i = bs.size by omega]
    simp

theorem toList_eq_data (bs : ByteArray) : bs.toList = bs.data.toList := by
  rw [ByteArray.toList, toList_loop bs 0 [] (Nat.zero_le _)]
  simp

theorem toList_percentEncode (s : String) :
    (percentEncode s).toList = s.toUTF8.toList.flatMap encodeByte :=
  String.toList_ofList

theorem percentEncode_injective {a b : String} (h : percentEncode a = percentEncode b) : a = b := by
  have hbytes := congrArg (fun s => decodeBytes s.toList) h
  simp only [toList_percentEncode, decodeBytes_flatMap, toList_eq_data] at hbytes
  exact String.toByteArray_inj.mp (ByteArray.ext (Array.toList_inj.mp (by simpa using hbytes)))

theorem slash_not_mem_percentEncode (s : String) : '/' ∉ (percentEncode s).toList := by
  rw [toList_percentEncode]
  simp only [List.mem_flatMap, not_exists, not_and]
  intro b _ hmem
  have hb : b.toNat < 256 := b.toNat_lt
  unfold encodeByte at hmem
  split at hmem
  · next hu =>
    rw [List.mem_singleton] at hmem
    have h47 := congrArg Char.toNat hmem
    rw [toNat_charOfNat hb] at h47
    simp [isUnreserved, ← h47] at hu
  · simp only [List.mem_cons, List.not_mem_nil, or_false] at hmem
    rcases hmem with h | h | h
    · exact absurd h (by decide)
    · exact hexDigit_ne_slash _ (by omega) h.symm
    · exact hexDigit_ne_slash _ (by omega) h.symm

theorem percentEncode_eq_empty {s : String} : percentEncode s = "" ↔ s = "" := by
  have hempty : percentEncode "" = "" :=
    String.toList_eq_nil_iff.mp (by simp [toList_percentEncode])
  constructor
  · intro h
    exact percentEncode_injective (h.trans hempty.symm)
  · rintro rfl
    exact hempty

/-! ### Splitting paths at slashes -/

/-- Empty, or starting with a slash: what may follow a segment. -/
def Slashed (l : List Char) : Prop := l = [] ∨ l.head? = some '/'

theorem append_slashed_inj : ∀ {a a' b b' : List Char}, '/' ∉ a → '/' ∉ a' → Slashed b →
    Slashed b' → a ++ b = a' ++ b' → a = a' ∧ b = b'
  | [], [], _, _, _, _, _, _, h => ⟨rfl, h⟩
  | [], c :: a', b, _, _, ha', hb, _, h => by
    subst h
    rcases hb with hb | hb
    · cases hb
    · cases hb
      exact absurd List.mem_cons_self ha'
  | c :: a, [], _, b', ha, _, _, hb', h => by
    subst h
    rcases hb' with hb' | hb'
    · cases hb'
    · cases hb'
      exact absurd List.mem_cons_self ha
  | c :: a, c' :: a', _, _, ha, ha', hb, hb', h => by
    simp only [List.cons_append, List.cons.injEq] at h
    obtain ⟨rfl, h⟩ := h
    obtain ⟨rfl, hb⟩ := append_slashed_inj (fun h => ha (List.mem_cons_of_mem c h))
      (fun h => ha' (List.mem_cons_of_mem c h)) hb hb' h
    exact ⟨rfl, hb⟩

theorem Slashed.join {qs : List String} {R : List Char}
    (hqs : ∀ q ∈ qs, ∃ e, q.toList = '/' :: e ∧ '/' ∉ e) (hR : Slashed R) :
    Slashed ((String.join qs).toList ++ R) := by
  cases qs with
  | nil => simpa using hR
  | cons q qs =>
    obtain ⟨f, hf, -⟩ := hqs q List.mem_cons_self
    right
    simp [String.join_cons, String.toList_append, hf]

theorem join_parts_inj : ∀ {ps ps' : List String} {R R' : List Char}, ps.length = ps'.length →
    (∀ p ∈ ps, ∃ e, p.toList = '/' :: e ∧ '/' ∉ e) →
    (∀ p ∈ ps', ∃ e, p.toList = '/' :: e ∧ '/' ∉ e) → Slashed R → Slashed R' →
    (String.join ps).toList ++ R = (String.join ps').toList ++ R' → ps = ps' ∧ R = R'
  | [], [], _, _, _, _, _, _, _, h => ⟨rfl, by simpa using h⟩
  | p :: ps, p' :: ps', R, R', hlen, hps, hps', hR, hR', h => by
    obtain ⟨e, he, hes⟩ := hps p List.mem_cons_self
    obtain ⟨e', he', hes'⟩ := hps' p' List.mem_cons_self
    simp only [String.join_cons, String.toList_append, he, he', List.cons_append,
      List.append_assoc, List.cons.injEq, true_and] at h
    obtain ⟨hee, hrest⟩ := append_slashed_inj hes hes'
      (Slashed.join (fun q hq => hps q (List.mem_cons_of_mem p hq)) hR)
      (Slashed.join (fun q hq => hps' q (List.mem_cons_of_mem p' hq)) hR') h
    obtain ⟨rfl, hRR⟩ := join_parts_inj (by simpa using hlen)
      (fun q hq => hps q (List.mem_cons_of_mem p hq)) (fun q hq => hps' q (List.mem_cons_of_mem p' hq))
      hR hR' hrest
    refine ⟨?_, hRR⟩
    rw [String.toList_inj.mp (he.trans (hee ▸ he'.symm))]

end Text
end InventoryGraph
