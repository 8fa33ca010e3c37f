import Mathlib.Data.List.Dedup
import Mathlib.Tactic.ByContra
import Mathlib.Tactic.SplitIfs
import PinQuery.Ordered

/-!
# The order of texts is that of their bytes

Texts are compared character by character, and their UTF-8 bytes are ordered in the same way. So
ordered sets of texts are lists sorted by bytes.

* `utf8EncodeChar_append_lt`: a smaller character has smaller bytes, whatever follows.
* `lt_iff_bytes_lt`: the two orders agree.
* `toList_ofList_eq_sortedByBytes`: the set of some names lists them in the order of their bytes, each
  of them once.
-/

namespace PinQuery.Text

/-- The bytes of a text. -/
def bytes (text : String) : List UInt8 := text.toUTF8.data.toList

theorem bytes_eq_flatMap (text : String) :
    bytes text = text.toList.flatMap String.utf8EncodeChar := by
  have htext : text.toUTF8 = text.toList.utf8Encode := by
    rw [← String.toByteArray_ofList, String.ofList_toList]
    rfl
  rw [bytes, htext, List.utf8Encode, List.data_toByteArray]

/-! ## Bytes of characters -/

theorem ofNat_cons_lt_iff {m n : Nat} {xs ys : List UInt8} (hm : m < 256) (hn : n < 256) :
    UInt8.ofNat m :: xs < UInt8.ofNat n :: ys ↔ m < n ∨ m = n ∧ xs < ys := by
  rw [List.cons_lt_cons_iff, UInt8.lt_iff_toNat_lt, ← UInt8.toNat_inj, UInt8.toNat_ofNat_of_lt' hm,
    UInt8.toNat_ofNat_of_lt' hn]

/-- The last three digits of a number to base 64. -/
theorem exists_sextets (n : Nat) : ∃ high p q r, p < 64 ∧ q < 64 ∧ r < 64 ∧
    n = ((high * 64 + p) * 64 + q) * 64 + r ∧
    n / 262144 = high ∧ n / 4096 = high * 64 + p ∧ n / 64 = (high * 64 + p) * 64 + q := by
  refine ⟨n / 64 / 64 / 64, n / 64 / 64 % 64, n / 64 % 64, n % 64, ?_⟩
  omega

/-- A smaller character has smaller bytes, whatever follows. -/
theorem utf8EncodeChar_append_lt {c d : Char} (h : c < d) (xs ys : List UInt8) :
    String.utf8EncodeChar c ++ xs < String.utf8EncodeChar d ++ ys := by
  have hlt : c.val.toNat < d.val.toNat := h
  have hbound : d.val.toNat < 1114112 := by
    rcases d.valid with hsmall | ⟨-, hlarge⟩
    · exact Nat.lt_trans hsmall (by decide)
    · exact hlarge
  generalize hm : c.val.toNat = m at hlt
  generalize hn : d.val.toNat = n at hlt hbound
  simp only [String.utf8EncodeChar, hm, hn]
  clear hm hn
  obtain ⟨high, p, q, r, hp, hq, hr, rfl, h₁, h₂, h₃⟩ := exists_sextets m
  obtain ⟨high', p', q', r', hp', hq', hr', rfl, h₁', h₂', h₃'⟩ := exists_sextets n
  have hmod (a b : Nat) (hb : b < 64) : (a * 64 + b) % 64 = b := by omega
  simp only [h₁, h₂, h₃, h₁', h₂', h₃', hmod _ _ hp, hmod _ _ hq, hmod _ _ hr, hmod _ _ hp',
    hmod _ _ hq', hmod _ _ hr']
  clear h₁ h₂ h₃ h₁' h₂' h₃' hmod
  -- the first bytes of longer codes are larger, and codes of one length are compared digit by digit
  split_ifs <;>
    simp (disch := omega) only [List.cons_append, List.nil_append, ofNat_cons_lt_iff] <;> omega

/-! ## Bytes of texts -/

theorem flatMap_utf8EncodeChar_lt {cs ds : List Char} (h : cs < ds) :
    cs.flatMap String.utf8EncodeChar < ds.flatMap String.utf8EncodeChar := by
  induction h with
  | @nil d ds =>
    rw [List.flatMap_nil, List.flatMap_cons]
    cases hbytes : String.utf8EncodeChar d with
    | nil => exact absurd hbytes String.utf8EncodeChar_ne_nil
    | cons b bs => exact .nil
  | cons _ ih => exact List.append_left_lt ih
  | rel h => exact utf8EncodeChar_append_lt h _ _

/-- **Texts are ordered as their bytes are.** -/
theorem lt_iff_bytes_lt {text text' : String} : text < text' ↔ bytes text < bytes text' := by
  change text.toList < text'.toList ↔ _
  rw [bytes_eq_flatMap, bytes_eq_flatMap]
  refine ⟨flatMap_utf8EncodeChar_lt, fun h => ?_⟩
  by_contra hlt
  -- otherwise the texts are equal or in the other order, and so are their bytes
  rcases List.le_iff_lt_or_eq.1 (List.not_lt.1 hlt) with hlt | heq
  · exact List.lt_asymm h (flatMap_utf8EncodeChar_lt hlt)
  · rw [heq] at h
    exact List.lt_irrefl _ h

/-! ## Sorted names -/

/-- Some names in the order of their bytes, each of them once. -/
def sortedByBytes (names : List String) : List String :=
  names.dedup.mergeSort fun name name' => bytes name ≤ bytes name'

theorem pairwise_sortedByBytes (names : List String) :
    (sortedByBytes names).Pairwise (· < ·) := by
  have hle : (sortedByBytes names).Pairwise fun name name' => bytes name ≤ bytes name' := by
    have htrans (a b c : String) (hab : decide (bytes a ≤ bytes b) = true)
        (hbc : decide (bytes b ≤ bytes c) = true) : decide (bytes a ≤ bytes c) = true :=
      decide_eq_true (List.le_trans (of_decide_eq_true hab) (of_decide_eq_true hbc))
    have htotal (a b : String) :
        (decide (bytes a ≤ bytes b) || decide (bytes b ≤ bytes a)) = true := by
      simpa using List.le_total (bytes a) (bytes b)
    exact (List.pairwise_mergeSort htrans htotal names.dedup).imp of_decide_eq_true
  have hne : (sortedByBytes names).Pairwise (· ≠ ·) :=
    (List.mergeSort_perm _ _).nodup_iff.2 names.nodup_dedup
  refine (hle.and hne).imp fun ⟨h, hne⟩ => ?_
  by_contra hlt
  exact hne (eq_of_not_lt_of_not_lt hlt fun hgt => h (lt_iff_bytes_lt.1 hgt))

theorem toList_ofList_eq_sortedByBytes (names : List String) :
    (OrderedSet.ofList names).toList = sortedByBytes names := by
  have hset : OrderedSet.ofList names = ⟨sortedByBytes names, pairwise_sortedByBytes names⟩ := by
    refine OrderedSet.ext_mem fun name => ?_
    change _ ↔ name ∈ sortedByBytes names
    rw [OrderedSet.mem_ofList, sortedByBytes, List.mem_mergeSort, List.mem_dedup]
  rw [hset]

end PinQuery.Text
