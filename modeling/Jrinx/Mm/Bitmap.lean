import Mathlib.Data.Nat.Find
import Mathlib.Logic.Function.Basic
import Mathlib.Tactic.IntervalCases

/-! # Bitmaps

`include/bitset.h` and `include/bitmap.h`: `ffs` by a table of bit lengths, and bitmaps of words. A bitmap
is what lies at its address, so that a search that finds no zero bit in its words reads the one after them.

* **`ffs64`** — one more than the position of the lowest set bit.
* **`bitmapSetBit`**, **`bitmapFindFirstZeroBit`** — the operations on bitmaps.
* **`ffs64_eq`**, **`not_marked_findFirstZeroBit`**, **`marked_of_lt_findFirstZeroBit`** — what they return.
* **`reads_lt_iff`** — when the search reads no word but those of the bitmap. -/

namespace Jrinx

/-! ## The lowest set bit -/

/-- `table` of `ffs32`: the number of bits of a byte up to its highest set one. -/
def ffsTable : List Nat :=
  [0, 1] ++ List.replicate 2 2 ++ List.replicate 4 3 ++ List.replicate 8 4 ++ List.replicate 16 5 ++
    List.replicate 32 6 ++ List.replicate 64 7 ++ List.replicate 128 8

/-- `ffs32`. -/
def ffs32 (i : BitVec 32) : Nat :=
  let j := i &&& -i
  let k := if j ≤ 0xffff#32 then (if j ≤ 0xff#32 then 0 else 8) else (if j ≤ 0xffffff#32 then 16 else 24)
  ffsTable.getD (j >>> k).toNat 0 + k

/-- `ffs64`. -/
def ffs64 (i : BitVec 64) : Nat :=
  let j := i &&& -i
  if j ≤ 0xffffffff#64 then ffs32 (i.setWidth 32) else ffs32 ((i >>> 32).setWidth 32) + 32

/-- Every word but zero has a lowest set bit. -/
theorem exists_lowest {w : Nat} {x : BitVec w} (hx : x ≠ 0#w) :
    ∃ t, t < w ∧ x.getLsbD t = true ∧ ∀ s < t, x.getLsbD s = false := by
  have hbit : ∃ t, x.getLsbD t = true := by
    by_contra hnone
    apply hx
    apply BitVec.eq_of_getLsbD_eq
    intro i _
    have hi := not_exists.mp hnone i
    simpa using hi
  refine ⟨Nat.find hbit, ?_, Nat.find_spec hbit, fun s hs => by simpa using Nat.find_min hbit hs⟩
  exact BitVec.lt_of_getLsbD (Nat.find_spec hbit)

/-- Only the lowest set bit is left of a word in conjunction with its negation. -/
theorem and_neg_eq_twoPow {w t : Nat} {x : BitVec w} (ht : x.getLsbD t = true)
    (hlow : ∀ s < t, x.getLsbD s = false) : x &&& -x = BitVec.twoPow w t := by
  apply BitVec.eq_of_getLsbD_eq
  intro i hi
  rw [BitVec.getLsbD_and, BitVec.getLsbD_neg, BitVec.getLsbD_twoPow]
  rcases Nat.lt_trichotomy i t with hlt | rfl | hgt
  · simp [hlow i hlt, hlt.ne']
  · have hnone : ¬ ∃ j < i, x.getLsbD j = true := by
      rintro ⟨j, hj, hset⟩
      exact absurd hset (by simp [hlow j hj])
    simp [ht, hi, hnone]
  · have hsome : ∃ j < i, x.getLsbD j = true := ⟨t, hgt, ht⟩
    simp [hi, hsome, hgt.ne]

theorem ffs32_eq {t : Nat} {x : BitVec 32} (hlt : t < 32) (ht : x.getLsbD t = true)
    (hlow : ∀ s < t, x.getLsbD s = false) : ffs32 x = t + 1 := by
  have htable : ∀ t : Fin 32, (let j := BitVec.twoPow 32 t
      let k := if j ≤ 0xffff#32 then (if j ≤ 0xff#32 then 0 else 8) else (if j ≤ 0xffffff#32 then 16 else 24)
      ffsTable.getD (j >>> k).toNat 0 + k) = t.val + 1 := by decide
  rw [ffs32, and_neg_eq_twoPow ht hlow]
  exact htable ⟨t, hlt⟩

/-- **`ffs`** is one more than the position of the lowest set bit. -/
theorem ffs64_eq {t : Nat} {x : BitVec 64} (ht : x.getLsbD t = true)
    (hlow : ∀ s < t, x.getLsbD s = false) : ffs64 x = t + 1 := by
  have hlt : t < 64 := BitVec.lt_of_getLsbD ht
  have hle : BitVec.twoPow 64 t ≤ 0xffffffff#64 ↔ t < 32 := by
    have hall : ∀ t : Fin 64, BitVec.twoPow 64 t ≤ 0xffffffff#64 ↔ t.val < 32 := by decide
    exact hall ⟨t, hlt⟩
  rw [ffs64, and_neg_eq_twoPow ht hlow]
  by_cases h32 : t < 32
  · rw [if_pos (hle.mpr h32)]
    refine ffs32_eq h32 ?_ fun s hs => ?_
    · simp [h32, ht]
    · simp [hlow s hs]
  · rw [if_neg (fun h => h32 (hle.mp h)), ffs32_eq (t := t - 32) (by omega) ?_ fun s hs => ?_]
    · omega
    · simp [show t - 32 < 32 by omega, show 32 + (t - 32) = t by omega, ht]
    · simp [hlow (32 + s) (by omega)]

theorem ffs64_zero : ffs64 0#64 = 0 := by decide

/-! ## Bitmaps -/

/-- What lies at the address of a bitmap, word by word. -/
abbrev Bitmap := Nat → BitVec 64

/-- `BITMAP_SIZE`. -/
def bitmapSize (nr : Nat) : Nat := (nr - 1) / 64 + 1

/-- `bitmap_get_bit`. -/
def bitmapGetBit (bitmap : Bitmap) (i : Nat) : Bool := (bitmap (i / 64)).getLsbD (i % 64)

/-- `bitmap_set_bit`. -/
def bitmapSetBit (bitmap : Bitmap) (i : Nat) : Bitmap :=
  Function.update bitmap (i / 64) (bitmap (i / 64) ||| BitVec.twoPow 64 (i % 64))

/-- `bitmap_clr_bit`. -/
def bitmapClrBit (bitmap : Bitmap) (i : Nat) : Bitmap :=
  Function.update bitmap (i / 64) (bitmap (i / 64) &&& ~~~BitVec.twoPow 64 (i % 64))

/-- `memset` of the first `nr` words to zero. -/
def bitmapClear (bitmap : Bitmap) (nr : Nat) : Bitmap := fun i => if i < nr then 0#64 else bitmap i

/-- The loop of `bitmap_find_first_zero_bit`, with `n` words to go: the first word that is not full. -/
def firstNotFull (bitmap : Bitmap) : Nat → Nat → Nat
  | 0, i => i
  | n + 1, i => if ~~~(bitmap i) = 0#64 then firstNotFull bitmap n (i + 1) else i

/-- `bitmap_find_first_zero_bit`, whose result is an `unsigned`. -/
def bitmapFindFirstZeroBit (bitmap : Bitmap) (nr : Nat) : Nat :=
  let i := firstNotFull bitmap nr 0
  let j := ffs64 (~~~(bitmap i))
  (if j ≠ 0 then i * 64 + (j - 1) else 2 ^ 64 - 1) % 2 ^ 32

theorem bitmapGetBit_setBit (bitmap : Bitmap) (i n : Nat) :
    bitmapGetBit (bitmapSetBit bitmap i) n = true ↔ n = i ∨ bitmapGetBit bitmap n = true := by
  unfold bitmapGetBit bitmapSetBit
  by_cases hw : n / 64 = i / 64
  · rw [hw, Function.update_self, BitVec.getLsbD_or, BitVec.getLsbD_twoPow]
    have hlt : i % 64 < 64 := Nat.mod_lt _ (by decide)
    have hbit : i % 64 = n % 64 ↔ n = i := by omega
    simp only [Bool.or_eq_true, Bool.and_eq_true, decide_eq_true_eq, hlt, true_and, hbit]
    exact or_comm
  · rw [Function.update_of_ne hw]
    have hne : n ≠ i := fun h => hw (by rw [h])
    simp [hne]

theorem bitmapGetBit_clrBit (bitmap : Bitmap) (i n : Nat) :
    bitmapGetBit (bitmapClrBit bitmap i) n = true ↔ n ≠ i ∧ bitmapGetBit bitmap n = true := by
  unfold bitmapGetBit bitmapClrBit
  by_cases hw : n / 64 = i / 64
  · rw [hw, Function.update_self, BitVec.getLsbD_and, BitVec.getLsbD_not, BitVec.getLsbD_twoPow]
    have hlt : n % 64 < 64 := Nat.mod_lt _ (by decide)
    have hlt' : i % 64 < 64 := Nat.mod_lt _ (by decide)
    have hbit : i % 64 = n % 64 ↔ n = i := by omega
    simp only [hlt, hlt', hbit, decide_true, Bool.true_and, Bool.and_eq_true, Bool.not_eq_true', decide_eq_false_iff_not,
      ne_eq]
    exact and_comm
  · rw [Function.update_of_ne hw]
    have hne : n ≠ i := fun h => hw (by rw [h])
    simp [hne]

theorem bitmapGetBit_clear {bitmap : Bitmap} {nr n : Nat} (h : n < nr * 64) :
    bitmapGetBit (bitmapClear bitmap nr) n = false := by
  have hlt : n / 64 < nr := by omega
  simp [bitmapGetBit, bitmapClear, hlt]

theorem firstNotFull_le (bitmap : Bitmap) (n i : Nat) :
    i ≤ firstNotFull bitmap n i ∧ firstNotFull bitmap n i ≤ i + n := by
  induction n generalizing i with
  | zero => exact ⟨le_rfl, le_rfl⟩
  | succ n ih =>
      rw [firstNotFull]
      split
      · have h := ih (i + 1)
        omega
      · omega

/-- Unless it has passed all words, the loop stops at a word with a zero bit. -/
theorem firstNotFull_spec (bitmap : Bitmap) (n i : Nat) (h : firstNotFull bitmap n i < i + n) :
    ~~~(bitmap (firstNotFull bitmap n i)) ≠ 0#64 := by
  induction n generalizing i with
  | zero => simp [firstNotFull] at h
  | succ n ih =>
      rw [firstNotFull] at h ⊢
      split
      · rename_i hfull
        rw [if_pos hfull] at h
        exact ih (i + 1) (by omega)
      · assumption

/-- The loop passes only words that are full. -/
theorem full_of_lt_firstNotFull (bitmap : Bitmap) {n i j : Nat} (hi : i ≤ j) (hj : j < firstNotFull bitmap n i) :
    ~~~(bitmap j) = 0#64 := by
  induction n generalizing i with
  | zero =>
      rw [firstNotFull] at hj
      omega
  | succ n ih =>
      rw [firstNotFull] at hj
      split at hj
      · rename_i hfull
        rcases hi.eq_or_lt with rfl | hlt
        · exact hfull
        · exact ih hlt hj
      · omega

/-- Where the word that the loop stops at has a zero bit, the lowest one is found. -/
theorem findFirstZeroBit_eq {bitmap : Bitmap} {nr i t : Nat} (hnr : (nr + 1) * 64 ≤ 2 ^ 32)
    (hi : firstNotFull bitmap nr 0 = i) (hset : (~~~(bitmap i)).getLsbD t = true)
    (hlow : ∀ s < t, (~~~(bitmap i)).getLsbD s = false) : bitmapFindFirstZeroBit bitmap nr = i * 64 + t := by
  have hle := (firstNotFull_le bitmap nr 0).2
  rw [hi, Nat.zero_add] at hle
  have ht : t < 64 := BitVec.lt_of_getLsbD hset
  rw [bitmapFindFirstZeroBit, hi]
  simp only [ffs64_eq hset hlow]
  rw [if_pos (Nat.succ_ne_zero t), Nat.add_sub_cancel]
  exact Nat.mod_eq_of_lt (by omega)

/-- Without a zero bit there, the result is `-1UL`, cut off. -/
theorem findFirstZeroBit_of_full {bitmap : Bitmap} {nr : Nat}
    (h : ~~~(bitmap (firstNotFull bitmap nr 0)) = 0#64) : bitmapFindFirstZeroBit bitmap nr = 2 ^ 32 - 1 := by
  rw [bitmapFindFirstZeroBit]
  simp only [h, ffs64_zero]
  norm_num

/-- **The bits before the one that was found are set**, those of the bitmap. -/
theorem marked_of_lt_findFirstZeroBit {bitmap : Bitmap} {nr n : Nat} (hnr : (nr + 1) * 64 ≤ 2 ^ 32)
    (hn : n < nr * 64) (h : n < bitmapFindFirstZeroBit bitmap nr) : bitmapGetBit bitmap n = true := by
  generalize hi : firstNotFull bitmap nr 0 = i
  have hmod : n % 64 < 64 := Nat.mod_lt n (by decide)
  have hofFull : ∀ j, n / 64 = j → (~~~(bitmap j)).getLsbD (n % 64) = false → bitmapGetBit bitmap n = true := by
    rintro j rfl hbit
    simpa [bitmapGetBit, hmod] using hbit
  by_cases hword : n / 64 < i
  · refine hofFull _ rfl ?_
    rw [full_of_lt_firstNotFull bitmap (Nat.zero_le _) (hi ▸ hword)]
    exact BitVec.getLsbD_zero
  · -- the loop stopped at a word of the bitmap
    have hstop : ~~~(bitmap i) ≠ 0#64 := by
      have := firstNotFull_spec bitmap nr 0
      rw [hi] at this
      exact this (by omega)
    obtain ⟨t, ht, hset, hlow⟩ := exists_lowest hstop
    rw [findFirstZeroBit_eq hnr hi hset hlow] at h
    exact hofFull i (by omega) (hlow _ (by omega))

/-- **The bit that was found is zero**, if it is one of the bitmap. -/
theorem not_marked_findFirstZeroBit {bitmap : Bitmap} {nr : Nat} (hnr : (nr + 1) * 64 ≤ 2 ^ 32)
    (h : bitmapFindFirstZeroBit bitmap nr < nr * 64) :
    bitmapGetBit bitmap (bitmapFindFirstZeroBit bitmap nr) = false := by
  generalize hi : firstNotFull bitmap nr 0 = i
  by_cases hzero : ~~~(bitmap i) = 0#64
  · rw [findFirstZeroBit_of_full (hi ▸ hzero)] at h
    omega
  · obtain ⟨t, ht, hset, hlow⟩ := exists_lowest hzero
    rw [findFirstZeroBit_eq hnr hi hset hlow, bitmapGetBit, show (i * 64 + t) / 64 = i by omega,
      show (i * 64 + t) % 64 = t by omega]
    simpa [ht] using hset

/-- A bitmap that was just cleared has its first bit free. -/
theorem findFirstZeroBit_clear (bitmap : Bitmap) {nr : Nat} (hnr : 0 < nr) :
    bitmapFindFirstZeroBit (bitmapClear bitmap nr) nr = 0 := by
  obtain ⟨n, rfl⟩ := Nat.exists_eq_succ_of_ne_zero hnr.ne'
  have hfirst : firstNotFull (bitmapClear bitmap (n + 1)) (n + 1) 0 = 0 := by
    rw [firstNotFull, if_neg]
    simp [bitmapClear]
  have hffs : ffs64 (~~~0#64) = 1 := by decide
  have hword : bitmapClear bitmap (n + 1) 0 = 0#64 := if_pos (Nat.succ_pos n)
  rw [bitmapFindFirstZeroBit, hfirst, hword, hffs]
  rfl

/-! ## The words that are read -/

/-- The words that `bitmap_find_first_zero_bit` reads, with `n` words to go: those that its loop tests, and then the
one where the loop ended. -/
def findFirstZeroBitReads (bitmap : Bitmap) : Nat → Nat → List Nat
  | 0, i => [i]
  | n + 1, i => i :: if ~~~(bitmap i) = 0#64 then findFirstZeroBitReads bitmap n (i + 1) else [i]

theorem mem_findFirstZeroBitReads (bitmap : Bitmap) {n i j : Nat} :
    j ∈ findFirstZeroBitReads bitmap n i ↔ i ≤ j ∧ j ≤ firstNotFull bitmap n i := by
  induction n generalizing i with
  | zero =>
      rw [findFirstZeroBitReads, firstNotFull, List.mem_singleton]
      omega
  | succ n ih =>
      rw [findFirstZeroBitReads, firstNotFull, List.mem_cons]
      split
      · have hle := (firstNotFull_le bitmap n (i + 1)).1
        rw [ih]
        omega
      · rw [List.mem_singleton]
        omega

/-- The loop stops before the end when a word is not full. -/
theorem firstNotFull_lt_iff (bitmap : Bitmap) (n i : Nat) :
    firstNotFull bitmap n i < i + n ↔ ∃ j, i ≤ j ∧ j < i + n ∧ ~~~(bitmap j) ≠ 0#64 := by
  constructor
  · intro hlt
    exact ⟨_, (firstNotFull_le bitmap n i).1, hlt, firstNotFull_spec bitmap n i hlt⟩
  · rintro ⟨j, hle, hlt, hfree⟩
    by_contra hend
    exact hfree (full_of_lt_firstNotFull bitmap hle (hlt.trans_le (not_lt.mp hend)))

/-- **The search stays inside the bitmap** when one of its bits is zero, and only then. -/
theorem reads_lt_iff (bitmap : Bitmap) (nr : Nat) :
    (∀ i ∈ findFirstZeroBitReads bitmap nr 0, i < nr) ↔ ∃ n < nr * 64, bitmapGetBit bitmap n = false := by
  have hstop : (∀ i ∈ findFirstZeroBitReads bitmap nr 0, i < nr) ↔ firstNotFull bitmap nr 0 < 0 + nr := by
    rw [Nat.zero_add]
    constructor
    · intro h
      exact h _ ((mem_findFirstZeroBitReads bitmap).mpr ⟨Nat.zero_le _, le_rfl⟩)
    · intro hlt i hi
      exact ((mem_findFirstZeroBitReads bitmap).mp hi).2.trans_lt hlt
  rw [hstop, firstNotFull_lt_iff]
  constructor
  · rintro ⟨j, -, hlt, hfree⟩
    obtain ⟨t, ht, hset, -⟩ := exists_lowest hfree
    refine ⟨j * 64 + t, by omega, ?_⟩
    rw [bitmapGetBit, show (j * 64 + t) / 64 = j by omega, show (j * 64 + t) % 64 = t by omega]
    simpa [ht] using hset
  · rintro ⟨n, hn, hbit⟩
    refine ⟨n / 64, Nat.zero_le _, by omega, fun hfull => ?_⟩
    have hone : (~~~(bitmap (n / 64))).getLsbD (n % 64) = true := by
      simpa [Nat.mod_lt, bitmapGetBit] using hbit
    rw [hfull, BitVec.getLsbD_zero] at hone
    cases hone

end Jrinx
