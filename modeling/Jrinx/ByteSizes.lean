import Jrinx.Boot.Bootargs
import Jrinx.Printfmt

/-! # Sizes in bytes

`%pB` puts out a size as a sum over the units, the largest one first. The recursion goes to the leading digit of the
size to base 1024, and the level that it has reached there is the index of the unit. The table ends at the fifth unit,
so that sizes below `2 ^ 50` are printed exactly, and all others read beyond it.

* **`ByteSum`** — a size as a sum of terms.
* **`byteTerms`**, **`unitReads`** — the terms that the recursion puts out, and the units that it reads.
* **`printBytesStyleRec_eq`** — the recursion puts out the terms where it finds their units.
* **`printsBytes_iff`** — when the size is printed. -/

namespace Jrinx

/-! ## What the conversion stands for -/

/-- A term of a sum: a number, and the level of its unit. -/
structure ByteTerm where
  count : Nat
  level : Nat
  deriving DecidableEq, Repr

/-- The units up to the largest one that a size of 64 bits needs. -/
def unitNames : List String := ["B", "KiB", "MiB", "GiB", "TiB", "PiB", "EiB"]

namespace ByteTerm

/-- The bytes that the term stands for. -/
def value (t : ByteTerm) : Nat := t.count * 1024 ^ t.level

/-- The text of the term. -/
def text (t : ByteTerm) : List Char := numeral 10 false t.count ++ ' ' :: (unitNames.getD t.level "").toList

end ByteTerm

/-- The text of a sum. -/
def sumText (terms : List ByteTerm) : List Char := " + ".toList.intercalate (terms.map ByteTerm.text)

/-- **A size as a sum**: numbers from 1 to 1023 with units in strictly decreasing order. -/
structure ByteSum (size : Nat) where
  terms : List ByteTerm
  counts : ∀ t ∈ terms, 1 ≤ t.count ∧ t.count ≤ 1023
  units : ∀ t ∈ terms, t.level < unitNames.length
  sorted : terms.Pairwise fun s t => t.level < s.level
  total : (terms.map ByteTerm.value).sum = size

/-- The text that `%pB` stands for. -/
def DenotesBytes (size : BitVec 64) (out : List Char) : Prop :=
  if size = 0 then out = "0".toList else ∃ s : ByteSum size.toNat, out = sumText s.terms

/-! ## The terms of the recursion -/

/-- The levels at which `_print_bytes_style` reads the table of the units, in the order of the reads. -/
def unitReads : Nat → BitVec 64 → Nat → List Nat
  | 0, _, _ => []
  | n + 1, size, shift =>
      if size = 0 ∧ shift = 0 then []
      else
        let rem := size &&& ((1#64 <<< 10) - 1)
        let quo := size >>> 10
        (if quo ≠ 0 then unitReads n quo (shift + 1) else []) ++ if rem ≠ 0 then [shift] else []

/-- The term of the last digit; of a zero there is none. -/
def lastTerm (size shift : Nat) : List ByteTerm := if size % 1024 ≠ 0 then [⟨size % 1024, shift⟩] else []

/-- The terms that are put out, for at most `n` digits. -/
def byteTerms : Nat → Nat → Nat → List ByteTerm
  | 0, _, _ => []
  | n + 1, size, shift => byteTerms n (size / 1024) (shift + 1) ++ lastTerm size shift

variable {n k size shift : Nat} {t : ByteTerm}

@[simp] theorem byteTerms_zero (n shift : Nat) : byteTerms n 0 shift = [] := by
  induction n generalizing shift with
  | zero => rfl
  | succ n ih => simp [byteTerms, lastTerm, ih]

/-- A term is of the last digit, or of those in front of it. -/
theorem mem_byteTerms_succ :
    t ∈ byteTerms (n + 1) size shift ↔
      t ∈ byteTerms n (size / 1024) (shift + 1) ∨ size % 1024 ≠ 0 ∧ t = ⟨size % 1024, shift⟩ := by
  rw [byteTerms, List.mem_append, lastTerm]
  split <;> simp_all

theorem count_of_mem (ht : t ∈ byteTerms n size shift) : 1 ≤ t.count ∧ t.count ≤ 1023 := by
  induction n generalizing size shift with
  | zero => cases ht
  | succ n ih =>
      rcases mem_byteTerms_succ.mp ht with ht | ⟨hrem, rfl⟩
      · exact ih ht
      · dsimp only
        omega

theorem le_level_of_mem (ht : t ∈ byteTerms n size shift) : shift ≤ t.level := by
  induction n generalizing size shift with
  | zero => cases ht
  | succ n ih =>
      rcases mem_byteTerms_succ.mp ht with ht | ⟨-, rfl⟩
      · exact (Nat.le_succ shift).trans (ih ht)
      · exact Nat.le_refl shift

/-- A size of `k` digits has no unit from the level `k` on. -/
theorem level_lt_of_mem (hsize : size < 1024 ^ k) (ht : t ∈ byteTerms n size shift) : t.level < shift + k := by
  induction n generalizing size shift k with
  | zero => cases ht
  | succ n ih =>
      cases k with
      | zero =>
          obtain rfl := Nat.lt_one_iff.mp hsize
          rw [byteTerms_zero] at ht
          cases ht
      | succ k =>
          rcases mem_byteTerms_succ.mp ht with ht | ⟨-, rfl⟩
          · rw [Nat.pow_succ] at hsize
            have hlt : size / 1024 < 1024 ^ k := Nat.div_lt_of_lt_mul (by omega)
            have := ih hlt ht
            omega
          · dsimp only
            omega

/-- The terms come from the leading digit on. -/
theorem byteTerms_sorted (n size shift : Nat) : (byteTerms n size shift).Pairwise fun s t => t.level < s.level := by
  induction n generalizing size shift with
  | zero => exact List.Pairwise.nil
  | succ n ih =>
      rw [byteTerms, lastTerm, List.pairwise_append]
      refine ⟨ih _ _, by split <;> simp, fun s hs t ht => ?_⟩
      -- the digits in front are of the levels from `shift + 1` on
      have hs := le_level_of_mem hs
      split at ht
      · obtain rfl := List.mem_singleton.mp ht
        exact hs
      · cases ht

/-- **The terms sum up to the size.** -/
theorem sum_byteTerms (shift : Nat) (hsize : size < 1024 ^ n) :
    ((byteTerms n size shift).map ByteTerm.value).sum = size * 1024 ^ shift := by
  induction n generalizing size shift with
  | zero =>
      obtain rfl := Nat.lt_one_iff.mp hsize
      simp [byteTerms]
  | succ n ih =>
      rw [Nat.pow_succ] at hsize
      have hquo := ih (shift + 1) (Nat.div_lt_of_lt_mul (by omega) : size / 1024 < 1024 ^ n)
      have hrem : ((lastTerm size shift).map ByteTerm.value).sum = size % 1024 * 1024 ^ shift := by
        rw [lastTerm]
        split
        · simp [ByteTerm.value]
        · simp_all
      calc ((byteTerms (n + 1) size shift).map ByteTerm.value).sum
          = size / 1024 * 1024 ^ (shift + 1) + size % 1024 * 1024 ^ shift := by
            rw [byteTerms, List.map_append, List.sum_append, hquo, hrem]
        _ = (1024 * (size / 1024) + size % 1024) * 1024 ^ shift := by
            rw [Nat.pow_succ]
            ring
        _ = size * 1024 ^ shift := by rw [Nat.div_add_mod]

/-- Of a size that is not zero there is a term. -/
theorem byteTerms_ne_nil (shift : Nat) (hsize : size < 1024 ^ n) (hne : size ≠ 0) : byteTerms n size shift ≠ [] := by
  intro hnil
  have hsum := sum_byteTerms shift hsize
  rw [hnil] at hsum
  have hpos := Nat.mul_pos (Nat.pos_of_ne_zero hne) (Nat.pow_pos (n := shift) (show 0 < 1024 by omega))
  simp at hsum
  omega

/-- **The leading digit** has a term, at its own level. -/
theorem exists_level_le (shift : Nat) (hsize : size < 1024 ^ n) (hk : 1024 ^ k ≤ size) :
    ∃ t ∈ byteTerms n size shift, shift + k ≤ t.level := by
  induction n generalizing size shift k with
  | zero =>
      obtain rfl := Nat.lt_one_iff.mp hsize
      exact absurd hk (Nat.not_le.mpr (Nat.pow_pos (by omega)))
  | succ n ih =>
      cases k with
      | zero =>
          have hne : size ≠ 0 := by omega
          obtain ⟨t, ht⟩ := List.exists_mem_of_ne_nil _ (byteTerms_ne_nil shift hsize hne)
          exact ⟨t, ht, le_level_of_mem ht⟩
      | succ k =>
          rw [Nat.pow_succ] at hsize hk
          have hlt : size / 1024 < 1024 ^ n := Nat.div_lt_of_lt_mul (by omega)
          have hle : 1024 ^ k ≤ size / 1024 := (Nat.le_div_iff_mul_le (by omega)).mpr hk
          obtain ⟨t, ht, hlevel⟩ := ih (shift + 1) hlt hle
          exact ⟨t, mem_byteTerms_succ.mpr (Or.inl ht), by omega⟩

/-! ## What is put out -/

variable {s : BitVec 64}

theorem toNat_bytesRem (s : BitVec 64) : (s &&& ((1#64 <<< 10) - 1)).toNat = s.toNat % 1024 := by
  have hmask : ((1#64 <<< 10) - 1).toNat = 2 ^ 10 - 1 := by decide
  rw [BitVec.toNat_and, hmask, Nat.and_two_pow_sub_one_eq_mod]

theorem toNat_bytesQuo (s : BitVec 64) : (s >>> 10).toNat = s.toNat / 1024 := by
  rw [BitVec.toNat_ushiftRight, Nat.shiftRight_eq_div_pow]

theorem bitVec_ne_zero_iff : s ≠ 0 ↔ s.toNat ≠ 0 := by
  rw [Ne, ← BitVec.toNat_inj]
  rfl

/-- One more term stands behind a separator, if there is one to separate. -/
theorem sumText_concat (terms : List ByteTerm) (t : ByteTerm) :
    sumText (terms ++ [t]) = sumText terms ++ (if terms ≠ [] then " + ".toList else []) ++ t.text := by
  induction terms with
  | nil => simp [sumText]
  | cons s terms ih =>
      cases terms with
      | nil => simp [sumText]
      | cons s' terms => simp_all [sumText]

/-- The unit that is read is the one of the term. -/
theorem byteUnit_eq (hshift : shift < byteUnits.length) (c : Nat) :
    ∃ unit, byteUnits[shift]? = some unit ∧
      numeral 10 false c ++ unit.toList.take (if shift ≠ 0 then 4 else 2) = (⟨c, shift⟩ : ByteTerm).text := by
  have hall : ∀ i < 5, (byteUnits[i]?.map fun unit => unit.toList.take (if i ≠ 0 then 4 else 2)) =
      some (' ' :: (unitNames.getD i "").toList) := by decide
  obtain ⟨unit, hunit, htake⟩ := Option.map_eq_some_iff.mp (hall shift hshift)
  exact ⟨unit, hunit, congrArg (numeral 10 false c ++ ·) htake⟩

/-- The units that are read are those of the terms. -/
theorem unitReads_eq (n : Nat) (s : BitVec 64) (shift : Nat) :
    unitReads n s shift = (byteTerms n s.toNat shift).map ByteTerm.level := by
  induction n generalizing s shift with
  | zero => rfl
  | succ n ih =>
      rw [unitReads]
      split
      · rename_i hzero
        rw [hzero.1]
        simp
      · dsimp only
        rw [byteTerms, List.map_append, lastTerm, ← toNat_bytesRem, ← toNat_bytesQuo, ← ih]
        congr 1
        · split
          · rfl
          · rename_i hquo
            rw [not_not.mp hquo, ih]
            simp
        · simp only [bitVec_ne_zero_iff]
          split <;> rfl

/-- What is put out at one level, behind the digits in front. -/
theorem printLast_eq (s : BitVec 64) (shift : Nat) (terms : List ByteTerm) {sep : List Char}
    (hsep : sep = if terms ≠ [] then " + ".toList else []) :
    (if s &&& ((1#64 <<< 10) - 1) ≠ 0 then do
        let num ← printNum (s &&& ((1#64 <<< 10) - 1)) 10 false 0 false ' ' false
        let unit ← byteUnits[shift]?
        some (sumText terms ++ sep ++ num ++ unit.toList.take (if shift ≠ 0 then 4 else 2))
      else some (sumText terms)) =
      if ∀ t ∈ lastTerm s.toNat shift, t.level < byteUnits.length then some (sumText (terms ++ lastTerm s.toNat shift))
      else none := by
  have hnum : printNum (s &&& ((1#64 <<< 10) - 1)) 10 false 0 false ' ' false =
      some (numeral 10 false (s.toNat % 1024)) := by
    rw [← toNat_bytesRem]
    refine (printNum_eq (W := 0) (by omega) (by omega) (Or.inl rfl)).trans ?_
    simp [paddedText]
  by_cases hrem : s &&& ((1#64 <<< 10) - 1) = 0
  · -- the digit is a zero, and nothing is put out
    have hr : s.toNat % 1024 = 0 := by rw [← toNat_bytesRem, hrem]; rfl
    have hlast : lastTerm s.toNat shift = [] := if_neg (not_not.mpr hr)
    rw [if_neg (not_not.mpr hrem), hlast, List.append_nil, if_pos (by simp)]
  · have hr : s.toNat % 1024 ≠ 0 := by rwa [← toNat_bytesRem, ← bitVec_ne_zero_iff]
    have hlast : lastTerm s.toNat shift = [⟨s.toNat % 1024, shift⟩] := if_pos hr
    rw [if_pos hrem, hnum, hlast, Option.bind_eq_bind, Option.bind_some]
    simp only [List.forall_mem_singleton]
    by_cases hshift : shift < byteUnits.length
    · obtain ⟨unit, hunit, htext⟩ := byteUnit_eq hshift (s.toNat % 1024)
      rw [if_pos hshift, hunit, Option.bind_eq_bind, Option.bind_some, sumText_concat, ← htext, hsep]
      simp
    · rw [if_neg hshift, List.getElem?_eq_none (Nat.not_lt.mp hshift)]
      rfl

/-- **The recursion puts out the terms**, where it finds their units. -/
theorem printBytesStyleRec_eq (shift : Nat) (hsize : s.toNat < 1024 ^ n) (hne : s ≠ 0) :
    printBytesStyleRec n s shift =
      if ∀ t ∈ byteTerms n s.toNat shift, t.level < byteUnits.length then
        some (sumText (byteTerms n s.toNat shift))
      else none := by
  induction n generalizing s shift with
  | zero => exact absurd (Nat.lt_one_iff.mp hsize) (bitVec_ne_zero_iff.mp hne)
  | succ n ih =>
      rw [Nat.pow_succ] at hsize
      have hlt : s.toNat / 1024 < 1024 ^ n := Nat.div_lt_of_lt_mul (by omega)
      rw [printBytesStyleRec, if_neg fun h => hne h.1]
      dsimp only
      by_cases hquo : s >>> 10 = 0
      · -- this is the leading digit
        have hzero : s.toNat / 1024 = 0 := by rw [← toNat_bytesQuo, hquo]; rfl
        have hterms : byteTerms (n + 1) s.toNat shift = lastTerm s.toNat shift := by
          rw [byteTerms, hzero, byteTerms_zero, List.nil_append]
        rw [if_neg (not_not.mpr hquo), hterms]
        exact printLast_eq s shift [] (by rw [if_neg (not_not.mpr hquo), if_neg (not_not.mpr rfl)])
      · have hne' : byteTerms n (s.toNat / 1024) (shift + 1) ≠ [] :=
          byteTerms_ne_nil _ hlt (by rwa [← toNat_bytesQuo, ← bitVec_ne_zero_iff])
        have hpre := ih (shift + 1) (by rwa [toNat_bytesQuo]) hquo
        rw [toNat_bytesQuo] at hpre
        rw [if_pos hquo, hpre, byteTerms]
        simp only [List.forall_mem_append]
        by_cases hunits : ∀ t ∈ byteTerms n (s.toNat / 1024) (shift + 1), t.level < byteUnits.length
        · rw [if_pos hunits]
          refine (printLast_eq s shift _ (by rw [if_pos hquo, if_pos hne'])).trans ?_
          exact if_congr (and_iff_right hunits).symm rfl rfl
        · rw [if_neg hunits]
          exact (if_neg fun h => hunits h.1).symm

/-- A size has at most seven digits. -/
theorem toNat_lt_pow (s : BitVec 64) : s.toNat < 1024 ^ 7 := s.isLt.trans (by decide)

/-- The table has the units of the sizes below `2 ^ 50`, and of no others. -/
theorem units_iff (s : BitVec 64) :
    (∀ t ∈ byteTerms 7 s.toNat 0, t.level < byteUnits.length) ↔ s.toNat < 2 ^ 50 := by
  have hpow : 2 ^ 50 = 1024 ^ byteUnits.length := by decide
  rw [hpow]
  constructor
  · intro h
    by_contra hs
    obtain ⟨t, ht, hle⟩ := exists_level_le 0 (toNat_lt_pow s) (Nat.not_lt.mp hs)
    have := h t ht
    omega
  · intro hs t ht
    have := level_lt_of_mem hs ht
    omega

/-- The sum of a size. -/
def byteSum (s : BitVec 64) : ByteSum s.toNat where
  terms := byteTerms 7 s.toNat 0
  counts _ ht := count_of_mem ht
  units t ht := by
    have := level_lt_of_mem (toNat_lt_pow s) ht
    rwa [Nat.zero_add] at this
  sorted := byteTerms_sorted 7 s.toNat 0
  total := by rw [sum_byteTerms 0 (toNat_lt_pow s), Nat.pow_zero, Nat.mul_one]

/-- **`print_bytes_style`** prints the sum, where its table has the units. -/
theorem printBytesStyle_eq (s : BitVec 64) :
    printBytesStyle s =
      if s.toNat < 2 ^ 50 then some (if s = 0 then "0".toList else sumText (byteSum s).terms) else none := by
  by_cases hs : s = 0
  · subst hs
    rfl
  · rw [if_neg hs, printBytesStyle, printBytesStyleRec_eq 0 (toNat_lt_pow s) hs]
    exact if_congr (units_iff s) rfl rfl

theorem denotesBytes_byteSum (s : BitVec 64) :
    DenotesBytes s (if s = 0 then "0".toList else sumText (byteSum s).terms) := by
  rw [DenotesBytes]
  split
  · rfl
  · exact ⟨byteSum s, rfl⟩

/-- `%pB` prints what `print_bytes_style` does. -/
theorem fmtDirective_bytes (s : BitVec 64) (rest : List Char) (ap : List VaArg) :
    fmtDirective ('p' :: 'B' :: rest) (.bytes s :: ap) = (printBytesStyle s).map fun out => (out, rest, ap) := by
  show ((printBytesStyle s).bind fun out => some (out, rest, ap)) = _
  cases printBytesStyle s <;> rfl

/-! ## When a size is printed -/

/-- **A size is printed**: the units that are read are in their table, and the text is what the conversion stands for,
wherever it stands in a format. -/
def PrintsBytes (size : BitVec 64) : Prop :=
  (∀ i ∈ unitReads 7 size 0, i < byteUnits.length) ∧
    ∃ out, DenotesBytes size out ∧ ∀ pre rest ap t, '%' ∉ pre → vprintfmt rest ap = some t →
      vprintfmt (pre ++ "%pB".toList ++ rest) (.bytes size :: ap) = some (pre ++ out ++ t)

theorem unitReads_iff (s : BitVec 64) : (∀ i ∈ unitReads 7 s 0, i < byteUnits.length) ↔ s.toNat < 2 ^ 50 := by
  rw [unitReads_eq, List.forall_mem_map, units_iff]

/-- Below `2 ^ 50` a size is printed. -/
theorem printsBytes_of_lt (hs : s.toNat < 2 ^ 50) : PrintsBytes s := by
  refine ⟨(unitReads_iff s).mpr hs, _, denotesBytes_byteSum s, fun pre rest ap t hpre ht => ?_⟩
  have hfmt : pre ++ "%pB".toList ++ rest = pre ++ '%' :: 'p' :: 'B' :: rest := by simp
  rw [hfmt, vprintfmt_directive hpre (List.cons_ne_nil _ _), fmtDirective_bytes, printBytesStyle_eq, if_pos hs,
    Option.map_some, Option.bind_some, ht]
  rfl

/-- **A size is printed** iff it is below `2 ^ 50`. -/
theorem printsBytes_iff (size : BitVec 64) : PrintsBytes size ↔ size.toNat < 2 ^ 50 :=
  ⟨fun h => (unitReads_iff size).mp h.1, printsBytes_of_lt⟩

/-- The memory `-1` of a configuration reaches both levels that have no unit. -/
theorem printsBytes_wrong :
    (∃ pcs, confDecode (plainField partField) 5 40 (fun _ => true) (fun _ => ⟨"", "", 0, 0, 0⟩)
        "name=p,prog=app,memory=-1,period=100,duration=10".toList = .ok pcs ∧
      pcs.map PartConf.paMemReq = [2 ^ 64 - 1]) ∧
      unitReads 7 (BitVec.ofNat 64 (2 ^ 64 - 1)) 0 = [6, 5, 4, 3, 2, 1, 0] ∧ byteUnits.length = 5 ∧
      vprintfmt "%pB".toList [.bytes (BitVec.ofNat 64 (2 ^ 64 - 1))] = none ∧
      ¬ ∀ size, PrintsBytes size := by
  have hreads : unitReads 7 (BitVec.ofNat 64 (2 ^ 64 - 1)) 0 = [6, 5, 4, 3, 2, 1, 0] := by decide
  refine ⟨⟨_, rfl, by decide⟩, hreads, rfl, by decide, fun h => ?_⟩
  have hbound := (h (BitVec.ofNat 64 (2 ^ 64 - 1))).1 6 (by rw [hreads]; exact List.mem_cons_self)
  exact absurd hbound (by decide)

/-- **The memory of a partition is printed** iff its configuration denotes no negative number. -/
theorem printsBytes_memory_iff {value : String} {pc pc' : PartConf} (h : partField "memory" value pc = some pc') :
    PrintsBytes (BitVec.ofNat 64 pc'.paMemReq) ↔ 0 ≤ atoi value := by
  have hatoi : -2 ^ 31 ≤ atoi value ∧ atoi value < 2 ^ 31 := by
    have hle := Int.le_bmod (x := strtol value) (m := 2 ^ 32) (by omega)
    have hlt := Int.bmod_lt (x := strtol value) (m := 2 ^ 32) (by omega)
    unfold atoi
    omega
  have hmem : pc'.paMemReq = sizeOfInt (atoi value) := by
    simp [partField] at h
    rw [← h.2]
  have hiff : (BitVec.ofNat 64 pc'.paMemReq).toNat < 2 ^ 50 ↔ 0 ≤ atoi value := by
    rw [hmem, BitVec.toNat_ofNat, sizeOfInt]
    omega
  rw [← hiff, ← unitReads_iff]
  exact ⟨fun hp => hp.1, fun hreads => printsBytes_of_lt ((unitReads_iff _).mp hreads)⟩

end Jrinx
