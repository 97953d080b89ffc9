import Mathlib.Data.Nat.Digits.Lemmas

/-! # Numerals

The texts that denote numbers in a base up to 16, with the digits beyond 9 as letters of either case.

* **`digitOf`**, **`numeral`** — a digit, and the text that denotes a number.
* **`valueOf`** — the number that a text denotes, whatever spaces stand around it.
* **`valueOf_numeral`** — a numeral denotes its number, also behind zeros and between spaces. -/

namespace Jrinx

/-- The character of a digit. -/
def digitOf (upcase : Bool) (d : Nat) : Char :=
  if d ≤ 9 then Char.ofNat ('0'.toNat + d)
  else if upcase then Char.ofNat ('A'.toNat + d - 10)
  else Char.ofNat ('a'.toNat + d - 10)

/-- The digit of a character. -/
def digitVal (c : Char) : Nat :=
  if c ≤ '9' then c.toNat - '0'.toNat
  else if c ≤ 'F' then c.toNat - 'A'.toNat + 10
  else c.toNat - 'a'.toNat + 10

/-- The digits of a number, the last one first; at least one. -/
def lsdDigits (b v : Nat) : List Nat := if v = 0 then [0] else Nat.digits b v

/-- **The text that denotes a number.** -/
def numeral (b : Nat) (upcase : Bool) (v : Nat) : List Char := ((lsdDigits b v).map (digitOf upcase)).reverse

/-- The number that a text denotes; spaces are skipped. -/
def valueOf (b : Nat) (text : List Char) : Nat :=
  (text.filter (· ≠ ' ')).foldl (fun v c => v * b + digitVal c) 0

variable {b v k : Nat} {up : Bool}

/-- The last digit is the remainder, and the others are those of the quotient. -/
theorem lsdDigits_eq (hb : 2 ≤ b) (v : Nat) :
    lsdDigits b v = v % b :: if v / b = 0 then [] else lsdDigits b (v / b) := by
  by_cases hv : v = 0
  · subst hv
    rw [lsdDigits, if_pos rfl, Nat.zero_mod, Nat.zero_div, if_pos rfl]
  · rw [lsdDigits, if_neg hv, Nat.digits_def' hb (Nat.pos_of_ne_zero hv)]
    by_cases hq : v / b = 0
    · rw [if_pos hq, hq, Nat.digits_zero]
    · rw [if_neg hq, lsdDigits, if_neg hq]

theorem ofDigits_lsdDigits (b v : Nat) : Nat.ofDigits b (lsdDigits b v) = v := by
  rw [lsdDigits]
  split
  · rename_i hv
    rw [hv, Nat.ofDigits_singleton]
  · exact Nat.ofDigits_digits b v

theorem lsdDigits_lt (hb : 2 ≤ b) {d : Nat} (hd : d ∈ lsdDigits b v) : d < b := by
  rw [lsdDigits] at hd
  split at hd
  · rw [List.mem_singleton.mp hd]
    omega
  · exact Nat.digits_lt_base hb hd

theorem length_lsdDigits_le (hb : 2 ≤ b) (hk : k ≠ 0) (hv : v < b ^ k) : (lsdDigits b v).length ≤ k := by
  rw [lsdDigits]
  split
  · exact Nat.pos_of_ne_zero hk
  · exact (Nat.digits_length_le_iff hb v).mpr hv

@[simp] theorem length_numeral (b : Nat) (up : Bool) (v : Nat) :
    (numeral b up v).length = (lsdDigits b v).length := by
  simp [numeral]

theorem lsdDigits_length_pos (b v : Nat) : 0 < (lsdDigits b v).length := by
  rw [lsdDigits]
  split
  · exact Nat.one_pos
  · rename_i hv
    exact List.length_pos_iff.mpr (Nat.digits_ne_nil_iff_ne_zero.mpr hv)

/-! ## Reading -/

theorem digitOf_ne_space {d : Nat} (hd : d < 16) (up : Bool) : digitOf up d ≠ ' ' := by
  have hall : ∀ d < 16, ∀ up, digitOf up d ≠ ' ' := by decide
  exact hall d hd up

theorem digitVal_digitOf {d : Nat} (hd : d < 16) (up : Bool) : digitVal (digitOf up d) = d := by
  have hall : ∀ d < 16, ∀ up, digitVal (digitOf up d) = d := by decide
  exact hall d hd up

@[simp] theorem valueOf_spaces_append (b n : Nat) (text : List Char) :
    valueOf b (List.replicate n ' ' ++ text) = valueOf b text := by
  simp [valueOf]

@[simp] theorem valueOf_append_spaces (b n : Nat) (text : List Char) :
    valueOf b (text ++ List.replicate n ' ') = valueOf b text := by
  simp [valueOf]

@[simp] theorem valueOf_zeros_append (b n : Nat) (text : List Char) :
    valueOf b (List.replicate n '0' ++ text) = valueOf b text := by
  have hzeros : ∀ n, (List.replicate n '0').foldl (fun v c => v * b + digitVal c) 0 = 0 := by
    intro n
    induction n with
    | zero => rfl
    | succ n ih => rw [List.replicate_succ, List.foldl_cons, Nat.zero_mul]; exact ih
  have hfilter : (List.replicate n '0').filter (· ≠ ' ') = List.replicate n '0' := by simp
  rw [valueOf, List.filter_append, hfilter, List.foldl_append, hzeros]
  rfl

/-- **A numeral denotes its number.** -/
theorem valueOf_numeral (hb : 2 ≤ b) (hb' : b ≤ 16) (up : Bool) (v : Nat) : valueOf b (numeral b up v) = v := by
  have hdigit : ∀ d ∈ lsdDigits b v, d < 16 := fun d hd => (lsdDigits_lt hb hd).trans_le hb'
  have hfilter : (numeral b up v).filter (· ≠ ' ') = numeral b up v := by
    rw [List.filter_eq_self]
    intro c hc
    obtain ⟨d, hd, rfl⟩ := List.mem_map.mp (List.mem_reverse.mp hc)
    exact decide_eq_true (digitOf_ne_space (hdigit d hd) up)
  rw [valueOf, hfilter, numeral, List.foldl_reverse, List.foldr_map]
  calc (lsdDigits b v).foldr (fun d v => v * b + digitVal (digitOf up d)) 0
      = Nat.ofDigits b (lsdDigits b v) := by
        rw [Nat.ofDigits_eq_foldr]
        generalize lsdDigits b v = l at hdigit
        induction l with
        | nil => rfl
        | cons d l ih =>
            have hd := digitVal_digitOf (hdigit d List.mem_cons_self) up
            rw [List.foldr_cons, List.foldr_cons, ih fun d hd => hdigit d (List.mem_cons_of_mem _ hd), hd]
            simp [Nat.add_comm, Nat.mul_comm]
    _ = v := ofDigits_lsdDigits b v

end Jrinx
