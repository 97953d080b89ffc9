import Jrinx.Lib.Signed
import Jrinx.Sched
import Mathlib.Algebra.GCDMonoid.Nat
import Mathlib.Data.Int.GCD

/-! # The major frame

`lib/arithmetic.c` and the loop of `sched_launch` over the partitions. `gcd` takes two remainders in the
condition of its loop, and `lcm` multiplies before it divides, in the arithmetic of an `intmax_t`.

* **`gcd`**, **`lcm`** — the two functions.
* **`gcd_eq`**, **`lcm_eq_iff`** — they are right, `lcm` exactly as long as the product fits.
* **`launchFrame`** — the major frame that `sched_launch` computes.
* **`major_frame_iff`** — it is the least common multiple of the periods, and of those passed so far, iff
  every product on the way fits. -/

namespace Jrinx

/-! ## The functions -/

/-- The remainders get smaller from round to round. -/
theorem natAbs_tmod_tmod_lt {a b : Int} (ha : a.tmod b ≠ 0) (hb : b.tmod (a.tmod b) ≠ 0) :
    (b.tmod (a.tmod b)).natAbs < b.natAbs := by
  have hne : b ≠ 0 := by
    rintro rfl
    exact hb (Int.zero_tmod _)
  have hrem : (a.tmod b).natAbs < b.natAbs := by
    rw [Int.natAbs_tmod]
    exact Nat.mod_lt _ (Int.natAbs_pos.mpr hne)
  rw [Int.natAbs_tmod b]
  exact (Nat.mod_lt _ (Int.natAbs_pos.mpr ha)).trans hrem

/-- The loop `while ((a %= b) && (b %= a))`, which is entered with `b ≠ 0`, and the sum after it. -/
def gcdLoop (a b : Int) : Int :=
  if a.tmod b = 0 then a.tmod b + b
  else if b.tmod (a.tmod b) = 0 then a.tmod b + b.tmod (a.tmod b)
  else gcdLoop (a.tmod b) (b.tmod (a.tmod b))
termination_by b.natAbs
decreasing_by exact natAbs_tmod_tmod_lt ‹_› ‹_›

/-- `gcd`. -/
def gcd (a b : Int) : Int := if b ≠ 0 then gcdLoop a b else a + b

/-- The quotient of two `intmax_t`. The instruction does not trap: a division by zero has the result `-1`. -/
def quot (a b : Int) : Int := if b = 0 then -1 else signed 64 (a.tdiv b)

/-- `lcm`. -/
def lcm (a b : Int) : Int := quot (signed 64 (a * b)) (gcd a b)

/-- The major frame, over the periods of the partitions. -/
def launchFrame (periods : List Int) : Int := periods.foldl lcm 1

/-! ## The greatest common divisor -/

/-- A remainder does not change the common divisors. -/
theorem gcd_tmod {a : Int} (b : Int) (ha : 0 ≤ a) : Int.gcd (a.tmod b) b = Int.gcd a b := by
  rw [Int.tmod_eq_emod_of_nonneg ha, Int.gcd_emod]

/-- The loop keeps the greatest common divisor, and one of the two numbers is zero at its end. -/
theorem gcdLoop_eq {a b : Int} (ha : 0 ≤ a) (hb : 0 < b) : gcdLoop a b = Int.gcd a b := by
  fun_induction gcdLoop a b with
  | case1 a b hzero =>
      rw [← gcd_tmod b ha, hzero, Int.gcd_zero_left, Int.zero_add, Int.natAbs_of_nonneg hb.le]
  | case2 a b hne hzero =>
      have hrem : 0 ≤ a.tmod b := Int.tmod_nonneg b ha
      rw [← gcd_tmod b ha, Int.gcd_comm, ← gcd_tmod (a.tmod b) hb.le, hzero, Int.gcd_zero_left, Int.add_zero,
        Int.natAbs_of_nonneg hrem]
  | case3 a b hne hne' ih =>
      have hrem : 0 ≤ a.tmod b := Int.tmod_nonneg b ha
      have hpos : 0 < b.tmod (a.tmod b) := lt_of_le_of_ne (Int.tmod_nonneg _ hb.le) (Ne.symm hne')
      rw [ih hrem hpos, ← gcd_tmod b ha, Int.gcd_comm, gcd_tmod (a.tmod b) hb.le, Int.gcd_comm]

/-- **`gcd` returns the greatest common divisor** of numbers that are not negative. -/
theorem gcd_eq {a b : Int} (ha : 0 ≤ a) (hb : 0 ≤ b) : gcd a b = Int.gcd a b := by
  unfold gcd
  split
  · rename_i hne
    exact gcdLoop_eq ha (lt_of_le_of_ne hb (Ne.symm hne))
  · rename_i hzero
    rw [not_not.mp hzero, Int.add_zero, Int.gcd_zero_right, Int.natAbs_of_nonneg ha]

/-! ## The least common multiple -/

theorem fitsSigned_quot (a b : Int) : FitsSigned 64 (quot a b) := by
  unfold quot
  split
  · decide
  · exact fitsSigned_signed 64 _

/-- By a positive number the quotient is exact. -/
theorem quot_eq {a b : Int} (ha : FitsSigned 64 a) (hb : 0 < b) : quot a b = a.tdiv b := by
  rw [quot, if_neg hb.ne', signed_eq_self]
  obtain ⟨hle, hlt⟩ := ha
  have habs : (a.tdiv b).natAbs ≤ a.natAbs := by
    rw [Int.natAbs_tdiv]
    exact Nat.div_le_self _ _
  rcases lt_or_ge a 0 with hneg | hpos
  · -- the quotient of a negative number is not positive
    have hquot : 0 ≤ (-a).tdiv b := Int.tdiv_nonneg (by omega) hb.le
    rw [Int.neg_tdiv] at hquot
    constructor <;> omega
  · have hquot : 0 ≤ a.tdiv b := Int.tdiv_nonneg hpos hb.le
    constructor <;> omega

/-- **`lcm` is right iff the product fits.** -/
theorem lcm_eq_iff {a b : Int} (ha : 0 < a) (hb : 0 < b) : lcm a b = Int.lcm a b ↔ a * b < 2 ^ 63 := by
  have hg : (0 : Int) < Int.gcd a b := by
    exact_mod_cast Int.gcd_pos_of_ne_zero_left b ha.ne'
  have hmul : (Int.gcd a b : Int) * Int.lcm a b = a * b := by
    have h := Int.gcd_mul_lcm a b
    rw [← Int.natAbs_of_nonneg (mul_pos ha hb).le, Int.natAbs_mul, ← h, Nat.cast_mul]
  rw [lcm, gcd_eq ha.le hb.le, quot_eq (fitsSigned_signed 64 _) hg]
  constructor
  · intro h
    by_contra hbig
    -- the product that was kept is below `2 ^ 63`, so its quotient is too small
    have hfits := (fitsSigned_signed 64 (a * b)).2
    have hlt : signed 64 (a * b) < a * b := by omega
    have hlcm : (0 : Int) < Int.lcm a b := by exact_mod_cast Int.lcm_pos ha.ne' hb.ne'
    rcases lt_or_ge (signed 64 (a * b)) 0 with hneg | hpos
    · have hquot : 0 ≤ (-signed 64 (a * b)).tdiv (Int.gcd a b) := Int.tdiv_nonneg (by omega) hg.le
      rw [Int.neg_tdiv, h] at hquot
      omega
    · have hle := Int.ediv_mul_le (signed 64 (a * b)) hg.ne'
      rw [← Int.tdiv_eq_ediv_of_nonneg hpos, h, mul_comm, hmul] at hle
      omega
  · intro hlt
    have hfits : FitsSigned 64 (a * b) := ⟨by have := mul_pos ha hb; omega, by omega⟩
    rw [signed_eq_self.mpr hfits, ← hmul]
    exact Int.mul_tdiv_cancel_left _ hg.ne'

/-! ## The fold -/

/-- The least common multiple of a list of periods. -/
def periodsLcm (periods : List Int) : Int := periods.foldl (fun acc p => (Int.lcm acc p : Int)) 1

theorem fitsSigned_launchFrame (ps : List Int) : FitsSigned 64 (launchFrame ps) := by
  rcases List.eq_nil_or_concat ps with rfl | ⟨qs, p, rfl⟩
  · decide
  · rw [launchFrame, List.concat_eq_append, List.foldl_append]
    exact fitsSigned_quot _ _

/-- The products of the fold from `acc` on, taken with the exact least common multiples so far, fit. -/
def ProductsFit : Int → List Int → Prop
  | _, [] => True
  | acc, p :: ps => acc * p < 2 ^ 63 ∧ ProductsFit (Int.lcm acc p) ps

instance decidableProductsFit : ∀ (acc : Int) (ps : List Int), Decidable (ProductsFit acc ps)
  | _, [] => isTrue trivial
  | acc, p :: ps =>
      have := decidableProductsFit (Int.lcm acc p) ps
      inferInstanceAs (Decidable (acc * p < 2 ^ 63 ∧ ProductsFit (Int.lcm acc p) ps))

theorem lcm_pos {acc p : Int} (hacc : 0 < acc) (hp : 0 < p) : (0 : Int) < Int.lcm acc p := by
  exact_mod_cast Int.lcm_pos hacc.ne' hp.ne'

theorem foldl_lcm_dvd_iff {acc m : Int} {ps : List Int} :
    ps.foldl (fun acc p => (Int.lcm acc p : Int)) acc ∣ m ↔ acc ∣ m ∧ ∀ p ∈ ps, p ∣ m := by
  induction ps generalizing acc with
  | nil => simp
  | cons p ps ih =>
      have hlcm : (Int.lcm acc p : Int) ∣ m ↔ acc ∣ m ∧ p ∣ m := by
        constructor
        · exact fun h => ⟨(Int.dvd_lcm_left _ _).trans h, (Int.dvd_lcm_right _ _).trans h⟩
        · exact fun h => Int.coe_lcm_dvd h.1 h.2
      rw [List.foldl_cons, ih, hlcm, and_assoc, List.forall_mem_cons]

/-- **It divides exactly the common multiples of the periods.** -/
theorem periodsLcm_dvd_iff {ps : List Int} {m : Int} : periodsLcm ps ∣ m ↔ ∀ p ∈ ps, p ∣ m := by
  rw [periodsLcm, foldl_lcm_dvd_iff]
  simp

/-- The fold from any value on. -/
theorem foldl_lcm_iff {acc : Int} {ps : List Int} (hacc : 0 < acc) (hpos : ∀ p ∈ ps, 0 < p) :
    (∀ qs, qs <+: ps → qs.foldl lcm acc = qs.foldl (fun acc p => (Int.lcm acc p : Int)) acc) ↔
      ProductsFit acc ps := by
  induction ps generalizing acc with
  | nil =>
      refine ⟨fun _ => trivial, fun _ qs hqs => ?_⟩
      rw [List.prefix_nil.mp hqs]
      rfl
  | cons p ps ih =>
      obtain ⟨hp, hps⟩ := List.forall_mem_cons.mp hpos
      have hrest := ih (lcm_pos hacc hp) hps
      constructor
      · intro h
        have hone := h [p] (List.prefix_cons_inj p |>.mpr List.nil_prefix)
        simp only [List.foldl_cons, List.foldl_nil] at hone
        refine ⟨(lcm_eq_iff hacc hp).mp hone, hrest.mp fun qs hqs => ?_⟩
        have hcons := h (p :: qs) ((List.prefix_cons_inj p).mpr hqs)
        simpa only [List.foldl_cons, hone] using hcons
      · rintro ⟨hfit, hfits⟩ qs hqs
        rcases List.prefix_cons_iff.mp hqs with rfl | ⟨rs, rfl, hrs⟩
        · rfl
        · rw [List.foldl_cons, List.foldl_cons, (lcm_eq_iff hacc hp).mpr hfit]
          exact hrest.mpr hfits rs hrs

/-- **The major frame is the least common multiple**: `gcd` returns the greatest common divisor, and the value
of the fold is, after each partition, the least common multiple of the periods so far iff every product on the
way fits. -/
theorem major_frame_iff {ps : List Int} (hpos : ∀ p ∈ ps, 0 < p) :
    (∀ a b, 0 ≤ a → 0 ≤ b → gcd a b = Int.gcd a b) ∧
      ((∀ qs, qs <+: ps → launchFrame qs = periodsLcm qs) ↔ ProductsFit 1 ps) :=
  ⟨fun _ _ ha hb => gcd_eq ha hb, foldl_lcm_iff one_pos hpos⟩

/-- Two partitions with periods of two and three seconds. -/
theorem major_frame_two : launchFrame [2000000, 3000000] = 6000000 := by
  have hpos : ∀ p ∈ ([2000000, 3000000] : List Int), 0 < p := by decide
  obtain ⟨-, hframe⟩ := major_frame_iff hpos
  exact hframe.mpr (by decide) _ List.prefix_rfl

/-- The periods `10 ^ 9`, `10 ^ 9 + 1` and again `10 ^ 9` have a least common multiple of about `10 ^ 18`, but
the last product does not fit. -/
theorem major_frame_wraps : ¬ ∀ ps : List Int, ps ≠ [] → (∀ p ∈ ps, 0 < p) → periodsLcm ps < 2 ^ 63 →
    launchFrame ps = periodsLcm ps := by
  intro hall
  have h := hall [1000000000, 1000000001, 1000000000] (by decide) (by decide) (by decide +kernel)
  revert h
  decide +kernel

/-- The frame in the model of the scheduler is the one that `sched_launch` computes, as far as the products
fit. -/
theorem launchFrame_eq_majorFrame {k : Kernel} (hpos : ∀ pt ∈ k.schedParts, 0 < (k.parts pt).paPeriod)
    (hfit : ProductsFit 1 (k.schedParts.map fun pt => (k.parts pt).paPeriod)) :
    launchFrame (k.schedParts.map fun pt => (k.parts pt).paPeriod) = majorFrame k := by
  have hframe := (foldl_lcm_iff one_pos (by simpa using hpos)).mpr hfit _ List.prefix_rfl
  rw [launchFrame, hframe, List.foldl_map]
  rfl

end Jrinx
