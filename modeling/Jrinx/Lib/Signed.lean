import Mathlib.Algebra.BigOperators.Group.List.Basic
import Mathlib.Tactic.Ring

/-! # Signed words

Numbers of `w` bits with a sign: a result that does not fit is taken modulo `2 ^ w`.

* **`signed`**, **`FitsSigned`** — the number that the bits of a result stand for, and the results that fit.
* **`sumSigned`** — a sum that is computed from left to right.
* **`sumSigned_eq_iff`** — it is exact iff the total fits, whatever the intermediate results are. -/

namespace Jrinx

variable {w : Nat}

/-- The signed number with the last `w` bits of `x`. -/
def signed (w : Nat) (x : Int) : Int := x.bmod (2 ^ w)

/-- The numbers that `w` bits with a sign can hold. -/
def FitsSigned (w : Nat) (x : Int) : Prop := -(2 ^ w : Int) ≤ x * 2 ∧ x * 2 < 2 ^ w

instance (w : Nat) (x : Int) : Decidable (FitsSigned w x) := by
  unfold FitsSigned
  infer_instance

theorem fitsSigned_signed (w : Nat) (x : Int) : FitsSigned w (signed w x) := by
  have hpos : 0 < 2 ^ w := Nat.two_pow_pos w
  have hlt : signed w x < ((2 ^ w : Nat) + 1) / 2 := Int.bmod_lt hpos
  have hle : -((2 ^ w : Nat) / 2 : Int) ≤ signed w x := Int.le_bmod hpos
  have hcast : ((2 ^ w : Nat) : Int) = 2 ^ w := by push_cast; rfl
  rw [hcast] at hlt hle
  constructor <;> omega

/-- A number is kept iff it fits. -/
theorem signed_eq_self {x : Int} : signed w x = x ↔ FitsSigned w x := by
  constructor
  · intro h
    rw [← h]
    exact fitsSigned_signed w x
  · rintro ⟨hle, hlt⟩
    exact Int.bmod_eq_of_le_mul_two (by push_cast; exact hle) (by push_cast; exact hlt)

/-- The sum `x + d₁ + d₂ + …`, with every intermediate result in `w` bits. -/
def sumSigned (w : Nat) (x : Int) (ds : List Int) : Int := ds.foldl (fun s d => signed w (s + d)) x

/-- Only the total matters. -/
theorem sumSigned_eq {x : Int} (hx : FitsSigned w x) (ds : List Int) :
    sumSigned w x ds = signed w (x + ds.sum) := by
  induction ds generalizing x with
  | nil =>
      rw [List.sum_nil, Int.add_zero, signed_eq_self.mpr hx]
      rfl
  | cons d ds ih =>
      have hstep : sumSigned w (signed w (x + d)) ds = signed w (signed w (x + d) + ds.sum) :=
        ih (fitsSigned_signed w (x + d))
      rw [List.sum_cons, ← Int.add_assoc]
      exact hstep.trans Int.bmod_add_bmod

/-- **A sum is exact iff its total fits.** -/
theorem sumSigned_eq_iff {x : Int} (hx : FitsSigned w x) (ds : List Int) :
    sumSigned w x ds = x + ds.sum ↔ FitsSigned w (x + ds.sum) := by
  rw [sumSigned_eq hx, signed_eq_self]

end Jrinx
