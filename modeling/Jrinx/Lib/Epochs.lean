import Mathlib.Data.Set.Insert
import Mathlib.Logic.Function.Basic

/-! # Numbers handed out by epochs

Holders are given numbers from a pool. When the pool is used up a new epoch begins: all numbers are free
again, and what a holder was given before counts no more. A holder asks for a number only when the one it
has is from an earlier epoch.

* **`Epochs`**, **`Epochs.Inv`** — the pool and its holders; the numbers of the current epoch are in use and
  differ from holder to holder.
* **`Epochs.Grant`** — the ways in which a holder comes to have a number of the current epoch.
* **`Epochs.Grant.inv`** — they keep the invariant. -/

namespace Jrinx

/-- The numbers in use, the current epoch, and for every holder its number and the epoch it is from. -/
structure Epochs (ι : Type*) where
  used : Set ℕ
  epoch : ℕ
  number : ι → ℕ
  since : ι → ℕ

namespace Epochs

variable {ι : Type*} {e e' : Epochs ι} {i : ι}

/-- The number of the holder counts. -/
def Current (e : Epochs ι) (i : ι) : Prop := e.since i = e.epoch

/-- **The numbers that count are in use and differ.** -/
structure Inv (e : Epochs ι) : Prop where
  past : ∀ i, e.since i ≤ e.epoch
  marked : ∀ i, e.Current i → e.number i ∈ e.used
  distinct : ∀ i j, i ≠ j → e.Current i → e.Current j → e.number i ≠ e.number j

variable [DecidableEq ι]

/-- How a holder comes to have a number of the current epoch. -/
inductive Grant (e : Epochs ι) (i : ι) : Epochs ι → Prop
  /-- It has one. -/
  | keep (current : e.Current i) : Grant e i e
  /-- It is given a number that is not in use. -/
  | fresh (n : ℕ) (old : ¬ e.Current i) (free : n ∉ e.used) : Grant e i
      { e with
        used := insert n e.used
        number := Function.update e.number i n
        since := Function.update e.since i e.epoch }
  /-- It is given the first number of a new epoch. -/
  | renew (n : ℕ) (old : ¬ e.Current i) : Grant e i
      { used := {n}
        epoch := e.epoch + 1
        number := Function.update e.number i n
        since := Function.update e.since i (e.epoch + 1) }

/-- Afterwards its number counts. -/
theorem Grant.current (h : Grant e i e') : e'.Current i := by
  cases h with
  | keep current => exact current
  | fresh n old free => simp [Current]
  | renew n old => simp [Current]

/-- **A grant keeps the numbers apart.** -/
theorem Grant.inv (h : Grant e i e') (hi : e.Inv) : e'.Inv := by
  cases h with
  | keep current => exact hi
  | fresh n old free =>
      -- the number is free, and so nobody has it in this epoch
      have hother : ∀ j, j ≠ i → e.Current j → e.number j ≠ n :=
        fun j _ hj heq => free (heq ▸ hi.marked j hj)
      constructor
      · intro j
        by_cases hj : j = i
        · simp [hj]
        · simpa [hj] using hi.past j
      · intro j hj
        by_cases hji : j = i
        · simp [hji]
        · simp only [Current, Function.update_of_ne hji] at hj ⊢
          exact Or.inr (hi.marked j hj)
      · intro j l hne hj hl
        by_cases hji : j = i
        · have hli : l ≠ i := fun h => hne (hji.trans h.symm)
          simp only [Current, Function.update_of_ne hli] at hl
          simpa [hji, hli] using (hother l hli hl).symm
        · simp only [Current, Function.update_of_ne hji] at hj
          by_cases hli : l = i
          · simpa [hji, hli] using hother j hji hj
          · simp only [Current, Function.update_of_ne hli] at hl
            simpa [hji, hli] using hi.distinct j l hne hj hl
  | renew n old =>
      -- a new epoch begins with one holder
      have honly : ∀ j, (Function.update e.since i (e.epoch + 1)) j = e.epoch + 1 → j = i := by
        intro j hj
        by_contra hji
        rw [Function.update_of_ne hji] at hj
        have hpast := hi.past j
        omega
      constructor
      · intro j
        by_cases hj : j = i
        · simp [hj]
        · simpa [hj] using Nat.le_succ_of_le (hi.past j)
      · intro j hj
        simp [honly j hj]
      · intro j l hne hj hl
        exact absurd ((honly j hj).trans (honly l hl).symm) hne

end Epochs

end Jrinx
