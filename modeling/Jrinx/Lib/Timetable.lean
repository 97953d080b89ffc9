import Mathlib.Algebra.Order.BigOperators.Group.List
import Mathlib.Data.List.Forall2
import Mathlib.Tactic.Linarith
import Mathlib.Tactic.Ring

/-! # Timetables

Something that starts at a time and comes back after every frame has the *instants*
`start + n * frame`. An alarm for it is set right at a time `now` if it is set to the first instant
that is still to come.

* **`instant`**, **`IsNext`** — the instants, and the first one after a time.
* **`IsNext.le_or_le`**, **`isNext_add_frame`** — no instant lies between; when an instant has come and the
  next one has not, the next one is a frame later.
* **`eq_of_forall₂_le_of_perm`** — alarms that are each not too early and are, as a whole, set to the right
  times, are each set to the right time. -/

namespace Jrinx

/-- The `n`-th instant. -/
def instant (start frame : Int) (n : ℕ) : Int := start + n * frame

/-- The first instant after `now`. -/
def IsNext (start frame now t : Int) : Prop :=
  ∃ n : ℕ, t = instant start frame n ∧ now < t ∧ ∀ n' < n, instant start frame n' ≤ now

variable {start frame now t : Int}

@[simp] theorem instant_zero : instant start frame 0 = start := by
  simp [instant]

theorem instant_succ (n : ℕ) : instant start frame (n + 1) = instant start frame n + frame := by
  rw [instant, instant]
  push_cast
  ring

theorem instant_mono (start : Int) (hf : 0 ≤ frame) {n m : ℕ} (h : n ≤ m) :
    instant start frame n ≤ instant start frame m := by
  have hcast : (n : Int) ≤ m := by exact_mod_cast h
  have hmul := mul_le_mul_of_nonneg_right hcast hf
  rw [instant, instant]
  linarith

namespace IsNext

theorem lt (h : IsNext start frame now t) : now < t := by
  obtain ⟨n, -, hlt, -⟩ := h
  exact hlt

/-- No other instant lies between. -/
theorem le_or_le (h : IsNext start frame now t) (hf : 0 ≤ frame) (n : ℕ) :
    instant start frame n ≤ now ∨ t ≤ instant start frame n := by
  obtain ⟨m, rfl, -, hbefore⟩ := h
  rcases Nat.lt_or_ge n m with hn | hn
  · exact Or.inl (hbefore n hn)
  · exact Or.inr (instant_mono start hf hn)

/-- The first instant is the first one in time. -/
theorem le_of_lt (h : IsNext start frame now t) (hf : 0 ≤ frame) {n : ℕ}
    (hn : now < instant start frame n) : t ≤ instant start frame n :=
  (h.le_or_le hf n).resolve_left (not_le.mpr hn)

end IsNext

/-- When an instant has come, the next one is a frame later. -/
theorem isNext_add_frame {n : ℕ} (hn : instant start frame n ≤ now)
    (hlate : now < instant start frame n + frame) :
    IsNext start frame now (instant start frame n + frame) := by
  have hf : 0 ≤ frame := by linarith
  refine ⟨n + 1, (instant_succ n).symm, hlate, fun n' hn' => ?_⟩
  exact (instant_mono start hf (Nat.lt_succ_iff.mp hn')).trans hn

/-- A list that is nowhere above a permutation of itself is equal to it. -/
theorem eq_of_forall₂_le_of_perm {l l' : List Int} (h : List.Forall₂ (· ≤ ·) l l') (hp : l.Perm l') :
    l = l' := by
  have hsum : l'.sum ≤ l.sum := hp.sum_eq.ge
  clear hp
  induction h with
  | nil => rfl
  | @cons a b l l' hle hrest ih =>
      rw [List.sum_cons, List.sum_cons] at hsum
      have htail := hrest.sum_le_sum
      have hab : a = b := by linarith
      have hll : l = l' := ih (by linarith)
      rw [hab, hll]

end Jrinx
