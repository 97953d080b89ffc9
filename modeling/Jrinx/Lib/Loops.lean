import Mathlib.Logic.Function.Iterate

/-! # Loops

A `while` loop with a bound on its rounds.

* **`whileLoop`** — the loop; `none` if the rounds do not suffice.
* **`whileLoop_eq`**, **`whileLoop_spec`** — the state after so many rounds as the condition holds, and its invariants.
* **`whileLoop_eq_none`** — a loop that does not end. -/

namespace Jrinx

variable {σ : Type*} {c : σ → Bool} {body : σ → σ} {s : σ} {k n : Nat}

/-- `while (c) body`, for less than `n` rounds. -/
def whileLoop (c : σ → Bool) (body : σ → σ) : Nat → σ → Option σ
  | 0, _ => none
  | n + 1, s => if c s then whileLoop c body n (body s) else some s

theorem whileLoop_exit (hc : c s = false) (hn : n ≠ 0) : whileLoop c body n s = some s := by
  obtain ⟨n, rfl⟩ := Nat.exists_eq_succ_of_ne_zero hn
  rw [whileLoop, hc]
  rfl

/-- **The state when the condition fails** for the first time. -/
theorem whileLoop_eq (hrun : ∀ i < k, c (body^[i] s) = true) (hend : c (body^[k] s) = false) (hn : k < n) :
    whileLoop c body n s = some (body^[k] s) := by
  induction k generalizing s n with
  | zero => exact whileLoop_exit hend (Nat.ne_of_gt hn)
  | succ k ih =>
      obtain ⟨n, rfl⟩ := Nat.exists_eq_succ_of_ne_zero (Nat.ne_of_gt (Nat.zero_lt_of_lt hn))
      have hc : c s = true := hrun 0 (Nat.succ_pos k)
      rw [whileLoop, if_pos hc, Function.iterate_succ_apply]
      apply ih
      · intro i hi
        rw [← Function.iterate_succ_apply body]
        exact hrun (i + 1) (Nat.succ_lt_succ hi)
      · rwa [← Function.iterate_succ_apply body]
      · exact Nat.lt_of_succ_lt_succ hn

/-- An invariant holds at the end of a loop, where the condition fails. -/
theorem whileLoop_spec {I : σ → Prop} {t : σ} (hstep : ∀ s, I s → c s = true → I (body s)) (hs : I s)
    (h : whileLoop c body n s = some t) : I t ∧ c t = false := by
  induction n generalizing s with
  | zero => cases h
  | succ n ih =>
      rw [whileLoop] at h
      cases hc : c s with
      | false =>
          rw [hc] at h
          cases h
          exact ⟨hs, hc⟩
      | true =>
          rw [hc] at h
          exact ih (hstep s hs hc) h

/-- **A loop does not end** if an invariant makes it go on. -/
theorem whileLoop_eq_none {I : σ → Prop} (hstep : ∀ s, I s → c s = true ∧ I (body s)) (hs : I s) (n : Nat) :
    whileLoop c body n s = none := by
  induction n generalizing s with
  | zero => rfl
  | succ n ih =>
      obtain ⟨hc, hnext⟩ := hstep s hs
      rw [whileLoop, if_pos hc]
      exact ih hnext

end Jrinx
