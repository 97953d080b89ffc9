import Mathlib.Data.List.Basic
import Mathlib.Data.List.Range
import Mathlib.Data.Nat.ModEq

/-! # Loops in strides

A loop whose counter advances by a fixed stride, modulo the size of a machine word, while it is below a
limit. If the counter wraps once it comes round to the same values for ever; a loop that ends has never
wrapped.

* **`strideLoop`** — the loop, with a number of rounds after which it is given up.
* **`strideLoop_eq_some`** — what a loop that ends has done.
* **`exists_strideLoop`** — loops that do not wrap end. -/

namespace Jrinx

variable {α : Type*} {w d limit n i j : Nat} {body : Nat → α} {xs : List α}

/-- `for (; i < limit; i += d) body(i)` in words of `w` values: what the rounds yield, and the counter at
the end. -/
def strideLoop (w d limit : Nat) (body : Nat → α) : Nat → Nat → Option (List α × Nat)
  | 0, _ => none
  | n + 1, i =>
      if i < limit then
        (strideLoop w d limit body n ((i + d) % w)).map fun r => (body i :: r.1, r.2)
      else some ([], i)

theorem strideLoop_of_ge (h : limit ≤ i) (n : Nat) :
    strideLoop w d limit body (n + 1) i = some ([], i) := by
  rw [strideLoop, if_neg (not_lt.mpr h)]

theorem strideLoop_of_lt (h : i < limit) (n : Nat) : strideLoop w d limit body (n + 1) i =
    (strideLoop w d limit body n ((i + d) % w)).map fun r => (body i :: r.1, r.2) := by
  rw [strideLoop, if_pos h]

/-- More rounds change nothing. -/
theorem strideLoop_mono {r : List α × Nat} {m : Nat} (h : strideLoop w d limit body n i = some r)
    (hle : n ≤ m) : strideLoop w d limit body m i = some r := by
  induction n generalizing i m r with
  | zero => exact absurd h (by simp [strideLoop])
  | succ n ih =>
      obtain ⟨m, rfl⟩ := Nat.exists_eq_succ_of_ne_zero (Nat.ne_zero_of_lt hle)
      by_cases hlt : i < limit
      · rw [strideLoop_of_lt hlt] at h ⊢
        obtain ⟨r', hr', rfl⟩ := Option.map_eq_some_iff.mp h
        rw [ih hr' (Nat.le_of_succ_le_succ hle)]
        rfl
      · rw [strideLoop_of_ge (not_lt.mp hlt)] at h ⊢
        exact h

/-- Two counters of one residue: the lower one is a stride lower at least. -/
theorem add_stride_le (hmod : j % d = i % d) (hlt : j < i) : j + d ≤ i := by
  have hdvd : d ∣ i - j := (Nat.modEq_iff_dvd' hlt.le).mp hmod
  have hle := Nat.le_of_dvd (Nat.sub_pos_of_lt hlt) hdvd
  omega

/-- **A counter that wraps below the limit** never gets past it. -/
theorem strideLoop_wraps (hd : d ∣ w) (hi : i < limit) (hiw : i < w) (hw : w ≤ i + d)
    (hmod : j % d = i % d) (hle : j ≤ i) : strideLoop w d limit body n j = none := by
  induction n generalizing j with
  | zero => rfl
  | succ n ih =>
      rw [strideLoop_of_lt (hle.trans_lt hi), Option.map_eq_none_iff]
      obtain ⟨c, rfl⟩ := hd
      have hnext : (j + d) % (d * c) % d = i % d := by
        rw [Nat.mod_mul_right_mod, Nat.add_mod_right, hmod]
      rcases Nat.lt_or_eq_of_le hle with hlt | heq
      · have hstep := add_stride_le hmod hlt
        apply ih hnext
        rw [Nat.mod_eq_of_lt (hstep.trans_lt hiw)]
        exact hstep
      · apply ih hnext
        have hd : d ≤ d * c := Nat.le_of_dvd (Nat.zero_lt_of_lt hiw) (Dvd.intro c rfl)
        rw [heq, Nat.mod_eq_sub_mod hw, Nat.mod_eq_of_lt (by omega)]
        omega

/-- **What a loop that ends has done**: its counter took the values `i`, `i + d`, … below the limit, and
never wrapped. -/
theorem strideLoop_eq_some (hd : d ∣ w) (hi : i < w) (h : strideLoop w d limit body n i = some (xs, j)) :
    xs = (List.range xs.length).map (fun k => body (i + k * d)) ∧ j = i + xs.length * d ∧ j < w ∧
      limit ≤ j ∧ ∀ k < xs.length, i + k * d < limit := by
  induction n generalizing i xs with
  | zero => exact absurd h (by simp [strideLoop])
  | succ n ih =>
      by_cases hlt : i < limit
      · rw [strideLoop_of_lt hlt] at h
        obtain ⟨⟨ys, j'⟩, hr, heq⟩ := Option.map_eq_some_iff.mp h
        obtain ⟨rfl, rfl⟩ := (Prod.mk.injEq _ _ _ _).mp heq
        -- a counter that wraps does not reach the limit in any round
        have hno : i + d < w := by
          by_contra hge
          have hnone : strideLoop w d limit body (n + 1) i = none :=
            strideLoop_wraps hd hlt hi (not_lt.mp hge) rfl le_rfl
          rw [strideLoop_of_lt hlt, hr] at hnone
          exact absurd hnone (by simp)
        rw [Nat.mod_eq_of_lt hno] at hr
        obtain ⟨hys, hj, hjw, hjl, hall⟩ := ih hno hr
        have hshift : ∀ k, i + (k + 1) * d = i + d + k * d := fun k => by rw [Nat.succ_mul]; omega
        refine ⟨?_, ?_, hjw, hjl, ?_⟩
        · rw [List.length_cons, List.range_succ_eq_map, List.map_cons, List.map_map, Nat.zero_mul,
            Nat.add_zero]
          refine congrArg (body i :: ·) ?_
          conv_lhs => rw [hys]
          exact List.map_congr_left fun k _ => congrArg body (hshift k).symm
        · rw [List.length_cons, hshift]
          exact hj
        · intro k hk
          cases k with
          | zero => rwa [Nat.zero_mul, Nat.add_zero]
          | succ k =>
              rw [hshift]
              exact hall k (Nat.lt_of_succ_lt_succ hk)
      · rw [strideLoop_of_ge (not_lt.mp hlt), Option.some.injEq, Prod.mk.injEq] at h
        obtain ⟨rfl, rfl⟩ := h
        exact ⟨rfl, by simp, hi, not_lt.mp hlt, by simp⟩

/-- **A loop that does not wrap ends.** -/
theorem exists_strideLoop (hpos : 0 < d) (hno : ∀ k, i + k * d < limit → i + (k + 1) * d < w)
    (body : Nat → α) : ∃ n r, strideLoop w d limit body n i = some r := by
  induction hm : limit - i using Nat.strong_induction_on generalizing i with
  | _ m ih =>
      by_cases hlt : i < limit
      · have hnext : i + d < w := by
          have h := hno 0 (by rwa [Nat.zero_mul, Nat.add_zero])
          rwa [Nat.zero_add, Nat.one_mul] at h
        have hrest : ∀ k, i + d + k * d < limit → i + d + (k + 1) * d < w := by
          intro k hk
          have h := hno (k + 1) (by rw [Nat.succ_mul]; omega)
          rw [Nat.succ_mul] at h
          omega
        obtain ⟨n, r, hr⟩ := ih (limit - (i + d)) (by omega) hrest rfl
        refine ⟨n + 1, (body i :: r.1, r.2), ?_⟩
        rw [strideLoop_of_lt hlt, Nat.mod_eq_of_lt hnext, hr]
        rfl
      · exact ⟨1, _, strideLoop_of_ge (not_lt.mp hlt) 0⟩

end Jrinx
