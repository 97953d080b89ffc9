import Mathlib.Data.List.Basic

/-! # Logs of allocated records

What is done to records that are allocated and freed, in the order in which it is done. Every allocation has a
name of its own.

* **`RecordOp`**, **`InUse`** — the operations, and the records that were allocated and not freed.
* **`LegalLog`** — a record is used and freed only while it is in use.
* **`LegalLog.freed_once`** — a record that is in use no more was freed exactly once. -/

namespace Jrinx

/-- What is done to a record. -/
inductive RecordOp (ρ : Type) where
  | alloc (r : ρ)
  | use (r : ρ)
  | free (r : ρ)
  deriving DecidableEq, Repr

variable {ρ : Type} {log l : List (RecordOp ρ)} {r s : ρ}

/-- The record was allocated and has not been freed. -/
structure InUse (log : List (RecordOp ρ)) (r : ρ) : Prop where
  made : .alloc r ∈ log
  kept : .free r ∉ log

/-- The operation is legal after these ones. -/
def RecordOp.Legal (log : List (RecordOp ρ)) : RecordOp ρ → Prop
  | .alloc r => .alloc r ∉ log
  | .use r => InUse log r
  | .free r => InUse log r

/-- **A legal log**: no record is used before it is allocated, or after it was freed, or freed twice. -/
inductive LegalLog : List (RecordOp ρ) → Prop
  | nil : LegalLog []
  | snoc {log : List (RecordOp ρ)} {op : RecordOp ρ} (h : LegalLog log) (hop : op.Legal log) :
      LegalLog (log ++ [op])

theorem inUse_append : InUse (log ++ l) r ↔
    (.alloc r ∈ log ∨ .alloc r ∈ l) ∧ .free r ∉ log ∧ .free r ∉ l := by
  constructor
  · rintro ⟨hmade, hkept⟩
    rw [List.mem_append] at hmade hkept
    exact ⟨hmade, not_or.mp hkept⟩
  · rintro ⟨hmade, hkept⟩
    exact ⟨List.mem_append.mpr hmade, fun h => not_or.mpr hkept (List.mem_append.mp h)⟩

/-- A record stays in use as long as it is not freed. -/
theorem InUse.append (h : InUse log r) (hl : .free r ∉ l) : InUse (log ++ l) r :=
  inUse_append.mpr ⟨Or.inl h.made, h.kept, hl⟩

/-- What is freed was allocated. -/
theorem LegalLog.made_of_free (h : LegalLog log) (hr : .free r ∈ log) : .alloc r ∈ log := by
  induction h with
  | nil => exact absurd hr List.not_mem_nil
  | @snoc log op h hop ih =>
      rw [List.mem_append, List.mem_singleton] at hr ⊢
      rcases hr with hr | rfl
      · exact Or.inl (ih hr)
      · exact Or.inl hop.made

/-- A record that was never allocated was never freed. -/
theorem LegalLog.not_freed (h : LegalLog log) (hr : .alloc r ∉ log) : .free r ∉ log :=
  fun hfree => hr (h.made_of_free hfree)

/-- No record is freed twice. -/
theorem LegalLog.count_free_le [DecidableEq ρ] (h : LegalLog log) (r : ρ) : log.count (.free r) ≤ 1 := by
  induction h with
  | nil => exact Nat.zero_le 1
  | @snoc log op h hop ih =>
      rw [List.count_append]
      by_cases hr : op = .free r
      · have hnone : log.count (.free r) = 0 := by
          subst hr
          exact List.count_eq_zero.mpr hop.kept
        rw [hnone, hr]
        simp
      · have hlast : [op].count (.free r) = 0 := by simp [hr]
        rw [hlast, Nat.add_zero]
        exact ih

/-- **A record that is in use no more was freed exactly once.** -/
theorem LegalLog.freed_once [DecidableEq ρ] (h : LegalLog log) (hr : .alloc r ∈ log) (hend : ¬ InUse log r) :
    log.count (.free r) = 1 := by
  have hfree : .free r ∈ log := by
    by_contra hkept
    exact hend ⟨hr, hkept⟩
  have hpos : 0 < log.count (.free r) := List.count_pos_iff.mpr hfree
  have hle := h.count_free_le r
  omega

end Jrinx
