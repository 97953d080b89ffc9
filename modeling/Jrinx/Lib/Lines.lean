import Mathlib.Data.List.Nodup
import Mathlib.Order.Basic
import Mathlib.Order.Lattice

/-! # Waiting lines

A line of parties, each with the ticket it drew when it came. The line is in order when the tickets
increase along it. Whoever leaves keeps it in order, whoever comes with a later ticket goes to the end,
and one that goes back to the end breaks the order unless it stood there.

* **`InOrder`** — the tickets increase along the line.
* **`InOrder.first_iff`** — nobody in the line has an earlier ticket than `x` iff `x` is the first.
* **`InOrder.filter_append`** — a party that comes, or comes again, at the end. -/

namespace Jrinx

variable {α τ : Type*} [LinearOrder τ] {t t' : α → τ} {l l' : List α} {x : α}

/-- **The line is in order**: tickets increase from its head to its end. -/
def InOrder (t : α → τ) (l : List α) : Prop := l.Pairwise fun a b => t a < t b

theorem InOrder.sublist (h : InOrder t l) (hsub : l'.Sublist l) : InOrder t l' := List.Pairwise.sublist hsub h

/-- The order depends on the tickets of those in the line only. -/
theorem InOrder.congr (h : InOrder t l) (ht : ∀ a ∈ l, t' a = t a) : InOrder t' l := by
  refine List.Pairwise.imp_of_mem (fun {a b} ha hb hab => ?_) h
  rw [ht a ha, ht b hb]
  exact hab

/-- A party with a later ticket than all others goes to the end. -/
theorem InOrder.snoc (h : InOrder t l) (hx : ∀ a ∈ l, t a < t x) : InOrder t (l ++ [x]) := by
  refine List.pairwise_append.mpr ⟨h, List.pairwise_singleton _ _, ?_⟩
  intro a ha b hb
  rw [List.mem_singleton] at hb
  exact hb ▸ hx a ha

/-- The first of the line has the earliest ticket. -/
theorem InOrder.head_le {y : α} (h : InOrder t (y :: l)) : ∀ a ∈ y :: l, t y ≤ t a := by
  intro a ha
  rcases List.mem_cons.mp ha with rfl | hmem
  · exact le_refl _
  · exact (List.rel_of_pairwise_cons h hmem).le

/-- The last of the line has the latest ticket. -/
theorem InOrder.lt_last {pre : List α} (h : InOrder t (pre ++ [x])) : ∀ a ∈ pre, t a < t x :=
  fun a ha => (List.pairwise_append.mp h).2.2 a ha x (List.mem_singleton.mpr rfl)

/-- **Who is served first**: nobody in the line has an earlier ticket than `x` iff the line is empty or
`x` is its first. The ticket of one who is not in the line is later than all tickets in it. -/
theorem InOrder.first_iff (h : InOrder t l) (hx : x ∈ l ∨ ∀ a ∈ l, t a < t x) :
    (∀ a ∈ l, ¬ t a < t x) ↔ ∀ a ∈ l.head?, a = x := by
  cases l with
  | nil => simp
  | cons y l =>
      simp only [List.head?_cons, Option.mem_def, Option.some.injEq, forall_eq']
      constructor
      · intro hfirst
        rcases hx with hmem | hlate
        · rcases List.mem_cons.mp hmem with rfl | htail
          · rfl
          · exact absurd (List.rel_of_pairwise_cons h htail) (hfirst y List.mem_cons_self)
        · exact absurd (hlate y List.mem_cons_self) (hfirst y List.mem_cons_self)
      · rintro rfl a ha
        exact not_lt.mpr (h.head_le a ha)

/-- **Coming to the end**: the line stays in order when `x` is new and late, or was the last before. -/
theorem InOrder.filter_append [DecidableEq α] (h : InOrder t l)
    (hx : (∀ a ∈ l, a ≠ x → t a < t x) ∨ l.getLast? = some x) :
    InOrder t (l.filter (fun a => a ≠ x) ++ [x]) := by
  refine (h.sublist List.filter_sublist).snoc fun a ha => ?_
  obtain ⟨hmem, hne⟩ := List.mem_filter.mp ha
  rcases hx with hlate | hlast
  · exact hlate a hmem (by simpa using hne)
  · obtain ⟨pre, rfl⟩ := List.getLast?_eq_some_iff.mp hlast
    rcases List.mem_append.mp hmem with hpre | hself
    · exact h.lt_last a hpre
    · exact absurd (List.mem_singleton.mp hself) (by simpa using hne)

end Jrinx
