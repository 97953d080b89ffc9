import Mathlib.Order.BourbakiWitt
import Mathlib.Order.Interval.Set.Basic
import Mathlib.Order.Interval.Finset.Nat
import Mathlib.Data.List.Basic
import Mathlib.Order.CompletePartialOrder
import Mathlib.Algebra.GroupWithZero.Nat

/-! # Regions laid out by a bump pointer

An allocator that only moves a pointer forward hands out regions one after the other. This file says
what that gives, for regions of naturals of any size, the empty ones among them.

* **`Region`**, **`Region.bytes`** — a start and a size, and the set they stand for.
* **`Separate`** — regions that do not overlap and lie inside given bounds, with `Separate.below` for a pointer
  that moves down.
* **`Laid`** — the invariant of the pointer, with `Laid.snoc` and `Laid.cons` for one more region. -/

namespace Jrinx

/-- A range of addresses. -/
structure Region where
  start : Nat
  size : Nat
  deriving DecidableEq, Repr

/-- The addresses of the region. -/
def Region.bytes (r : Region) : Set Nat := Set.Ico r.start (r.start + r.size)

theorem Region.mem_bytes {r : Region} {a : Nat} :
    a ∈ r.bytes ↔ r.start ≤ a ∧ a < r.start + r.size := Set.mem_Ico

/-- Where every element of a list has a region of its own, with two parts that do not meet, the first part of
each element is disjoint from the second parts of all. -/
theorem disjoint_of_slots {ι : Type} {l : List ι} {slot : ι → Region} {first second : ι → Set Nat}
    (hslots : l.Pairwise fun i j => Disjoint (slot i).bytes (slot j).bytes)
    (hfirst : ∀ i ∈ l, first i ⊆ (slot i).bytes) (hsecond : ∀ i ∈ l, second i ⊆ (slot i).bytes)
    (hself : ∀ i ∈ l, Disjoint (first i) (second i)) {i j : ι} (hi : i ∈ l) (hj : j ∈ l) :
    Disjoint (first i) (second j) := by
  let R : ι → ι → Prop := fun i j => Disjoint (first i) (second j)
  refine List.Pairwise.forall_of_forall_of_flip (R := R) hself ?_ ?_ hi hj
  · exact hslots.imp_of_mem fun hi hj hdisj => hdisj.mono (hfirst _ hi) (hsecond _ hj)
  · exact hslots.imp_of_mem fun hi hj hdisj => hdisj.symm.mono (hfirst _ hj) (hsecond _ hi)

/-- Regions that are pairwise disjoint and lie in `[lo, hi)`. -/
structure Separate (rs : List Region) (lo hi : Nat) : Prop where
  disjoint : rs.Pairwise fun r r' => Disjoint r.bytes r'.bytes
  inside : ∀ r ∈ rs, r.bytes ⊆ Set.Ico lo hi

/-- A region with an address outside the bounds breaks the separation. -/
theorem not_separate {rs : List Region} {lo hi a : Nat} {r : Region} (hr : r ∈ rs)
    (ha : a ∈ r.bytes) (hhi : hi ≤ a) : ¬ Separate rs lo hi := by
  intro h
  have hlt := (h.inside r hr ha).2
  omega

/-- A region that is too long ends outside the bounds, wherever they start. -/
theorem not_separate_of_lt {rs : List Region} {lo hi : Nat} {r : Region} (hr : r ∈ rs)
    (hstart : r.start ≤ hi) (hend : hi < r.start + r.size) : ¬ Separate rs lo hi :=
  not_separate hr (Region.mem_bytes.mpr ⟨hstart, hend⟩) le_rfl

/-- **One more region, from the top down**: it ends where the others begin. -/
theorem Separate.below {rs : List Region} {top hi size : Nat} (h : Separate rs top hi) (htop : top ≤ hi)
    (hsize : size ≤ top) : Separate (rs ++ [⟨top - size, size⟩]) (top - size) hi where
  disjoint := by
    refine List.pairwise_append.mpr ⟨h.disjoint, List.pairwise_singleton _ _, fun r hr r' hr' => ?_⟩
    rw [List.mem_singleton.mp hr']
    apply Set.disjoint_left.mpr
    intro a ha ha'
    have hle := (h.inside r hr ha).1
    have hlt : a < top - size + size := (Region.mem_bytes.mp ha').2
    omega
  inside := by
    intro r hr a ha
    rcases List.mem_append.mp hr with hr | hr
    · obtain ⟨hle, hlt⟩ := h.inside r hr ha
      exact ⟨by omega, hlt⟩
    · rw [List.mem_singleton.mp hr] at ha
      obtain ⟨hle, hlt⟩ := Region.mem_bytes.mp ha
      have hend : a < top - size + size := hlt
      exact ⟨hle, by omega⟩

/-- Separate regions have room between their bounds. -/
theorem Separate.sum_size_le {rs : List Region} {lo hi : Nat} (h : Separate rs lo hi) :
    (rs.map (·.size)).sum ≤ hi - lo := by
  -- the set of all their addresses has as many elements as the sum says
  have hcard : ∃ F : Finset Nat, F.card = (rs.map (·.size)).sum ∧ ∀ a, a ∈ F ↔ ∃ r ∈ rs, a ∈ r.bytes := by
    have hdisj := h.disjoint
    clear h
    induction rs with
    | nil => exact ⟨∅, rfl, by simp⟩
    | cons r rs ih =>
        obtain ⟨hr, hrs⟩ := List.pairwise_cons.mp hdisj
        obtain ⟨F, hF, hmem⟩ := ih hrs
        have hapart : Disjoint (Finset.Ico r.start (r.start + r.size)) F := by
          rw [Finset.disjoint_left]
          intro a ha hin
          obtain ⟨r', hr', ha'⟩ := (hmem a).mp hin
          exact Set.disjoint_left.mp (hr r' hr') (Finset.mem_Ico.mp ha) ha'
        refine ⟨Finset.Ico r.start (r.start + r.size) ∪ F, ?_, fun a => ?_⟩
        · rw [Finset.card_union_of_disjoint hapart, Nat.card_Ico, hF, List.map_cons, List.sum_cons,
            Nat.add_sub_cancel_left]
        · rw [Finset.mem_union, hmem, Finset.mem_Ico, ← Region.mem_bytes, List.exists_mem_cons_iff]
  obtain ⟨F, hF, hmem⟩ := hcard
  have hsub : F ⊆ Finset.Ico lo hi := by
    intro a ha
    obtain ⟨r, hr, har⟩ := (hmem a).mp ha
    exact Finset.mem_Ico.mpr (h.inside r hr har)
  rw [← hF, ← Nat.card_Ico]
  exact Finset.card_le_card hsub

/-- The regions handed out between `lo` and the pointer `top`. -/
structure Laid (rs : List Region) (lo top : Nat) : Prop where
  disjoint : rs.Pairwise fun r r' => Disjoint r.bytes r'.bytes
  below : ∀ r ∈ rs, lo ≤ r.start ∧ r.start + r.size ≤ top
  le : lo ≤ top

namespace Laid

variable {rs : List Region} {lo top : Nat}

theorem nil (lo : Nat) : Laid [] lo lo where
  disjoint := List.Pairwise.nil
  below := by simp
  le := le_rfl

/-- **One more region**: it starts at the pointer, which moves to its end. -/
theorem snoc (h : Laid rs lo top) (size : Nat) : Laid (rs ++ [⟨top, size⟩]) lo (top + size) where
  disjoint := by
    apply List.pairwise_append.mpr
    refine ⟨h.disjoint, List.pairwise_singleton _ _, ?_⟩
    intro r hr r' hr'
    rw [List.mem_singleton.mp hr']
    apply Set.disjoint_left.mpr
    intro a ha ha'
    have hbelow := (h.below r hr).2
    have hlt := (Region.mem_bytes.mp ha).2
    have hle := (Region.mem_bytes.mp ha').1
    simp only at hle
    omega
  below := by
    intro r hr
    rcases List.mem_append.mp hr with hr | hr
    · have hbelow := h.below r hr
      omega
    · rw [List.mem_singleton.mp hr]
      exact ⟨h.le, le_rfl⟩
  le := h.le.trans (Nat.le_add_right _ _)

/-- **One region before the others**: they begin at its end or later. -/
theorem cons {start size : Nat} (h : Laid rs (start + size) top) (hlo : lo ≤ start) :
    Laid (⟨start, size⟩ :: rs) lo top where
  disjoint := by
    refine List.pairwise_cons.mpr ⟨fun r hr => ?_, h.disjoint⟩
    apply Set.disjoint_left.mpr
    intro a ha ha'
    have hbelow := (h.below r hr).1
    have hlt := (Region.mem_bytes.mp ha).2
    have hle := (Region.mem_bytes.mp ha').1
    simp only at hlt
    omega
  below := by
    intro r hr
    have hle := h.le
    rcases List.mem_cons.mp hr with rfl | hr
    · exact ⟨hlo, hle⟩
    · have hbelow := h.below r hr
      omega
  le := by
    have hle := h.le
    omega

/-- Below a limit of the pointer the regions are separate. -/
theorem separate (h : Laid rs lo top) {hi : Nat} (htop : top ≤ hi) : Separate rs lo hi where
  disjoint := h.disjoint
  inside := by
    intro r hr a ha
    have hbelow := h.below r hr
    obtain ⟨hle, hlt⟩ := Region.mem_bytes.mp ha
    exact ⟨by omega, by omega⟩

end Laid

end Jrinx
