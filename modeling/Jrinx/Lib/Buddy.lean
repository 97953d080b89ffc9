import Mathlib.Data.List.Basic
import Mathlib.Algebra.Order.Group.Nat
import Mathlib.Algebra.GroupWithZero.Divisibility
import Mathlib.Tactic.Ring

/-! # Buddy tilings

A range of naturals tiled by blocks whose sizes are powers of two. A block is aligned to its size, up to
a bound from which on all blocks are aligned alike. Its *buddy* is the other half of the block of twice
its size, found by arithmetic on its start.

* **`Block`** — a block; its size is a power of two by construction.
* **`Tiles`** — the blocks follow each other in the order of their starts, without a gap.
* **`Tiles.buddy`** — the buddy of a block below the bound is the start of a block.
* **`Tiles.adjacent`** — a block and a buddy of the same size are neighbours.
* **`Tiles.halve`**, **`Tiles.join`** — splitting a block and joining two buddies.
* **`Coalesced`**, **`Tiles.order_ge`** — no two free buddies, and what follows when all is free. -/

namespace Jrinx

/-- A block of size `2 ^ order`. -/
@[ext] structure Block where
  start : Nat
  order : Nat
  used : Bool
  deriving DecidableEq, Repr

namespace Block

/-- The size of the block. -/
def size (b : Block) : Nat := 2 ^ b.order

/-- The end of the block. -/
def stop (b : Block) : Nat := b.start + b.size

theorem size_pos (b : Block) : 0 < b.size := Nat.two_pow_pos _

theorem start_lt_stop (b : Block) : b.start < b.stop := Nat.lt_add_of_pos_right b.size_pos

/-- The block starts at a multiple of its size, from the order `cap` on at a multiple of `2 ^ cap`. -/
def Aligned (cap : Nat) (b : Block) : Prop := 2 ^ min b.order cap ∣ b.start

/-- Where the other half of the block of twice the size starts. -/
def buddyStart (b : Block) : Nat :=
  if b.start % (b.size * 2) = 0 then b.start + b.size else b.start - b.size

end Block

/-- **The blocks tile** the range from `lo` to `hi`. -/
def Tiles : Nat → List Block → Nat → Prop
  | lo, [], hi => lo = hi
  | lo, b :: bs, hi => b.start = lo ∧ Tiles b.stop bs hi

variable {lo mid hi cap x : Nat} {bs l r : List Block} {b c : Block}

theorem tiles_append : Tiles lo (l ++ r) hi ↔ ∃ mid, Tiles lo l mid ∧ Tiles mid r hi := by
  induction l generalizing lo with
  | nil => simp [Tiles]
  | cons b l ih =>
      simp only [List.cons_append, Tiles, ih]
      constructor
      · rintro ⟨hb, mid, hl, hr⟩
        exact ⟨mid, ⟨hb, hl⟩, hr⟩
      · rintro ⟨mid, ⟨hb, hl⟩, hr⟩
        exact ⟨hb, mid, hl, hr⟩

namespace Tiles

theorem le (h : Tiles lo bs hi) : lo ≤ hi := by
  induction bs generalizing lo with
  | nil => exact Nat.le_of_eq h
  | cons b bs ih =>
      obtain ⟨rfl, h⟩ := h
      exact b.start_lt_stop.le.trans (ih h)

theorem mem_le (h : Tiles lo bs hi) (hb : b ∈ bs) : lo ≤ b.start ∧ b.stop ≤ hi := by
  obtain ⟨l, r, rfl⟩ := List.append_of_mem hb
  obtain ⟨mid, hl, rfl, hr⟩ := tiles_append.mp h
  exact ⟨hl.le, hr.le⟩

/-- **No gap**: every address of the range lies in a block. -/
theorem cover (h : Tiles lo bs hi) (hlo : lo ≤ x) (hhi : x < hi) :
    ∃ b ∈ bs, b.start ≤ x ∧ x < b.stop := by
  induction bs generalizing lo with
  | nil =>
      have heq : lo = hi := h
      omega
  | cons b bs ih =>
      obtain ⟨rfl, h⟩ := h
      by_cases hx : x < b.stop
      · exact ⟨b, List.mem_cons_self, hlo, hx⟩
      · obtain ⟨c, hc, hcx⟩ := ih h (not_lt.mp hx)
        exact ⟨c, List.mem_cons_of_mem b hc, hcx⟩

/-- **No overlap**: of two blocks one ends before the other starts. -/
theorem apart (h : Tiles lo bs hi) (hb : b ∈ bs) (hc : c ∈ bs) (hne : b ≠ c) :
    b.stop ≤ c.start ∨ c.stop ≤ b.start := by
  obtain ⟨l, r, rfl⟩ := List.append_of_mem hb
  obtain ⟨mid, hl, rfl, hr⟩ := tiles_append.mp h
  rcases List.mem_append.mp hc with hc | hc
  · exact Or.inr (hl.mem_le hc).2
  · rcases List.mem_cons.mp hc with rfl | hc
    · exact absurd rfl hne
    · exact Or.inl (hr.mem_le hc).1

theorem stop_le (h : Tiles lo (l ++ b :: r) hi) (hc : c ∈ l) : c.stop ≤ b.start := by
  obtain ⟨mid, hl, rfl, -⟩ := tiles_append.mp h
  exact (hl.mem_le hc).2

theorem le_start (h : Tiles lo (l ++ b :: r) hi) (hc : c ∈ r) : b.stop ≤ c.start := by
  obtain ⟨mid, -, -, hr⟩ := tiles_append.mp h
  exact (hr.mem_le hc).1

/-- Blocks with a common address are one block. -/
theorem eq_of_mem (h : Tiles lo bs hi) (hb : b ∈ bs) (hc : c ∈ bs) (hbx : b.start ≤ x ∧ x < b.stop)
    (hcx : c.start ≤ x ∧ x < c.stop) : b = c := by
  by_contra hne
  have hapart := h.apart hb hc hne
  omega

theorem eq_of_start (h : Tiles lo bs hi) (hb : b ∈ bs) (hc : c ∈ bs) (heq : b.start = c.start) :
    b = c :=
  h.eq_of_mem hb hc ⟨le_rfl, b.start_lt_stop⟩ ⟨heq.ge, heq ▸ c.start_lt_stop⟩

/-- The block after a block starts where that one ends. -/
theorem split_next (h : Tiles lo bs hi) (hb : b ∈ bs) (hc : c ∈ bs) (hnext : c.start = b.stop) :
    ∃ l r, bs = l ++ b :: c :: r := by
  obtain ⟨l, r, rfl⟩ := List.append_of_mem hb
  obtain ⟨mid, hl, rfl, hr⟩ := tiles_append.mp h
  cases r with
  | nil =>
      -- `b` is the last block
      have hend : b.stop = hi := hr
      have hc' := (h.mem_le hc).2
      have hlt := c.start_lt_stop
      omega
  | cons d r =>
      have hd : d ∈ l ++ b :: d :: r := by simp
      obtain rfl := h.eq_of_start hc hd (hnext.trans hr.1.symm)
      exact ⟨l, r, rfl⟩

/-! ## Buddies -/

end Tiles

/-- A multiple of `d` below a point in `[p, p + d)` is at most `p`. -/
theorem le_of_dvd_of_lt {d p a : Nat} (hp : d ∣ p) (ha : d ∣ a) (hx : a < p + d) : a ≤ p := by
  obtain ⟨q, rfl⟩ := hp
  obtain ⟨s, rfl⟩ := ha
  apply Nat.mul_le_mul_left d
  rw [← Nat.mul_succ] at hx
  exact Nat.lt_succ_iff.mp (Nat.lt_of_mul_lt_mul_left hx)

/-- A block and its buddy are the two halves of a block of twice the size. -/
theorem Block.halves (hdvd : b.size ∣ b.start) : ∃ p, b.size * 2 ∣ p ∧
    (b.start = p ∧ b.buddyStart = p + b.size ∨ b.start = p + b.size ∧ b.buddyStart = p) := by
  obtain ⟨q, hq⟩ := hdvd
  rw [buddyStart, hq, Nat.mul_mod_mul_left]
  rcases Nat.even_or_odd' q with ⟨p, rfl | rfl⟩
  · refine ⟨b.size * 2 * p, Dvd.intro p rfl, Or.inl ⟨by ring, ?_⟩⟩
    rw [if_pos (by simp)]
    ring
  · refine ⟨b.size * 2 * p, Dvd.intro p rfl, Or.inr ⟨by ring, ?_⟩⟩
    rw [if_neg (by rw [Nat.mul_add_mod]; exact Nat.pos_iff_ne_zero.mp (by simp [b.size_pos])),
      Nat.mul_add, Nat.mul_one, Nat.add_sub_cancel]
    ring

theorem Block.Aligned.size_dvd (h : b.Aligned cap) (hle : b.order ≤ cap) : b.size ∣ b.start := by
  rwa [Aligned, min_eq_left hle] at h

/-- A block of an order above `n` starts and ends at multiples of `2 ^ n`, up to the bound. -/
theorem Block.Aligned.pow_dvd {n : Nat} (h : b.Aligned cap) (hn : n ≤ b.order) (hcap : n ≤ cap) :
    2 ^ n ∣ b.start ∧ 2 ^ n ∣ b.stop := by
  have hstart : 2 ^ n ∣ b.start := (pow_dvd_pow 2 (le_min hn hcap)).trans h
  exact ⟨hstart, Nat.dvd_add hstart (pow_dvd_pow 2 hn)⟩

namespace Tiles

/-- **The buddy is a block**: where a block below the bound has its buddy, a block starts, and it is not
larger. -/
theorem buddy (h : Tiles 0 bs hi) (halign : ∀ b ∈ bs, b.Aligned cap) (hhi : 2 ^ cap ∣ hi) (hb : b ∈ bs)
    (hlt : b.order < cap) : ∃ c ∈ bs, c.start = b.buddyStart ∧ c.order ≤ b.order := by
  have hdvd := (halign b hb).size_dvd hlt.le
  have htwice : b.size * 2 ∣ hi := (pow_dvd_pow 2 hlt).trans hhi
  have hpos := b.size_pos
  have hsize : b.stop = b.start + b.size := rfl
  have hstop := (h.mem_le hb).2
  obtain ⟨p, hp, hhalves⟩ := Block.halves hdvd
  -- the parent lies in the range
  have hparent : p + b.size * 2 ≤ hi := by
    by_contra hgt
    have hle := le_of_dvd_of_lt hp htwice (not_le.mp hgt)
    omega
  have hbuddy : b.buddyStart < hi := by omega
  obtain ⟨c, hc, hcx⟩ := h.cover (Nat.zero_le _) hbuddy
  refine ⟨c, hc, ?_⟩
  rw [and_comm]
  rcases Nat.lt_or_ge b.order c.order with hord | hord
  · -- a larger block would reach over the block itself
    obtain ⟨hcstart, hcstop⟩ := (halign c hc).pow_dvd hord hlt
    have hle : c.start ≤ p := le_of_dvd_of_lt hp hcstart (by omega)
    have hge : p + b.size * 2 ≤ c.stop := by
      by_contra hgt
      have hle' := le_of_dvd_of_lt hp hcstop (not_le.mp hgt)
      omega
    obtain rfl := h.eq_of_mem hb hc ⟨le_rfl, b.start_lt_stop⟩ ⟨by omega, by omega⟩
    exact absurd hord (lt_irrefl _)
  · -- a block that is not larger starts where the buddy starts
    have hcdvd := (halign c hc).size_dvd (hord.trans hlt.le)
    have hxdvd : b.size ∣ b.buddyStart := by
      have hpdvd : b.size ∣ p := (Dvd.intro 2 rfl).trans hp
      rcases hhalves with ⟨-, heq⟩ | ⟨-, heq⟩
      · exact heq ▸ Nat.dvd_add hpdvd dvd_rfl
      · exact heq ▸ hpdvd
    have hle := le_of_dvd_of_lt hcdvd ((pow_dvd_pow 2 hord).trans hxdvd) hcx.2
    exact ⟨hord, by omega⟩

/-- **Buddies of the same size are neighbours.** -/
theorem adjacent (h : Tiles lo bs hi) (hdvd : b.size ∣ b.start) (hb : b ∈ bs) (hc : c ∈ bs)
    (hstart : c.start = b.buddyStart) (hsize : c.order = b.order) :
    (∃ l r, bs = l ++ b :: c :: r ∧ b.size * 2 ∣ b.start) ∨
      ∃ l r, bs = l ++ c :: b :: r ∧ b.size * 2 ∣ c.start := by
  have hcsize : c.stop = c.start + b.size := by rw [Block.stop, Block.size, hsize]; rfl
  have hbsize : b.stop = b.start + b.size := rfl
  obtain ⟨p, hp, ⟨hfst, hsnd⟩ | ⟨hfst, hsnd⟩⟩ := Block.halves hdvd
  · obtain ⟨l, r, hbs⟩ := h.split_next hb hc (by omega)
    exact Or.inl ⟨l, r, hbs, hfst ▸ hp⟩
  · obtain ⟨l, r, hbs⟩ := h.split_next hc hb (by omega)
    exact Or.inr ⟨l, r, hbs, (hstart.trans hsnd) ▸ hp⟩

end Tiles

/-! ## Splitting and joining -/

namespace Block

/-- The lower half of a block. -/
def lower (b : Block) : Block := { b with order := b.order - 1 }

/-- The upper half of a block. It is free. -/
def upper (b : Block) : Block := ⟨b.start + 2 ^ (b.order - 1), b.order - 1, false⟩

/-- The block of twice the size. -/
def twice (b : Block) : Block := { b with order := b.order + 1 }

theorem size_div_two (h : 0 < b.order) : b.size / 2 = 2 ^ (b.order - 1) := by
  rw [size, ← Nat.sub_add_cancel h, pow_succ, Nat.mul_div_cancel _ (by norm_num)]
  rfl

theorem size_lower (h : 0 < b.order) : b.lower.size * 2 = b.size := by
  rw [size, size, lower, ← pow_succ, Nat.sub_add_cancel h]

theorem size_twice : b.twice.size = b.size * 2 := pow_succ 2 b.order

theorem stop_upper (h : 0 < b.order) : b.upper.stop = b.stop := by
  have hsize := size_lower h
  simp only [stop, upper, size, lower] at *
  omega

theorem Aligned.lower (h : b.Aligned cap) : b.lower.Aligned cap :=
  (pow_dvd_pow 2 (min_le_min_right cap (Nat.sub_le b.order 1))).trans h

theorem Aligned.upper (h : b.Aligned cap) : b.upper.Aligned cap := by
  apply Nat.dvd_add h.lower
  exact pow_dvd_pow 2 (min_le_left _ _)

theorem aligned_twice (h : b.size * 2 ∣ b.start) : b.twice.Aligned cap := by
  refine (pow_dvd_pow 2 (min_le_left _ _)).trans ?_
  rwa [← size_twice] at h

end Block

namespace Tiles

/-- **Splitting a block** into its halves. -/
theorem halve (h : Tiles lo (l ++ b :: r) hi) (hb : 0 < b.order) :
    Tiles lo (l ++ b.lower :: b.upper :: r) hi := by
  obtain ⟨mid, hl, hstart, hr⟩ := tiles_append.mp h
  refine tiles_append.mpr ⟨mid, hl, hstart, rfl, ?_⟩
  rw [Block.stop_upper hb]
  exact hr

/-- **Joining a block with its neighbour** of the same size. -/
theorem join (h : Tiles lo (l ++ b :: c :: r) hi) (hc : c.order = b.order) :
    Tiles lo (l ++ b.twice :: r) hi := by
  obtain ⟨mid, hl, hstart, hnext, hr⟩ := tiles_append.mp h
  refine tiles_append.mpr ⟨mid, hl, hstart, ?_⟩
  have hstop : b.twice.stop = c.stop := by
    have hsize : c.size = b.size := by rw [Block.size, hc]; rfl
    have hb : b.twice.start = b.start := rfl
    rw [Block.stop, Block.size_twice, Block.stop, hnext, Block.stop, hsize, hb]
    ring
  rw [hstop]
  exact hr

end Tiles

/-! ## Free buddies -/

/-- Two free blocks of the same order below the bound, each the buddy of the other. -/
structure Block.FreeBuddies (cap : Nat) (b c : Block) : Prop where
  free : b.used = false
  free' : c.used = false
  order : c.order = b.order
  lt : b.order < cap
  start : c.start = b.buddyStart

/-- A block of the order of the buddy has the block itself as its buddy. -/
theorem Block.buddyStart_comm (hdvd : b.size ∣ b.start) (horder : c.order = b.order)
    (hstart : c.start = b.buddyStart) : b.start = c.buddyStart := by
  have hsize : c.size = b.size := by rw [Block.size, horder]; rfl
  have hpos := b.size_pos
  obtain ⟨p, hp, ⟨hb, hbuddy⟩ | ⟨hb, hbuddy⟩⟩ := Block.halves hdvd
  · have hodd : ¬ c.start % (c.size * 2) = 0 := by
      obtain ⟨q, rfl⟩ := hp
      rw [hstart, hbuddy, hsize, Nat.mul_add_mod, Nat.mod_eq_of_lt (by omega)]
      exact hpos.ne'
    rw [Block.buddyStart, if_neg hodd, hstart, hbuddy, hsize, Nat.add_sub_cancel, hb]
  · have heven : c.start % (c.size * 2) = 0 := by
      rw [hstart, hbuddy, hsize]
      exact Nat.mod_eq_zero_of_dvd hp
    rw [Block.buddyStart, if_pos heven, hstart, hbuddy, hsize, hb]

theorem Block.FreeBuddies.symm (h : b.FreeBuddies cap c) (hal : b.Aligned cap) :
    c.FreeBuddies cap b where
  free := h.free'
  free' := h.free
  order := h.order.symm
  lt := h.order ▸ h.lt
  start := Block.buddyStart_comm (hal.size_dvd h.lt.le) h.order h.start

/-- The buddy of an upper half is the lower half. -/
theorem Block.buddyStart_upper (hb : 0 < b.order) (hdvd : b.size ∣ b.start) :
    b.upper.buddyStart = b.start := by
  have hsize : b.upper.size * 2 = b.size := size_lower hb
  have hpos := b.upper.size_pos
  have hodd : ¬ b.upper.start % (b.upper.size * 2) = 0 := by
    obtain ⟨q, hq⟩ := hdvd
    show ¬ (b.start + b.upper.size) % (b.upper.size * 2) = 0
    rw [hq, ← hsize, Nat.mul_add_mod, Nat.mod_eq_of_lt (by omega)]
    exact hpos.ne'
  rw [Block.buddyStart, if_neg hodd]
  exact Nat.add_sub_cancel b.start b.upper.size

/-- **No two free buddies**, the block `x` apart. -/
def CoalescedBut (cap : Nat) (x : Block) (bs : List Block) : Prop :=
  ∀ b ∈ bs, ∀ c ∈ bs, b ≠ x → c ≠ x → ¬ b.FreeBuddies cap c

/-- **No two free buddies.** -/
def Coalesced (cap : Nat) (bs : List Block) : Prop := ∀ b ∈ bs, ∀ c ∈ bs, ¬ b.FreeBuddies cap c

/-- In a tiling no block stands twice. -/
theorem Tiles.not_mem (h : Tiles lo (l ++ b :: r) hi) : b ∉ l ++ r := by
  intro hb
  have hlt := b.start_lt_stop
  rcases List.mem_append.mp hb with hb | hb
  · exact absurd (h.stop_le hb) (not_le.mpr hlt)
  · exact absurd (h.le_start hb) (not_le.mpr hlt)

/-- Some blocks of a list without free buddies, and one more. -/
theorem CoalescedBut.of_subset {x y : Block} (h : CoalescedBut cap x bs)
    (hsub : ∀ b ∈ l ++ r, b ∈ bs ∧ b ≠ x) : CoalescedBut cap y (l ++ y :: r) := by
  have hold : ∀ b ∈ l ++ y :: r, b ≠ y → b ∈ bs ∧ b ≠ x := by
    intro b hb hne
    simp only [List.mem_append, List.mem_cons] at hb
    rcases hb with hb | rfl | hb
    · exact hsub b (List.mem_append_left _ hb)
    · exact absurd rfl hne
    · exact hsub b (List.mem_append_right _ hb)
  intro b hb c hc hbx hcx
  obtain ⟨hb, hbx⟩ := hold b hb hbx
  obtain ⟨hc, hcx⟩ := hold c hc hcx
  exact h b hb c hc hbx hcx

/-- The block apart has no free buddy either. -/
theorem CoalescedBut.coalesced {x : Block} (h : CoalescedBut cap x bs)
    (hx : ∀ c ∈ bs, ¬ x.FreeBuddies cap c) (halign : ∀ b ∈ bs, b.Aligned cap) : Coalesced cap bs := by
  intro b hb c hc hbc
  by_cases hbx : b = x
  · exact hx c hc (hbx ▸ hbc)
  by_cases hcx : c = x
  · exact hx b hb (hcx ▸ hbc.symm (halign b hb))
  exact h b hb c hc hbx hcx hbc

/-- A free block gives way to a block in use and free blocks whose buddies start where that one does. -/
theorem Coalesced.cut {b' : Block} {frees : List Block} (h : Coalesced cap (l ++ b :: r))
    (ht : Tiles lo (l ++ b' :: (frees ++ r)) hi) (halign : ∀ c ∈ l ++ b' :: (frees ++ r), c.Aligned cap)
    (hused : b'.used = true)
    (hfrees : ∀ c ∈ frees, c.order < cap → c.buddyStart = b'.start) :
    Coalesced cap (l ++ b' :: (frees ++ r)) := by
  -- only the block in use starts where the free parts have their buddies
  have hcut : ∀ f ∈ frees, ∀ c ∈ l ++ b' :: (frees ++ r), ¬ f.FreeBuddies cap c := by
    intro f hf c hc hfc
    have hstart := hfc.start.trans (hfrees f hf hfc.lt)
    obtain rfl := ht.eq_of_start hc (by simp) hstart
    exact absurd (hused.symm.trans hfc.free') (by simp)
  intro c hc d hd hcd
  have hcases : ∀ e ∈ l ++ b' :: (frees ++ r), e.used = false → e ∈ frees ∨ e ∈ l ++ b :: r := by
    intro e he hfree
    simp only [List.mem_append, List.mem_cons] at he ⊢
    rcases he with he | rfl | he | he
    · exact Or.inr (Or.inl he)
    · exact absurd (hused.symm.trans hfree) (by simp)
    · exact Or.inl he
    · exact Or.inr (Or.inr (Or.inr he))
  rcases hcases c hc hcd.free with hcf | hcold
  · exact hcut c hcf d hd hcd
  rcases hcases d hd hcd.free' with hdf | hdold
  · exact hcut d hdf c hc (hcd.symm (halign c hc))
  · exact h c hcold d hdold hcd

/-- **Everything free coalesces**: in a tiling of free blocks without free buddies, no block is below the
bound. -/
theorem Tiles.order_ge (h : Tiles 0 bs hi) (halign : ∀ b ∈ bs, b.Aligned cap) (hhi : 2 ^ cap ∣ hi)
    (hco : Coalesced cap bs) (hfree : ∀ b ∈ bs, b.used = false) : ∀ b ∈ bs, cap ≤ b.order := by
  -- a block below the bound would have a smaller one as its buddy
  have hdescent : ∀ n, ∀ b ∈ bs, b.order = n → cap ≤ n := by
    intro n
    induction n using Nat.strong_induction_on with
    | _ n ih =>
        intro b hb hn
        by_contra hlt
        rw [not_le, ← hn] at hlt
        obtain ⟨c, hc, hstart, hle⟩ := h.buddy halign hhi hb hlt
        rcases Nat.lt_or_eq_of_le hle with hless | heq
        · have hcap := ih c.order (hn ▸ hless) c hc rfl
          omega
        · exact hco b hb c hc ⟨hfree b hb, hfree c hc, heq, hlt, hstart⟩
  exact fun b hb => hdescent b.order b hb rfl

end Jrinx
