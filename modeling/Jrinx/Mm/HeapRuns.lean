import Jrinx.Lib.Runs
import Jrinx.Mm.HeapLoops
import Mathlib.Order.CompletePartialOrder

/-! # Runs of the kernel heap

Every sequence of `kalloc`, `kfree` of live pointers and stores to live payloads, from `kalloc_init` in
a memory with any content.

* **`HeapState`**, **`heapStep`** — the heap with the live pointers, and its steps.
* **`HeapInv`** — the invariant: the blocks in use are those of the live pointers.
* **`HoldsFrom.kalloc`**, **`HoldsFrom.kfree`** — what the calls do to the blocks.
* **`kernel_heap`** — the blocks tile the pool in every run, and the calls do what they should. -/

namespace Jrinx

variable {P : KallocPool} {h h' : KHeap} {bs l r : List Block} {b c : Block} {k n o : Nat}

/-! ## The calls -/

/-- A size that does not wrap when it is rounded up and the header is added. -/
def NoWrap (n : Nat) : Prop := n + 40 ≤ wordSize

instance (n : Nat) : Decidable (NoWrap n) := inferInstanceAs (Decidable (n + 40 ≤ wordSize))

theorem noWrap_of_lt (hn : n < 2 ^ 63) : NoWrap n := by
  rw [NoWrap, wordSize_eq]
  omega

theorem blockNeed_eq (hn : NoWrap n) : 64 ≤ blockNeed n ∧ alignUp n 8 + buddyBlockSize ≤ blockNeed n ∧
    n ≤ alignUp n 8 := by
  unfold NoWrap at hn
  unfold blockNeed alignUp alignDown kallocMinSize buddyBlockSize
  rw [wordSize_eq] at *
  dsimp only
  split
  · omega
  · omega

theorem need_of_lt (hn : n < 2 ^ 63) : 2 ^ 6 < 2 * blockNeed n := by
  obtain ⟨hneed, -, -⟩ := blockNeed_eq (noWrap_of_lt hn)
  omega

/-- A split block that is less than twice as large as a request below the bound. -/
theorem order_le_of_lt (hmax : blockNeed n ≤ kallocMaxSize) (hlt : b.size < 2 * blockNeed n) :
    b.order ≤ 15 := by
  have hpow : 2 ^ b.order < 2 ^ 16 := by
    rw [kallocMaxSize_eq] at hmax
    exact hlt.trans_le (by omega)
  exact Nat.lt_succ_iff.mp ((Nat.pow_lt_pow_iff_right (by norm_num)).mp hpow)

/-- Enough rounds to look at every block are enough to split one. -/
theorem HoldsFrom.rounds_split (hh : HoldsFrom o P h bs) (hk : kallocSize / 2 ^ o + 1 ≤ k) (hb : b ∈ bs) :
    b.order < o + k := by
  have hle := hh.order_le hb
  have hlarge := hh.large b hb
  have hdiv : kallocSize / 2 ^ o = 2 ^ (19 - o) := by
    rw [show kallocSize = 2 ^ 19 by decide]
    exact Nat.pow_div (hlarge.trans hle) (by norm_num)
  have hpow : 19 - o < 2 ^ (19 - o) := Nat.lt_two_pow_self
  omega

/-- **What `kalloc` does**: it refuses, or a free block that is large enough is cut down and in use. -/
theorem HoldsFrom.kalloc (hh : HoldsFrom o P h bs) (hk : kallocSize / 2 ^ o + 1 ≤ k)
    (hn : 2 ^ o < 2 * blockNeed n) :
    (kalloc k h n = some (0, h) ∧ (kallocMaxSize < blockNeed n ∨ ∀ b ∈ bs, ¬ b.Fits (blockNeed n))) ∨
      ∃ h' l b r b' frees, kalloc k h n = some (P.addr b + buddyBlockSize, h') ∧ bs = l ++ b :: r ∧
        blockNeed n ≤ kallocMaxSize ∧ b.Fits (blockNeed n) ∧ HoldsFrom o P h' (l ++ b' :: (frees ++ r)) ∧
        b'.start = b.start ∧ b'.used = true ∧ blockNeed n ≤ b'.size ∧ b'.order ≤ 15 ∧
        (∀ c ∈ frees, c.used = false ∧ (c.order < 15 → c.buddyStart = b.start)) ∧
        (∀ c ∈ l, ¬ c.Fits (blockNeed n)) ∧
        ∀ n', (∃ c ∈ frees, n' ≤ c.size) ↔ blockNeed n ≤ b.size / 2 ∧ n' ≤ b.size / 2 := by
  unfold Jrinx.kalloc
  by_cases hlarge : kallocMaxSize < blockNeed n
  · exact Or.inl ⟨if_pos hlarge, Or.inl hlarge⟩
  dsimp only
  rw [if_neg hlarge, hh.blockList]
  rcases hh.chain.findFree (blockNeed n) (hh.length_lt.trans_le hk) with
    ⟨hnone, hall⟩ | ⟨l, b, r, rfl, hsome, hfits, hfst⟩
  · rw [hnone]
    exact Or.inl ⟨if_pos rfl, Or.inr hall⟩
  · right
    -- the block that was found is marked before it is cut down
    have hset : HoldsFrom o P (h.put (P.addr b) .state BlockState.used.word)
        (l ++ { b with used := true } :: r) := hh.setState true
    have hrounds : b.order < o + k := hh.rounds_split hk (by simp)
    obtain ⟨h', b', frees, hloop, hholds, hstart, hused, hge, hlt, hfrees, hroom⟩ :=
      hset.splitLoop (b := { b with used := true }) hn hrounds hfits.2
    have hloop' : Jrinx.splitLoop (blockNeed n) k (h.put (P.addr b) .state BlockState.used.word) (P.addr b)
        = some h' := hloop
    simp only [hsome, if_neg (P.addr_pos b).ne', hloop']
    exact ⟨h', l, b, r, b', frees, rfl, rfl, not_lt.mp hlarge, hfits, hholds, hstart, hused, hge,
      order_le_of_lt (not_lt.mp hlarge) hlt, hfrees, hfst, hroom⟩

/-- The bytes of a block after its header. -/
def KallocPool.payload (P : KallocPool) (b : Block) : Region :=
  ⟨P.addr b + buddyBlockSize, b.size - buddyBlockSize⟩

/-- **What `kfree` does** to a block in use: it is free, and the other blocks in use stay. No two free
buddies are left if there were none. -/
theorem HoldsFrom.kfree (hh : HoldsFrom o P h (l ++ b :: r)) (hk : 16 ≤ k) (hused : b.used = true)
    (hle : b.order ≤ 15) (hinside : (P.payload b).start < P.base + kallocSize) :
    ∃ h' bs', kfree P k h (P.payload b).start = .ok h' ∧ HoldsFrom o P h' bs' ∧
      bs'.filter Block.used = (l ++ r).filter Block.used ∧
      (Coalesced 15 (l ++ b :: r) → Coalesced 15 bs') := by
  have hb : b ∈ l ++ b :: r := by simp
  have hblock : wordSub (P.payload b).start buddyBlockSize = P.addr b :=
    (wordSub_of_le (Nat.le_add_left _ _)).trans (Nat.add_sub_cancel _ _)
  have hstate : h.get (P.addr b) .state ≠ BlockState.free.word := by
    rw [hh.header.state, Ne, Block.word_state_eq_free, hused]
    simp
  have hcheck : P.base ≤ (P.payload b).start ∧ (P.payload b).start < P.base + kallocSize ∧
      h.get (P.addr b) .state ≠ BlockState.free.word :=
    ⟨(Nat.le_add_right _ _).trans (Nat.le_add_right _ _), hinside, hstate⟩
  have hset : HoldsFrom o P (h.put (P.addr b) .state BlockState.free.word)
      (l ++ { b with used := false } :: r) := hh.setState false
  have hrounds : 15 < b.order + k := by omega
  obtain ⟨h', bs', hloop, hholds, hsame, hco⟩ :=
    hset.mergeLoop (b := { b with used := false }) hrounds rfl hle
  have hloop' : Jrinx.mergeLoop k (h.put (P.addr b) .state BlockState.free.word) (P.addr b) = some h' := hloop
  refine ⟨h', bs', ?_, hholds, hsame.trans (filter_used_cons rfl), fun hcoal => hco ?_⟩
  · unfold Jrinx.kfree
    dsimp only
    rw [hblock, if_pos hcheck, hloop']
  · have hbut : CoalescedBut 15 b (l ++ b :: r) := fun c hc d hd _ _ => hcoal c hc d hd
    exact hbut.of_subset fun d hd => ⟨by simp only [List.mem_append, List.mem_cons] at hd ⊢; tauto,
      hh.ne_of_mem d hd⟩

/-- A store to the payload of a block keeps the headers. -/
theorem HoldsFrom.store {a v : Nat} (hh : HoldsFrom o P h bs) (hb : b ∈ bs) (hlo : (P.payload b).start ≤ a)
    (hhi : a + 8 ≤ P.addr b + b.size) :
    HoldsFrom o P { h with mem := Function.update h.mem a v } bs := by
  refine { hh with chain := hh.chain.congr ?_ }
  intro c hc f
  have hne : P.addr c + f.offset ≠ a := by
    have hoff : f.offset ≤ 24 := by cases f <;> decide
    simp only [KallocPool.payload, buddyBlockSize] at hlo
    by_cases hcb : c = b
    · subst hcb
      omega
    · have hsize : 2 ^ 5 ≤ c.size := Nat.pow_le_pow_right (by norm_num) (hh.five_le hc)
      have hapart := hh.tiles.apart hc hb hcb
      unfold Block.stop at hapart
      unfold KallocPool.addr at *
      omega
  exact Function.update_of_ne hne _ _

/-! ## Steps -/

/-- The heap, with the live pointers and the sizes they were asked for with. -/
structure HeapState where
  heap : KHeap
  live : List (Nat × Nat)

/-- The calls, and a store of a word by the owner of a live pointer. -/
inductive HeapOp where
  | kalloc (size : Nat)
  | kfree (ptr : Nat)
  | store (addr v : Nat)
  deriving DecidableEq, Repr

/-- One step. -/
def heapStep (P : KallocPool) (rounds : Nat) (s : HeapState) : HeapOp → Except HeapFault HeapState
  | .kalloc size =>
      match kalloc rounds s.heap size with
      | none => .error .hang
      | some (ptr, h) => .ok ⟨h, if ptr = 0 then s.live else (ptr, size) :: s.live⟩
  | .kfree ptr =>
      match kfree P rounds s.heap ptr with
      | .error e => .error e
      | .ok h => .ok ⟨h, s.live.filter fun x => x.1 ≠ ptr⟩
  | .store addr v => .ok { s with heap := { s.heap with mem := Function.update s.heap.mem addr v } }

/-- After `kalloc_init`, in a memory with any content. -/
def HeapState.boot (P : KallocPool) (mem : Nat → Nat) : HeapState := ⟨kallocInit P mem, []⟩

/-- The calls that are made: sizes below `2 ^ 63`, live pointers, and words of the bytes asked for. -/
def HeapOp.Allowed (s : HeapState) : HeapOp → Prop
  | .kalloc size => size < 2 ^ 63
  | .kfree ptr => ∃ x ∈ s.live, x.1 = ptr
  | .store addr _ => addr % 8 = 0 ∧ ∃ x ∈ s.live, x.1 ≤ addr ∧ addr + 8 ≤ x.1 + alignUp x.2 8

instance (s : HeapState) (op : HeapOp) : Decidable (op.Allowed s) :=
  match op with
  | .kalloc size => inferInstanceAs (Decidable (size < 2 ^ 63))
  | .kfree ptr => inferInstanceAs (Decidable (∃ x ∈ s.live, x.1 = ptr))
  | .store addr _ => inferInstanceAs (Decidable
      (addr % 8 = 0 ∧ ∃ x ∈ s.live, x.1 ≤ addr ∧ addr + 8 ≤ x.1 + alignUp x.2 8))

/-- **The invariant**: the memory holds the blocks, and those in use are the blocks of the live
pointers. -/
structure HeapInv (P : KallocPool) (s : HeapState) (bs : List Block) : Prop
    extends Holds P s.heap bs where
  small : ∀ b ∈ bs, b.used = true → b.order ≤ 15
  live : ∀ x ∈ s.live, ∃ b ∈ bs, b.used = true ∧ x.1 = (P.payload b).start ∧
    alignUp x.2 8 + buddyBlockSize ≤ b.size
  used : ∀ b ∈ bs, b.used = true → ∃ x ∈ s.live, x.1 = (P.payload b).start

theorem holds_kallocInit (P : KallocPool) (mem : Nat → Nat) :
    Holds P (kallocInit P mem) [⟨0, 19, false⟩] := by
  refine ⟨rfl, ⟨⟨?_, ?_, ?_, ?_⟩, trivial⟩, ⟨rfl, rfl⟩, by simp [Block.Aligned], by simp⟩
  all_goals simp [kallocInit, KHeap.get, KHeap.put, KallocPool.addr, BlockField.offset,
    Block.size, Block.state, kallocSize, KallocPool.headAddr]

theorem HeapInv.boot (P : KallocPool) (mem : Nat → Nat) :
    HeapInv P (.boot P mem) [⟨0, 19, false⟩] where
  toHolds := holds_kallocInit P mem
  small := by simp
  live := by simp [HeapState.boot]
  used := by simp

variable {s s' : HeapState} {ptr : Nat}

theorem HeapInv.holdsFrom (hi : HeapInv P s bs) : HoldsFrom 6 P s.heap bs := hi.toHolds.holdsFrom

/-- A payload that has a byte starts inside the pool. -/
theorem HoldsFrom.payload_lt (hh : HoldsFrom o P h bs) (hb : b ∈ bs) (hlarge : 6 ≤ b.order) :
    (P.payload b).start < P.base + kallocSize := by
  have hsize : 2 ^ 6 ≤ b.size := Nat.pow_le_pow_right (by norm_num) hlarge
  have hstop := (hh.tiles.mem_le hb).2
  simp only [KallocPool.payload, KallocPool.addr, buddyBlockSize]
  unfold Block.stop at hstop
  omega

theorem KallocPool.payload_start_inj (heq : (P.payload b).start = (P.payload c).start) :
    b.start = c.start := by
  simp only [payload, addr] at heq
  omega

/-- **The blocks in use are those of the live pointers**, and fit what these were asked for with. -/
structure Owned (fit : Nat → Nat → Prop) (P : KallocPool) (ptrs : List (Nat × Nat)) (bs : List Block) :
    Prop where
  small : ∀ b ∈ bs, b.used = true → b.order ≤ 15
  live : ∀ x ∈ ptrs, ∃ b ∈ bs, b.used = true ∧ x.1 = (P.payload b).start ∧ fit x.2 b.size
  used : ∀ b ∈ bs, b.used = true → ∃ x ∈ ptrs, x.1 = (P.payload b).start

/-- The invariant in its two halves. -/
theorem heapInv_iff : HeapInv P s bs ↔ Holds P s.heap bs ∧
    Owned (fun n size => alignUp n 8 + buddyBlockSize ≤ size) P s.live bs :=
  ⟨fun hi => ⟨hi.toHolds, hi.small, hi.live, hi.used⟩, fun hi => ⟨hi.1, hi.2.small, hi.2.live, hi.2.used⟩⟩

section Owned

variable {fit : Nat → Nat → Prop} {ptrs : List (Nat × Nat)}

/-- A live pointer is not the start of the payload of a free block. -/
theorem Owned.not_live {lo hi : Nat} (ho : Owned fit P ptrs bs) (ht : Tiles lo bs hi) (hb : b ∈ bs)
    (hfree : b.used = false) : ∀ x ∈ ptrs, x.1 ≠ (P.payload b).start := by
  intro x hx heq
  obtain ⟨c, hc, hused, hstart, -⟩ := ho.live x hx
  obtain rfl := ht.eq_of_start hb hc (KallocPool.payload_start_inj (heq.symm.trans hstart))
  rw [hfree] at hused
  exact absurd hused (by simp)

/-- The block that `kalloc` cuts out is in use, and otherwise the same blocks are. -/
theorem Owned.kalloc (ho : Owned fit P ptrs (l ++ b :: r)) {b' : Block} {frees : List Block}
    (hfree : b.used = false) (hused : b'.used = true) (hle : b'.order ≤ 15) (hfit : fit n b'.size)
    (hfrees : ∀ c ∈ frees, c.used = false) :
    Owned fit P (((P.payload b').start, n) :: ptrs) (l ++ b' :: (frees ++ r)) := by
  -- only the new block is used and was not there before
  have hold : ∀ c ∈ l ++ b' :: (frees ++ r), c.used = true → c = b' ∨ c ∈ l ++ b :: r := by
    intro c hc hcused
    simp only [List.mem_append, List.mem_cons] at hc ⊢
    rcases hc with hc | hc | hc | hc
    · exact Or.inr (Or.inl hc)
    · exact Or.inl hc
    · exact absurd (hfrees c hc) (by simp [hcused])
    · exact Or.inr (Or.inr (Or.inr hc))
  refine ⟨?_, ?_, ?_⟩
  · intro c hc hcused
    rcases hold c hc hcused with rfl | hc
    · exact hle
    · exact ho.small c hc hcused
  · intro x hx
    rcases List.mem_cons.mp hx with rfl | hx
    · exact ⟨b', by simp, hused, rfl, hfit⟩
    · obtain ⟨c, hc, hcused, hcstart, hcfit⟩ := ho.live x hx
      refine ⟨c, ?_, hcused, hcstart, hcfit⟩
      simp only [List.mem_append, List.mem_cons] at hc ⊢
      rcases hc with hc | rfl | hc
      · exact Or.inl hc
      · -- the block that was cut down was free, and so it is not the one of a pointer
        exact absurd hfree (by simp [hcused])
      · exact Or.inr (Or.inr (Or.inr hc))
  · intro c hc hcused
    rcases hold c hc hcused with rfl | hc
    · exact ⟨_, List.mem_cons_self, rfl⟩
    · obtain ⟨x, hx, hxstart⟩ := ho.used c hc hcused
      exact ⟨x, List.mem_cons_of_mem _ hx, hxstart⟩

/-- After `kfree` the other live pointers have their blocks. -/
theorem Owned.kfree {lo hi : Nat} (ho : Owned fit P ptrs (l ++ b :: r)) (ht : Tiles lo (l ++ b :: r) hi)
    (hsame : bs.filter Block.used = (l ++ r).filter Block.used) :
    Owned fit P (ptrs.filter fun x => x.1 ≠ (P.payload b).start) bs := by
  have hmem : ∀ c, c.used = true → (c ∈ bs ↔ c ∈ l ++ r) := by
    intro c hcused
    have hc : c ∈ bs.filter Block.used ↔ c ∈ (l ++ r).filter Block.used := by rw [hsame]
    simpa [hcused] using hc
  have hold : ∀ c ∈ bs, c.used = true → c ∈ l ++ b :: r := by
    intro c hc hcused
    have hc' := (hmem c hcused).mp hc
    simp only [List.mem_append, List.mem_cons] at hc' ⊢
    tauto
  refine ⟨fun c hc hcused => ho.small c (hold c hc hcused) hcused, ?_, ?_⟩
  · intro x hx
    obtain ⟨hx, hne⟩ := List.mem_filter.mp hx
    obtain ⟨c, hc, hcused, hcstart, hcfit⟩ := ho.live x hx
    refine ⟨c, (hmem c hcused).mpr ?_, hcused, hcstart, hcfit⟩
    simp only [List.mem_append, List.mem_cons] at hc ⊢
    rcases hc with hc | rfl | hc
    · exact Or.inl hc
    · exact absurd hcstart (of_decide_eq_true hne)
    · exact Or.inr hc
  · intro c hc hcused
    obtain ⟨x, hx, hxstart⟩ := ho.used c (hold c hc hcused) hcused
    refine ⟨x, List.mem_filter.mpr ⟨hx, ?_⟩, hxstart⟩
    apply decide_eq_true
    intro heq
    -- the block would be `b`, which is not in the list any more
    have hstart := KallocPool.payload_start_inj (hxstart.symm.trans heq)
    obtain rfl := ht.eq_of_start (hold c hc hcused) (by simp) hstart
    exact ht.not_mem ((hmem c hcused).mp hc)

end Owned

/-- A live pointer is not the start of the payload of a free block. -/
theorem HeapInv.not_live (hi : HeapInv P s bs) (hb : b ∈ bs) (hfree : b.used = false) :
    ∀ x ∈ s.live, x.1 ≠ (P.payload b).start :=
  (heapInv_iff.mp hi).2.not_live hi.tiles hb hfree

/-- The block that `kalloc` cuts out is in use, and otherwise the same blocks are. -/
theorem HeapInv.kalloc (hi : HeapInv P s (l ++ b :: r)) {b' : Block} {frees : List Block}
    (hfree : b.used = false) (hh : HoldsFrom 6 P h' (l ++ b' :: (frees ++ r)))
    (hused : b'.used = true) (hle : b'.order ≤ 15) (hge : alignUp n 8 + buddyBlockSize ≤ b'.size)
    (hfrees : ∀ c ∈ frees, c.used = false) :
    HeapInv P ⟨h', ((P.payload b').start, n) :: s.live⟩ (l ++ b' :: (frees ++ r)) :=
  heapInv_iff.mpr ⟨hh.holds, (heapInv_iff.mp hi).2.kalloc hfree hused hle hge hfrees⟩

/-- After `kfree` the other live pointers have their blocks. -/
theorem HeapInv.kfree (hi : HeapInv P s (l ++ b :: r)) (hh : HoldsFrom 6 P h' bs)
    (hsame : bs.filter Block.used = (l ++ r).filter Block.used) :
    HeapInv P ⟨h', s.live.filter fun x => x.1 ≠ (P.payload b).start⟩ bs :=
  heapInv_iff.mpr ⟨hh.holds, (heapInv_iff.mp hi).2.kfree hi.tiles hsame⟩

/-- **One step** keeps the invariant, and the calls that are made do not fail. -/
theorem HeapInv.step (hi : HeapInv P s bs) (hk : kallocRounds ≤ k) {op : HeapOp} (ha : op.Allowed s) :
    ∃ s' bs', heapStep P k s op = .ok s' ∧ HeapInv P s' bs' := by
  cases op with
  | kalloc size =>
      rcases hi.holdsFrom.kalloc hk (need_of_lt ha) with
        ⟨hres, -⟩ | ⟨h', l, b, r, b', frees, hres, rfl, -, hfits, hh, hstart, hused, hge, hle, hfrees,
          -⟩
      · -- no block is found, and the heap stays
        refine ⟨s, bs, ?_, hi⟩
        simp only [heapStep, hres, if_true]
      · have hptr : P.addr b + buddyBlockSize = (P.payload b').start := by
          simp only [KallocPool.payload, KallocPool.addr, hstart]
        refine ⟨_, _, ?_, hi.kalloc (n := size) hfits.1 hh hused hle
          ((blockNeed_eq (noWrap_of_lt ha)).2.1.trans hge) fun c hc => (hfrees c hc).1⟩
        simp only [heapStep, hres, hptr]
        -- a pointer that is given out is not null
        rw [if_neg]
        simp [KallocPool.payload, buddyBlockSize]
  | kfree ptr =>
      obtain ⟨x, hx, rfl⟩ := ha
      obtain ⟨b, hb, hused, hstart, -⟩ := hi.live x hx
      obtain ⟨l, r, rfl⟩ := List.append_of_mem hb
      -- a block can be merged no more often than there are sizes
      have hrounds : 16 ≤ k := le_trans (by decide) hk
      obtain ⟨h', bs', hres, hh, hsame, -⟩ := hi.holdsFrom.kfree hrounds hused (hi.small b hb hused)
        (hi.holdsFrom.payload_lt hb (hi.large b hb))
      refine ⟨_, bs', ?_, hi.kfree hh hsame⟩
      simp only [heapStep, hstart, hres]
  | store a v =>
      obtain ⟨-, x, hx, hlo, hhi⟩ := ha
      obtain ⟨b, hb, hused, hstart, hge⟩ := hi.live x hx
      refine ⟨_, bs, rfl, { hi with toHolds := (hi.holdsFrom.store hb (hstart ▸ hlo) ?_).holds }⟩
      rw [hstart] at hhi
      simp only [KallocPool.payload] at hhi
      omega

/-! ## What the heap promises -/

/-- **The block list** is the address-ordered gapless tiling of the pool, with sizes that are powers of
two in their bounds, aligned blocks and links that agree; `get_buddy` finds a block for every block in
use below the largest size; the payloads in use are apart, and are those of the live pointers. -/
structure HeapOk (P : KallocPool) (s : HeapState) (bs : List Block) : Prop where
  blockList : s.heap.blockList = P.headAddr 0 bs
  chain : Chain P s.heap 0 bs 0
  tiles : Tiles 0 bs kallocSize
  sizes : ∀ b ∈ bs, 64 ≤ b.size ∧ b.size ≤ kallocSize
  aligned : ∀ b ∈ bs, min b.size kallocMaxSize ∣ b.start
  buddies : ∀ b ∈ bs, b.used = true →
    (b.size = kallocMaxSize ∧ getBuddy s.heap (P.addr b) = 0) ∨
      ∃ c ∈ bs, getBuddy s.heap (P.addr b) = P.addr c
  payloads : Separate ((bs.filter Block.used).map P.payload) P.base (P.base + kallocSize)
  live : ∀ ptr, (∃ x ∈ s.live, x.1 = ptr) ↔ ∃ b ∈ bs, b.used = true ∧ (P.payload b).start = ptr

/-- **What a call of `kalloc` answers**: `NULL` exactly when the size is too large or no free block is
large enough; else the payload of a new block in use that holds the size and meets no other payload in
use. -/
def Answers (P : KallocPool) (rounds : Nat) (s : HeapState) : HeapOp → Prop
  | .kalloc size => ∃ ptr h' bs bs', kalloc rounds s.heap size = some (ptr, h') ∧
      HeapOk P s bs ∧ Holds P h' bs' ∧
      (ptr = 0 ↔ kallocMaxSize < blockNeed size ∨ ∀ b ∈ bs, ¬ b.Fits (blockNeed size)) ∧
      (ptr ≠ 0 → (∀ x ∈ s.live, x.1 ≠ ptr) ∧ ∃ b ∈ bs', b.used = true ∧ (P.payload b).start = ptr ∧
        size ≤ (P.payload b).size ∧
        ∀ c ∈ bs', c.used = true → c ≠ b → Disjoint (P.payload c).bytes (P.payload b).bytes)
  | _ => True

/-- The payloads of two blocks are apart. -/
theorem HoldsFrom.disjoint_payload (hh : HoldsFrom o P h bs) (hb : b ∈ bs) (hc : c ∈ bs) (hne : b ≠ c) :
    Disjoint (P.payload b).bytes (P.payload c).bytes := by
  apply Set.disjoint_left.mpr
  intro a ha ha'
  have hapart := hh.tiles.apart hb hc hne
  rw [Region.mem_bytes] at ha ha'
  simp only [KallocPool.payload, KallocPool.addr, buddyBlockSize] at ha ha'
  unfold Block.stop at hapart
  omega

theorem Tiles.pairwise {lo hi : Nat} (h : Tiles lo bs hi) : bs.Pairwise fun b c => b.stop ≤ c.start := by
  induction bs generalizing lo with
  | nil => exact List.Pairwise.nil
  | cons b bs ih =>
      obtain ⟨rfl, h⟩ := h
      exact List.pairwise_cons.mpr ⟨fun c hc => (h.mem_le hc).1, ih h⟩

theorem HoldsFrom.separate (hh : HoldsFrom o P h bs) :
    Separate ((bs.filter Block.used).map P.payload) P.base (P.base + kallocSize) where
  disjoint := by
    rw [List.pairwise_map]
    apply (hh.tiles.pairwise.filter Block.used).imp_of_mem
    intro b c hb hc hle
    apply hh.disjoint_payload (List.mem_of_mem_filter hb) (List.mem_of_mem_filter hc)
    rintro rfl
    exact absurd hle (not_le.mpr b.start_lt_stop)
  inside := by
    intro x hx a ha
    obtain ⟨b, hb, rfl⟩ := List.mem_map.mp hx
    have hstop := (hh.tiles.mem_le (List.mem_of_mem_filter hb)).2
    rw [Region.mem_bytes] at ha
    simp only [KallocPool.payload, KallocPool.addr, buddyBlockSize] at ha
    unfold Block.stop at hstop
    exact ⟨by omega, by omega⟩

theorem HeapInv.ok (hi : HeapInv P s bs) : HeapOk P s bs where
  blockList := hi.blockList
  chain := hi.chain
  tiles := hi.tiles
  sizes := by
    intro b hb
    have hlo : 2 ^ 6 ≤ b.size := Nat.pow_le_pow_right (by norm_num) (hi.large b hb)
    have hhi : b.size ≤ 2 ^ 19 := Nat.pow_le_pow_right (by norm_num) (hi.holdsFrom.order_le hb)
    exact ⟨hlo, hhi⟩
  aligned := by
    intro b hb
    have hal := hi.aligned b hb
    unfold Block.Aligned at hal
    rw [kallocMaxSize_eq, Block.size]
    -- a block of the largest size is aligned to its own half only
    rcases Nat.le_total b.order 15 with hle | hle
    · rwa [min_eq_left (Nat.pow_le_pow_right (by norm_num) hle), ← min_eq_left hle]
    · rwa [min_eq_right (Nat.pow_le_pow_right (by norm_num) hle), ← min_eq_right hle]
  buddies := by
    intro b hb hused
    -- only a block of the largest size has no buddy
    rcases Nat.lt_or_eq_of_le (hi.small b hb hused) with hlt | htop
    · obtain ⟨c, hc, -, heq⟩ := hi.holdsFrom.getBuddy hb hlt
      exact Or.inr ⟨c, hc, heq⟩
    · left
      refine ⟨?_, hi.holdsFrom.getBuddy_top hb htop⟩
      rw [Block.size, htop, kallocMaxSize_eq]
  payloads := hi.holdsFrom.separate
  live := by
    intro ptr
    constructor
    · rintro ⟨x, hx, rfl⟩
      obtain ⟨b, hb, hused, hstart, -⟩ := hi.live x hx
      exact ⟨b, hb, hused, hstart.symm⟩
    · rintro ⟨b, hb, hused, rfl⟩
      exact hi.used b hb hused

theorem HeapInv.answers (hi : HeapInv P s bs) (hk : kallocRounds ≤ k) {op : HeapOp}
    (ha : op.Allowed s) : Answers P k s op := by
  cases op with
  | kfree ptr => trivial
  | store a v => trivial
  | kalloc size =>
      rcases hi.holdsFrom.kalloc hk (need_of_lt ha) with
        ⟨hres, hwhy⟩ | ⟨h', l, b, r, b', frees, hres, rfl, hmax, hfits, hh, hstart, hused, hge, -⟩
      · exact ⟨0, s.heap, bs, bs, hres, hi.ok, hi.toHolds, by simp [hwhy], by simp⟩
      · have hb' : b' ∈ l ++ b' :: (frees ++ r) := by simp
        have hptr : P.addr b + buddyBlockSize = (P.payload b').start := by
          simp only [KallocPool.payload, KallocPool.addr, hstart]
        refine ⟨_, h', _, _, hres, hi.ok, hh.holds, ?_, fun _ => ⟨?_, b', hb', hused, hptr.symm, ?_, ?_⟩⟩
        · constructor
          · intro hz
            exact absurd hz (by simp [buddyBlockSize])
          · rintro (hlarge | hnone)
            · exact absurd hlarge (not_lt.mpr hmax)
            · exact absurd hfits (hnone b (by simp))
        · exact hi.not_live (by simp) hfits.1
        · obtain ⟨-, hneed, hn⟩ := blockNeed_eq (noWrap_of_lt ha)
          have hle := hneed.trans hge
          simp only [KallocPool.payload]
          omega
        · exact fun c hc _ hne => hh.disjoint_payload hc hb' hne

/-- **Every run** keeps the invariant. -/
theorem HeapInv.run (P : KallocPool) (mem : Nat → Nat) {rounds : Nat} (hk : kallocRounds ≤ rounds)
    {tr : List (HeapState × HeapOp)} {s : HeapState}
    (hrun : Exec (heapStep P rounds) (.boot P mem) tr s)
    (hallowed : AllSteps (fun s op => op.Allowed s) tr) :
    Throughout (fun s => ∃ bs, HeapInv P s bs) tr s := by
  apply hrun.throughout_of_forall ⟨_, HeapInv.boot P mem⟩ hallowed
  rintro s op s' ⟨bs, hi⟩ ha hs
  obtain ⟨s'', bs', hs', hi'⟩ := hi.step hk ha
  rw [hs, Except.ok.injEq] at hs'
  exact ⟨bs', hs' ▸ hi'⟩

/-- **The kernel heap.** For a pool anywhere in the memory, and any number of rounds that is enough for
one loop over the blocks: in every run the block list is in order and every `kalloc` is answered well,
and every call that may be made returns. -/
theorem kernel_heap (P : KallocPool) (mem : Nat → Nat) {rounds : Nat} (hk : kallocRounds ≤ rounds)
    {tr : List (HeapState × HeapOp)} {s : HeapState}
    (hrun : Exec (heapStep P rounds) (.boot P mem) tr s)
    (hallowed : AllSteps (fun s op => op.Allowed s) tr) :
    Throughout (fun s => ∃ bs, HeapOk P s bs) tr s ∧ AllSteps (Answers P rounds) tr ∧
      ∀ op : HeapOp, op.Allowed s → ∃ s', heapStep P rounds s op = .ok s' := by
  have hinv := HeapInv.run P mem hk hrun hallowed
  refine ⟨⟨?_, ?_⟩, ?_, ?_⟩
  · intro x hx
    obtain ⟨bs, hi⟩ := hinv.1 x hx
    exact ⟨bs, hi.ok⟩
  · obtain ⟨bs, hi⟩ := hinv.2
    exact ⟨bs, hi.ok⟩
  · intro x hx
    obtain ⟨bs, hi⟩ := hinv.1 x hx
    exact hi.answers hk (hallowed x hx)
  · intro op ha
    obtain ⟨bs, hi⟩ := hinv.2
    obtain ⟨s', -, hs, -⟩ := hi.step hk ha
    exact ⟨s', hs⟩

/-- A pool at its place in the memory. -/
def KallocPool.sample : KallocPool where
  base := 0x80208000
  aligned := ⟨0x10041, by decide⟩
  pos := by decide
  fits := by rw [wordSize_eq]; decide

/-- Two allocations of different sizes, a store to the first payload and its release. -/
theorem kernel_heap_release : ∃ tr s,
    Exec (heapStep .sample kallocRounds) (.boot .sample fun _ => 0) tr s ∧
      s.live = [(0x80209020, 3000)] ∧ Throughout (fun s => ∃ bs, HeapOk .sample s bs) tr s := by
  obtain ⟨s, hrun, hlive⟩ := Exec.of_checkRun (heapStep .sample kallocRounds)
    (.boot .sample fun _ => 0)
    [.kalloc 100, .kalloc 3000, .store 0x80208020 7, .kfree 0x80208020]
    (fun s => s.live = [(0x80209020, 3000)]) (by decide +kernel)
  refine ⟨_, s, hrun, of_decide_eq_true hlive, (kernel_heap .sample _ le_rfl hrun ?_).1⟩
  show ∀ x ∈ traceEvents _ _ _, HeapOp.Allowed x.1 x.2
  decide +kernel

end Jrinx
