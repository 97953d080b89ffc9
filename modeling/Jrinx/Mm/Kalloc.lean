import Jrinx.Types
import Jrinx.Lib.Regions
import Jrinx.Lib.Buddy

/-! # The kernel heap

`kern/mm/kalloc.c`: a pool of memory in blocks. The header of a block lies in the pool, at the start of
the block, and links it to the blocks before and after it. The spinlock around every access is left
out, and a loop gets a number of rounds, after which it hangs.

* **`KHeap`** — the words of the memory and the head of the block list.
* **`getBuddy`**, **`kallocInit`**, **`kalloc`**, **`kfree`** — the functions, assignment by assignment.
* **`Holds`**, **`HoldsFrom`** — the memory holds a list of blocks that tile the pool. -/

namespace Jrinx

/-! ## The heap -/

/-- `KALLOC_MIN_SIZE`. -/
def kallocMinSize : Nat := 8 * 4

/-- `KALLOC_MAX_SIZE`. -/
def kallocMaxSize : Nat := 0x8000

/-- `KALLOCSIZE`. -/
def kallocSize : Nat := 0x80000

/-- The size of a `struct buddy_block`. -/
def buddyBlockSize : Nat := 32

/-- Where the linker puts `kalloc_pool`. -/
structure KallocPool where
  base : Nat
  aligned : kallocMaxSize ∣ base
  pos : 0 < base
  fits : base + kallocSize ≤ wordSize

/-- The fields of a `struct buddy_block`. -/
inductive BlockField where
  | size | state | next | prev
  deriving DecidableEq, Repr

/-- The offset of a field in the header. -/
def BlockField.offset : BlockField → Nat
  | .size => 0
  | .state => 8
  | .next => 16
  | .prev => 24

/-- `enum buddy_block_state_t`. -/
inductive BlockState where
  | free | used
  deriving DecidableEq, Repr

/-- The word that stands for a state. -/
def BlockState.word : BlockState → Nat
  | .free => 0
  | .used => 1

/-- The words of the memory by their addresses, and `kalloc_block_list`. -/
structure KHeap where
  mem : Nat → Nat
  blockList : Nat

namespace KHeap

/-- Read a field of the header at `block`. -/
def get (h : KHeap) (block : Nat) (f : BlockField) : Nat := h.mem (block + f.offset)

/-- Write a field of the header at `block`. -/
def put (h : KHeap) (block : Nat) (f : BlockField) (v : Nat) : KHeap :=
  { h with mem := Function.update h.mem (block + f.offset) v }

end KHeap

/-- `get_buddy`; `0` is `NULL`. -/
def getBuddy (h : KHeap) (block : Nat) : Nat :=
  if h.get block .size = kallocMaxSize then 0
  else if block % (h.get block .size * 2) = 0 then (block + h.get block .size) % wordSize
  else wordSub block (h.get block .size)

/-- `kalloc_init`, in a memory with any content. -/
def kallocInit (P : KallocPool) (mem : Nat → Nat) : KHeap :=
  let block := P.base
  let h : KHeap := ⟨mem, 0⟩
  let h := h.put block .size kallocSize
  let h := h.put block .state BlockState.free.word
  let h := h.put block .next 0
  let h := h.put block .prev 0
  { h with blockList := block }

/-- The loop of `kalloc` that looks for a block. -/
def findFree (h : KHeap) (size : Nat) : Nat → Nat → Option Nat
  | 0, _ => none
  | n + 1, block =>
      if block = 0 then some 0
      else if h.get block .state = BlockState.free.word ∧ size ≤ h.get block .size then some block
      else findFree h size n (h.get block .next)

/-- One round of the loop of `kalloc` that splits the block. -/
def splitBlock (h : KHeap) (block : Nat) : KHeap :=
  let newBlock := block + h.get block .size / 2
  let h := h.put newBlock .size (h.get block .size / 2)
  let h := h.put newBlock .state BlockState.free.word
  let h := h.put newBlock .next (h.get block .next)
  let h := h.put newBlock .prev block
  let h := if h.get block .next ≠ 0 then h.put (h.get block .next) .prev newBlock else h
  let h := h.put block .next newBlock
  h.put block .size (h.get block .size / 2)

/-- The loop of `kalloc` that splits the block. -/
def splitLoop (size : Nat) : Nat → KHeap → Nat → Option KHeap
  | 0, _, _ => none
  | n + 1, h, block =>
      if size ≤ h.get block .size / 2 then splitLoop size n (splitBlock h block) block else some h

/-- The size of a block that `kalloc` asks for. -/
def blockNeed (size : Nat) : Nat :=
  let size := if size < kallocMinSize then kallocMinSize else size
  let size := alignUp size 8
  (size + buddyBlockSize) % wordSize

/-- `kalloc`; `0` is `NULL`. -/
def kalloc (rounds : Nat) (h : KHeap) (size : Nat) : Option (Nat × KHeap) :=
  let size := blockNeed size
  if kallocMaxSize < size then some (0, h)
  else
    match findFree h size rounds h.blockList with
    | none => none
    | some block =>
        if block = 0 then some (0, h)
        else
          match splitLoop size rounds (h.put block .state BlockState.used.word) block with
          | none => none
          | some h => some (block + buddyBlockSize, h)

/-- One round of the loop of `kfree`, on the two blocks in the order of their addresses. -/
def mergeBlocks (h : KHeap) (mergedBlock otherBlock : Nat) : KHeap :=
  let h := h.put mergedBlock .size (h.get mergedBlock .size * 2)
  let h := h.put mergedBlock .next (h.get otherBlock .next)
  if h.get otherBlock .next ≠ 0 then h.put (h.get otherBlock .next) .prev mergedBlock else h

/-- The loop of `kfree`. -/
def mergeLoop : Nat → KHeap → Nat → Option KHeap
  | 0, _, _ => none
  | n + 1, h, block =>
      let buddy := getBuddy h block
      if buddy ≠ 0 ∧ h.get buddy .state = BlockState.free.word ∧
          h.get buddy .size = h.get block .size then
        let mergedBlock := if buddy < block then buddy else block
        let otherBlock := if buddy < block then block else buddy
        mergeLoop n (mergeBlocks h mergedBlock otherBlock) mergedBlock
      else some h

/-- What stops a call: a failed `assert`, or a loop that does not end. -/
inductive HeapFault where
  | assertion | hang
  deriving DecidableEq, Repr

/-- `kfree`. -/
def kfree (P : KallocPool) (rounds : Nat) (h : KHeap) (ptr : Nat) : Except HeapFault KHeap :=
  let block := wordSub ptr buddyBlockSize
  if P.base ≤ ptr ∧ ptr < P.base + kallocSize ∧ h.get block .state ≠ BlockState.free.word then
    match mergeLoop rounds (h.put block .state BlockState.free.word) block with
    | none => .error .hang
    | some h => .ok h
  else .error .assertion

/-! ## Headers -/

/-- Two headers do not overlap. -/
def Clear (a b : Nat) : Prop := a + buddyBlockSize ≤ b ∨ b + buddyBlockSize ≤ a

theorem Clear.symm {a b : Nat} (h : Clear a b) : Clear b a := Or.symm h

namespace KHeap

variable {h : KHeap} {a b v : Nat} {f g : BlockField}

theorem get_put_self : (h.put a f v).get a g = if g = f then v else h.get a g := by
  cases f <;> cases g <;> simp [get, put, BlockField.offset]

theorem get_put_clear (hab : Clear a b) : (h.put a f v).get b g = h.get b g := by
  have hne : b + g.offset ≠ a + f.offset := by
    unfold Clear buddyBlockSize at hab
    cases f <;> cases g <;> simp only [BlockField.offset] <;> omega
  simp [get, put, hne]

@[simp] theorem blockList_put : (h.put a f v).blockList = h.blockList := rfl

end KHeap

/-! ## The blocks in the memory -/

variable {P : KallocPool} {h h' : KHeap} {bs l r : List Block} {b c : Block} {p n : Nat}

namespace KallocPool

/-- The address of a block of the pool. -/
def addr (P : KallocPool) (b : Block) : Nat := P.base + b.start

/-- The address of the first block of the list, or else `n`. -/
def headAddr (P : KallocPool) (n : Nat) : List Block → Nat
  | [] => n
  | b :: _ => P.addr b

/-- The address of the last block of the list, or else `p`. -/
def lastAddr (P : KallocPool) (p : Nat) : List Block → Nat
  | [] => p
  | b :: bs => P.lastAddr (P.addr b) bs

theorem addr_pos (P : KallocPool) (b : Block) : 0 < P.addr b := Nat.add_pos_left P.pos _

end KallocPool

/-- The state of a block. -/
def Block.state (b : Block) : BlockState := if b.used then .used else .free

/-- The header of a block, with its links. -/
structure Header (P : KallocPool) (h : KHeap) (b : Block) (next prev : Nat) : Prop where
  size : h.get (P.addr b) .size = b.size
  state : h.get (P.addr b) .state = b.state.word
  next : h.get (P.addr b) .next = next
  prev : h.get (P.addr b) .prev = prev

/-- The headers of the blocks link each other in their order, from `p` on to `n`. -/
def Chain (P : KallocPool) (h : KHeap) : Nat → List Block → Nat → Prop
  | _, [], _ => True
  | p, b :: bs, n => Header P h b (P.headAddr n bs) p ∧ Chain P h (P.addr b) bs n

theorem chain_append : Chain P h p (l ++ r) n ↔
    Chain P h p l (P.headAddr n r) ∧ Chain P h (P.lastAddr p l) r n := by
  induction l generalizing p with
  | nil => simp [Chain, KallocPool.lastAddr]
  | cons b l ih =>
      have hhead : P.headAddr n (l ++ r) = P.headAddr (P.headAddr n r) l := by cases l <;> rfl
      simp only [List.cons_append, Chain, KallocPool.lastAddr, ih, hhead, and_assoc]

theorem Header.congr (hb : Header P h b n p) (heq : ∀ f, h'.get (P.addr b) f = h.get (P.addr b) f) :
    Header P h' b n p :=
  ⟨(heq _).trans hb.size, (heq _).trans hb.state, (heq _).trans hb.next, (heq _).trans hb.prev⟩

theorem Chain.congr (hl : Chain P h p l n)
    (heq : ∀ b ∈ l, ∀ f, h'.get (P.addr b) f = h.get (P.addr b) f) : Chain P h' p l n := by
  induction l generalizing p with
  | nil => trivial
  | cons b l ih =>
      obtain ⟨hb, hrest⟩ := hl
      exact ⟨hb.congr (heq b List.mem_cons_self),
        ih hrest fun c hc => heq c (List.mem_cons_of_mem b hc)⟩

theorem Chain.header (hl : Chain P h p l n) (hb : b ∈ l) : ∃ n' p', Header P h b n' p' := by
  induction l generalizing p with
  | nil => exact absurd hb List.not_mem_nil
  | cons c l ih =>
      rcases List.mem_cons.mp hb with rfl | hb
      · exact ⟨_, _, hl.1⟩
      · exact ih hl.2 hb

/-- The link backwards of the first block is set to `p'`. -/
theorem Chain.relink (hl : Chain P h p l n) (p' : Nat)
    (hfst : ∀ b ∈ l.head?, ∀ f, h'.get (P.addr b) f = if f = .prev then p' else h.get (P.addr b) f)
    (hrest : ∀ b ∈ l.tail, ∀ f, h'.get (P.addr b) f = h.get (P.addr b) f) : Chain P h' p' l n := by
  cases l with
  | nil => trivial
  | cons b l =>
      obtain ⟨hb, hl⟩ := hl
      have heq := hfst b rfl
      refine ⟨⟨?_, ?_, ?_, ?_⟩, hl.congr hrest⟩
      · exact (heq .size).trans hb.size
      · exact (heq .state).trans hb.state
      · exact (heq .next).trans hb.next
      · exact heq .prev

/-- **The memory holds the blocks**: they tile the pool, are aligned, have at least 64 bytes, and their
headers link them in their order. -/
structure Holds (P : KallocPool) (h : KHeap) (bs : List Block) : Prop where
  blockList : h.blockList = P.headAddr 0 bs
  chain : Chain P h 0 bs 0
  tiles : Tiles 0 bs kallocSize
  aligned : ∀ b ∈ bs, b.Aligned 15
  large : ∀ b ∈ bs, 6 ≤ b.order

/-- The same with blocks of at least `2 ^ o` bytes, where headers have room. -/
structure HoldsFrom (o : Nat) (P : KallocPool) (h : KHeap) (bs : List Block) : Prop where
  room : 5 ≤ o
  blockList : h.blockList = P.headAddr 0 bs
  chain : Chain P h 0 bs 0
  tiles : Tiles 0 bs kallocSize
  aligned : ∀ b ∈ bs, b.Aligned 15
  large : ∀ b ∈ bs, o ≤ b.order

theorem Holds.holdsFrom (hh : Holds P h bs) : HoldsFrom 6 P h bs :=
  ⟨by decide, hh.blockList, hh.chain, hh.tiles, hh.aligned, hh.large⟩

/-- Blocks with a gap of at least a header between their starts. -/
theorem clear_of_stop_le (hlarge : 5 ≤ b.order) (hle : b.stop ≤ c.start) :
    Clear (P.addr b) (P.addr c) := by
  have hsize : 2 ^ 5 ≤ b.size := Nat.pow_le_pow_right (by norm_num) hlarge
  left
  unfold Block.stop at hle
  unfold buddyBlockSize KallocPool.addr
  omega

namespace HoldsFrom

variable {o : Nat}

theorem holds (hh : HoldsFrom 6 P h bs) : Holds P h bs :=
  ⟨hh.blockList, hh.chain, hh.tiles, hh.aligned, hh.large⟩

theorem five_le (hh : HoldsFrom o P h bs) (hb : b ∈ bs) : 5 ≤ b.order := hh.room.trans (hh.large b hb)

theorem clear (hh : HoldsFrom o P h bs) (hb : b ∈ bs) (hc : c ∈ bs) (hne : b ≠ c) :
    Clear (P.addr b) (P.addr c) := by
  rcases hh.tiles.apart hb hc hne with hle | hle
  · exact clear_of_stop_le (hh.five_le hb) hle
  · exact (clear_of_stop_le (hh.five_le hc) hle).symm

theorem order_le (hh : HoldsFrom o P h bs) (hb : b ∈ bs) : b.order ≤ 19 := by
  have hstop := (hh.tiles.mem_le hb).2
  have hsize : 2 ^ b.order ≤ 2 ^ 19 := (Nat.le_add_left _ b.start).trans hstop
  exact (Nat.pow_le_pow_iff_right (by norm_num)).mp hsize

/-- The header of a block in the middle of the list. -/
theorem header (hh : HoldsFrom o P h (l ++ b :: r)) :
    Header P h b (P.headAddr 0 r) (P.lastAddr 0 l) :=
  (chain_append.mp hh.chain).2.1

/-- The blocks before and after a block are clear of it. -/
theorem clear_before (hh : HoldsFrom o P h (l ++ b :: r)) (hc : c ∈ l) : Clear (P.addr c) (P.addr b) :=
  clear_of_stop_le (hh.five_le (List.mem_append_left _ hc)) (hh.tiles.stop_le hc)

theorem clear_after (hh : HoldsFrom o P h (l ++ b :: r)) (hc : c ∈ r) : Clear (P.addr b) (P.addr c) :=
  clear_of_stop_le (hh.five_le (by simp)) (hh.tiles.le_start hc)

end HoldsFrom

theorem headAddr_append : P.headAddr n (l ++ r) = P.headAddr (P.headAddr n r) l := by
  cases l <;> rfl

/-- A property of all blocks, when the blocks in the middle are replaced. -/
theorem forall_replace {q : Block → Prop} (m m' : List Block) (h : ∀ b ∈ l ++ (m ++ r), q b)
    (hm : ∀ b ∈ m', q b) : ∀ b ∈ l ++ (m' ++ r), q b := by
  intro b hb
  simp only [List.mem_append] at h hb
  rcases hb with hb | hb | hb
  · exact h b (Or.inl hb)
  · exact hm b hb
  · exact h b (Or.inr (Or.inr hb))

/-- **The state of a block is set.** -/
theorem HoldsFrom.setState {o : Nat} (hh : HoldsFrom o P h (l ++ b :: r)) (u : Bool) :
    HoldsFrom o P (h.put (P.addr b) .state ({ b with used := u } : Block).state.word)
      (l ++ { b with used := u } :: r) := by
  obtain ⟨hl, hb, hr⟩ := chain_append.mp hh.chain
  refine ⟨hh.room, ?_, ?_, ?_, ?_, ?_⟩
  · rw [KHeap.blockList_put, hh.blockList, headAddr_append, headAddr_append]
    rfl
  · refine chain_append.mpr ⟨hl.congr ?_, ⟨?_, ?_, ?_, ?_⟩, hr.congr ?_⟩
    · exact fun c hc f => KHeap.get_put_clear (hh.clear_before hc).symm
    · exact KHeap.get_put_self.trans hb.size
    · exact KHeap.get_put_self
    · exact KHeap.get_put_self.trans hb.next
    · exact KHeap.get_put_self.trans hb.prev
    · exact fun c hc f => KHeap.get_put_clear (hh.clear_after hc)
  · obtain ⟨mid, htl, hstart, htr⟩ := tiles_append.mp hh.tiles
    exact tiles_append.mpr ⟨mid, htl, hstart, htr⟩
  · apply forall_replace [b] [{ b with used := u }] hh.aligned
    intro c hc
    rw [List.mem_singleton.mp hc]
    exact hh.aligned b (by simp)
  · apply forall_replace [b] [{ b with used := u }] hh.large
    intro c hc
    rw [List.mem_singleton.mp hc]
    exact hh.large b (by simp)

end Jrinx
