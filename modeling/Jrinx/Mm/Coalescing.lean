import Jrinx.Mm.HeapRuns

/-! # Freed blocks coalesce

Runs of `kalloc` and `kfree` with sizes of all values of a `size_t`. The sum of a size and its header
wraps for the largest ones; `kalloc` then cuts blocks that have no room for a header, and follows a link
that the new header has overwritten.

* **`kallocStrays`** — the calls that store through such a link.
* **`MergedInv`** — the invariant: no two free buddies of the same size.
* **`HoldsFrom.kallocGetUsed`** — the bytes in use.
* **`freeing_coalesces`** — in every run nothing is left in pieces once everything is freed. -/

namespace Jrinx

variable {P : KallocPool} {h h' : KHeap} {bs l r : List Block} {b c : Block} {k n p o : Nat}

/-! ## Stores through an overwritten link -/

/-- The memory in a round of the splitting loop when the header of the upper half is filled in. -/
def fillUpper (h : KHeap) (block : Nat) : KHeap :=
  let newBlock := block + h.get block .size / 2
  let h := h.put newBlock .size (h.get block .size / 2)
  let h := h.put newBlock .state BlockState.free.word
  let h := h.put newBlock .next (h.get block .next)
  h.put newBlock .prev block

/-- The next store of the round, to `block->next->prev`, goes to the first page, where nothing is
mapped. -/
def splitStrays (h : KHeap) (block : Nat) : Bool :=
  (fillUpper h block).get block .next ≠ 0 &&
    decide ((fillUpper h block).get block .next + BlockField.prev.offset < pgSize)

/-- Some round of the splitting loop does that. -/
def splitLoopStrays (size : Nat) : Nat → KHeap → Nat → Bool
  | 0, _, _ => false
  | n + 1, h, block =>
      if size ≤ h.get block .size / 2 then
        splitStrays h block || splitLoopStrays size n (splitBlock h block) block
      else false

/-- The call of `kalloc` ends in a page fault of the kernel. -/
def kallocStrays (rounds : Nat) (h : KHeap) (size : Nat) : Bool :=
  if kallocMaxSize < blockNeed size then false
  else
    match findFree h (blockNeed size) rounds h.blockList with
    | none => false
    | some block =>
        block ≠ 0 && splitLoopStrays (blockNeed size) rounds (h.put block .state BlockState.used.word) block

theorem KallocPool.le_base (P : KallocPool) : kallocMaxSize ≤ P.base := Nat.le_of_dvd P.pos P.aligned

/-- A block with room for two headers keeps its link. -/
theorem HoldsFrom.splitStrays (hh : HoldsFrom o P h (l ++ b :: r)) (hb : o < b.order) :
    splitStrays h (P.addr b) = false := by
  have hpos : 0 < b.order := Nat.zero_lt_of_lt hb
  have hnew : P.addr b + h.get (P.addr b) .size / 2 = P.addr b.upper := by
    rw [hh.header.size, Block.size_div_two hpos, KallocPool.addr, Nat.add_assoc]
    rfl
  have hroom : 5 ≤ b.lower.order := hh.room.trans (Nat.le_sub_one_of_lt hb)
  have hclear : Clear (P.addr b) (P.addr b.upper) := clear_of_stop_le (b := b.lower) hroom le_rfl
  have hnext : (fillUpper h (P.addr b)).get (P.addr b) .next = P.headAddr 0 r := by
    simp only [fillUpper, hnew, KHeap.get_put_clear hclear.symm, hh.header.next]
  unfold Jrinx.splitStrays
  rw [hnext, Bool.and_eq_false_iff]
  by_cases hz : P.headAddr 0 r = 0
  · exact Or.inl (by simp [hz])
  · right
    obtain ⟨d, -, heq⟩ := headAddr_mem hz
    have hbase := P.le_base
    apply decide_eq_false
    rw [heq, KallocPool.addr, not_lt]
    unfold kallocMaxSize at hbase
    unfold pgSize
    omega

theorem HoldsFrom.splitLoopStrays {size : Nat} (hsize : 2 ^ o < 2 * size)
    (hh : HoldsFrom o P h (l ++ b :: r)) : splitLoopStrays size k h (P.addr b) = false := by
  induction k generalizing h b r with
  | zero => rfl
  | succ k ih =>
      rw [Jrinx.splitLoopStrays, hh.header.size]
      by_cases hle : size ≤ b.size / 2
      · have hmore : o < b.order := by
          by_contra hle'
          have hpow : b.size ≤ 2 ^ o := Nat.pow_le_pow_right (by norm_num) (not_lt.mp hle')
          omega
        rw [if_pos hle, hh.splitStrays hmore, Bool.false_or]
        exact ih (b := b.lower) (hh.splitBlock hmore)
      · exact if_neg hle

/-- A block of 32 bytes that is split: its link is the size of the halves. -/
theorem splitStrays_of_size {a : Nat} (hsize : h.get a .size = 2 ^ 5) : splitStrays h a = true := by
  have hnext : (fillUpper h a).get a .next = 16 := by
    simp [fillUpper, KHeap.get, KHeap.put, BlockField.offset] at hsize ⊢
    simp [hsize]
  unfold splitStrays
  rw [hnext]
  decide

/-- Requests that wrapped to at most 16 bytes. -/
theorem HoldsFrom.strays_of_le {size : Nat} (hsize : size ≤ 16) (hh : HoldsFrom 5 P h (l ++ b :: r))
    (hk : b.order < 5 + k) : Jrinx.splitLoopStrays size k h (P.addr b) = true := by
  induction k generalizing h b r with
  | zero =>
      have hlarge := hh.large b (by simp)
      omega
  | succ k ih =>
      have hlarge := hh.large b (by simp)
      have hpow : 2 ^ 5 ≤ b.size := Nat.pow_le_pow_right (by norm_num) hlarge
      rw [Jrinx.splitLoopStrays, hh.header.size, if_pos (by omega), Bool.or_eq_true]
      rcases Nat.lt_or_eq_of_le hlarge with hmore | heq
      · exact Or.inr (ih (b := b.lower) (hh.splitBlock hmore) (by simp only [Block.lower]; omega))
      · exact Or.inl (splitStrays_of_size (by rw [hh.header.size, Block.size, ← heq]))

/-! ## Steps -/

/-- One step on a machine where the first page is not mapped: the fault of a stray store ends the run. -/
def mappedStep (P : KallocPool) (rounds : Nat) (s : HeapState) (op : HeapOp) : Except HeapFault HeapState :=
  match op with
  | .kalloc size =>
      if kallocStrays rounds s.heap size then .error .hang else heapStep P rounds s op
  | _ => heapStep P rounds s op

/-- The calls that are made: any size, live pointers, and stores to the bytes that were asked for, where
that many bytes exist. -/
def HeapOp.Legal (s : HeapState) : HeapOp → Prop
  | .kalloc size => size < wordSize
  | .kfree ptr => ∃ x ∈ s.live, x.1 = ptr
  | .store addr _ => addr % 8 = 0 ∧
      ∃ x ∈ s.live, NoWrap x.2 ∧ x.1 ≤ addr ∧ addr + 8 ≤ x.1 + alignUp x.2 8

instance (s : HeapState) (op : HeapOp) : Decidable (op.Legal s) :=
  match op with
  | .kalloc size => inferInstanceAs (Decidable (size < wordSize))
  | .kfree ptr => inferInstanceAs (Decidable (∃ x ∈ s.live, x.1 = ptr))
  | .store addr _ => inferInstanceAs (Decidable
      (addr % 8 = 0 ∧ ∃ x ∈ s.live, NoWrap x.2 ∧ x.1 ≤ addr ∧ addr + 8 ≤ x.1 + alignUp x.2 8))

/-- A block is large enough for a size that does not wrap. -/
def FitsUnwrapped (n size : Nat) : Prop := NoWrap n → alignUp n 8 + buddyBlockSize ≤ size

/-- **The invariant**: the blocks in use are those of the live pointers, and no two free buddies have the
same size below the bound. -/
structure MergedInv (P : KallocPool) (s : HeapState) (bs : List Block) : Prop where
  holds : HoldsFrom 5 P s.heap bs
  owned : Owned FitsUnwrapped P s.live bs
  merged : Coalesced 15 bs

variable {s s' : HeapState}

theorem MergedInv.boot (P : KallocPool) (mem : Nat → Nat) : MergedInv P (.boot P mem) [⟨0, 19, false⟩] where
  holds := by
    obtain ⟨hlist, hchain, htiles, haligned, -⟩ := holds_kallocInit P mem
    exact ⟨le_rfl, hlist, hchain, htiles, haligned, by simp⟩
  owned := ⟨by simp, by simp [HeapState.boot], by simp⟩
  merged := by
    intro b hb c _ hbc
    rw [List.mem_singleton.mp hb] at hbc
    exact absurd hbc.lt (by decide)

/-- Rounds for a loop over blocks of 32 bytes. -/
def mergeRounds : Nat := kallocSize / 2 ^ 5 + 1

/-- A request that wrapped to at most 16 bytes finds no block, or strays. -/
theorem HoldsFrom.kalloc_small (hh : HoldsFrom 5 P h bs) (hk : mergeRounds ≤ k) (hneed : blockNeed n ≤ 16)
    (hstray : kallocStrays k h n = false) : Jrinx.kalloc k h n = some (0, h) := by
  have hsmall : ¬ kallocMaxSize < blockNeed n := by
    unfold kallocMaxSize
    omega
  rw [kallocStrays, if_neg hsmall, hh.blockList] at hstray
  unfold Jrinx.kalloc
  dsimp only
  rw [if_neg hsmall, hh.blockList]
  rcases hh.chain.findFree (blockNeed n) (hh.length_lt.trans_le hk) with
    ⟨hnone, -⟩ | ⟨l, b, r, rfl, hsome, -, -⟩
  · rw [hnone]
    exact if_pos rfl
  · have hset := hh.setState true
    have hrounds := hh.rounds_split hk (b := b) (by simp)
    have hstrays : Jrinx.splitLoopStrays (blockNeed n) k
        (h.put (P.addr b) .state BlockState.used.word) (P.addr b) = true :=
      hset.strays_of_le (b := { b with used := true }) hneed hrounds
    rw [hsome] at hstray
    simp [hstrays, (P.addr_pos b).ne'] at hstray

/-- A request for more than 16 bytes does not stray. -/
theorem HoldsFrom.kallocStrays (hh : HoldsFrom 5 P h bs) (hk : mergeRounds ≤ k) (hneed : 16 < blockNeed n) :
    kallocStrays k h n = false := by
  unfold Jrinx.kallocStrays
  by_cases hlarge : kallocMaxSize < blockNeed n
  · exact if_pos hlarge
  rw [if_neg hlarge, hh.blockList]
  rcases hh.chain.findFree (blockNeed n) (hh.length_lt.trans_le hk) with
    ⟨hnone, -⟩ | ⟨l, b, r, rfl, hsome, -, -⟩
  · rw [hnone]
    rfl
  · have hset := (hh.setState true).splitLoopStrays (b := { b with used := true }) (k := k)
      (show 2 ^ 5 < 2 * blockNeed n by omega)
    have hstrays : Jrinx.splitLoopStrays (blockNeed n) k
        (h.put (P.addr b) .state BlockState.used.word) (P.addr b) = false := hset
    rw [hsome]
    simp [hstrays]

/-- `kalloc` keeps the invariant. -/
theorem MergedInv.kalloc (hi : MergedInv P s bs) (hk : mergeRounds ≤ k)
    (hstep : mappedStep P k s (.kalloc n) = .ok s') : ∃ bs', MergedInv P s' bs' := by
  rw [mappedStep] at hstep
  split at hstep
  · cases hstep
  rename_i hstray
  rw [Bool.not_eq_true] at hstray
  rcases Nat.lt_or_ge 16 (blockNeed n) with hneed | hneed
  · rcases hi.holds.kalloc (n := n) hk (by omega) with
      ⟨hres, -⟩ | ⟨h', l, b, r, b', frees, hres, rfl, -, hfits, hh, hstart, hused, hge, hle, hfrees, -⟩
    · simp only [heapStep, hres, if_true, Except.ok.injEq] at hstep
      exact ⟨bs, hstep ▸ hi⟩
    · have hptr : P.addr b + buddyBlockSize = (P.payload b').start := by
        simp only [KallocPool.payload, KallocPool.addr, hstart]
      have hne : ¬ (P.payload b').start = 0 := by simp [KallocPool.payload, buddyBlockSize]
      simp only [heapStep, hres, hptr, if_neg hne, Except.ok.injEq] at hstep
      refine ⟨l ++ b' :: (frees ++ r), hstep ▸ ⟨hh, ?_, ?_⟩⟩
      · exact hi.owned.kalloc hfits.1 hused hle (fun hn => (blockNeed_eq hn).2.1.trans hge)
          fun c hc => (hfrees c hc).1
      · refine hi.merged.cut hh.tiles hh.aligned hused fun c hc hlt => ?_
        rw [hstart]
        exact (hfrees c hc).2 hlt
  · simp only [heapStep, hi.holds.kalloc_small hk hneed hstray, if_true, Except.ok.injEq] at hstep
    exact ⟨bs, hstep ▸ hi⟩

/-- **One step** keeps the invariant. -/
theorem MergedInv.step (hi : MergedInv P s bs) (hk : mergeRounds ≤ k) {op : HeapOp} (ha : op.Legal s)
    (hstep : mappedStep P k s op = .ok s') : ∃ bs', MergedInv P s' bs' := by
  cases op with
  | kalloc size => exact hi.kalloc hk hstep
  | kfree ptr =>
      obtain ⟨x, hx, rfl⟩ := ha
      obtain ⟨b, hb, hused, hstart, -⟩ := hi.owned.live x hx
      obtain ⟨l, r, rfl⟩ := List.append_of_mem hb
      by_cases hinside : (P.payload b).start < P.base + kallocSize
      · obtain ⟨h', bs', hres, hh, hsame, hco⟩ := hi.holds.kfree (le_trans (by decide) hk) hused
          (hi.owned.small b hb hused) hinside
        simp only [mappedStep, heapStep, hstart, hres, Except.ok.injEq] at hstep
        exact ⟨bs', hstep ▸ ⟨hh, hi.owned.kfree hi.holds.tiles hsame, hco hi.merged⟩⟩
      · -- the payload is empty and lies behind the pool
        have hres : kfree P k s.heap (P.payload b).start = .error .assertion :=
          if_neg fun hcheck => hinside hcheck.2.1
        simp only [mappedStep, heapStep, hstart, hres] at hstep
        cases hstep
  | store a v =>
      obtain ⟨-, x, hx, hn, hlo, hhi⟩ := ha
      obtain ⟨b, hb, hused, hstart, hfit⟩ := hi.owned.live x hx
      simp only [mappedStep, heapStep, Except.ok.injEq] at hstep
      refine ⟨bs, hstep ▸ { hi with holds := hi.holds.store hb (hstart ▸ hlo) ?_ }⟩
      have hge := hfit hn
      rw [hstart] at hhi
      simp only [KallocPool.payload] at hhi
      omega

/-! ## What is left when everything is freed -/

/-- The loop of `kalloc_get_used`. -/
def usedFrom (h : KHeap) : Nat → Nat → Nat → Option Nat
  | 0, _, _ => none
  | n + 1, block, used =>
      if block = 0 then some used
      else
        usedFrom h n (h.get block .next)
          (if h.get block .state = BlockState.used.word then (used + h.get block .size) % wordSize else used)

/-- `kalloc_get_used`. -/
def kallocGetUsed (rounds : Nat) (h : KHeap) : Option Nat := usedFrom h rounds h.blockList 0

/-- The bytes of the blocks in use. -/
def usedBytes (bs : List Block) : Nat := ((bs.filter Block.used).map Block.size).sum

theorem Chain.usedFrom (hl : Chain P h p l 0) (hk : l.length < k) (u : Nat) (hu : u < wordSize) :
    usedFrom h k (P.headAddr 0 l) u = some ((u + usedBytes l) % wordSize) := by
  induction l generalizing p k u with
  | nil =>
      obtain ⟨k, rfl⟩ := Nat.exists_eq_succ_of_ne_zero hk.ne_bot
      show some u = _
      rw [usedBytes, List.filter_nil, List.map_nil, List.sum_nil, Nat.add_zero, Nat.mod_eq_of_lt hu]
  | cons b l ih =>
      obtain ⟨k, rfl⟩ := Nat.exists_eq_succ_of_ne_zero (Nat.ne_zero_of_lt hk)
      obtain ⟨hb, hl⟩ := hl
      rw [KallocPool.headAddr, Jrinx.usedFrom, if_neg (P.addr_pos b).ne', hb.state, hb.size, hb.next]
      cases hused : b.used with
      | false =>
          have hstate : b.state.word ≠ BlockState.used.word := by
            simp [Block.state, hused, BlockState.word]
          rw [if_neg hstate, ih hl (Nat.lt_of_succ_lt_succ hk) u hu]
          simp [usedBytes, hused]
      | true =>
          have hstate : b.state.word = BlockState.used.word := by simp [Block.state, hused]
          have hpos : 0 < wordSize := Nat.zero_lt_of_lt hu
          rw [if_pos hstate, ih hl (Nat.lt_of_succ_lt_succ hk) _ (Nat.mod_lt _ hpos)]
          simp [usedBytes, hused, Nat.add_assoc]

/-- **`kalloc_get_used`** returns the bytes of the blocks in use. -/
theorem HoldsFrom.kallocGetUsed (hh : HoldsFrom o P h bs) (hk : kallocSize / 2 ^ o + 1 ≤ k) :
    kallocGetUsed k h = some (usedBytes bs % wordSize) := by
  have hpos : 0 < wordSize := by rw [wordSize_eq]; norm_num
  rw [Jrinx.kallocGetUsed, hh.blockList, hh.chain.usedFrom (hh.length_lt.trans_le hk) 0 hpos, Nat.zero_add]

/-- The request is served: the call returns, and not `NULL`. -/
def KallocServes (rounds : Nat) (h : KHeap) (size : Nat) : Prop :=
  kallocStrays rounds h size = false ∧ ∃ ptr h', kalloc rounds h size = some (ptr, h') ∧ ptr ≠ 0

/-- A request is served exactly if it is not too small, which it may be after it wrapped, nor too large,
and some free block is large enough. -/
theorem HoldsFrom.serves_iff (hh : HoldsFrom 5 P h bs) (hk : mergeRounds ≤ k) : KallocServes k h n ↔
    16 < blockNeed n ∧ blockNeed n ≤ kallocMaxSize ∧ ∃ b ∈ bs, b.Fits (blockNeed n) := by
  constructor
  · rintro ⟨hstray, ptr, h', hres, hne⟩
    rcases Nat.lt_or_ge 16 (blockNeed n) with hneed | hneed
    · rcases hh.kalloc (n := n) hk (by omega) with
        ⟨hnull, -⟩ | ⟨h', l, b, r, b', frees, -, rfl, hmax, hfits, -⟩
      · rw [hnull, Option.some.injEq, Prod.mk.injEq] at hres
        exact absurd hres.1.symm hne
      · exact ⟨hneed, hmax, b, by simp, hfits⟩
    · rw [hh.kalloc_small hk hneed hstray, Option.some.injEq, Prod.mk.injEq] at hres
      exact absurd hres.1.symm hne
  · rintro ⟨hneed, hmax, b, hb, hfits⟩
    refine ⟨hh.kallocStrays hk hneed, ?_⟩
    rcases hh.kalloc (n := n) hk (by omega) with
      ⟨-, hlarge | hnone⟩ | ⟨h', l, c, r, b', frees, hres, -⟩
    · exact absurd hmax (not_le.mpr hlarge)
    · exact absurd hfits (hnone b hb)
    · exact ⟨_, h', hres, by simp [buddyBlockSize]⟩

/-- **Nothing is left in pieces**: no two free buddies have the same size below the largest one; and once
nothing is live, all blocks are free and have the largest size at least, no byte is in use, and whatever
the fresh heap could serve is served. -/
structure FullyMerged (P : KallocPool) (rounds : Nat) (s : HeapState) (bs : List Block) : Prop where
  blocks : HoldsFrom 5 P s.heap bs
  merged : ∀ b ∈ bs, ∀ c ∈ bs, b.used = false → c.used = false → c.size = b.size →
    b.size < kallocMaxSize → getBuddy s.heap (P.addr b) ≠ P.addr c
  allFree : s.live = [] → ∀ b ∈ bs, b.used = false ∧ kallocMaxSize ≤ b.size
  noneUsed : s.live = [] → kallocGetUsed rounds s.heap = some 0
  again : s.live = [] → ∀ mem n, KallocServes rounds (kallocInit P mem) n → KallocServes rounds s.heap n

theorem KallocPool.addr_inj (heq : P.addr b = P.addr c) : b.start = c.start :=
  Nat.add_left_cancel heq

/-- Without live pointers no block is in use. -/
theorem Owned.free {fit : Nat → Nat → Prop} (ho : Owned fit P [] bs) : ∀ b ∈ bs, b.used = false := by
  intro b hb
  by_contra hused
  rw [Bool.not_eq_false] at hused
  obtain ⟨x, hx, -⟩ := ho.used b hb hused
  exact absurd hx List.not_mem_nil

theorem MergedInv.fullyMerged (hi : MergedInv P s bs) (hk : mergeRounds ≤ k) : FullyMerged P k s bs := by
  have hfree : s.live = [] → ∀ b ∈ bs, b.used = false := by
    intro hnil
    have ho := hi.owned
    rw [hnil] at ho
    exact ho.free
  have hlarge : s.live = [] → ∀ b ∈ bs, kallocMaxSize ≤ b.size := by
    intro hnil b hb
    have horder := hi.holds.tiles.order_ge hi.holds.aligned (kallocSize_eq ▸ Dvd.intro 16 rfl) hi.merged
      (hfree hnil) b hb
    rw [kallocMaxSize_eq]
    exact Nat.pow_le_pow_right (by norm_num) horder
  refine ⟨hi.holds, ?_, fun hnil b hb => ⟨hfree hnil b hb, hlarge hnil b hb⟩, ?_, ?_⟩
  · intro b hb c hc hbfree hcfree hsize hlt heq
    have horder : b.order < 15 := by
      rw [kallocMaxSize_eq] at hlt
      exact (Nat.pow_lt_pow_iff_right (by norm_num)).mp hlt
    obtain ⟨d, -, hstart, hbuddy⟩ := hi.holds.getBuddy hb horder
    have hcd := KallocPool.addr_inj (hbuddy.symm.trans heq)
    exact hi.merged b hb c hc ⟨hbfree, hcfree, Block.size_inj.mp hsize, horder, hcd.symm.trans hstart⟩
  · intro hnil
    have hnone : bs.filter Block.used = [] :=
      List.filter_eq_nil_iff.mpr fun b hb => by simp [hfree hnil b hb]
    rw [hi.holds.kallocGetUsed hk, usedBytes, hnone]
    rfl
  · intro hnil mem n hserved
    have hfresh := (MergedInv.boot P mem).holds
    obtain ⟨hneed, hmax, -⟩ := (hfresh.serves_iff hk).mp hserved
    -- the pool has a first block
    have hpos : 0 < kallocSize := by
      unfold kallocSize
      norm_num
    obtain ⟨b, hb, -⟩ := hi.holds.tiles.cover (Nat.zero_le _) hpos
    exact (hi.holds.serves_iff hk).mpr
      ⟨hneed, hmax, b, hb, hfree hnil b hb, hmax.trans (hlarge hnil b hb)⟩

/-- **Freeing coalesces completely.** In every run of `kalloc` with any sizes, `kfree` of live pointers and
stores of the owners, no two free buddies of the same size below `KALLOC_MAX_SIZE` coexist, and when all is
freed the heap serves what it could serve at first. -/
theorem freeing_coalesces (P : KallocPool) (mem : Nat → Nat) {rounds : Nat} (hk : mergeRounds ≤ rounds)
    {tr : List (HeapState × HeapOp)} {s : HeapState}
    (hrun : Exec (mappedStep P rounds) (.boot P mem) tr s)
    (hlegal : AllSteps (fun s op => op.Legal s) tr) :
    Throughout (fun s => ∃ bs, FullyMerged P rounds s bs) tr s := by
  have hinv : Throughout (fun s => ∃ bs, MergedInv P s bs) tr s := by
    apply hrun.throughout_of_forall ⟨_, MergedInv.boot P mem⟩ hlegal
    rintro s op s' ⟨bs, hi⟩ ha hs
    exact hi.step hk ha hs
  refine ⟨fun x hx => ?_, ?_⟩
  · obtain ⟨bs, hi⟩ := hinv.1 x hx
    exact ⟨bs, hi.fullyMerged hk⟩
  · obtain ⟨bs, hi⟩ := hinv.2
    exact ⟨bs, hi.fullyMerged hk⟩

/-- Three allocations, one of them of a size that wraps, and their releases in another order. -/
theorem freeing_coalesces_three : ∃ tr s,
    Exec (mappedStep .sample mergeRounds) (.boot .sample fun _ => 0) tr s ∧
      s.live = [] ∧ Throughout (fun s => ∃ bs, FullyMerged .sample mergeRounds s bs) tr s := by
  obtain ⟨s, hrun, hlive⟩ := Exec.of_checkRun (mappedStep .sample mergeRounds)
    (.boot .sample fun _ => 0)
    [.kalloc 100, .kalloc (2 ^ 64 - 1), .kalloc 3000, .kfree 0x80208020, .kfree 0x80209020,
      .kfree 0x80208120]
    (fun s => s.live = []) (by decide +kernel)
  refine ⟨_, s, hrun, of_decide_eq_true hlive, freeing_coalesces .sample _ le_rfl hrun ?_⟩
  show ∀ x ∈ traceEvents _ _ _, HeapOp.Legal x.1 x.2
  decide +kernel

end Jrinx
