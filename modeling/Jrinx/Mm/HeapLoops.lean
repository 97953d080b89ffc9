import Jrinx.Mm.Kalloc

/-! # The loops of the kernel heap

What the loops of `kalloc` and `kfree` do to a memory that holds a list of blocks. Each of them ends
within a number of rounds that the size of the pool bounds.

* **`HoldsFrom.splitBlock`**, **`HoldsFrom.mergeBlocks`** — one round is one change of the list.
* **`HoldsFrom.splitLoop`**, **`HoldsFrom.mergeLoop`**, **`Chain.findFree`** — the whole loops. -/

namespace Jrinx

variable {P : KallocPool} {h h' : KHeap} {bs l r : List Block} {b c : Block} {o p n : Nat}

/-! ## Splitting -/

theorem splitBlock_fields {a new next : Nat} (hnew : a + h.get a .size / 2 = new)
    (hnext : h.get a .next = next) (hclear : Clear a new)
    (hc : next ≠ 0 → Clear next a ∧ Clear next new) :
    (∀ f, (splitBlock h a).get a f =
      if f = .size then h.get a .size / 2 else if f = .next then new else h.get a f) ∧
    ((splitBlock h a).get new .size = h.get a .size / 2 ∧
      (splitBlock h a).get new .state = BlockState.free.word ∧
      (splitBlock h a).get new .next = next ∧ (splitBlock h a).get new .prev = a) ∧
    (next ≠ 0 → ∀ f, (splitBlock h a).get next f = if f = .prev then new else h.get next f) ∧
    ∀ x, Clear a x → Clear new x → (next ≠ 0 → Clear next x) →
      ∀ f, (splitBlock h a).get x f = h.get x f := by
  have hclear' := hclear.symm
  unfold splitBlock
  simp only [hnew, KHeap.get_put_clear hclear', hnext]
  by_cases hz : next = 0
  · simp only [hz, ne_eq, not_true_eq_false, if_false, KHeap.get_put_clear hclear',
      KHeap.get_put_clear hclear, KHeap.get_put_self, false_implies, true_and]
    refine ⟨fun f => by cases f <;> simp, by simp, ?_⟩
    intro x ha hx _ f
    simp only [KHeap.get_put_clear ha, KHeap.get_put_clear hx]
  · obtain ⟨hna, hnn⟩ := hc hz
    simp only [hz, ne_eq, not_false_eq_true, if_true, KHeap.get_put_clear hclear',
      KHeap.get_put_clear hclear, KHeap.get_put_clear hna, KHeap.get_put_clear hnn,
      KHeap.get_put_clear hna.symm, KHeap.get_put_clear hnn.symm, KHeap.get_put_self, true_implies]
    refine ⟨fun f => by cases f <;> simp, by simp, fun f => by cases f <;> simp, ?_⟩
    intro x ha hx hn f
    simp only [KHeap.get_put_clear ha, KHeap.get_put_clear hx, KHeap.get_put_clear hn]

@[simp] theorem blockList_splitBlock {a : Nat} : (splitBlock h a).blockList = h.blockList := by
  simp only [splitBlock, KHeap.blockList_put]
  split <;> rfl

theorem headAddr_mem (hne : P.headAddr 0 r ≠ 0) : ∃ d ∈ r, P.headAddr 0 r = P.addr d := by
  cases r with
  | nil => exact absurd rfl hne
  | cons d r => exact ⟨d, List.mem_cons_self, rfl⟩

/-- **A block is split** into its halves. -/
theorem HoldsFrom.splitBlock (hh : HoldsFrom o P h (l ++ b :: r)) (hb : o < b.order) :
    HoldsFrom o P (splitBlock h (P.addr b)) (l ++ b.lower :: b.upper :: r) := by
  obtain ⟨hl, hdr, hr⟩ := chain_append.mp hh.chain
  have hpos : 0 < b.order := by omega
  -- the code halves the size of the block and puts the new header behind the first half
  have hhalf : h.get (P.addr b) .size / 2 = b.lower.size := by
    rw [hdr.size, Block.size_div_two hpos]
    rfl
  have hnew : P.addr b + h.get (P.addr b) .size / 2 = P.addr b.upper := by
    rw [hdr.size, Block.size_div_two hpos, KallocPool.addr, Nat.add_assoc]
    rfl
  have hlarge : o ≤ b.lower.order := Nat.le_sub_one_of_lt hb
  have hroom : 5 ≤ b.lower.order := hh.room.trans hlarge
  have hupper : b.upper.stop = b.stop := Block.stop_upper hpos
  -- the new header overlaps no other one
  have hclear : Clear (P.addr b) (P.addr b.upper) :=
    clear_of_stop_le (b := b.lower) hroom le_rfl
  have hafter : ∀ c ∈ r, Clear (P.addr b.upper) (P.addr c) := fun c hc =>
    clear_of_stop_le (b := b.upper) hroom (hupper ▸ hh.tiles.le_start hc)
  have hbefore : ∀ c ∈ l, Clear (P.addr c) (P.addr b.upper) := fun c hc =>
    clear_of_stop_le (hh.five_le (List.mem_append_left _ hc))
      ((hh.tiles.stop_le hc).trans (Nat.le_add_right _ _))
  obtain ⟨hself, ⟨hsize, hstate, hlink, hprev⟩, hfst, hrest⟩ :=
    splitBlock_fields hnew hdr.next hclear (by
      intro hne
      obtain ⟨d, hd, heq⟩ := headAddr_mem hne
      rw [heq]
      exact ⟨(hh.clear_after hd).symm, (hafter d hd).symm⟩)
  refine ⟨hh.room, ?_, ?_, hh.tiles.halve hpos, ?_, ?_⟩
  · rw [blockList_splitBlock, hh.blockList, headAddr_append, headAddr_append]
    rfl
  · refine chain_append.mpr ⟨hl.congr ?_, ⟨?_, ?_, ?_, ?_⟩, ⟨?_, ?_, ?_, ?_⟩, hr.relink _ ?_ ?_⟩
    · intro c hc
      refine hrest _ (hh.clear_before hc).symm (hbefore c hc).symm fun hne => ?_
      obtain ⟨d, hd, heq⟩ := headAddr_mem hne
      rw [heq]
      have hle := (hh.tiles.stop_le hc).trans (b.start_lt_stop.le.trans (hh.tiles.le_start hd))
      exact (clear_of_stop_le (hh.five_le (List.mem_append_left _ hc)) hle).symm
    · exact (hself .size).trans hhalf
    · exact (hself .state).trans hdr.state
    · exact hself .next
    · exact (hself .prev).trans hdr.prev
    · exact hsize.trans hhalf
    · exact hstate
    · exact hlink
    · exact hprev
    · cases r with
      | nil => exact fun _ hc => absurd hc (by simp)
      | cons d r =>
          intro c hc
          obtain rfl : d = c := by simpa using hc
          exact hfst (P.addr_pos d).ne'
    · cases r with
      | nil => exact fun _ hc => absurd hc (by simp)
      | cons d r =>
          intro c hc
          have hc' : c ∈ d :: r := List.mem_cons_of_mem d hc
          refine hrest _ (hh.clear_after hc') (hafter c hc') fun _ => ?_
          have hh' : HoldsFrom o P h ((l ++ [b]) ++ d :: r) := by simpa using hh
          exact hh'.clear_after hc
  · apply forall_replace [b] [b.lower, b.upper] hh.aligned
    have hal := hh.aligned b (by simp)
    intro c hc
    simp only [List.mem_cons, List.not_mem_nil, or_false] at hc
    rcases hc with rfl | rfl
    · exact hal.lower
    · exact hal.upper
  · apply forall_replace [b] [b.lower, b.upper] hh.large
    intro c hc
    simp only [List.mem_cons, List.not_mem_nil, or_false] at hc
    rcases hc with rfl | rfl
    · exact hlarge
    · exact hlarge

/-- **The splitting loop** ends with a block that is large enough and has no half that is, followed by
free blocks. -/
theorem HoldsFrom.splitLoop {size : Nat} (hsize : 2 ^ o < 2 * size) {k : Nat} (hk : b.order < o + k)
    (hh : HoldsFrom o P h (l ++ b :: r)) (hfit : size ≤ b.size) :
    ∃ h' b' frees, splitLoop size k h (P.addr b) = some h' ∧
      HoldsFrom o P h' (l ++ b' :: (frees ++ r)) ∧
      b'.start = b.start ∧ b'.used = b.used ∧ size ≤ b'.size ∧ b'.size < 2 * size ∧
      (∀ c ∈ frees, c.used = false ∧ (c.order < 15 → c.buddyStart = b.start)) ∧
      ∀ n, (∃ c ∈ frees, n ≤ c.size) ↔ size ≤ b.size / 2 ∧ n ≤ b.size / 2 := by
  induction k generalizing h b r with
  | zero =>
      have hlarge := hh.large b (by simp)
      omega
  | succ k ih =>
      rw [Jrinx.splitLoop, hh.header.size]
      by_cases hle : size ≤ b.size / 2
      · rw [if_pos hle]
        have hmore : o < b.order := by
          by_contra hle'
          have hpow : b.size ≤ 2 ^ o := Nat.pow_le_pow_right (by norm_num) (not_lt.mp hle')
          omega
        have hpos : 0 < b.order := Nat.zero_lt_of_lt hmore
        have hfit' : size ≤ b.lower.size := by
          rw [Block.size_div_two hpos] at hle
          exact hle
        obtain ⟨h', b', frees, hloop, hholds, hstart, hused, hge, hlt, hfrees, hroom⟩ :=
          ih (by simp only [Block.lower]; omega) (hh.splitBlock hmore) hfit'
        refine ⟨h', b', frees ++ [b.upper], hloop, by simpa using hholds, hstart, hused, hge, hlt, ?_, ?_⟩
        · refine List.forall_mem_append.mpr ⟨hfrees, List.forall_mem_singleton.mpr ⟨rfl, fun hlt => ?_⟩⟩
          have hle15 : b.order ≤ 15 := by
            simp only [Block.upper] at hlt
            omega
          exact Block.buddyStart_upper hpos ((hh.aligned b (by simp)).size_dvd hle15)
        · -- the upper half is the largest free block that is left
          intro n
          have hhalf : b.upper.size = b.size / 2 := (Block.size_div_two hpos).symm
          have hlower : b.lower.size = b.size / 2 := (Block.size_div_two hpos).symm
          constructor
          · rintro ⟨c, hc, hn⟩
            refine ⟨hle, ?_⟩
            rcases List.mem_append.mp hc with hc | hc
            · have hn := ((hroom n).mp ⟨c, hc, hn⟩).2
              omega
            · rwa [List.mem_singleton.mp hc, hhalf] at hn
          · rintro ⟨-, hn⟩
            exact ⟨b.upper, by simp, hhalf ▸ hn⟩
      · rw [if_neg hle]
        exact ⟨h, b, [], rfl, hh, rfl, rfl, hfit, by omega, by simp, by simp [hle]⟩

/-! ## Merging -/

theorem kallocMaxSize_eq : kallocMaxSize = 2 ^ 15 := by
  decide

theorem kallocSize_eq : kallocSize = 2 ^ 15 * 16 := by
  decide

/-- **The buddy of a block below the bound** is a block of the list. -/
theorem HoldsFrom.getBuddy (hh : HoldsFrom o P h bs) (hb : b ∈ bs) (hlt : b.order < 15) :
    ∃ c ∈ bs, c.start = b.buddyStart ∧ getBuddy h (P.addr b) = P.addr c := by
  obtain ⟨c, hc, hstart, -⟩ :=
    hh.tiles.buddy hh.aligned (kallocSize_eq ▸ Dvd.intro 16 rfl) hb hlt
  refine ⟨c, hc, hstart, ?_⟩
  obtain ⟨n', p', hdr⟩ := hh.chain.header hb
  have hne : b.size ≠ kallocMaxSize := by
    rw [kallocMaxSize_eq]
    exact (Nat.pow_lt_pow_right (by norm_num) hlt).ne
  -- the pool begins at a multiple of the largest block, and so the offset decides which half this is
  have hbase : b.size * 2 ∣ P.base :=
    (pow_dvd_pow 2 hlt).trans (kallocMaxSize_eq ▸ P.aligned)
  have hmod : P.addr b % (b.size * 2) = b.start % (b.size * 2) := by
    rw [KallocPool.addr, Nat.add_mod, Nat.mod_eq_zero_of_dvd hbase, Nat.zero_add, Nat.mod_mod]
  have hcend := (hh.tiles.mem_le hc).2
  have hclt := c.start_lt_stop
  have hfits := P.fits
  rw [Jrinx.getBuddy, hdr.size, if_neg hne, hmod]
  unfold Block.buddyStart at hstart
  split at hstart
  · rename_i heven
    rw [if_pos heven, KallocPool.addr, KallocPool.addr, hstart, Nat.add_assoc]
    exact Nat.mod_eq_of_lt (by omega)
  · rename_i hodd
    -- an upper half lies behind a whole block
    have hge : b.size ≤ b.start := by
      obtain ⟨q, hq⟩ := (hh.aligned b hb).size_dvd hlt.le
      cases q with
      | zero => exact absurd (by rw [hq, Nat.mul_zero, Nat.zero_mod]) hodd
      | succ q =>
          rw [hq]
          exact Nat.le_mul_of_pos_right _ (Nat.succ_pos q)
    rw [if_neg hodd, KallocPool.addr, KallocPool.addr, hstart, wordSub_of_le (by omega)]
    omega

/-- A block at the bound has no buddy. -/
theorem HoldsFrom.getBuddy_top (hh : HoldsFrom o P h bs) (hb : b ∈ bs) (htop : b.order = 15) :
    Jrinx.getBuddy h (P.addr b) = 0 := by
  obtain ⟨n', p', hdr⟩ := hh.chain.header hb
  rw [Jrinx.getBuddy, hdr.size, Block.size, htop, if_pos kallocMaxSize_eq.symm]

theorem mergeBlocks_fields {a o next : Nat} (hnext : h.get o .next = next) (hclear : Clear a o)
    (hc : next ≠ 0 → Clear a next) :
    (∀ f, (mergeBlocks h a o).get a f =
      if f = .size then h.get a .size * 2 else if f = .next then next else h.get a f) ∧
    (next ≠ 0 → ∀ f, (mergeBlocks h a o).get next f = if f = .prev then a else h.get next f) ∧
    ∀ x, Clear a x → (next ≠ 0 → Clear next x) → ∀ f, (mergeBlocks h a o).get x f = h.get x f := by
  unfold mergeBlocks
  simp only [KHeap.get_put_clear hclear, hnext]
  by_cases hz : next = 0
  · simp only [hz, ne_eq, not_true_eq_false, if_false, KHeap.get_put_self, false_implies, true_and]
    refine ⟨fun f => by cases f <;> simp, ?_⟩
    intro x ha _ f
    simp only [KHeap.get_put_clear ha]
  · have hna := hc hz
    simp only [hz, ne_eq, not_false_eq_true, if_true, KHeap.get_put_clear hna,
      KHeap.get_put_clear hna.symm, KHeap.get_put_self, true_implies]
    refine ⟨fun f => by cases f <;> simp, fun f => by cases f <;> simp, ?_⟩
    intro x ha hn f
    simp only [KHeap.get_put_clear ha, KHeap.get_put_clear hn]

@[simp] theorem blockList_mergeBlocks {a o : Nat} : (mergeBlocks h a o).blockList = h.blockList := by
  simp only [mergeBlocks]
  split <;> rfl

/-- **Two blocks are merged.** -/
theorem HoldsFrom.mergeBlocks (hh : HoldsFrom o P h (l ++ b :: c :: r)) (hord : c.order = b.order)
    (halign : b.size * 2 ∣ b.start) :
    HoldsFrom o P (mergeBlocks h (P.addr b) (P.addr c)) (l ++ b.twice :: r) := by
  obtain ⟨hl, hdr, hdr', hr⟩ := chain_append.mp hh.chain
  have hclear : ∀ d ∈ c :: r, Clear (P.addr b) (P.addr d) := fun d hd => hh.clear_after hd
  obtain ⟨hself, hfst, hrest⟩ :=
    mergeBlocks_fields hdr'.next (hclear c List.mem_cons_self) (by
      intro hne
      obtain ⟨d, hd, heq⟩ := headAddr_mem hne
      rw [heq]
      exact hclear d (List.mem_cons_of_mem c hd))
  refine ⟨hh.room, ?_, ?_, hh.tiles.join hord, ?_, ?_⟩
  · -- the first block may be the head of the list, and keeps its address
    rw [blockList_mergeBlocks, hh.blockList, headAddr_append, headAddr_append]
    rfl
  · refine chain_append.mpr ⟨hl.congr ?_, ⟨?_, ?_, ?_, ?_⟩, hr.relink _ ?_ ?_⟩
    · -- the headers before the two blocks are not written
      intro d hd
      refine hrest _ (hh.clear_before hd).symm fun hne => ?_
      obtain ⟨e, he, heq⟩ := headAddr_mem hne
      rw [heq]
      have hle := (hh.tiles.stop_le hd).trans
        (b.start_lt_stop.le.trans (hh.tiles.le_start (List.mem_cons_of_mem c he)))
      exact (clear_of_stop_le (hh.five_le (List.mem_append_left _ hd)) hle).symm
    · -- the header of the lower one takes the sum of the sizes
      refine (hself .size).trans ?_
      rw [if_pos rfl, hdr.size]
      exact Block.size_twice.symm
    · exact (hself .state).trans hdr.state
    · exact hself .next
    · exact (hself .prev).trans hdr.prev
    · cases r with
      | nil => exact fun _ hd => absurd hd (by simp)
      | cons d r =>
          intro e he
          -- the block behind them points back to the lower one
          obtain rfl : d = e := by simpa using he
          exact hfst (P.addr_pos d).ne'
    · cases r with
      | nil => exact fun _ hd => absurd hd (by simp)
      | cons d r =>
          intro e he
          have he' : e ∈ c :: d :: r := List.mem_cons_of_mem c (List.mem_cons_of_mem d he)
          refine hrest _ (hclear e he') fun _ => ?_
          have hh'' : HoldsFrom o P h ((l ++ [b, c]) ++ d :: r) := by simpa using hh
          exact hh''.clear_after he
  · apply forall_replace [b, c] [b.twice] hh.aligned
    intro d hd
    rw [List.mem_singleton.mp hd]
    exact Block.aligned_twice halign
  · apply forall_replace [b, c] [b.twice] hh.large
    intro d hd
    rw [List.mem_singleton.mp hd]
    exact (hh.large b (by simp)).trans (Nat.le_succ _)

theorem Block.word_state_eq_free : b.state.word = BlockState.free.word ↔ b.used = false := by
  rcases b with ⟨start, order, _ | _⟩ <;> simp [Block.state, BlockState.word]

theorem Block.size_inj : c.size = b.size ↔ c.order = b.order :=
  Nat.pow_right_inj (le_refl 2)

theorem filter_used_cons (hb : b.used = false) :
    (l ++ b :: r).filter Block.used = (l ++ r).filter Block.used := by
  simp [List.filter_append, hb]

theorem HoldsFrom.ne_of_mem (hh : HoldsFrom o P h (l ++ b :: r)) : ∀ d ∈ l ++ r, d ≠ b := by
  rintro d hd rfl
  exact hh.tiles.not_mem hd

/-- The buddies of a block are merged, so that none of the others has got a free buddy. -/
theorem CoalescedBut.merge {x y : Block} (hco : CoalescedBut 15 x (l ++ b :: c :: r))
    (hh : HoldsFrom o P h (l ++ b :: c :: r)) (hx : x = b ∨ x = c) : CoalescedBut 15 y (l ++ y :: r) := by
  refine hco.of_subset fun d hd => ?_
  have hsplit : l ++ b :: c :: r = (l ++ [b]) ++ c :: r := by simp
  have hneb := hh.ne_of_mem
  rw [hsplit] at hh
  have hnec := hh.ne_of_mem
  have hmem : d ∈ l ∨ d ∈ r := List.mem_append.mp hd
  refine ⟨by simp only [List.mem_append, List.mem_cons]; tauto, ?_⟩
  rcases hx with rfl | rfl
  · exact hneb d (by simp only [List.mem_append, List.mem_cons]; tauto)
  · exact hnec d (by simp only [List.mem_append, List.mem_cons]; tauto)

/-- **The merging loop** ends, the blocks in use are as before, and if only the block itself had a free
buddy, none has. -/
theorem HoldsFrom.mergeLoop {k : Nat} (hk : 15 < b.order + k) (hh : HoldsFrom o P h (l ++ b :: r))
    (hfree : b.used = false) (hle : b.order ≤ 15) :
    ∃ h' bs', mergeLoop k h (P.addr b) = some h' ∧ HoldsFrom o P h' bs' ∧
      bs'.filter Block.used = (l ++ b :: r).filter Block.used ∧
      (CoalescedBut 15 b (l ++ b :: r) → Coalesced 15 bs') := by
  induction k generalizing h l b r with
  | zero => omega
  | succ k ih =>
      have hb : b ∈ l ++ b :: r := by simp
      rw [Jrinx.mergeLoop]
      rcases Nat.lt_or_eq_of_le hle with hlt | htop
      · obtain ⟨c, hc, hstart, hbuddy⟩ := hh.getBuddy hb hlt
        obtain ⟨n', p', hdr⟩ := hh.chain.header hc
        simp only [hbuddy, hdr.state, hdr.size, hh.header.size, Block.word_state_eq_free,
          Block.size_inj]
        by_cases hmerge : P.addr c ≠ 0 ∧ c.used = false ∧ c.order = b.order
        · rw [if_pos hmerge]
          obtain ⟨-, hcfree, hord⟩ := hmerge
          have hdvd := (hh.aligned b hb).size_dvd hle
          rcases hh.tiles.adjacent hdvd hb hc hstart hord with ⟨l', r', hbs, hal⟩ | ⟨l', r', hbs, hal⟩
          · -- the buddy is the upper half
            rw [hbs] at hh ⊢
            have hlt' : ¬ P.addr c < P.addr b := by
              have hle' := hh.tiles.le_start (List.mem_cons_self (a := c) (l := r'))
              have hpos := b.start_lt_stop
              unfold KallocPool.addr
              omega
            rw [if_neg hlt', if_neg hlt']
            obtain ⟨h', bs', hloop, hholds, hused, hco⟩ :=
              ih (by simp only [Block.twice]; omega) (hh.mergeBlocks hord hal) hfree hlt
            refine ⟨h', bs', hloop, hholds, hused.trans ?_, fun hbut => ?_⟩
            · rw [filter_used_cons (by exact hfree), filter_used_cons hfree, filter_used_cons hcfree]
            · exact hco (hbut.merge hh (Or.inl rfl))
          · -- the buddy is the lower half
            rw [hbs] at hh ⊢
            have hlt' : P.addr c < P.addr b := by
              have hle' := hh.tiles.le_start (List.mem_cons_self (a := b) (l := r'))
              have hpos := c.start_lt_stop
              unfold KallocPool.addr
              omega
            have hal' : c.size * 2 ∣ c.start := by
              rw [Block.size_inj.mpr hord]
              exact hal
            rw [if_pos hlt', if_pos hlt']
            obtain ⟨h', bs', hloop, hholds, hused, hco⟩ :=
              ih (by simp only [Block.twice]; omega) (hh.mergeBlocks hord.symm hal') hcfree
                (by simp only [Block.twice]; omega)
            refine ⟨h', bs', hloop, hholds, hused.trans ?_, fun hbut => ?_⟩
            · rw [filter_used_cons (by exact hcfree), filter_used_cons hcfree, filter_used_cons hfree]
            · exact hco (hbut.merge hh (Or.inr rfl))
        · rw [if_neg hmerge]
          refine ⟨h, _, rfl, hh, rfl, fun hbut => hbut.coalesced (fun d hd hbd => ?_) hh.aligned⟩
          obtain rfl := hh.tiles.eq_of_start hd hc (hbd.start.trans hstart.symm)
          exact hmerge ⟨(P.addr_pos d).ne', hbd.free', hbd.order⟩
      · rw [hh.getBuddy_top hb htop, if_neg (by simp)]
        refine ⟨h, _, rfl, hh, rfl, fun hbut => hbut.coalesced (fun d _ hbd => ?_) hh.aligned⟩
        exact absurd hbd.lt (by omega)

/-! ## Looking for a block -/

/-- The test of the search. -/
def Block.Fits (size : Nat) (b : Block) : Prop := b.used = false ∧ size ≤ b.size

instance (size : Nat) (b : Block) : Decidable (b.Fits size) :=
  inferInstanceAs (Decidable (b.used = false ∧ size ≤ b.size))

/-- **The search** ends, with the first free block that is large enough, or with none. -/
theorem Chain.findFree (size : Nat) {k : Nat} (hl : Chain P h p l 0) (hk : l.length < k) :
    (findFree h size k (P.headAddr 0 l) = some 0 ∧ ∀ b ∈ l, ¬ b.Fits size) ∨
      ∃ l₁ b l₂, l = l₁ ++ b :: l₂ ∧ findFree h size k (P.headAddr 0 l) = some (P.addr b) ∧
        b.Fits size ∧ ∀ c ∈ l₁, ¬ c.Fits size := by
  induction l generalizing p k with
  | nil =>
      obtain ⟨k, rfl⟩ := Nat.exists_eq_succ_of_ne_zero hk.ne_bot
      exact Or.inl ⟨rfl, by simp⟩
  | cons b l ih =>
      obtain ⟨k, rfl⟩ := Nat.exists_eq_succ_of_ne_zero (Nat.ne_zero_of_lt hk)
      obtain ⟨hb, hl⟩ := hl
      rw [KallocPool.headAddr, Jrinx.findFree, if_neg (P.addr_pos b).ne', hb.state, hb.size, hb.next]
      have htest : b.state.word = BlockState.free.word ∧ size ≤ b.size ↔ b.Fits size :=
        and_congr_left' Block.word_state_eq_free
      by_cases hfits : b.Fits size
      · rw [if_pos (htest.mpr hfits)]
        exact Or.inr ⟨[], b, l, rfl, rfl, hfits, by simp⟩
      · rw [if_neg (htest.not.mpr hfits)]
        rcases ih hl (Nat.lt_of_succ_lt_succ hk) with ⟨hnone, hall⟩ | ⟨l₁, c, l₂, rfl, hsome, hc, hfst⟩
        · exact Or.inl ⟨hnone, List.forall_mem_cons.mpr ⟨hfits, hall⟩⟩
        · exact Or.inr ⟨b :: l₁, c, l₂, rfl, hsome, hc, List.forall_mem_cons.mpr ⟨hfits, hfst⟩⟩

/-- The pool has room for a bounded number of blocks. -/
theorem Tiles.length_le {lo hi : Nat} (ht : Tiles lo bs hi) (hlarge : ∀ b ∈ bs, o ≤ b.order) :
    lo + 2 ^ o * bs.length ≤ hi := by
  induction bs generalizing lo with
  | nil => exact Nat.le_of_eq ht
  | cons b bs ih =>
      obtain ⟨rfl, ht⟩ := ht
      have hrest := ih ht fun c hc => hlarge c (List.mem_cons_of_mem b hc)
      have hsize : 2 ^ o ≤ b.size :=
        Nat.pow_le_pow_right (by norm_num) (hlarge b List.mem_cons_self)
      have hstop : b.stop = b.start + b.size := rfl
      rw [List.length_cons, Nat.mul_succ]
      omega

/-- The rounds after which every loop has ended: one for every block, and one more. -/
def kallocRounds : Nat := kallocSize / 64 + 1

theorem HoldsFrom.length_lt (hh : HoldsFrom o P h bs) : bs.length < kallocSize / 2 ^ o + 1 := by
  have hle := hh.tiles.length_le hh.large
  rw [Nat.zero_add] at hle
  exact Nat.lt_succ_of_le ((Nat.le_div_iff_mul_le (Nat.two_pow_pos o)).mpr (by rwa [Nat.mul_comm]))

end Jrinx
