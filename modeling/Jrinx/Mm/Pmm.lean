import Jrinx.Drivers.Mems

/-! # The frame arrays

`kern/mm/pmm.c` with its addresses: `palloc`, the tables that `pmm_init` builds, and the translations between
an address and its frame. A frame is the address of its record; what the kernel heap holds is kept as values.

* **`palloc`**, **`pmmTables`** — the bump pointer, and the loop that carves one array for each range from it.
* **`pa2sel64`**, **`frame2sel64`**, **`pa2frame64`**, **`frame2pa64`** — the searches and the translations.
* **`pmmTables_laid`** — the arrays do not overlap.
* **`frames_translate_iff`** — the translations fit together iff the ranges consist of whole pages and none
  ends with the address space. -/

namespace Jrinx

/-! ## The tables -/

/-- `sizeof(struct phy_frame)`. -/
def phyFrameSize : Nat := 24

/-- What the tables of the ranges and of the frame arrays hold at one index. -/
structure PmmSel where
  memAddr : Nat
  memSize : Nat
  pfArray : Nat
  pfArrayLen : Nat
  deriving DecidableEq, Repr

/-- The record of a frame: `&pf_array[i][j]`. -/
def PmmSel.frame (s : PmmSel) (j : Nat) : Nat := s.pfArray + phyFrameSize * j

/-- The frames of an array, in order. -/
def PmmSel.frames (s : PmmSel) : List Nat := (List.range s.pfArrayLen).map s.frame

/-- Where `palloc` goes on; the first call begins behind the kernel. -/
def pallocBase (kernEnd freememBase : Nat) : Nat := if freememBase = 0 then kernEnd else freememBase

/-- `palloc`: the block, and `freemem_base` after it. -/
def palloc (kernEnd freememBase size align : Nat) : Nat × Nat :=
  let res := alignUp (pallocBase kernEnd freememBase) align
  (res, (res + size) % wordSize)

/-- The loop of `pmm_init` over the ranges, and `freemem_base` after it. -/
def pmmTables (kernEnd : Nat) : List MemRange → Nat → List PmmSel × Nat
  | [], freememBase => ([], freememBase)
  | m :: mems, freememBase =>
      let len := m.size / pgSize
      let array := palloc kernEnd freememBase (phyFrameSize * len) pgSize
      let sel : PmmSel := { memAddr := m.addr, memSize := m.size, pfArray := array.1, pfArrayLen := len }
      let rest := pmmTables kernEnd mems array.2
      (sel :: rest.1, rest.2)

/-! ## The translations -/

/-- `pa2sel`. The end of a range is computed in a word. -/
def pa2sel64 (sels : List PmmSel) (addr : Nat) : Option Nat :=
  sels.findIdx? fun s => decide (s.memAddr ≤ addr) && decide (addr < (s.memAddr + s.memSize) % wordSize)

/-- `frame2sel`. -/
def frame2sel64 (sels : List PmmSel) (frame : Nat) : Option Nat :=
  sels.findIdx? fun s =>
    decide (s.pfArray ≤ frame) && decide (frame < (s.pfArray + phyFrameSize * s.pfArrayLen) % wordSize)

/-- `pa2frame`. The index is not compared with the length of the array. -/
def pa2frame64 (sels : List PmmSel) (addr : Nat) : Option Nat :=
  match pa2sel64 sels addr with
  | none => none
  | some sel => sels[sel]?.map fun s => s.frame ((addr - s.memAddr) / pgSize) % wordSize

/-- `frame2pa`. -/
def frame2pa64 (sels : List PmmSel) (frame : Nat) : Option Nat :=
  match frame2sel64 sels frame with
  | none => none
  | some sel => sels[sel]?.map fun s => (s.memAddr + (frame - s.pfArray) / phyFrameSize * pgSize) % wordSize

/-! ## The layout -/

/-- The bytes of the memory range. -/
def PmmSel.mem (s : PmmSel) : Region := ⟨s.memAddr, s.memSize⟩

/-- The bytes of the array. -/
def PmmSel.array (s : PmmSel) : Region := ⟨s.pfArray, phyFrameSize * s.pfArrayLen⟩

/-- As long as the sum fits, a block is aligned and begins less than a page further. -/
theorem le_alignUp_pgSize {x : Nat} (h : x + pgSize ≤ wordSize) :
    x ≤ alignUp x pgSize ∧ alignUp x pgSize < x + pgSize ∧ pgSize ∣ alignUp x pgSize := by
  have hdvd : pgSize ∣ alignUp x pgSize := Nat.dvd_sub_mod _
  unfold alignUp alignDown pgSize at *
  rw [Nat.mod_eq_of_lt (by omega : x + (0x1000 - 1) < wordSize)] at *
  omega

theorem pallocBase_palloc {kernEnd freememBase size : Nat}
    (h : pallocBase kernEnd freememBase + pgSize + size ≤ wordSize) :
    pallocBase kernEnd (palloc kernEnd freememBase size pgSize).2 =
      (palloc kernEnd freememBase size pgSize).1 + size := by
  obtain ⟨hle, hlt, -⟩ := le_alignUp_pgSize (x := pallocBase kernEnd freememBase) (by omega)
  have hsum : (palloc kernEnd freememBase size pgSize).2 =
      alignUp (pallocBase kernEnd freememBase) pgSize + size := Nat.mod_eq_of_lt (by omega)
  have hres : (palloc kernEnd freememBase size pgSize).1 = alignUp (pallocBase kernEnd freememBase) pgSize := rfl
  rw [hsum, hres]
  unfold pallocBase at *
  split_ifs at * <;> omega

/-- The number of bytes that the arrays take at most, with what is lost by their alignment. -/
def arraysNeed (mems : List MemRange) : Nat :=
  (mems.map fun m => pgSize + phyFrameSize * (m.size / pgSize)).sum

theorem arraysNeed_cons (m : MemRange) (mems : List MemRange) :
    arraysNeed (m :: mems) = pgSize + phyFrameSize * (m.size / pgSize) + arraysNeed mems := by
  rw [arraysNeed, List.map_cons, List.sum_cons]
  rfl

/-- **The arrays are laid out one after the other.** -/
theorem pmmTables_laid {kernEnd freememBase : Nat} {mems : List MemRange}
    (h : pallocBase kernEnd freememBase + arraysNeed mems < wordSize) :
    Laid ((pmmTables kernEnd mems freememBase).1.map (·.array)) (pallocBase kernEnd freememBase)
        (pallocBase kernEnd (pmmTables kernEnd mems freememBase).2) ∧
      pallocBase kernEnd (pmmTables kernEnd mems freememBase).2 ≤
        pallocBase kernEnd freememBase + arraysNeed mems := by
  induction mems generalizing freememBase with
  | nil => exact ⟨Laid.nil _, Nat.le_add_right _ _⟩
  | cons m mems ih =>
      rw [arraysNeed_cons] at h ⊢
      obtain ⟨hle, hlt, -⟩ := le_alignUp_pgSize (x := pallocBase kernEnd freememBase) (by omega)
      have hbase : pallocBase kernEnd
          (palloc kernEnd freememBase (phyFrameSize * (m.size / pgSize)) pgSize).2 =
            alignUp (pallocBase kernEnd freememBase) pgSize + phyFrameSize * (m.size / pgSize) :=
        pallocBase_palloc (by omega)
      have hrest : pallocBase kernEnd
          (palloc kernEnd freememBase (phyFrameSize * (m.size / pgSize)) pgSize).2 + arraysNeed mems <
            wordSize := by
        rw [hbase]
        omega
      obtain ⟨hlaid, htop⟩ := ih hrest
      rw [hbase] at hlaid htop
      refine ⟨Laid.cons hlaid hle, ?_⟩
      show pallocBase kernEnd (pmmTables kernEnd mems _).2 ≤ _
      omega

/-- Ranges that do not overlap leave the arrays far below the end of the address space. -/
theorem Probed.arraysNeed_le {mems : List MemRange} (h : Probed mems) (hapart : Apart mems) :
    arraysNeed mems ≤ 2 ^ 59 := by
  have hbound : ∀ mems : List MemRange,
      arraysNeed mems * pgSize ≤ mems.length * (pgSize * pgSize) + phyFrameSize * (mems.map (·.size)).sum := by
    intro mems
    induction mems with
    | nil => simp [arraysNeed]
    | cons m mems ih =>
        have hdiv : phyFrameSize * (m.size / pgSize) * pgSize ≤ phyFrameSize * m.size := by
          rw [Nat.mul_assoc]
          exact Nat.mul_le_mul_left _ (Nat.div_mul_le_self _ _)
        rw [arraysNeed_cons, Nat.add_mul, Nat.add_mul, List.length_cons, Nat.succ_mul, List.map_cons, List.sum_cons,
          Nat.mul_add]
        omega
  have hneed := hbound mems
  have hsum := h.sum_size_le hapart
  have hnum := h.num
  unfold pgSize phyFrameSize at hneed
  omega

/-- What holds of the tables after the loop: `[lo, hi)` are the bytes of the arrays. -/
structure Tabled (lo hi : Nat) (sels : List PmmSel) : Prop where
  apart : sels.Pairwise fun s t => Disjoint s.mem.bytes t.mem.bytes
  laid : Laid (sels.map (·.array)) lo hi
  fits : hi < wordSize
  len : ∀ s ∈ sels, s.pfArrayLen = s.memSize / pgSize
  addr : ∀ s ∈ sels, s.memAddr < wordSize
  size : ∀ s ∈ sels, s.memSize < wordSize

/-- The range that an entry of the tables is about. -/
def PmmSel.range (s : PmmSel) : MemRange := ⟨s.memAddr, s.memSize⟩

theorem pmmTables_ranges (kernEnd : Nat) (mems : List MemRange) (freememBase : Nat) :
    (pmmTables kernEnd mems freememBase).1.map (·.range) = mems := by
  induction mems generalizing freememBase with
  | nil => rfl
  | cons m mems ih => exact congrArg (List.cons m) (ih _)

theorem pmmTables_len {kernEnd freememBase : Nat} {mems : List MemRange} {s : PmmSel}
    (hs : s ∈ (pmmTables kernEnd mems freememBase).1) : s.pfArrayLen = s.memSize / pgSize := by
  induction mems generalizing freememBase with
  | nil => cases hs
  | cons m mems ih =>
      rcases List.mem_cons.mp hs with rfl | hs
      · rfl
      · exact ih hs

/-- **What the loop leaves behind.** -/
theorem tabled_pmmTables {kernEnd freememBase : Nat} {mems : List MemRange} (hprobed : Probed mems)
    (hapart : Apart mems) (hbase : pallocBase kernEnd freememBase < 2 ^ 63) :
    Tabled (pallocBase kernEnd freememBase) (pallocBase kernEnd (pmmTables kernEnd mems freememBase).2)
      (pmmTables kernEnd mems freememBase).1 := by
  have hneed := hprobed.arraysNeed_le hapart
  have hword := wordSize_eq
  have hroom : pallocBase kernEnd freememBase + arraysNeed mems < wordSize := by omega
  obtain ⟨hlaid, htop⟩ := pmmTables_laid hroom
  have hranges := pmmTables_ranges kernEnd mems freememBase
  have hmem : ∀ s ∈ (pmmTables kernEnd mems freememBase).1, s.range ∈ mems := fun s hs => by
    have hin : s.range ∈ (pmmTables kernEnd mems freememBase).1.map (·.range) := List.mem_map_of_mem hs
    rwa [hranges] at hin
  exact {
    apart := by
      rw [Apart, ← hranges, List.pairwise_map] at hapart
      exact hapart
    laid := hlaid
    fits := by omega
    len := fun s hs => pmmTables_len hs
    addr := fun s hs => hprobed.addr _ (hmem s hs)
    size := fun s hs => hprobed.size _ (hmem s hs) }

/-! ## The searches -/

/-- A search finds an entry that passes the test where no two do. -/
theorem findIdx?_of_pairwise {α : Type} {P : α → Bool} {l : List α} {i : Nat} {a : α} (ha : l[i]? = some a)
    (hpass : P a = true) (hl : l.Pairwise fun a b => ¬ (P a = true ∧ P b = true)) :
    l.findIdx? P = some i := by
  obtain ⟨hi, rfl⟩ := List.getElem?_eq_some_iff.mp ha
  refine List.findIdx?_eq_some_iff_getElem.mpr ⟨hi, hpass, fun j hj => ?_⟩
  have hboth := List.pairwise_iff_getElem.mp hl j i (hj.trans hi) hi hj
  simpa [hpass] using hboth

/-- An address that is below the end of a range as the code computes it lies in the range. -/
theorem PmmSel.mem_of_lt {s : PmmSel} {addr : Nat} (hle : s.memAddr ≤ addr)
    (hlt : addr < (s.memAddr + s.memSize) % wordSize) : addr ∈ s.mem.bytes :=
  Region.mem_bytes.mpr ⟨hle, hlt.trans_le (Nat.mod_le _ _)⟩

variable {lo hi : Nat} {sels : List PmmSel} {i j : Nat} {s : PmmSel} {addr : Nat}

/-- Only one entry has an address in its range. -/
theorem Tabled.index_unique (h : Tabled lo hi sels) {t : PmmSel} (hs : sels[i]? = some s) (ht : sels[j]? = some t)
    (has : addr ∈ s.mem.bytes) (hat : addr ∈ t.mem.bytes) : i = j := by
  obtain ⟨hi, rfl⟩ := List.getElem?_eq_some_iff.mp hs
  obtain ⟨hj, rfl⟩ := List.getElem?_eq_some_iff.mp ht
  have hpair := List.pairwise_iff_getElem.mp h.apart
  rcases Nat.lt_trichotomy i j with hlt | heq | hgt
  · exact absurd hat (Set.disjoint_left.mp (hpair i j hi hj hlt) has)
  · exact heq
  · exact absurd has (Set.disjoint_left.mp (hpair j i hj hi hgt) hat)

theorem of_pa2sel64 (h : pa2sel64 sels addr = some i) :
    ∃ s, sels[i]? = some s ∧ s.memAddr ≤ addr ∧ addr < (s.memAddr + s.memSize) % wordSize := by
  obtain ⟨hi, hpass, -⟩ := List.findIdx?_eq_some_iff_getElem.mp h
  obtain ⟨hle, hlt⟩ := (Bool.and_eq_true _ _).mp hpass
  exact ⟨sels[i], List.getElem?_eq_getElem hi, of_decide_eq_true hle, of_decide_eq_true hlt⟩

theorem Tabled.pa2sel64_eq (h : Tabled lo hi sels) (hs : sels[i]? = some s) (hle : s.memAddr ≤ addr)
    (hlt : addr < (s.memAddr + s.memSize) % wordSize) : pa2sel64 sels addr = some i := by
  refine findIdx?_of_pairwise hs (by rw [decide_eq_true hle, decide_eq_true hlt]; rfl) (h.apart.imp ?_)
  rintro s t hapart ⟨hps, hpt⟩
  simp only [Bool.and_eq_true, decide_eq_true_eq] at hps hpt
  exact Set.disjoint_left.mp hapart (PmmSel.mem_of_lt hps.1 hps.2) (PmmSel.mem_of_lt hpt.1 hpt.2)

/-- The frames of an array have addresses below the end of the arrays. -/
theorem Tabled.frame_lt (h : Tabled lo hi sels) (hs : s ∈ sels) (hj : j ≤ s.pfArrayLen) :
    lo ≤ s.pfArray ∧ s.frame j ≤ hi := by
  obtain ⟨hlo, hhi⟩ := h.laid.below s.array (List.mem_map_of_mem hs)
  have hmul : phyFrameSize * j ≤ phyFrameSize * s.pfArrayLen := Nat.mul_le_mul_left _ hj
  have htop : s.pfArray + phyFrameSize * s.pfArrayLen ≤ hi := hhi
  exact ⟨hlo, (Nat.add_le_add_left hmul _).trans htop⟩

theorem PmmSel.frame_mem_array (hj : j < s.pfArrayLen) : s.frame j ∈ s.array.bytes := by
  have hmul : phyFrameSize * j < phyFrameSize * s.pfArrayLen := Nat.mul_lt_mul_of_pos_left hj (by decide)
  exact Region.mem_bytes.mpr ⟨Nat.le_add_right _ _, Nat.add_lt_add_left hmul _⟩

theorem Tabled.frame2sel64_frame (h : Tabled lo hi sels) (hs : sels[i]? = some s) (hj : j < s.pfArrayLen) :
    frame2sel64 sels (s.frame j) = some i := by
  have hmem := List.mem_of_getElem? hs
  have hend : ∀ t ∈ sels, (t.pfArray + phyFrameSize * t.pfArrayLen) % wordSize =
      t.pfArray + phyFrameSize * t.pfArrayLen := fun t ht =>
    Nat.mod_eq_of_lt ((h.frame_lt ht le_rfl).2.trans_lt h.fits)
  have hin := Region.mem_bytes.mp (PmmSel.frame_mem_array hj)
  have hdisj := h.laid.disjoint
  rw [List.pairwise_map] at hdisj
  refine findIdx?_of_pairwise hs ?_ ((List.Pairwise.and_mem.mp hdisj).imp ?_)
  · rw [hend s hmem, Bool.and_eq_true, decide_eq_true_eq, decide_eq_true_eq]
    exact hin
  · rintro t u ⟨ht, hu, hapart⟩ ⟨hpt, hpu⟩
    simp only [Bool.and_eq_true, decide_eq_true_eq, hend t ht, hend u hu] at hpt hpu
    exact Set.disjoint_left.mp hapart (Region.mem_bytes.mpr hpt) (Region.mem_bytes.mpr hpu)

/-- **The address of a frame.** -/
theorem Tabled.frame2pa64_frame (h : Tabled lo hi sels) (hs : sels[i]? = some s) (hj : j < s.pfArrayLen) :
    frame2pa64 sels (s.frame j) = some ((s.memAddr + j * pgSize) % wordSize) := by
  have hindex : (s.frame j - s.pfArray) / phyFrameSize = j := by
    rw [PmmSel.frame, Nat.add_sub_cancel_left]
    exact Nat.mul_div_cancel_left j (by decide)
  rw [frame2pa64, h.frame2sel64_frame hs hj]
  simp only [hs, Option.map_some, hindex]

/-- **The frame of an address.** -/
theorem Tabled.pa2frame64_eq (h : Tabled lo hi sels) (hs : sels[i]? = some s) (hle : s.memAddr ≤ addr)
    (hlt : addr < (s.memAddr + s.memSize) % wordSize) :
    pa2frame64 sels addr = some (s.frame ((addr - s.memAddr) / pgSize)) := by
  have hmem := List.mem_of_getElem? hs
  have hin := Region.mem_bytes.mp (PmmSel.mem_of_lt hle hlt)
  have hidx : (addr - s.memAddr) / pgSize ≤ s.pfArrayLen := by
    rw [h.len s hmem]
    have hend : addr < s.memAddr + s.memSize := hin.2
    exact Nat.div_le_div_right (by omega)
  have hword : s.frame ((addr - s.memAddr) / pgSize) < wordSize := (h.frame_lt hmem hidx).2.trans_lt h.fits
  rw [pa2frame64, h.pa2sel64_eq hs hle hlt]
  simp only [hs, Option.map_some, Nat.mod_eq_of_lt hword]

/-! ## The law -/

/-- Addresses and frames translate back and forth. -/
structure Translates (sels : List PmmSel) : Prop where
  toFrame : ∀ addr f, pa2frame64 sels addr = some f →
    ∃ s ∈ sels, addr ∈ s.mem.bytes ∧ f ∈ s.frames ∧ frame2pa64 sels f = some (alignDown addr pgSize)
  toAddr : ∀ s ∈ sels, ∀ f ∈ s.frames, ∃ addr, frame2pa64 sels f = some addr ∧ pa2frame64 sels addr = some f

/-- A range of whole pages that ends before the address space does. -/
def PmmSel.Whole (s : PmmSel) : Prop :=
  pgSize ∣ s.memSize ∧ (0 < s.memSize → s.memAddr + s.memSize < wordSize)

theorem PmmSel.mem_frames {f : Nat} : f ∈ s.frames ↔ ∃ j < s.pfArrayLen, s.frame j = f := by
  simp only [PmmSel.frames, List.mem_map, List.mem_range]

theorem PmmSel.frame_inj {k : Nat} (h : s.frame j = s.frame k) : j = k := by
  unfold PmmSel.frame phyFrameSize at h
  omega

/-- The first byte of a page of a range is in the range. -/
theorem Tabled.page_lt (h : Tabled lo hi sels) (hs : s ∈ sels) (hj : j < s.pfArrayLen) :
    s.memAddr + j * pgSize + pgSize ≤ s.memAddr + s.memSize := by
  rw [h.len s hs] at hj
  have hmul : (j + 1) * pgSize ≤ s.memSize :=
    (Nat.mul_le_mul_right _ hj).trans (Nat.div_mul_le_self _ _)
  rw [Nat.succ_mul] at hmul
  omega

/-- In whole ranges the translations fit together. -/
theorem Tabled.translates (h : Tabled lo hi sels) (haligned : ∀ s ∈ sels, pgSize ∣ s.memAddr)
    (hwhole : ∀ s ∈ sels, s.Whole) : Translates sels := by
  constructor
  · intro addr f hf
    rw [pa2frame64] at hf
    split at hf
    · cases hf
    rename_i i hi
    obtain ⟨s, hs, hle, hlt⟩ := of_pa2sel64 hi
    have hmem := List.mem_of_getElem? hs
    have hin := PmmSel.mem_of_lt hle hlt
    have hfrom := h.pa2frame64_eq hs hle hlt
    rw [pa2frame64, hi] at hfrom
    obtain rfl := (Option.some.injEq _ _).mp (hf.symm.trans hfrom)
    -- the index is one of the array, since the last page is as long as the others
    obtain ⟨⟨n, hn⟩, hend⟩ := hwhole s hmem
    obtain ⟨a, ha⟩ := haligned s hmem
    have hbound : addr < s.memAddr + s.memSize := (Region.mem_bytes.mp hin).2
    have hidx : (addr - s.memAddr) / pgSize < s.pfArrayLen := by
      rw [h.len s hmem, hn, Nat.mul_div_cancel_left n (by decide)]
      exact Nat.div_lt_of_lt_mul (by omega)
    refine ⟨s, hmem, hin, PmmSel.mem_frames.mpr ⟨_, hidx, rfl⟩, ?_⟩
    rw [h.frame2pa64_frame hs hidx]
    have hpage : s.memAddr + (addr - s.memAddr) / pgSize * pgSize = alignDown addr pgSize := by
      unfold alignDown pgSize at *
      omega
    have hfits := hend (by omega)
    rw [hpage, Nat.mod_eq_of_lt]
    unfold alignDown
    omega
  · intro s hs f hf
    obtain ⟨j, hj, rfl⟩ := PmmSel.mem_frames.mp hf
    obtain ⟨i, hi⟩ := List.getElem?_of_mem hs
    have hpage := h.page_lt hs hj
    have hpos : 0 < pgSize := by decide
    have hend := (hwhole s hs).2 (by omega)
    have haddr : (s.memAddr + j * pgSize) % wordSize = s.memAddr + j * pgSize := Nat.mod_eq_of_lt (by omega)
    refine ⟨s.memAddr + j * pgSize, by rw [h.frame2pa64_frame hi hj, haddr], ?_⟩
    rw [h.pa2frame64_eq hi (Nat.le_add_right _ _) (by rw [Nat.mod_eq_of_lt hend]; omega),
      Nat.add_sub_cancel_left, Nat.mul_div_cancel j hpos]

/-- Where the translations fit together the ranges are whole. -/
theorem Tabled.whole (h : Tabled lo hi sels) (haligned : ∀ s ∈ sels, pgSize ∣ s.memAddr)
    (htrans : Translates sels) (hs : s ∈ sels) : s.Whole := by
  obtain ⟨i, hi⟩ := List.getElem?_of_mem hs
  have haddr := h.addr s hs
  have hsize := h.size s hs
  rcases Nat.eq_zero_or_pos s.memSize with hzero | hpos
  · exact ⟨hzero ▸ Nat.dvd_zero _, fun hpos => absurd hpos (by omega)⟩
  have hend : s.memAddr + s.memSize < wordSize := by
    by_contra hbig
    -- the range reaches the end of the address space, and the search for its first address fails
    have hfirst : 0 < s.pfArrayLen := by
      rw [h.len s hs]
      obtain ⟨a, ha⟩ := haligned s hs
      have hword := wordSize_eq
      unfold pgSize at *
      omega
    obtain ⟨addr, hto, hback⟩ := htrans.toAddr s hs (s.frame 0) (PmmSel.mem_frames.mpr ⟨0, hfirst, rfl⟩)
    rw [h.frame2pa64_frame hi hfirst, Nat.zero_mul, Nat.add_zero, Nat.mod_eq_of_lt haddr] at hto
    obtain rfl := (Option.some.injEq _ _).mp hto
    rw [pa2frame64] at hback
    split at hback
    · cases hback
    rename_i k hk
    obtain ⟨t, ht, hle, hlt⟩ := of_pa2sel64 hk
    have hin : s.memAddr ∈ s.mem.bytes := Region.mem_bytes.mpr ⟨le_rfl, Nat.lt_add_of_pos_right hpos⟩
    obtain rfl := h.index_unique hi ht hin (PmmSel.mem_of_lt hle hlt)
    obtain rfl := (Option.some.injEq _ _).mp (hi.symm.trans ht)
    rw [Nat.mod_eq_sub_mod (by omega), Nat.mod_eq_of_lt (by omega)] at hlt
    omega
  refine ⟨?_, fun _ => hend⟩
  by_contra hpart
  -- the last page is not whole, and its address has the index behind the last
  have hrest : 0 < s.memSize % pgSize := Nat.pos_of_ne_zero fun h0 => hpart (Nat.dvd_of_mod_eq_zero h0)
  have hdiv := Nat.div_add_mod s.memSize pgSize
  have hlt : s.memAddr + pgSize * (s.memSize / pgSize) < (s.memAddr + s.memSize) % wordSize := by
    rw [Nat.mod_eq_of_lt hend]
    omega
  have hframe := h.pa2frame64_eq hi (Nat.le_add_right _ _) hlt
  rw [Nat.add_sub_cancel_left, Nat.mul_div_cancel_left _ (by decide : 0 < pgSize)] at hframe
  obtain ⟨t, ht, hin, hmem, -⟩ := htrans.toFrame _ _ hframe
  obtain ⟨k, hk⟩ := List.getElem?_of_mem ht
  obtain rfl := h.index_unique hi hk (PmmSel.mem_of_lt (Nat.le_add_right _ _) hlt) hin
  obtain rfl := (Option.some.injEq _ _).mp (hi.symm.trans hk)
  obtain ⟨j, hj, heq⟩ := PmmSel.mem_frames.mp hmem
  rw [PmmSel.frame_inj heq, h.len s hs] at hj
  exact lt_irrefl _ hj

/-- **Addresses and frames translate back and forth iff every range consists of whole pages and ends before
the address space does**, for the ranges that the probe reports. -/
theorem frames_translate_iff {reg : Option DevNodeProp} {mems : List MemRange} {kernEnd freememBase : Nat}
    (hprobe : memProbe reg = some mems) (hlen : ∀ prop ∈ reg, prop.prLen < 2 ^ 32) (hapart : Apart mems)
    (haligned : ∀ m ∈ mems, pgSize ∣ m.addr) (hbase : pallocBase kernEnd freememBase < 2 ^ 63) :
    Translates (pmmTables kernEnd mems freememBase).1 ↔
      ∀ m ∈ mems, pgSize ∣ m.size ∧ (0 < m.size → m.addr + m.size < wordSize) := by
  have h := tabled_pmmTables (probed_memProbe hprobe hlen) hapart hbase
  have hranges := pmmTables_ranges kernEnd mems freememBase
  rw [← hranges, List.forall_mem_map] at haligned
  have hwhole : (∀ m ∈ mems, pgSize ∣ m.size ∧ (0 < m.size → m.addr + m.size < wordSize)) ↔
      ∀ s ∈ (pmmTables kernEnd mems freememBase).1, s.Whole := by
    rw [← hranges, List.forall_mem_map, hranges]
    rfl
  rw [hwhole]
  exact ⟨fun ht s hs => h.whole haligned ht hs, h.translates haligned⟩

/-- A property `reg` with the given ranges. -/
def regProp (mems : List MemRange) : DevNodeProp :=
  { prName := [0x72, 0x65, 0x67]
    prLen := 16 * mems.length
    prValues := some (mems.flatMap fun m => (leBytes 8 m.addr).reverse ++ (leBytes 8 m.size).reverse) }

/-- One range of 128 MiB. -/
theorem frames_translate_oneRange :
    Translates (pmmTables 0x80300000 [⟨0x80000000, 0x8000000⟩] 0).1 := by
  have hprobe : memProbe (some (regProp [⟨0x80000000, 0x8000000⟩])) = some [⟨0x80000000, 0x8000000⟩] := by
    decide +kernel
  have hlen : ∀ prop ∈ some (regProp [⟨0x80000000, 0x8000000⟩]), prop.prLen < 2 ^ 32 := by decide +kernel
  refine (frames_translate_iff hprobe hlen (List.pairwise_singleton _ _) (by decide) (by decide)).mpr ?_
  rw [wordSize_eq]
  decide

/-- A second range of a page and a half: the address of the half page has a frame behind its array. -/
theorem frames_translate_halfPage : ¬ ∀ (reg : Option DevNodeProp) (mems : List MemRange)
    (kernEnd freememBase : Nat), memProbe reg = some mems → (∀ prop ∈ reg, prop.prLen < 2 ^ 32) → Apart mems →
      (∀ m ∈ mems, pgSize ∣ m.addr) → pallocBase kernEnd freememBase < 2 ^ 63 →
      Translates (pmmTables kernEnd mems freememBase).1 := by
  intro hall
  have hapart : Apart [⟨0x80000000, 0x8000000⟩, ⟨0x90000000, 0x1800⟩] := by
    refine List.pairwise_pair.mpr (Set.disjoint_left.mpr fun a ha hb => ?_)
    have hlt : a < 0x80000000 + 0x8000000 := (Region.mem_bytes.mp ha).2
    have hle : 0x90000000 ≤ a := (Region.mem_bytes.mp hb).1
    omega
  have htrans := hall (some (regProp [⟨0x80000000, 0x8000000⟩, ⟨0x90000000, 0x1800⟩]))
    [⟨0x80000000, 0x8000000⟩, ⟨0x90000000, 0x1800⟩] 0x80300000 0 (by decide +kernel) (by decide +kernel) hapart
    (by decide) (by decide)
  obtain ⟨s, hs, hin, hmem, -⟩ := htrans.toFrame 0x90001000 0x803c0018 (by decide +kernel)
  have hle := Region.mem_bytes.mp hin
  rcases List.mem_pair.mp hs with rfl | rfl
  · exact absurd hle.2 (by decide)
  · obtain ⟨j, hj, heq⟩ := PmmSel.mem_frames.mp hmem
    have hzero : j = 0 := Nat.lt_one_iff.mp hj
    rw [hzero] at heq
    exact absurd heq (by decide +kernel)

end Jrinx
