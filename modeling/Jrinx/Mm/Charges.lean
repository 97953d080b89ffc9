import Jrinx.Mm.PartMem

/-! # What the memory operations do to the partition records

The allocator and the page tables leave the records of the partitions alone; the operations above them
change one record, by charges of whole pages.

* **`SameParts`** — two states with the same records.
* **`partPtAlloc_ok`**, **`procAllocMem_ok`** — the charges. -/

namespace Jrinx

open Op

/-! ## Operations that charge nothing -/

/-- The partition records and the layout of the memory are the same. -/
structure SameParts (m m' : Mem) : Prop where
  parts : m'.parts = m.parts
  partIds : m'.partIds = m.partIds
  nxtPartId : m'.nxtPartId = m.nxtPartId
  kernPgdir : m'.kernPgdir = m.kernPgdir
  mems : m'.mems = m.mems
  channelBase : m'.channelBase = m.channelBase

theorem SameParts.refl (m : Mem) : SameParts m m := by constructor <;> rfl

variable {m₀ : Mem}

theorem sameParts_phyFrameAlloc : Keeps (SameParts m₀) phyFrameAlloc := by
  intro m f m' hm h
  unfold phyFrameAlloc at h
  cases ht : takeFrame m.pfFreeList with
  | none => simp [ht] at h
  | some x =>
      simp only [ht, Res.ok.injEq] at h
      rw [← h.2]
      exact ⟨hm.1, hm.2, hm.3, hm.4, hm.5, hm.6⟩

theorem sameParts_phyFrameFree (f : Ppn) : Keeps (SameParts m₀) (phyFrameFree f) := by
  intro m u m' hm h
  unfold phyFrameFree at h
  cases hs : frame2sel m.mems f with
  | none => simp [hs] at h
  | some sel =>
      simp only [hs, Res.ok.injEq] at h
      rw [← h.2]
      exact ⟨hm.1, hm.2, hm.3, hm.4, hm.5, hm.6⟩

theorem sameParts_phyFrameRefInc (f : Ppn) : Keeps (SameParts m₀) (phyFrameRefInc f) :=
  keeps_modify fun _ hm => ⟨hm.1, hm.2, hm.3, hm.4, hm.5, hm.6⟩

theorem sameParts_phyFrameRefDec (f : Ppn) : Keeps (SameParts m₀) (phyFrameRefDec f) := by
  refine keeps_get.bind fun m => ?_
  split
  · exact keeps_fail
  · refine (keeps_modify fun _ hm => ⟨hm.1, hm.2, hm.3, hm.4, hm.5, hm.6⟩).bind fun _ => ?_
    split
    · exact sameParts_phyFrameFree f
    · exact keeps_pure ()

theorem sameParts_setPte (a : PteAddr) (e : Pte) :
    Keeps (SameParts m₀) (Op.modify fun m => m.setPte a e) :=
  keeps_modify fun _ hm => ⟨hm.1, hm.2, hm.3, hm.4, hm.5, hm.6⟩

theorem sameParts_ptFrameAlloc : Keeps (SameParts m₀) ptFrameAlloc :=
  sameParts_phyFrameAlloc.bind fun f => (sameParts_phyFrameRefInc f).panicE.bind fun _ =>
    keeps_pure f

theorem sameParts_ptFrameRefInc (f : Ppn) : Keeps (SameParts m₀) (ptFrameRefInc f) := by
  refine keeps_get.bind fun m => ?_
  split
  · exact keeps_pure ()
  · exact (sameParts_phyFrameRefInc _).panicE

theorem sameParts_ptFrameRefDec (f : Ppn) : Keeps (SameParts m₀) (ptFrameRefDec f) := by
  refine keeps_get.bind fun m => ?_
  split
  · exact keeps_pure ()
  · exact (sameParts_phyFrameRefDec _).panicE

theorem sameParts_ptWalkMid (mid : Ppn) (va : Nat) (create : Bool) (pa1 : Ppn) :
    Keeps (SameParts m₀) (ptWalkMid mid va create pa1) := by
  refine keeps_get.bind fun m => ?_
  dsimp only
  split
  · exact keeps_pure _
  · split
    · exact (sameParts_ptFrameAlloc.catchE (ptPhyOps.undo_fails pa1)).bind fun pa2 =>
        (sameParts_setPte _ _).bind fun _ => keeps_pure _
    · exact keeps_pure _

theorem sameParts_ptWalk (pgdir : Ppn) (va : Nat) (create : Bool) :
    Keeps (SameParts m₀) (ptWalk pgdir va create) := by
  refine keeps_get.bind fun m => ?_
  dsimp only
  split
  · exact sameParts_ptWalkMid _ va create 0
  · split
    · exact sameParts_ptFrameAlloc.bind fun pa1 => (sameParts_setPte _ _).bind fun _ =>
        sameParts_ptWalkMid pa1 va create pa1
    · exact keeps_pure _

theorem sameParts_ptLookup (pgdir : Ppn) (va : Nat) :
    Keeps (SameParts m₀) (ptLookup pgdir va) := by
  refine (sameParts_ptWalk pgdir va false).bind fun pte => keeps_get.bind fun m => ?_
  split
  · exact keeps_pure _
  · exact keeps_pure _

theorem sameParts_ptUnmap (pgdir : Ppn) (va : Nat) : Keeps (SameParts m₀) (ptUnmap pgdir va) := by
  refine (sameParts_ptLookup pgdir va).bind fun pte => ?_
  split
  · exact keeps_pure _
  · exact keeps_get.bind fun m => (sameParts_ptFrameRefDec _).bind fun _ => sameParts_setPte _ _

/-- The second half of `pt_map`, after an old mapping is gone. -/
def ptMapFresh (pgdir : Ppn) (va : Nat) (ppn : Ppn) (perm : Perm) : Op Mem Unit := do
  let pte ← ptWalk pgdir va true
  match pte with
  | none => Op.halt
  | some a => do
      Op.modify fun m => m.setPte a ⟨{ perm with v := true }, ppn⟩
      Op.panicE (ptFrameRefInc ppn)

/-- `pt_map` in two halves. -/
theorem ptMap_eq_ok {pgdir : Ppn} {va : Nat} {ppn : Ppn} {perm : Perm} {m m' : Mem} {u : Unit} :
    ptMap pgdir va ppn perm m = .ok u m' ↔ ∃ pte m₁ m₂, ptWalk pgdir va false m = .ok pte m₁ ∧
      (if (pte.any fun a => (m₁.pte a).perm.v) = true then ptUnmap pgdir va m₁ = .ok () m₂
        else m₂ = m₁) ∧ ptMapFresh pgdir va ppn perm m₂ = .ok u m' := by
  unfold ptMap PtOps.map
  rw [bind_eq_ok]
  -- the lookup, an unmapping of the page if it was mapped, and then the rest
  refine exists_congr fun pte => ?_
  constructor
  · rintro ⟨m₁, hw, h⟩
    obtain ⟨m₂, m₃, hg, h⟩ := bind_eq_ok.mp h
    obtain ⟨rfl, rfl⟩ := get_eq_ok.mp hg
    cases pte with
    | none => exact ⟨m₁, m₁, hw, by simp, h⟩
    | some a =>
        dsimp only at h
        split at h
        · rename_i hv
          obtain ⟨_, m₃, hu, h⟩ := bind_eq_ok.mp h
          refine ⟨m₁, m₃, hw, ?_, h⟩
          simp only [Option.any_some, hv, if_true]
          exact hu
        · rename_i hv
          exact ⟨m₁, m₁, hw, by simp [hv], h⟩
  · rintro ⟨m₁, m₂, hw, hmid, h⟩
    refine ⟨m₁, hw, bind_eq_ok.mpr ⟨m₁, m₁, get_eq_ok.mpr ⟨rfl, rfl⟩, ?_⟩⟩
    cases pte with
    | none =>
        simp only [Option.any_none, Bool.false_eq_true, if_false] at hmid
        rw [hmid] at h
        exact h
    | some a =>
        dsimp only
        by_cases hv : (m₁.pte a).perm.v = true
        · rw [if_pos hv]
          simp only [Option.any_some, hv, if_true] at hmid
          exact bind_eq_ok.mpr ⟨(), m₂, hmid, h⟩
        · rw [if_neg hv]
          simp only [Option.any_some, hv] at hmid
          rw [hmid] at h
          exact h

theorem sameParts_ptMap (pgdir : Ppn) (va : Nat) (ppn : Ppn) (perm : Perm) :
    Keeps (SameParts m₀) (ptMap pgdir va ppn perm) := by
  intro m u m' hm h
  obtain ⟨pte, m₁, m₂, hw, hmid, h⟩ := ptMap_eq_ok.mp h
  have hm₁ := sameParts_ptWalk pgdir va false hm hw
  have hm₂ : SameParts m₀ m₂ := by
    split at hmid
    · exact sameParts_ptUnmap pgdir va hm₁ hmid
    · rw [hmid]
      exact hm₁
  have hfresh : Keeps (SameParts m₀) (ptMapFresh pgdir va ppn perm) := by
    refine (sameParts_ptWalk pgdir va true).bind fun pte => ?_
    split
    · exact keeps_halt
    · exact (sameParts_setPte _ _).bind fun _ => (sameParts_ptFrameRefInc ppn).panicE
  exact hfresh hm₂ h

/-! ## Charges -/

/-- Only the record of the partition `pt` changed: its budget is now `rem`, and it was given `given`
frames. -/
structure Charged (pt : PartId) (rem given : Nat) (m m' : Mem) : Prop where
  other : ∀ q, q ≠ pt → m'.parts q = m.parts q
  paPgdir : (m'.parts pt).paPgdir = (m.parts pt).paPgdir
  paMemReq : (m'.parts pt).paMemReq = (m.parts pt).paMemReq
  paMemRem : (m'.parts pt).paMemRem = rem
  paGiven : (m'.parts pt).paGiven = given
  partIds : m'.partIds = m.partIds
  nxtPartId : m'.nxtPartId = m.nxtPartId
  kernPgdir : m'.kernPgdir = m.kernPgdir
  mems : m'.mems = m.mems
  channelBase : m'.channelBase = m.channelBase

theorem SameParts.charged {m m' : Mem} (h : SameParts m m') (pt : PartId) :
    Charged pt (m.parts pt).paMemRem (m.parts pt).paGiven m m' where
  other _ _ := by rw [h.parts]
  paPgdir := by rw [h.parts]
  paMemReq := by rw [h.parts]
  paMemRem := by rw [h.parts]
  paGiven := by rw [h.parts]
  partIds := h.partIds
  nxtPartId := h.nxtPartId
  kernPgdir := h.kernPgdir
  mems := h.mems
  channelBase := h.channelBase

theorem Charged.refl (pt : PartId) (m : Mem) :
    Charged pt (m.parts pt).paMemRem (m.parts pt).paGiven m m := (SameParts.refl m).charged pt

theorem Charged.trans {pt : PartId} {r r' g g' : Nat} {m m₁ m' : Mem} (h : Charged pt r g m m₁)
    (h' : Charged pt r' g' m₁ m') : Charged pt r' g' m m' where
  other q hq := (h'.other q hq).trans (h.other q hq)
  paPgdir := h'.paPgdir.trans h.paPgdir
  paMemReq := h'.paMemReq.trans h.paMemReq
  paMemRem := h'.paMemRem
  paGiven := h'.paGiven
  partIds := h'.partIds.trans h.partIds
  nxtPartId := h'.nxtPartId.trans h.nxtPartId
  kernPgdir := h'.kernPgdir.trans h.kernPgdir
  mems := h'.mems.trans h.mems
  channelBase := h'.channelBase.trans h.channelBase

theorem Charged.congr {pt : PartId} {r r' g g' : Nat} {m m' : Mem} (h : Charged pt r g m m')
    (hr : r = r') (hg : g = g') : Charged pt r' g' m m' := by
  rw [← hr, ← hg]
  exact h

/-- A change of the record itself, which keeps its root table and its request. -/
theorem charged_updPart (m : Mem) (pt : PartId) {f : PartMem → PartMem}
    (hpgdir : (f (m.parts pt)).paPgdir = (m.parts pt).paPgdir)
    (hreq : (f (m.parts pt)).paMemReq = (m.parts pt).paMemReq) :
    Charged pt (f (m.parts pt)).paMemRem (f (m.parts pt)).paGiven m (m.updPart pt f) := by
  constructor
  · intro q hq
    simp [Mem.updPart, hq]
  · simpa [Mem.updPart] using hpgdir
  · simpa [Mem.updPart] using hreq
  · simp [Mem.updPart]
  · simp [Mem.updPart]
  all_goals rfl

theorem partPtAlloc_undo_fails (pt : PartId) (m : Mem) (f : Ppn) (m' : Mem) :
    (do refundPage pt; Op.fail : Op Mem Ppn) m ≠ .ok f m' := by
  intro h
  obtain ⟨_, _, _, hf⟩ := bind_eq_ok.mp h
  exact fail_eq_ok.mp hf

theorem partPtAlloc_unmap_fails (pt : PartId) (frame : Ppn) (m : Mem) (u : Unit) (m' : Mem) :
    (do
      Op.panicE (phyFrameRefDec frame)
      refundPage pt
      Op.fail : Op Mem Unit) m ≠ .ok u m' := by
  intro h
  obtain ⟨_, _, _, h⟩ := bind_eq_ok.mp h
  obtain ⟨_, _, _, hf⟩ := bind_eq_ok.mp h
  exact fail_eq_ok.mp hf

/-- **`part_pt_alloc`** checks the budget and charges one page. -/
theorem partPtAlloc_ok {pt : PartId} {va : Nat} {perm : Perm} {m m' : Mem} {f : Ppn}
    (h : partPtAlloc pt va perm m = .ok f m') : pgSize ≤ (m.parts pt).paMemRem ∧
      Charged pt (wordSub (m.parts pt).paMemRem pgSize) ((m.parts pt).paGiven + 1) m m' := by
  unfold partPtAlloc at h
  obtain ⟨_, _, hg, h⟩ := bind_eq_ok.mp h
  obtain ⟨rfl, rfl⟩ := get_eq_ok.mp hg
  split at h
  · exact (fail_eq_ok.mp h).elim
  rename_i hrem
  refine ⟨not_lt.mp hrem, ?_⟩
  obtain ⟨_, m₁, hm₁, h⟩ := bind_eq_ok.mp h
  obtain ⟨f', m₂, hm₂, h⟩ := bind_eq_ok.mp h
  obtain ⟨_, m₃, hm₃, h⟩ := bind_eq_ok.mp h
  obtain ⟨_, m₄, hm₄, h⟩ := bind_eq_ok.mp h
  obtain ⟨-, rfl⟩ := pure_eq_ok.mp h
  rw [← modify_eq_ok.mp hm₄]
  have h₁ := charged_updPart m pt (f := fun p => { p with paMemRem := wordSub p.paMemRem pgSize })
    rfl rfl
  rw [modify_eq_ok.mp hm₁] at h₁
  have h₂ := sameParts_phyFrameAlloc.catchE (partPtAlloc_undo_fails pt) (.refl m₁) hm₂
  have h₃ := (sameParts_ptMap _ va f' perm).catchE (partPtAlloc_unmap_fails pt f') h₂ hm₃
  have h₁₃ := h₁.trans (h₃.charged pt)
  refine (h₁₃.trans (charged_updPart m₃ pt (f := fun p => { p with paGiven := p.paGiven + 1 })
    rfl rfl)).congr ?_ ?_
  · exact h₁₃.paMemRem.trans h₁.paMemRem
  · exact congrArg (· + 1) (h₁₃.paGiven.trans h₁.paGiven)

/-- A stack page is given without a charge. -/
theorem stackPage_ok {pt : PartId} {va : Nat} {perm : Perm} {m m' : Mem} {u : Unit}
    (h : stackPage pt va perm m = .ok u m') :
    Charged pt (m.parts pt).paMemRem ((m.parts pt).paGiven + 1) m m' := by
  unfold stackPage at h
  obtain ⟨_, _, hg, h⟩ := bind_eq_ok.mp h
  obtain ⟨rfl, rfl⟩ := get_eq_ok.mp hg
  obtain ⟨f, m₁, hm₁, h⟩ := bind_eq_ok.mp h
  obtain ⟨_, m₂, hm₂, h⟩ := bind_eq_ok.mp h
  rw [← modify_eq_ok.mp h]
  have h₂ := ((sameParts_ptMap _ va f perm) (sameParts_phyFrameAlloc (.refl m) hm₁) hm₂).charged pt
  refine (h₂.trans (charged_updPart m₂ pt (f := fun p => { p with paGiven := p.paGiven + 1 })
    rfl rfl)).congr ?_ ?_
  · exact h₂.paMemRem
  · exact congrArg (· + 1) h₂.paGiven

/-- A loop that maps stack pages gives one frame a round. -/
theorem stackPages_ok {pt : PartId} {perm : Perm} (va : Nat → Nat) (l : List Nat) {m m' : Mem}
    {u : Unit} (h : l.forM (fun i => stackPage pt (va i) perm) m = .ok u m') :
    Charged pt (m.parts pt).paMemRem ((m.parts pt).paGiven + l.length) m m' := by
  refine forM_induct (P := fun l m m' => Charged pt (m.parts pt).paMemRem
    ((m.parts pt).paGiven + l.length) m m') (fun m => .refl pt m) ?_ h
  intro i l m m₁ m' u hm₁ ih
  have h₁ := stackPage_ok hm₁
  refine (h₁.trans ih).congr h₁.paMemRem ?_
  rw [h₁.paGiven, List.length_cons]
  omega

theorem length_pageSteps (start limit : Nat) :
    (pageSteps start limit).length = (limit - start + (pgSize - 1)) / pgSize := by
  simp [pageSteps]

/-- **`proc_ustack_setup`** charges the stack without a check. -/
theorem procUstackSetup_ok {pt : PartId} {stacksize : Nat} {m m' : Mem} {top : Nat}
    (h : procUstackSetup pt stacksize m = .ok top m') :
    Charged pt (wordSub (m.parts pt).paMemRem stacksize)
      ((m.parts pt).paGiven + (pageSteps 0 stacksize).length) m m' := by
  unfold procUstackSetup at h
  obtain ⟨_, _, hg, h⟩ := bind_eq_ok.mp h
  obtain ⟨rfl, rfl⟩ := get_eq_ok.mp hg
  obtain ⟨_, m₁, hm₁, h⟩ := bind_eq_ok.mp h
  obtain ⟨_, m₂, hm₂, h⟩ := bind_eq_ok.mp h
  obtain ⟨-, rfl⟩ := pure_eq_ok.mp h
  rw [← modify_eq_ok.mp hm₂]
  have h₁ := stackPages_ok _ _ hm₁
  refine (h₁.trans (charged_updPart m₁ pt ?_ ?_)).congr ?_ h₁.paGiven
  · rfl
  · rfl
  · exact congrArg (wordSub · stacksize) h₁.paMemRem

/-- **`proc_xstack_setup`** charges the kernel stack without a check. -/
theorem procXstackSetup_ok {pt : PartId} {m m' : Mem} {top : Nat}
    (h : procXstackSetup pt m = .ok top m') :
    Charged pt (wordSub (m.parts pt).paMemRem kstkSize)
      ((m.parts pt).paGiven + (pageSteps 0 kstkSize).length) m m' := by
  unfold procXstackSetup at h
  obtain ⟨_, _, hg, h⟩ := bind_eq_ok.mp h
  obtain ⟨rfl, rfl⟩ := get_eq_ok.mp hg
  obtain ⟨_, m₁, hm₁, h⟩ := bind_eq_ok.mp h
  obtain ⟨_, m₂, hm₂, h⟩ := bind_eq_ok.mp h
  obtain ⟨-, rfl⟩ := pure_eq_ok.mp h
  rw [← modify_eq_ok.mp hm₂]
  have h₁ := stackPages_ok _ _ hm₁
  refine (h₁.trans (charged_updPart m₁ pt ?_ ?_)).congr ?_ h₁.paGiven
  · rfl
  · rfl
  · exact congrArg (wordSub · kstkSize) h₁.paMemRem

/-- **`proc_alloc`** checks the budget for the user stack only, and charges both stacks. -/
theorem procAllocMem_ok {pt : PartId} {stacksize : Nat} {m m' : Mem} {stk : Stacks}
    (h : procAllocMem pt stacksize m = .ok stk m') :
    alignUp stacksize pgSize ≤ (m.parts pt).paMemRem ∧
      Charged pt (wordSub (wordSub (m.parts pt).paMemRem (alignUp stacksize pgSize)) kstkSize)
        ((m.parts pt).paGiven + (pageSteps 0 (alignUp stacksize pgSize)).length
          + (pageSteps 0 kstkSize).length) m m' := by
  unfold procAllocMem at h
  obtain ⟨_, _, hg, h⟩ := bind_eq_ok.mp h
  obtain ⟨rfl, rfl⟩ := get_eq_ok.mp hg
  split at h
  · exact (fail_eq_ok.mp h).elim
  rename_i hrem
  refine ⟨not_lt.mp hrem, ?_⟩
  obtain ⟨utop, m₁, hm₁, h⟩ := bind_eq_ok.mp h
  obtain ⟨xtop, m₂, hm₂, h⟩ := bind_eq_ok.mp h
  obtain ⟨-, rfl⟩ := pure_eq_ok.mp h
  have h₁ := procUstackSetup_ok (panicE_eq_ok.mp hm₁)
  have h₂ := procXstackSetup_ok (panicE_eq_ok.mp hm₂)
  refine (h₁.trans h₂).congr ?_ ?_
  · rw [h₁.paMemRem]
  · rw [h₁.paGiven]

/-- A refused `proc_alloc` leaves the memory as it was. -/
theorem procAllocMem_err {pt : PartId} {stacksize : Nat} {m m' : Mem}
    (h : procAllocMem pt stacksize m = .err m') : m' = m := by
  unfold procAllocMem at h
  rcases bind_eq_err.mp h with hg | ⟨_, _, hg, h⟩
  · simp [Op.get] at hg
  obtain ⟨rfl, rfl⟩ := get_eq_ok.mp hg
  split at h
  · simp only [Op.fail, Res.err.injEq] at h
    exact h.symm
  · rcases bind_eq_err.mp h with hu | ⟨utop, m₁, -, h⟩
    · exact absurd hu panicE_ne_err
    rcases bind_eq_err.mp h with hx | ⟨xtop, m₂, -, h⟩
    · exact absurd hx panicE_ne_err
    · exact absurd h (by simp [pure, Op.pure])

/-- `part_comm_alloc` charges nothing. -/
theorem partCommAlloc_ok {pt : PartId} {size : Nat} {m m' : Mem} {base : Nat}
    (h : partCommAlloc pt size m = .ok base m') :
    Charged pt (m.parts pt).paMemRem (m.parts pt).paGiven m m' := by
  unfold partCommAlloc at h
  obtain ⟨_, _, hg, h⟩ := bind_eq_ok.mp h
  obtain ⟨rfl, rfl⟩ := get_eq_ok.mp hg
  split at h
  · exact (fail_eq_ok.mp h).elim
  obtain ⟨_, m₁, hm₁, h⟩ := bind_eq_ok.mp h
  obtain ⟨-, rfl⟩ := pure_eq_ok.mp h
  rw [← modify_eq_ok.mp hm₁]
  exact charged_updPart m pt (f := fun p =>
    { p with paCommBase := ((m.parts pt).paCommBase + size) % wordSize }) rfl rfl

/-- `part_comm_alloc` looks at the sum only. -/
theorem partCommAlloc_cases (pt : PartId) (size : Nat) (m : Mem) :
    (commLimt ≤ ((m.parts pt).paCommBase + size) % wordSize ∧ partCommAlloc pt size m = .err m) ∨
      (((m.parts pt).paCommBase + size) % wordSize < commLimt ∧
        partCommAlloc pt size m = .ok (m.parts pt).paCommBase (m.updPart pt fun p =>
          { p with paCommBase := ((m.parts pt).paCommBase + size) % wordSize })) := by
  by_cases h : commLimt ≤ ((m.parts pt).paCommBase + size) % wordSize
  · refine Or.inl ⟨h, ?_⟩
    simp [partCommAlloc, bind, Op.bind, Op.get, h, Op.fail]
  · refine Or.inr ⟨Nat.lt_of_not_le h, ?_⟩
    simp [partCommAlloc, bind, Op.bind, Op.get, h, Op.modify, pure, Op.pure]

end Jrinx
