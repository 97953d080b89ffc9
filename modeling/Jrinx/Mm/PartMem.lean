import Jrinx.Mm.PageTable

/-! # The memory of partitions

The parts of `kern/multitask/partition.c`, `kern/multitask/process.c`, `kern/traps/pagefault.c`,
`kern/chan/channel.c` and `lib/elfloader.c` that hand out frames and charge them to a partition.

* **`partPtAlloc`**, **`procUstackSetup`**, **`procXstackSetup`** — the three places that charge
  `pa_mem_rem`.
* **`partCreate`**, **`procAllocMem`**, **`doPagefault`**, **`channelMemSetup`** — the operations
  through which they are reached. -/

namespace Jrinx

/-- A partition not yet registered. -/
def PartMem.blank : PartMem :=
  { paPgdir := 0, paMemReq := 0, paMemRem := 0, paUstasktop := 0, paXstacktop := 0,
    paCommBase := 0, paEntrypoint := 0, paMainProcStacksize := 0, paGiven := 0 }

/-- Change the memory fields of one partition. -/
def Mem.updPart (m : Mem) (pt : PartId) (f : PartMem → PartMem) : Mem :=
  { m with parts := Function.update m.parts pt (f (m.parts pt)) }

/-- The values `start`, `start + PGSIZE`, … below `limit`: those the counter of a page loop takes. -/
def pageSteps (start limit : Nat) : List Nat :=
  (List.range ((limit - start + (pgSize - 1)) / pgSize)).map (fun j => start + j * pgSize)

/-! ## Data pages -/

/-- `part_comm_alloc`. The sum of base and size wraps. -/
def partCommAlloc (pt : PartId) (size : Nat) : Op Mem Nat := do
  let m ← Op.get
  let base := (m.parts pt).paCommBase
  let top := (base + size) % wordSize
  if commLimt ≤ top then
    Op.fail
  else do
    Op.modify fun m => m.updPart pt fun p => { p with paCommBase := top }
    pure base

/-- Give a page back to the budget, as `part_pt_alloc` does when it fails. -/
def refundPage (pt : PartId) : Op Mem Unit :=
  Op.modify fun m => m.updPart pt fun p => { p with paMemRem := (p.paMemRem + pgSize) % wordSize }

/-- `part_pt_alloc`: the frame of the page. -/
def partPtAlloc (pt : PartId) (va : Nat) (perm : Perm) : Op Mem Ppn := do
  let m ← Op.get
  if (m.parts pt).paMemRem < pgSize then
    Op.fail
  else do
    Op.modify fun m => m.updPart pt fun p => { p with paMemRem := wordSub p.paMemRem pgSize }
    let frame ← Op.catchE phyFrameAlloc (do refundPage pt; Op.fail)
    Op.catchE (ptMap (m.parts pt).paPgdir va frame perm) (do
      Op.panicE (phyFrameRefDec frame)
      refundPage pt
      Op.fail)
    Op.modify fun m => m.updPart pt fun p => { p with paGiven := p.paGiven + 1 }
    pure frame

/-! ## Stacks -/

/-- Map a new frame at `va` for the partition, without charging it: the body of the loops of
`proc_ustack_setup` and `proc_xstack_setup`. -/
def stackPage (pt : PartId) (va : Nat) (perm : Perm) : Op Mem Unit := do
  let m ← Op.get
  let frame ← phyFrameAlloc
  ptMap (m.parts pt).paPgdir va frame perm
  Op.modify fun m => m.updPart pt fun p => { p with paGiven := p.paGiven + 1 }

/-- The permissions of a user stack page. -/
def ustackPerm : Perm := { r := true, u := true, v := true, w := true }

/-- The permissions of a kernel stack page. -/
def xstackPerm : Perm := { a := true, d := true, r := true, v := true, w := true }

/-- `proc_ustack_setup`: the top of the stack it mapped. -/
def procUstackSetup (pt : PartId) (stacksize : Nat) : Op Mem Nat := do
  let m ← Op.get
  let top := (m.parts pt).paUstasktop
  (pageSteps 0 stacksize).forM fun i => stackPage pt (wordSub (wordSub top i) pgSize) ustackPerm
  Op.modify fun m => m.updPart pt fun p =>
    { p with
      paUstasktop := wordSub p.paUstasktop ((stacksize + pgSize) % wordSize)
      paMemRem := wordSub p.paMemRem stacksize }
  pure top

/-- `proc_xstack_setup`: the top of the kernel stack it mapped. -/
def procXstackSetup (pt : PartId) : Op Mem Nat := do
  let m ← Op.get
  let top := (m.parts pt).paXstacktop
  (pageSteps 0 kstkSize).forM fun i => stackPage pt (wordSub (wordSub top i) pgSize) xstackPerm
  Op.modify fun m => m.updPart pt fun p =>
    { p with
      paXstacktop := wordSub p.paXstacktop (kstkSize + pgSize)
      paMemRem := wordSub p.paMemRem kstkSize }
  pure top

/-- The stacks of a new process. -/
structure Stacks where
  prUstacktop : Nat
  prUstacksize : Nat
  tfXstacktop : Nat
  deriving DecidableEq, Repr

/-- The memory part of `proc_alloc`. It refuses the process when the budget is below the size of the
user stack; the kernel stack is charged without a check. -/
def procAllocMem (pt : PartId) (stacksize : Nat) : Op Mem Stacks := do
  let aligned := alignUp stacksize pgSize
  let m ← Op.get
  if (m.parts pt).paMemRem < aligned then
    Op.fail
  else do
    let utop ← Op.panicE (procUstackSetup pt aligned)
    let xtop ← Op.panicE (procXstackSetup pt)
    pure { prUstacktop := utop, prUstacksize := aligned, tfXstacktop := xtop }

/-! ## Programs -/

/-- A `PT_LOAD` entry of the program header. -/
structure Phdr where
  pVaddr : Nat
  pFilesz : Nat
  pMemsz : Nat
  pX : Bool
  pW : Bool
  pR : Bool
  deriving DecidableEq, Repr

/-- What `part_load_prog` takes from an ELF file it accepts: the `PT_LOAD` entries in order, the
value of the symbol that marks the end of the main stack, and the entry point. -/
structure Prog where
  loads : List Phdr
  mainProcStacktop : Nat
  eEntry : Nat
  deriving DecidableEq, Repr

/-- The addresses `elf64_load_prog` hands to its callback, in order: an unaligned first page, the
pages with bytes of the file, and the pages of zeros up to the size in memory. -/
def elf64LoadProg (phdr : Phdr) : List Nat :=
  let offset := phdr.pVaddr - alignDown phdr.pVaddr pgSize
  let srcLen := min phdr.pFilesz (pgSize - offset)
  let i₀ := if offset ≠ 0 then srcLen else 0
  let file := pageSteps i₀ phdr.pFilesz
  let i₁ := i₀ + file.length * pgSize
  (if offset ≠ 0 then [phdr.pVaddr] else [])
    ++ (file ++ pageSteps i₁ phdr.pMemsz).map (fun i => (phdr.pVaddr + i) % wordSize)

/-- The permissions `part_load_prog_mapper` gives the pages of a segment. -/
def loadPerm (phdr : Phdr) : Perm :=
  { v := true, u := true, x := phdr.pX, w := phdr.pW, r := phdr.pR }

/-- `part_load_prog`. -/
def partLoadProg (pt : PartId) (prog : Prog) : Op Mem Unit := do
  prog.loads.forM fun phdr =>
    (elf64LoadProg phdr).forM fun va => do
      let _ ← partPtAlloc pt va (loadPerm phdr)
      pure ()
  if ustkLimit < prog.mainProcStacktop then
    Op.fail
  else
    Op.modify fun m => m.updPart pt fun p =>
      { p with
        paMainProcStacksize := ustkLimit - prog.mainProcStacktop
        paEntrypoint := prog.eEntry }

/-! ## Partitions -/

/-- `part_alloc`: the root table of the partition starts as a copy of the root of the kernel. -/
def partAlloc (memoryReq : Nat) : Op Mem PartId := do
  let frame ← phyFrameAlloc
  let m ← Op.get
  Op.modify fun m =>
    { m with
      ram := Function.update m.ram frame (m.ram m.kernPgdir)
      parts := Function.update m.parts m.nxtPartId
        { paPgdir := frame, paMemReq := memoryReq, paMemRem := memoryReq,
          paUstasktop := ustkLimit, paXstacktop := xstkLimit, paCommBase := commBase,
          paEntrypoint := 0, paMainProcStacksize := 0, paGiven := 0 }
      partIds := m.partIds ++ [m.nxtPartId]
      nxtPartId := m.nxtPartId + 1 }
  pure m.nxtPartId

/-- The memory part of `part_create`: the partition and the stacks of its main process. -/
def partCreate (memoryReq : Nat) (prog : Prog) : Op Mem (PartId × Stacks) := do
  let pt ← partAlloc memoryReq
  Op.panicE (partLoadProg pt prog)
  let m ← Op.get
  let stk ← procAllocMem pt (m.parts pt).paMainProcStacksize
  pure (pt, stk)

/-! ## Page faults -/

/-- Set the accessed bit of an entry, and the dirty bit after a store. -/
def markAccess (a : PteAddr) (store : Bool) (m : Mem) : Mem :=
  let pte := m.pte a
  m.setPte a { pte with perm := { pte.perm with a := true, d := pte.perm.d || store } }

/-- The permissions of a communication page. -/
def commPerm : Perm := { r := true, w := true }

/-- `do_pagefault`, for the partition `pt` on the hart: `super` says that the fault came from
supervisor mode, `store` that it is a store page fault. An illegal address stops the system. After a
page was allocated the address is looked up again. -/
def doPagefault (pt : PartId) (va : Nat) (super store : Bool) : Op Mem Unit := do
  let m ← Op.get
  let pgdir := (m.parts pt).paPgdir
  let pte ← Op.panicE (ptLookup pgdir va)
  match pte with
  | some a => Op.modify (markAccess a store)
  | none =>
      if super && decide (commBase ≤ va) && decide (va < commLimt) then do
        let _ ← Op.panicE (partPtAlloc pt va commPerm)
        let pte ← Op.panicE (ptLookup pgdir va)
        match pte with
        | some a => Op.modify (markAccess a store)
        | none => Op.halt
      else
        Op.halt

/-! ## Channel memory -/

/-- The permissions of a channel page. -/
def chanPerm : Perm := { g := true, r := true, w := true }

/-- Fill the invalid entries of a root table with the valid ones of the kernel root. -/
def syncRoot (kern root : Nat → Pte) : Nat → Pte := fun i =>
  if i < 512 ∧ (kern i).perm.v = true ∧ (root i).perm.v = false then kern i else root i

/-- `part_pt_sync_kern_pgdir`. -/
def partPtSyncKernPgdir : Op Mem Unit :=
  Op.modify fun m => m.partIds.foldl (fun m pt =>
    let root := (m.parts pt).paPgdir
    { m with ram := Function.update m.ram root (syncRoot (m.ram m.kernPgdir) (m.ram root)) }) m

/-- `channel_mem_setup`. -/
def channelMemSetup : Op Mem Unit := do
  let m ← Op.get
  (pageSteps chanBase m.channelBase).forM fun va => do
    let frame ← phyFrameAlloc
    Op.panicE (ptMap m.kernPgdir va frame chanPerm)
  partPtSyncKernPgdir

end Jrinx
