import Jrinx.Types
import Jrinx.Lib.Programs
import Jrinx.Mm.PartMem

/-! # Locks and interrupts in the services

What the services of `kern/traps/syscalls.c` and the functions they call do with locks and interrupts,
as programs over the events of one hart. A test of data that no lock depends on is the event `ask`,
which may answer either way, so that the paths of a program include those of the source.

* **`Hart`**, **`HartEv`**, **`hartSem`** — the locks a hart holds, `cpus_intp_layer`,
  `cpus_retained_intp` and the interrupt-enable bit, and the events that read and change them.
* **`lkAcquire`**, **`lkRelease`**, **`intpPush`**, **`intpPop`** — from `lock.c`, `spinlock.c`, `traps.c`.
* **`kalloc`**, … , **`queuingPortAlloc`** — the functions that the services call. -/

namespace Jrinx

namespace Locks

/-! ## The hart -/

/-- The locks of the kernel. The lock of a channel is named by the port through which it is taken. -/
inductive Lock where
  | serialInputDev
  | serialOutputDev
  | print
  | kallocMod
  | pfFreeList
  | frameRefMod
  | trapsCtxFreeList
  | procNxtId
  | procIdMap
  | bufNxtId
  | bufIdMap
  | bbNxtId
  | bbIdMap
  | qpNxtId
  | paCommBase
  | prState (processId : Nat)
  | buf (bufferId : Nat)
  | bb (blackboardId : Nat)
  | ch (queuingPortId : Nat)
  deriving DecidableEq, Repr

/-- A hart: the locks whose `lk_hartid` it is, its counter of `intp_push`, the bit that `intp_pop` will
restore, and `sstatus.sie`. -/
structure Hart where
  held : List Lock
  intpLayer : Nat
  retainedIntp : Bool
  sie : Bool
  deriving DecidableEq, Repr

/-- The events. -/
inductive HartEv where
  /-- A test of data. -/
  | ask
  /-- `lk_state == LK_LOCKED && lk_hartid == hrt_get_id()`. -/
  | holds (l : Lock)
  /-- The spin loop, and `lk_hartid = hrt_get_id()`. -/
  | take (l : Lock)
  /-- `lk_state = LK_UNLOCKED` and `lk_hartid = HARTID_MAX`. -/
  | drop (l : Lock)
  /-- `spinlock_init`. -/
  | init (l : Lock)
  /-- `intp_enable`. -/
  | intpEnable
  /-- `intp_disable`, which answers the bit before. -/
  | intpDisable
  | intpLayer
  | setIntpLayer (n : Nat)
  | retainedIntp
  | setRetainedIntp (b : Bool)
  /-- `sched_proc_give_up` is called. -/
  | giveUp
  /-- `_sched_proc_give_up`: the hart runs other processes until this one is dispatched. -/
  | switch
  deriving DecidableEq, Repr

/-- The answers. -/
def HartEv.Ans : HartEv → Type
  | .ask => Bool
  | .holds _ => Bool
  | .intpDisable => Bool
  | .intpLayer => Nat
  | .retainedIntp => Bool
  | _ => Unit

/-- Why a program stops. -/
inductive Stop where
  /-- The `panic_e` on a `lk_acquire` or a `lk_release`. -/
  | lockPanic
  /-- Any other `panic_e` or `fatal`. -/
  | panic
  /-- The machine is shut down. -/
  | halted
  /-- A loop is still running. -/
  | running
  deriving DecidableEq, Repr

/-- What an event answers and does. While other processes run after `switch`, the locks and the counter
are theirs: they hand the hart on as they got it. -/
def hartSem : (e : HartEv) → Hart → e.Ans → Hart → Prop
  | .ask, s, _, t => t = s
  | .holds l, s, a, t => a = decide (l ∈ s.held) ∧ t = s
  | .take l, s, _, t => t = { s with held := l :: s.held }
  | .drop l, s, _, t => t = { s with held := s.held.erase l }
  | .init l, s, _, t => t = { s with held := s.held.erase l }
  | .intpEnable, s, _, t => t = { s with sie := true }
  | .intpDisable, s, a, t => a = s.sie ∧ t = { s with sie := false }
  | .intpLayer, s, a, t => a = s.intpLayer ∧ t = s
  | .setIntpLayer n, s, _, t => t = { s with intpLayer := n }
  | .retainedIntp, s, a, t => a = s.retainedIntp ∧ t = s
  | .setRetainedIntp b, s, _, t => t = { s with retainedIntp := b }
  | .giveUp, s, _, t => t = s
  | .switch, s, _, t => ∃ b, t = { s with retainedIntp := b }

/-- Kernel code. -/
abbrev Kern (α : Type) : Type := Program HartEv HartEv.Ans Stop α

/-- One event. -/
def ev (e : HartEv) : Kern e.Ans := Program.event e

/-- A test of data. -/
def ask : Kern Bool := ev .ask

/-- The hart holds the lock. -/
def holds (l : Lock) : Kern Bool := ev (.holds l)

/-- The lock is taken. -/
def takeLock (l : Lock) : Kern Unit := ev (.take l)

/-- The lock is dropped. -/
def dropLock (l : Lock) : Kern Unit := ev (.drop l)

/-- `spinlock_init`. -/
def spinlockInit (l : Lock) : Kern Unit := ev (.init l)

/-- The call of `sched_proc_give_up`. -/
def giveUp : Kern Unit := ev .giveUp

/-- The hart runs other processes. -/
def switch : Kern Unit := ev .switch

/-- `intp_enable`. -/
def intpEnable : Kern Unit := ev .intpEnable

/-- `intp_disable`. -/
def intpDisable : Kern Bool := ev .intpDisable

/-- Read `cpus_intp_layer`. -/
def intpLayer : Kern Nat := ev .intpLayer

/-- Write `cpus_intp_layer`. -/
def setIntpLayer (n : Nat) : Kern Unit := ev (.setIntpLayer n)

/-- Read `cpus_retained_intp`. -/
def retainedIntp : Kern Bool := ev .retainedIntp

/-- Write `cpus_retained_intp`. -/
def setRetainedIntp (b : Bool) : Kern Unit := ev (.setRetainedIntp b)

/-- `panic_e` on a call that answers whether it succeeded. -/
def panicE (r : Stop) (x : Kern Bool) : Kern Unit := do
  if ← x then pure () else .stop r

/-! ## Interrupts and locks -/

/-- `intp_push`. -/
def intpPush : Kern Unit := do
  let sie ← intpDisable
  let layer ← intpLayer
  if layer = 0 then setRetainedIntp sie else pure ()
  let layer ← intpLayer
  setIntpLayer (layer + 1)

/-- `intp_pop`. -/
def intpPop : Kern Unit := do
  let layer ← intpLayer
  setIntpLayer (wordSub layer 1)
  let layer ← intpLayer
  let retained ← retainedIntp
  if layer = 0 ∧ retained = true then intpEnable else pure ()

/-- `lk_acquire` of a spinlock. -/
def lkAcquire (l : Lock) : Kern Bool := do
  if ← holds l then pure false
  else
    intpPush
    takeLock l
    pure true

/-- `lk_release` of a spinlock. -/
def lkRelease (l : Lock) : Kern Bool := do
  if ← holds l then
    dropLock l
    intpPop
    pure true
  else pure false

/-- `panic_e(lk_acquire(l))`. -/
def acquire (l : Lock) : Kern Unit := panicE .lockPanic (lkAcquire l)

/-- `panic_e(lk_release(l))`. -/
def release (l : Lock) : Kern Unit := panicE .lockPanic (lkRelease l)

/-! ## Memory -/

/-- `kalloc`; it answers whether the pointer is not `NULL`. -/
def kalloc : Kern Bool := do
  if ← ask then pure false      -- the size is too large
  else
    acquire .kallocMod
    if ← ask then               -- no block was found
      release .kallocMod
      pure false
    else
      release .kallocMod
      acquire .kallocMod
      release .kallocMod
      pure true

/-- `kfree`. -/
def kfree : Kern Unit := do
  acquire .kallocMod
  if ← ask then release .kallocMod else .stop .panic

/-- `phy_frame_alloc`. -/
def phyFrameAlloc : Kern Bool := do
  acquire .pfFreeList
  if ← ask then                 -- some list is not empty
    panicE .panic ask
    release .pfFreeList
    pure true
  else
    release .pfFreeList
    pure false

/-- `phy_frame_free`. -/
def phyFrameFree : Kern Bool := do
  if ← ask then
    acquire .pfFreeList
    release .pfFreeList
    pure true
  else pure false

/-- `phy_frame_ref_dec`. -/
def phyFrameRefDec : Kern Bool := do
  acquire .frameRefMod
  if ← ask then                 -- the count is zero
    release .frameRefMod
    pure false
  else
    if ← ask then               -- the count becomes zero
      if ← phyFrameFree then
        release .frameRefMod
        pure true
      else
        release .frameRefMod
        pure false
    else
      release .frameRefMod
      pure true

/-- `phy_frame_ref_inc`. -/
def phyFrameRefInc : Kern Bool := do
  acquire .frameRefMod
  release .frameRefMod
  pure true

/-- `pt_phy_frame_alloc`. -/
def ptFrameAlloc : Kern Bool := do
  if ← phyFrameAlloc then
    panicE .panic phyFrameRefInc
    panicE .panic ask
    pure true
  else pure false

/-- `pt_phy_frame_ref_inc`. -/
def ptFrameRefInc : Kern Bool := do
  if ← ask then
    panicE .panic phyFrameRefInc
    pure true
  else pure true                -- an address of the mmio region

/-- `pt_phy_frame_ref_dec`. -/
def ptFrameRefDec : Kern Bool := do
  if ← ask then
    panicE .panic phyFrameRefDec
    pure true
  else pure true

/-- The two middle levels of `pt_walk`: a valid entry, or a new table where one is created. The answer
says whether the walk goes on. An error undoes the level above, where that was created. -/
def ptWalkLevel (create : Bool) (undo : Kern Unit) : Kern (Option Bool) := do
  if ← ask then pure (some true)
  else
    if create then
      if ← ptFrameAlloc then pure (some true)
      else
        undo
        pure none
    else pure (some false)

/-- `pt_walk`: an error, or whether there is an entry. -/
def ptWalk (create : Bool) : Kern (Option Bool) := do
  match ← ptWalkLevel create (pure ()) with
  | some true =>
      ptWalkLevel create (do if ← ask then panicE .panic ptFrameRefDec)
  | r => pure r

/-- `pt_lookup`: an error, or whether there is a valid entry. -/
def ptLookup : Kern (Option Bool) := do
  match ← ptWalk false with
  | some true => some <$> ask
  | r => pure r

/-- `pt_unmap`. -/
def ptUnmap : Kern Bool := do
  match ← ptLookup with
  | none => pure false
  | some false => pure true
  | some true => ptFrameRefDec

/-- `pt_map`. -/
def ptMap : Kern Bool := do
  match ← ptWalk false with
  | none => pure false
  | some _ =>
      if ← ask then             -- the address is mapped
        if ← ptUnmap then ptMapFresh else pure false
      else ptMapFresh
where
  /-- The second walk of `pt_map`, and the new entry. -/
  ptMapFresh : Kern Bool := do
    match ← ptWalk true with
    | none => pure false
    | some _ =>
        panicE .panic ptFrameRefInc
        pure true

/-! ## Time events and contexts -/

/-- `time_event_set_head`. -/
def timeEventSetHead : Kern Unit := do
  if ← ask then panicE .panic ask         -- the queue is empty
  else if ← ask then pure ()              -- the head has expired
  else panicE .panic ask

/-- `time_event_alloc`. -/
def timeEventAlloc : Kern Unit := do
  let _ ← kalloc
  intpPush
  intpPop
  timeEventSetHead

/-- `time_event_free`. -/
def timeEventFree : Kern Unit := do
  intpPush
  intpPop
  timeEventSetHead
  kfree

/-- `ctx_alloc`. -/
def ctxAlloc : Kern Bool := do
  acquire .trapsCtxFreeList
  if ← ask then                           -- the list is empty
    release .trapsCtxFreeList
    pure false
  else
    release .trapsCtxFreeList
    pure true

/-- `ctx_free`. -/
def ctxFree : Kern Unit := do
  acquire .trapsCtxFreeList
  release .trapsCtxFreeList

/-- `sched_elect_next_proc`: it loops until a process may run. -/
def schedElectNextProc (rounds : Nat) : Kern Unit :=
  Program.loop .running (do if ← ask then pure (some ()) else pure none) rounds

/-- `sched_proc_give_up`. -/
def schedProcGiveUp (rounds : Nat) : Kern Unit := do
  giveUp
  schedElectNextProc rounds
  if ← ask then                           -- another process was elected
    let prevIntp ← intpDisable
    panicE .panic ctxAlloc
    switch
    if prevIntp then intpEnable else pure ()
  else pure ()

/-! ## Processes and objects -/

/-- An identifier is taken from a counter. -/
def idAlloc (nxtId : Lock) : Kern Unit := do
  acquire nxtId
  release nxtId

/-- `proc_id_alloc`. -/
def procIdAlloc : Kern Unit := idAlloc .procNxtId

/-- `buf_id_alloc`. -/
def bufIdAlloc : Kern Unit := idAlloc .bufNxtId

/-- `bb_id_alloc`. -/
def bbIdAlloc : Kern Unit := idAlloc .bbNxtId

/-- `queuing_port_id_alloc`. -/
def queuingPortIdAlloc : Kern Unit := idAlloc .qpNxtId

/-- One page of a stack, with an error of the frame allocator or of `pt_map`. -/
def stackPage : Kern Bool := do
  if ← phyFrameAlloc then
    panicE .panic ask
    ptMap
  else pure false

/-- The pages of a stack. The setup functions are called under `panic_e`: an error stops the kernel. -/
def stackSetup (stacksize : Nat) : Kern Unit :=
  (pageSteps 0 stacksize).forM fun _ => panicE .panic stackPage

/-- `panic_e(proc_ustack_setup(…))`. -/
def procUstackSetup (stacksize : Nat) : Kern Unit := stackSetup stacksize

/-- `panic_e(proc_xstack_setup(…))`. -/
def procXstackSetup : Kern Unit := stackSetup kstkSize

/-- `proc_reset`. -/
def procReset (rounds processId : Nat) : Kern Unit := do
  Program.loop .running (do
    if ← ask then pure (some ())          -- the list is empty
    else
      ctxFree
      pure none) rounds
  panicE .panic ctxAlloc
  spinlockInit (.prState processId)

/-- `proc_alloc`. -/
def procAlloc (rounds stacksize processId : Nat) : Kern Bool := do
  if ← ask then pure false                -- the partition has not enough memory
  else
    let _ ← kalloc
    let _ ← kalloc
    procIdAlloc
    procUstackSetup (alignUp stacksize pgSize)
    procXstackSetup
    acquire .procIdMap
    release .procIdMap
    procReset rounds processId
    pure true

/-- `part_comm_alloc`. -/
def partCommAlloc : Kern Bool := do
  acquire .paCommBase
  if ← ask then                           -- it would go over the limit
    release .paCommBase
    pure false
  else
    release .paCommBase
    pure true

/-- `buffer_alloc` and `blackboard_alloc`. -/
def commAlloc (idAlloc : Kern Unit) (idMap : Lock) : Kern Bool := do
  let _ ← kalloc
  idAlloc
  let _ ← kalloc
  if ← partCommAlloc then
    acquire idMap
    release idMap
    pure true
  else
    kfree
    kfree
    pure false

/-- `buffer_alloc`. -/
def bufferAlloc : Kern Bool := commAlloc bufIdAlloc .bufIdMap

/-- `blackboard_alloc`. -/
def blackboardAlloc : Kern Bool := commAlloc bbIdAlloc .bbIdMap

/-- `queuing_port_alloc`. -/
def queuingPortAlloc : Kern Bool := do
  if ← ask then pure false                -- no channel has the port
  else
    let _ ← kalloc
    queuingPortIdAlloc
    let _ ← kalloc
    pure true

end Locks

end Jrinx
