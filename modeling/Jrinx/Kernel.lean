import Jrinx.Circbuf
import Jrinx.Mm.PartMem

/-! # The state of the kernel

The records of `kern/multitask`, `kern/comm`, `kern/chan` and `kern/traps/timer.c`, and the one state
that holds them all. A pointer to a record is the identifier of the record; the link fields of the
intrusive lists are lists of identifiers.

* **`Kernel`** — the state of the multitasking part, for one hart.
* **`WaitObj`**, **`Que`** — the objects a process can wait on, and those that hold messages.
* **`CommCall`**, **`Cont`** — a service call that gave up the processor, as it stands on the kernel
  stack of its process. -/

namespace Jrinx

/-! ## Records -/

/-- `struct proc`. -/
structure Proc where
  prName : String
  prIdx : Nat
  prPartId : PartId
  prUstacktop : Nat
  prUstacksize : Nat
  prEntrypoint : Nat
  prBasePri : Nat
  prPeriod : Int
  prTimeCap : Int
  prDeadline : Deadline
  prCurPri : Nat
  prDeadlineTime : Int
  prState : ProcState
  prWaitingReason : WaitingReason
  /-- `pr_asso_timer`: the identity of the event it points to. -/
  prAssoTimer : Option Nat
  deriving DecidableEq, Repr

/-- The record before any field is set. -/
def Proc.blank : Proc :=
  { prName := "", prIdx := 0, prPartId := 0, prUstacktop := 0, prUstacksize := 0,
    prEntrypoint := 0, prBasePri := 0, prPeriod := 0, prTimeCap := 0, prDeadline := .soft,
    prCurPri := 0, prDeadlineTime := 0, prState := .dormant, prWaitingReason := .previousStarted,
    prAssoTimer := none }

/-- `struct part`, without its memory fields. -/
structure Part where
  paName : String
  paPeriod : Int
  paDuration : Int
  paLockLevel : Nat
  paOpMode : OpMode
  paStartCond : StartCond
  paNumCores : Nat
  /-- `pa_proc_list`, which also serves as `pa_proc_name_map`. -/
  paProcList : List ProcId
  /-- The buffers in `pa_buf_name_map`. -/
  paBufs : List BufId
  /-- The blackboards in `pa_bb_name_map`. -/
  paBbs : List BbId
  deriving DecidableEq, Repr

/-- `struct buffer`. -/
structure Buffer where
  bufName : String
  bufPartId : PartId
  bufQueDisc : QueDisc
  bufMaxMsgSize : Nat
  bufMaxNbMsg : Nat
  bufBody : Circbuf
  bufWaitingProcs : List ProcId

/-- `struct blackboard`. -/
structure Blackboard where
  bbName : String
  bbPartId : PartId
  bbEmptyInd : EmptyInd
  bbMaxMsgSize : Nat
  bbData : Nat → UInt8
  bbLen : Nat
  bbWaitingProcs : List ProcId

/-- `struct channel`, for a queuing channel. -/
structure Channel where
  chMaxMsgSize : Nat
  chMaxNbMsg : Nat
  chBody : Circbuf
  chWaitingProcs : List ProcId

/-- `struct queuing_port`. -/
structure QueuingPort where
  qpName : String
  qpPartId : PartId
  qpDir : PortDir
  qpDisc : QueDisc
  qpChannel : ChanId
  deriving DecidableEq, Repr

/-- `struct queuing_port_conf`. -/
structure QueuingPortConf where
  qpcName : String
  qpcPaName : String
  qpcDir : PortDir
  qpcMaxMsgSize : Nat
  qpcMaxNbMsg : Nat
  qpcChannel : Option ChanId
  deriving DecidableEq, Repr

/-- `struct sched_module`. -/
structure SchedModule where
  smPart : PartId
  smOffset : Int
  smDuration : Int
  smPrevActTime : Int
  deriving DecidableEq, Repr

/-! ## Timed events -/

/-- `te_type` with what `te_ctx` points to. -/
inductive TimeEventType where
  | partitionActivate
  | processSuspendTimeout (proc : ProcId)
  | processDelayedStart (proc : ProcId)
  | processTimedWaitTimeout (proc : ProcId)
  | bufferBlockTimeout (proc : ProcId) (buf : BufId)
  | blackboardBlockTimeout (proc : ProcId) (bb : BbId)
  | queuingPortBlockTimeout (proc : ProcId) (port : PortId)
  deriving DecidableEq, Repr

/-- The process whose `pr_asso_timer` an event of this type is. -/
def TimeEventType.proc : TimeEventType → Option ProcId
  | .partitionActivate => none
  | .processSuspendTimeout p => some p
  | .processDelayedStart p => some p
  | .processTimedWaitTimeout p => some p
  | .bufferBlockTimeout p _ => some p
  | .blackboardBlockTimeout p _ => some p
  | .queuingPortBlockTimeout p _ => some p

/-- `struct time_event`; `teId` is its address. -/
structure TimeEvent where
  teId : Nat
  teTime : Int
  teType : TimeEventType
  deriving DecidableEq, Repr

/-! ## Objects -/

/-- The objects that have a wait list. -/
inductive WaitObj where
  | buffer (b : BufId)
  | blackboard (b : BbId)
  | channel (c : ChanId)
  deriving DecidableEq, Repr

/-- The objects that queue messages. -/
inductive Que where
  | buffer (b : BufId)
  | channel (c : ChanId)
  deriving DecidableEq, Repr

/-- The wait list of a queue. -/
def Que.obj : Que → WaitObj
  | .buffer b => .buffer b
  | .channel c => .channel c

@[simp] theorem Que.obj_inj {q q' : Que} : q.obj = q'.obj ↔ q = q' := by
  cases q <;> cases q' <;> simp [Que.obj]

/-! ## Calls in progress -/

/-- The blocking communication services, with the arguments they keep while they are blocked. -/
inductive CommCall where
  | sendBuffer (buf : BufId) (msgAddr length : Nat) (timeOut : Int)
  | receiveBuffer (buf : BufId) (timeOut : Int) (msgAddr : Nat)
  | sendQueuingMessage (port : PortId) (msgAddr length : Nat) (timeOut : Int)
  | receiveQueuingMessage (port : PortId) (timeOut : Int) (msgAddr : Nat)
  | readBlackboard (bb : BbId) (timeOut : Int) (msgAddr : Nat)
  deriving DecidableEq, Repr

/-- The time-out a call was made with. -/
def CommCall.timeOut : CommCall → Int
  | .sendBuffer _ _ _ t => t
  | .receiveBuffer _ t _ => t
  | .sendQueuingMessage _ _ _ t => t
  | .receiveQueuingMessage _ t _ => t
  | .readBlackboard _ t _ => t

/-- What a service stores through its pointer arguments. -/
inductive Out where
  | none
  | partitionStatus (period duration : Int) (identifier lockLevel : Nat) (mode : OpMode)
      (startCondition : StartCond) (numAssignedCores : Nat)
  | processStatus (deadlineTime : Int) (currentPriority : Nat) (state : ProcState)
      (period timeCapacity : Int) (entryPoint stackSize basePriority : Nat) (deadline : Deadline)
      (name : String)
  | identifier (id : Nat)
  | index (idx : Nat)
  | time (t : Int)
  /-- The length and the bytes of a message. -/
  | message (length : Nat) (data : List UInt8)
  /-- A length without a message. -/
  | length (n : Nat)
  | queuingPortStatus (nbMessage maxNbMessage maxMessageSize : Nat) (direction : PortDir)
      (waitingProcesses : Nat)
  | bufferStatus (nbMessage maxNbMessage maxMessageSize waitingProcesses : Nat)
  | blackboardStatus (emptyInd : EmptyInd) (maxMessageSize waitingProcesses : Nat)
  deriving DecidableEq, Repr

/-- What is left of a service call after `sched_proc_give_up`. -/
inductive Cont where
  /-- A communication call in its loop: `wakeup` is the deadline of the loop condition, `armed` the
  deadline its timer was set to. -/
  | comm (c : CommCall) (wakeup armed : Int)
  /-- `do_suspend_self` with a time-out, which compares the clock with its deadline. -/
  | suspendSelf (wakeup : Int)
  /-- Only the return is left. -/
  | done (code : RetCode) (out : Out)
  deriving DecidableEq, Repr

/-! ## The state -/

/-- The state of the multitasking part of the kernel. -/
structure Kernel where
  mem : Mem
  parts : PartId → Part
  procs : ProcId → Proc
  /-- The processes in `proc_id_map`. -/
  procIds : List ProcId
  nxtProcId : ProcId
  bufs : BufId → Buffer
  /-- The buffers in `buf_id_map`. -/
  bufIds : List BufId
  nxtBufId : BufId
  bbs : BbId → Blackboard
  /-- The blackboards in `bb_id_map`. -/
  bbIds : List BbId
  nxtBbId : BbId
  ports : PortId → QueuingPort
  /-- The ports in `queuing_port_id_map`. -/
  portIds : List PortId
  nxtPortId : PortId
  /-- `queuing_port_conf_list`. -/
  portConfs : List QueuingPortConf
  chans : ChanId → Channel
  /-- `cpus_time_event_queue` of the hart. -/
  teq : List TimeEvent
  /-- The next identity of a timed event. -/
  nxtTe : Nat
  /-- `sched_modules`. -/
  schedModules : List SchedModule
  /-- `sched_cur_mod`, as a position in `sched_modules`. -/
  schedCurMod : Option Nat
  schedMajorFrame : Int
  /-- `sched_parts`. -/
  schedParts : List PartId
  /-- `cpus_cur_part` of the hart. -/
  curPart : PartId
  /-- `cpus_cur_proc` of the hart. -/
  curProc : Option ProcId
  /-- The service call in progress on the kernel stack of every process. -/
  conts : ProcId → Option Cont
  /-- A wake-up took the process off a wait list and it has not run since; no field of the source. -/
  woken : ProcId → Bool

/-- What stops a step of the model: the code would stop the system, or it would follow a pointer that
points nowhere. -/
inductive Fault where
  /-- The event is not one that can happen in this state. -/
  | disabled
  /-- `time_event_free` was handed a null pointer or an event already freed. -/
  | danglingTimer
  /-- A failed assertion or a panic. -/
  | panic
  deriving DecidableEq, Repr

namespace Kernel

/-- Change one process. -/
def updProc (k : Kernel) (p : ProcId) (f : Proc → Proc) : Kernel :=
  { k with procs := Function.update k.procs p (f (k.procs p)) }

/-- Set the state of a process. -/
def setState (k : Kernel) (p : ProcId) (s : ProcState) : Kernel :=
  k.updProc p fun pr => { pr with prState := s }

/-- Set the reason a process waits for. -/
def setReason (k : Kernel) (p : ProcId) (r : WaitingReason) : Kernel :=
  k.updProc p fun pr => { pr with prWaitingReason := r }

/-- Change one partition. -/
def updPart (k : Kernel) (pt : PartId) (f : Part → Part) : Kernel :=
  { k with parts := Function.update k.parts pt (f (k.parts pt)) }

/-- The wait list of an object. -/
def waitingProcs (k : Kernel) : WaitObj → List ProcId
  | .buffer b => (k.bufs b).bufWaitingProcs
  | .blackboard b => (k.bbs b).bbWaitingProcs
  | .channel c => (k.chans c).chWaitingProcs

/-- Replace the wait list of an object. -/
def setWaitingProcs (k : Kernel) : WaitObj → List ProcId → Kernel
  | .buffer b, l =>
      { k with bufs := Function.update k.bufs b { k.bufs b with bufWaitingProcs := l } }
  | .blackboard b, l =>
      { k with bbs := Function.update k.bbs b { k.bbs b with bbWaitingProcs := l } }
  | .channel c, l =>
      { k with chans := Function.update k.chans c { k.chans c with chWaitingProcs := l } }

/-- The circular buffer of a queue. -/
def body (k : Kernel) : Que → Circbuf
  | .buffer b => (k.bufs b).bufBody
  | .channel c => (k.chans c).chBody

/-- Replace the circular buffer of a queue. -/
def setBody (k : Kernel) : Que → Circbuf → Kernel
  | .buffer b, cc => { k with bufs := Function.update k.bufs b { k.bufs b with bufBody := cc } }
  | .channel c, cc => { k with chans := Function.update k.chans c { k.chans c with chBody := cc } }

/-- The largest message a queue was made for. -/
def maxMsgSize (k : Kernel) : Que → Nat
  | .buffer b => (k.bufs b).bufMaxMsgSize
  | .channel c => (k.chans c).chMaxMsgSize

/-- Set the call in progress of a process. -/
def setCont (k : Kernel) (p : ProcId) (c : Option Cont) : Kernel :=
  { k with conts := Function.update k.conts p c }

/-- Mark a process as woken, or as having run. -/
def setWoken (k : Kernel) (p : ProcId) (b : Bool) : Kernel :=
  { k with woken := Function.update k.woken p b }

/-! ## Reading back what was set -/

variable (k : Kernel)

@[simp] theorem prState_setState (p q : ProcId) (s : ProcState) :
    ((k.setState p s).procs q).prState = if q = p then s else (k.procs q).prState := by
  by_cases hq : q = p
  · rw [hq]
    simp [setState, updProc]
  · simp [setState, updProc, hq]

@[simp] theorem prWaitingReason_setState (p q : ProcId) (s : ProcState) :
    ((k.setState p s).procs q).prWaitingReason = (k.procs q).prWaitingReason := by
  by_cases hq : q = p
  · rw [hq]
    simp [setState, updProc]
  · simp [setState, updProc, hq]

@[simp] theorem prAssoTimer_setState (p q : ProcId) (s : ProcState) :
    ((k.setState p s).procs q).prAssoTimer = (k.procs q).prAssoTimer := by
  by_cases hq : q = p
  · rw [hq]
    simp [setState, updProc]
  · simp [setState, updProc, hq]

@[simp] theorem prState_setReason (p q : ProcId) (r : WaitingReason) :
    ((k.setReason p r).procs q).prState = (k.procs q).prState := by
  by_cases hq : q = p
  · rw [hq]
    simp [setReason, updProc]
  · simp [setReason, updProc, hq]

@[simp] theorem prWaitingReason_setReason (p q : ProcId) (r : WaitingReason) :
    ((k.setReason p r).procs q).prWaitingReason
      = if q = p then r else (k.procs q).prWaitingReason := by
  by_cases hq : q = p
  · rw [hq]
    simp [setReason, updProc]
  · simp [setReason, updProc, hq]

@[simp] theorem prAssoTimer_setReason (p q : ProcId) (r : WaitingReason) :
    ((k.setReason p r).procs q).prAssoTimer = (k.procs q).prAssoTimer := by
  by_cases hq : q = p
  · rw [hq]
    simp [setReason, updProc]
  · simp [setReason, updProc, hq]

@[simp] theorem waitingProcs_setWaitingProcs (o o' : WaitObj) (l : List ProcId) :
    (k.setWaitingProcs o l).waitingProcs o' = if o' = o then l else k.waitingProcs o' := by
  cases o <;> cases o' <;>
    simp only [setWaitingProcs, waitingProcs, Function.update_apply, WaitObj.buffer.injEq,
      WaitObj.blackboard.injEq, WaitObj.channel.injEq, reduceCtorEq, if_false] <;>
    split <;> simp_all

@[simp] theorem procs_setWaitingProcs (o : WaitObj) (l : List ProcId) :
    (k.setWaitingProcs o l).procs = k.procs := by cases o <;> rfl

@[simp] theorem teq_setWaitingProcs (o : WaitObj) (l : List ProcId) :
    (k.setWaitingProcs o l).teq = k.teq := by cases o <;> rfl

@[simp] theorem nxtTe_setWaitingProcs (o : WaitObj) (l : List ProcId) :
    (k.setWaitingProcs o l).nxtTe = k.nxtTe := by cases o <;> rfl

@[simp] theorem conts_setWaitingProcs (o : WaitObj) (l : List ProcId) :
    (k.setWaitingProcs o l).conts = k.conts := by cases o <;> rfl

@[simp] theorem woken_setWaitingProcs (o : WaitObj) (l : List ProcId) :
    (k.setWaitingProcs o l).woken = k.woken := by cases o <;> rfl

@[simp] theorem curProc_setWaitingProcs (o : WaitObj) (l : List ProcId) :
    (k.setWaitingProcs o l).curProc = k.curProc := by cases o <;> rfl

@[simp] theorem curPart_setWaitingProcs (o : WaitObj) (l : List ProcId) :
    (k.setWaitingProcs o l).curPart = k.curPart := by cases o <;> rfl

@[simp] theorem ports_setWaitingProcs (o : WaitObj) (l : List ProcId) :
    (k.setWaitingProcs o l).ports = k.ports := by cases o <;> rfl

@[simp] theorem parts_setWaitingProcs (o : WaitObj) (l : List ProcId) :
    (k.setWaitingProcs o l).parts = k.parts := by cases o <;> rfl

@[simp] theorem waitingProcs_updProc (p : ProcId) (f : Proc → Proc) (o : WaitObj) :
    (k.updProc p f).waitingProcs o = k.waitingProcs o := by cases o <;> rfl

@[simp] theorem waitingProcs_setState (p : ProcId) (s : ProcState) (o : WaitObj) :
    (k.setState p s).waitingProcs o = k.waitingProcs o := by cases o <;> rfl

@[simp] theorem waitingProcs_setReason (p : ProcId) (r : WaitingReason) (o : WaitObj) :
    (k.setReason p r).waitingProcs o = k.waitingProcs o := by cases o <;> rfl

@[simp] theorem waitingProcs_setCont (p : ProcId) (c : Option Cont) (o : WaitObj) :
    (k.setCont p c).waitingProcs o = k.waitingProcs o := by cases o <;> rfl

@[simp] theorem waitingProcs_setWoken (p : ProcId) (b : Bool) (o : WaitObj) :
    (k.setWoken p b).waitingProcs o = k.waitingProcs o := by cases o <;> rfl

@[simp] theorem procIds_setWaitingProcs (o : WaitObj) (l : List ProcId) :
    (k.setWaitingProcs o l).procIds = k.procIds := by cases o <;> rfl

@[simp] theorem body_setWaitingProcs (o : WaitObj) (l : List ProcId) (q : Que) :
    (k.setWaitingProcs o l).body q = k.body q := by
  cases o <;> cases q <;> simp only [setWaitingProcs, body, Function.update_apply] <;>
    split <;> simp_all

@[simp] theorem waitingProcs_setBody (q : Que) (cc : Circbuf) (o : WaitObj) :
    (k.setBody q cc).waitingProcs o = k.waitingProcs o := by
  cases o <;> cases q <;> simp only [setBody, waitingProcs, Function.update_apply] <;>
    split <;> simp_all

@[simp] theorem body_setBody (q q' : Que) (cc : Circbuf) :
    (k.setBody q cc).body q' = if q' = q then cc else k.body q' := by
  cases q <;> cases q' <;>
    simp only [setBody, body, Function.update_apply, Que.buffer.injEq, Que.channel.injEq,
      reduceCtorEq, if_false] <;>
    split <;> simp_all

@[simp] theorem procs_setBody (q : Que) (cc : Circbuf) : (k.setBody q cc).procs = k.procs := by
  cases q <;> rfl

@[simp] theorem teq_setBody (q : Que) (cc : Circbuf) : (k.setBody q cc).teq = k.teq := by
  cases q <;> rfl

@[simp] theorem conts_setBody (q : Que) (cc : Circbuf) : (k.setBody q cc).conts = k.conts := by
  cases q <;> rfl

@[simp] theorem woken_setBody (q : Que) (cc : Circbuf) : (k.setBody q cc).woken = k.woken := by
  cases q <;> rfl

end Kernel

end Jrinx
