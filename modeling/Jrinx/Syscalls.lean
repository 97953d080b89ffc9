import Jrinx.Comm

/-! # The system calls

The partition, process and time services of `kern/traps/syscalls.c`, and `do_syscall`.

* **`procReset`**, **`procAlloc`** — from `kern/multitask/process.c`.
* **`doSetPartitionMode`** … **`doTimedWait`** — the services.
* **`Service`**, **`doSyscall`**, **`resumeCont`** — the dispatch of a call, and the rest of a call after
  `sched_proc_give_up`. -/

namespace Jrinx

/-! ## Processes -/

/-- `proc_from_id`. -/
def procFromId (k : Kernel) (id : ProcId) : Option Proc :=
  if id ∈ k.procIds then some (k.procs id) else none

/-- `part_get_proc_by_name`. -/
def partGetProcByName (k : Kernel) (pt : PartId) (name : String) : Option ProcId :=
  (k.parts pt).paProcList.find? (fun p => (k.procs p).prName = name)

/-- `proc_is_period`. -/
def procIsPeriod (pr : Proc) : Bool := pr.prPeriod ≠ systemTimeInfiniteVal

/-- `proc_reset`: the contexts on the stack of the process are dropped, and with them the call that
was in progress there. -/
def procReset (k : Kernel) (p : ProcId) : Kernel :=
  (k.setCont p none).setWoken p false

/-- The attributes of `do_create_process`. -/
structure ProcessAttribute where
  name : String
  period : Int
  timeCapacity : Int
  entryPoint : Nat
  stackSize : Nat
  basePriority : Nat
  deadline : Deadline
  deriving DecidableEq, Repr

/-- Enter a new process of a partition under the next identifier. -/
def registerProc (k : Kernel) (mem : Mem) (pt : PartId) (pr : Proc) : Kernel :=
  { k with
    mem := mem
    nxtProcId := k.nxtProcId + 1
    procIds := k.procIds ++ [k.nxtProcId]
    procs := Function.update k.procs k.nxtProcId pr
    parts := Function.update k.parts pt
      { k.parts pt with paProcList := (k.parts pt).paProcList ++ [k.nxtProcId] } }

/-- `proc_alloc`: `none` when the memory budget does not allow the stack. -/
def procAlloc (k : Kernel) (pt : PartId) (a : ProcessAttribute) :
    Except Fault (Option ProcId × Kernel) :=
  match procAllocMem pt a.stackSize k.mem with
  | .fatal => .error .panic
  | .err mem => .ok (none, { k with mem := mem })
  | .ok stk mem =>
      let k' := registerProc k mem pt
        { prName := a.name, prIdx := (k.parts pt).paProcList.length, prPartId := pt,
          prUstacktop := stk.prUstacktop, prUstacksize := stk.prUstacksize,
          prEntrypoint := a.entryPoint, prBasePri := a.basePriority, prPeriod := a.period,
          prTimeCap := a.timeCapacity, prDeadline := a.deadline, prCurPri := 0,
          prDeadlineTime := 0, prState := .dormant, prWaitingReason := .previousStarted,
          prAssoTimer := none }
      .ok (some k.nxtProcId, procReset k' k.nxtProcId)

/-- The process with this identifier, if it belongs to the current partition. -/
def curPartProc (k : Kernel) (id : ProcId) : Option Proc :=
  (procFromId k id).filter (fun pr => pr.prPartId = k.curPart)

/-! ## Partition services -/

/-- `do_get_partition_status`. -/
def doGetPartitionStatus (k : Kernel) : Outcome :=
  let part := k.parts k.curPart
  .ok (.ret .noError (.partitionStatus part.paPeriod part.paDuration k.curPart part.paLockLevel
    part.paOpMode part.paStartCond part.paNumCores), k)

/-- Set the operating mode of the current partition. -/
def setMode (k : Kernel) (m : OpMode) : Kernel :=
  k.updPart k.curPart fun part => { part with paOpMode := m }

/-- The loop of `do_set_partition_mode` over the processes of the partition. -/
def startPrevious (k : Kernel) : List ProcId → Kernel
  | [] => k
  | p :: l =>
      let pr := k.procs p
      if pr.prState = .waiting ∧ pr.prWaitingReason = .previousStarted then
        startPrevious (k.setState p .ready) l
      else startPrevious k l

/-- `do_set_partition_mode`. The comparisons read the whole argument, the field takes its low 32
bits, and it is written before an argument outside the enumeration is refused. -/
def doSetPartitionMode (k : Kernel) (p : ProcId) (operatingMode : Nat) : Outcome :=
  let mode := (k.parts k.curPart).paOpMode
  if operatingMode = 3 ∧ mode = .normal then retCode k .noAction
  else if operatingMode = 2 ∧ mode = .coldStart then retCode k .invalidMode
  else
    let k := setMode k (OpMode.ofWord operatingMode)
    if operatingMode < 3 then retCode k .noError
    else if operatingMode = 3 then
      let k := startPrevious k (k.parts k.curPart).paProcList
      .ok (.giveUp false (.done .noError .none), k.setState p .dormant)
    else retCode k .invalidParam

/-! ## Process services -/

/-- `do_get_process_id`. -/
def doGetProcessId (k : Kernel) (name : String) : Outcome :=
  match partGetProcByName k k.curPart name with
  | none => retCode k .invalidConfig
  | some p => .ok (.ret .noError (.identifier p), k)

/-- `do_get_process_status`. -/
def doGetProcessStatus (k : Kernel) (id : ProcId) : Outcome :=
  match curPartProc k id with
  | none => retCode k .invalidParam
  | some pr =>
      .ok (.ret .noError (.processStatus pr.prDeadlineTime pr.prCurPri pr.prState pr.prPeriod
        pr.prTimeCap pr.prEntrypoint pr.prUstacksize pr.prBasePri pr.prDeadline pr.prName), k)

/-- `do_create_process`. -/
def doCreateProcess (k : Kernel) (a : ProcessAttribute) : Outcome :=
  let part := k.parts k.curPart
  if (partGetProcByName k k.curPart a.name).isSome then retCode k .noAction
  else if ustkSizeMax < a.stackSize then retCode k .invalidConfig
  else if a.period < systemTimeInfiniteVal ∧ a.period.tmod part.paPeriod ≠ 0 then
    retCode k .invalidConfig
  else if a.period < systemTimeInfiniteVal ∧ a.period < a.timeCapacity then
    retCode k .invalidConfig
  else if part.paOpMode = .normal then retCode k .invalidMode
  else do
    let (made, k) ← procAlloc k k.curPart a
    match made with
    | none => retCode k .invalidConfig
    | some p => .ok (.ret .noError (.identifier p), k)

/-- `do_set_priority`. -/
def doSetPriority (k : Kernel) (id : ProcId) (priority : Nat) : Outcome :=
  match curPartProc k id with
  | none => retCode k .invalidParam
  | some pr =>
      if pr.prState = .dormant then retCode k .invalidMode
      else .ok (.giveUp false (.done .noError .none),
        k.updProc id fun pr => { pr with prCurPri := priority })

/-- Let a process wait for a reason. -/
def waitFor (k : Kernel) (p : ProcId) (reason : WaitingReason) : Kernel :=
  (k.setState p .waiting).setReason p reason

/-- Put the calling process to sleep until its timer expires: the part that `do_suspend_self` and
`do_timed_wait` share. -/
def sleepUntil (k : Kernel) (p : ProcId) (reason : WaitingReason) (time : Int)
    (type : TimeEventType) : Kernel :=
  timeEventAlloc (waitFor k p reason) time type

/-- `do_suspend_self`. -/
def doSuspendSelf (k : Kernel) (env : Env) (p : ProcId) (timeOut : Int) : Outcome :=
  if procIsPeriod (k.procs p) then retCode k .invalidMode
  else if timeOut = 0 then retCode k .noError
  else if timeOut < systemTimeInfiniteVal then
    let wakeupTime := env.clk 0 + timeOut
    .ok (.giveUp false (.suspendSelf wakeupTime),
      sleepUntil k p .suspendedWithTimeout wakeupTime (.processSuspendTimeout p))
  else
    .ok (.giveUp false (.done .noError .none), waitFor k p .suspended)

/-- `do_suspend`. -/
def doSuspend (k : Kernel) (id : ProcId) : Outcome :=
  match curPartProc k id with
  | none => retCode k .invalidParam
  | some pr =>
      if pr.prState = .dormant ∨ pr.prState = .faulted then retCode k .invalidMode
      else if procIsPeriod pr then retCode k .invalidMode
      else if pr.prState = .waiting then retCode k .noAction
      else .ok (.giveUp false (.done .noError .none), waitFor k id .suspended)

/-- `do_resume`. -/
def doResume (k : Kernel) (id : ProcId) : Outcome :=
  match curPartProc k id with
  | none => retCode k .invalidParam
  | some pr =>
      if pr.prState = .dormant then retCode k .invalidMode
      else if procIsPeriod pr ∧ pr.prState ≠ .faulted then retCode k .invalidMode
      else if ¬ (pr.prState = .waiting ∧ (pr.prWaitingReason = .suspended ∨
          pr.prWaitingReason = .suspendedWithTimeout)) ∧ pr.prState ≠ .faulted then
        retCode k .noAction
      else do
        let k ←
          if pr.prState = .waiting ∧ pr.prWaitingReason = .suspendedWithTimeout then
            timeEventFree k pr.prAssoTimer
          else .ok k
        .ok (.giveUp false (.done .noError .none), k.setState id .ready)

/-- `do_stop_self`. -/
def doStopSelf (k : Kernel) (p : ProcId) : Outcome :=
  .ok (.giveUp false (.done .noError .none), k.setState p .dormant)

/-- `do_stop`: a process that waits on an object stays linked in its wait list. -/
def doStop (k : Kernel) (id : ProcId) : Outcome :=
  match curPartProc k id with
  | none => retCode k .invalidParam
  | some pr =>
      if pr.prState = .dormant then retCode k .noAction
      else do
        let k := k.setState id .dormant
        let k ← if pr.prAssoTimer ≠ none then timeEventFree k pr.prAssoTimer else .ok k
        .ok (.giveUp false (.done .noError .none), k)

/-- The first steps of a start: the priority is set back and the process is reset. -/
def startReset (k : Kernel) (id : ProcId) : Kernel :=
  procReset (k.updProc id fun pr => { pr with prCurPri := pr.prBasePri }) id

/-- `do_delayed_start`. A periodic process is never made ready. -/
def doDelayedStart (k : Kernel) (env : Env) (id : ProcId) (delayTime : Int) : Outcome :=
  match curPartProc k id with
  | none => retCode k .invalidParam
  | some pr =>
      if pr.prState ≠ .dormant then retCode k .noAction
      else if delayTime = systemTimeInfiniteVal then retCode k .invalidParam
      else if procIsPeriod pr ∧ pr.prPeriod ≤ delayTime then retCode k .invalidParam
      else
        let normal := (k.parts k.curPart).paOpMode = .normal
        let k := startReset k id
        if ¬ procIsPeriod pr then
          if normal then
            if delayTime = 0 then
              let k := k.setState id .ready
              .ok (.giveUp false (.done .noError .none), k.updProc id fun pr =>
                { pr with prDeadlineTime := env.clk 0 + pr.prTimeCap })
            else
              let k := sleepUntil k id .delayedStarted (env.clk 0 + delayTime)
                (.processDelayedStart id)
              .ok (.giveUp false (.done .noError .none), k.updProc id fun pr =>
                { pr with prDeadlineTime := env.clk 1 + pr.prTimeCap + delayTime })
          else
            retCode (waitFor k id .previousStarted) .noError
        else
          retCode (waitFor k id (if normal then .delayedStarted else .previousStarted)) .noError

/-- `do_start`. -/
def doStart (k : Kernel) (env : Env) (id : ProcId) : Outcome := doDelayedStart k env id 0

/-- `do_get_my_id`. -/
def doGetMyId (k : Kernel) (p : ProcId) : Outcome := .ok (.ret .noError (.identifier p), k)

/-- `do_get_my_index`. -/
def doGetMyIndex (k : Kernel) (p : ProcId) : Outcome :=
  if (k.procs p).prIdx < 1 then retCode k .invalidMode
  else .ok (.ret .noError (.index (k.procs p).prIdx), k)

/-! ## Time services -/

/-- `do_timed_wait`. -/
def doTimedWait (k : Kernel) (env : Env) (p : ProcId) (delayTime : Int) : Outcome :=
  if delayTime = systemTimeInfiniteVal then retCode k .invalidParam
  else if delayTime = 0 then .ok (.giveUp true (.done .noError .none), k)
  else
    .ok (.giveUp false (.done .noError .none),
      sleepUntil k p .timedWaitTimeout (env.clk 0 + delayTime) (.processTimedWaitTimeout p))

/-- `do_get_time`. -/
def doGetTime (k : Kernel) (env : Env) : Outcome := .ok (.ret .noError (.time (env.clk 0)), k)

/-! ## Dispatch -/

/-- The services whose body is still to be written: they return `NO_ERROR` and do nothing. -/
inductive TodoService where
  | lockPreemption
  | unlockPreemption
  | initializeProcessCoreAffinity
  | getMyProcessorCoreId
  | periodicWait
  | replenish
  | createSamplingPort
  | writeSamplingMessage
  | readSamplingMessage
  | getSamplingPortId
  | getSamplingPortStatus
  | createSemaphore
  | waitSemaphore
  | signalSemaphore
  | getSemaphoreId
  | getSemaphoreStatus
  | createEvent
  | setEvent
  | resetEvent
  | waitEvent
  | getEventId
  | getEventStatus
  | createMutex
  | acquireMutex
  | releaseMutex
  | resetMutex
  | getMutexId
  | getMutexStatus
  | getProcessMutexState
  deriving DecidableEq, Repr

/-- A system call with its arguments. -/
inductive Service where
  | getPartitionStatus
  | setPartitionMode (operatingMode : Nat)
  | getProcessId (name : String)
  | getProcessStatus (id : ProcId)
  | createProcess (attributes : ProcessAttribute)
  | setPriority (id : ProcId) (priority : Nat)
  | suspendSelf (timeOut : Int)
  | suspend (id : ProcId)
  | resume (id : ProcId)
  | stopSelf
  | stop (id : ProcId)
  | start (id : ProcId)
  | delayedStart (id : ProcId) (delayTime : Int)
  | getMyId
  | getMyIndex
  | timedWait (delayTime : Int)
  | getTime
  | createQueuingPort (name : String) (maxMessageSize maxNbMessage : Nat)
      (direction : Option PortDir) (queuingDiscipline : QueDisc)
  | sendQueuingMessage (port : PortId) (msgAddr length : Nat) (timeOut : Int)
  | receiveQueuingMessage (port : PortId) (timeOut : Int) (msgAddr : Nat)
  | getQueuingPortId (name : String)
  | getQueuingPortStatus (port : PortId)
  | clearQueuingPort (port : PortId)
  | createBuffer (name : String) (maxMessageSize maxNbMessage : Nat) (queuingDiscipline : QueDisc)
  | sendBuffer (buf : BufId) (msgAddr length : Nat) (timeOut : Int)
  | receiveBuffer (buf : BufId) (timeOut : Int) (msgAddr : Nat)
  | getBufferId (name : String)
  | getBufferStatus (buf : BufId)
  | createBlackboard (name : String) (maxMessageSize : Nat)
  | displayBlackboard (bb : BbId) (msgAddr length : Nat)
  | readBlackboard (bb : BbId) (timeOut : Int) (msgAddr : Nat)
  | clearBlackboard (bb : BbId)
  | getBlackboardId (name : String)
  | getBlackboardStatus (bb : BbId)
  | todo (s : TodoService)
  deriving DecidableEq, Repr

/-- `do_syscall`, for a call of the process `p`, up to its return or its first
`sched_proc_give_up`. -/
def doSyscall (k : Kernel) (env : Env) (p : ProcId) : Service → Outcome
  | .getPartitionStatus => doGetPartitionStatus k
  | .setPartitionMode m => doSetPartitionMode k p m
  | .getProcessId name => doGetProcessId k name
  | .getProcessStatus id => doGetProcessStatus k id
  | .createProcess a => doCreateProcess k a
  | .setPriority id pri => doSetPriority k id pri
  | .suspendSelf t => doSuspendSelf k env p t
  | .suspend id => doSuspend k id
  | .resume id => doResume k id
  | .stopSelf => doStopSelf k p
  | .stop id => doStop k id
  | .start id => doStart k env id
  | .delayedStart id t => doDelayedStart k env id t
  | .getMyId => doGetMyId k p
  | .getMyIndex => doGetMyIndex k p
  | .timedWait t => doTimedWait k env p t
  | .getTime => doGetTime k env
  | .createQueuingPort name sz nb dir disc => doCreateQueuingPort k name sz nb dir disc
  | .sendQueuingMessage port a len t => doSendQueuingMessage k env p port a len t
  | .receiveQueuingMessage port t a => doReceiveQueuingMessage k env p port t a
  | .getQueuingPortId name => doGetQueuingPortId k name
  | .getQueuingPortStatus port => doGetQueuingPortStatus k port
  | .clearQueuingPort port => doClearQueuingPort k port
  | .createBuffer name sz nb disc => doCreateBuffer k name sz nb disc
  | .sendBuffer b a len t => doSendBuffer k env p b a len t
  | .receiveBuffer b t a => doReceiveBuffer k env p b t a
  | .getBufferId name => doGetBufferId k name
  | .getBufferStatus b => doGetBufferStatus k b
  | .createBlackboard name sz => doCreateBlackboard k name sz
  | .displayBlackboard b a len => doDisplayBlackboard k env b a len
  | .readBlackboard b t a => doReadBlackboard k env p b t a
  | .clearBlackboard b => doClearBlackboard k b
  | .getBlackboardId name => doGetBlackboardId k name
  | .getBlackboardStatus b => doGetBlackboardStatus k b
  | .todo _ => retCode k .noError

/-- The rest of a service call of the process `p`, from the return of `sched_proc_give_up` on. -/
def resumeCont (k : Kernel) (env : Env) (p : ProcId) : Cont → Outcome
  | .comm c wakeup armed => commResume k env p c wakeup armed
  | .suspendSelf wakeup => retCode k (if wakeup ≤ env.clk 0 then .timedOut else .noError)
  | .done code out => .ok (.ret code out, k)

end Jrinx
