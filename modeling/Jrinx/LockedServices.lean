import Jrinx.Locks

/-! # The services with their locks

The services of `kern/traps/syscalls.c` as programs over the events of one hart. Arguments come from the
registers; what a service reads in memory is a test that may come out either way. A service that
takes no lock and does not give up the hart is its tests only, and those of them that decide nothing but
the return code are one test.

* **`doConsReadChar`**, … — the services.
* **`waitReady`** — the blocking loop that five of them share.
* **`doSyscall`** — the services by their numbers. -/

namespace Jrinx

namespace Locks

/-- The registers of a call, the `STACK_SIZE` that it reads in the attributes of a process, and the
identifier that a new process would get from its counter. -/
structure Args where
  a0 : Nat
  a1 : Nat
  a2 : Nat
  a3 : Nat
  stackSize : Nat
  nxtProcessId : Nat
  deriving DecidableEq, Repr

/-- A register as a `sys_time_t`. -/
def toTime (a : Nat) : Int := if a < 2 ^ 63 then a else a - 2 ^ 64

/-! ## Console -/

/-- A character is written, with the device locked for every try. -/
def consPutChar (rounds : Nat) : Kern Unit :=
  Program.loop .running (do
    acquire .serialOutputDev
    let success ← ask
    release .serialOutputDev
    pure (if success then some () else none)) rounds

/-- `do_cons_write_char`. A newline is followed by a carriage return. -/
def doConsWriteChar (rounds ch : Nat) : Kern Unit := do
  consPutChar rounds
  if ch % 2 ^ 32 = 10 then consPutChar rounds else pure ()

/-- `do_cons_read_char`. -/
def doConsReadChar (rounds : Nat) : Kern Unit :=
  Program.loop .running (do
    acquire .serialInputDev
    let success ← ask
    release .serialOutputDev
    pure (if success then some () else none)) rounds

/-- A character of `do_cons_write_buf`: a busy device is released and taken again. -/
def consRetryChar (rounds : Nat) : Kern Unit :=
  Program.loop .running (do
    if ← ask then pure (some ())
    else
      release .serialOutputDev
      acquire .serialOutputDev
      pure none) rounds

/-- `do_cons_write_buf`. -/
def doConsWriteBuf (rounds len : Nat) : Kern Unit := do
  acquire .serialOutputDev
  (List.range len).forM fun _ => do
    consRetryChar rounds
    if ← ask then consRetryChar rounds else pure ()     -- the character is a newline
  release .serialOutputDev

/-- A section of `haltk`: something is written under the lock. -/
def printSection (write : Kern Unit) : Kern Unit := do
  acquire .print
  write
  release .print

/-- `do_halt`. Where the reset fails, a message follows, and then nothing. -/
def doHalt : Kern Unit := do
  printSection (pure ())
  printSection (panicE .panic ask)
  if ← ask then .stop .halted
  else
    printSection (panicE .panic ask)
    printSection (pure ())
    .stop .running

/-! ## Partitions and processes -/

/-- The timer of a process is freed, where it has one. -/
def freeTimer : Kern Unit := do
  if ← ask then timeEventFree else pure ()

/-- A service without locks: the code it returns. -/
def answer (codes : List RetCode) : Kern RetCode :=
  match codes with
  | [] => pure .noError
  | c :: cs => do if ← ask then pure c else answer cs

/-- `do_set_partition_mode`. -/
def doSetPartitionMode (rounds operatingMode : Nat) : Kern RetCode := do
  if operatingMode = 3 ∧ (← ask) then pure .noAction
  else if operatingMode = 2 ∧ (← ask) then pure .invalidMode
  else
    match operatingMode with
    | 0 => pure .noError
    | 1 => pure .noError
    | 2 => pure .noError
    | 3 =>
        schedProcGiveUp rounds
        pure .noError
    | _ => pure .invalidParam

/-- `do_create_process`. -/
def doCreateProcess (rounds stackSize processId : Nat) : Kern RetCode := do
  if ← ask then pure .noAction
  else if stackSize > ustkSizeMax then pure .invalidConfig
  else if ← ask then pure .invalidConfig              -- the period
  else if ← ask then pure .invalidMode
  else if ← procAlloc rounds stackSize processId then pure .noError
  else pure .invalidConfig

/-- `do_set_priority`. -/
def doSetPriority (rounds : Nat) : Kern RetCode := do
  if ← ask then pure .invalidParam
  else if ← ask then pure .invalidMode
  else
    schedProcGiveUp rounds
    pure .noError

/-- `do_suspend_self` by the process `cur`. -/
def doSuspendSelf (rounds cur : Nat) (timeOut : Int) : Kern RetCode := do
  if ← ask then pure .invalidMode
  else if timeOut = 0 then pure .noError
  else
    acquire (.prState cur)
    if timeOut < systemTimeInfiniteVal then
      timeEventAlloc
      release (.prState cur)
      schedProcGiveUp rounds
      if ← ask then pure .timedOut else pure .noError
    else
      release (.prState cur)
      schedProcGiveUp rounds
      pure .noError

/-- `do_suspend`. -/
def doSuspend (rounds : Nat) : Kern RetCode := do
  match ← answer [.invalidParam, .invalidMode, .noAction] with
  | .noError =>
      schedProcGiveUp rounds
      pure .noError
  | c => pure c

/-- `do_resume`. -/
def doResume (rounds processId : Nat) : Kern RetCode := do
  if ← ask then pure .invalidParam
  else if ← ask then pure .invalidMode
  else
    acquire (.prState processId)
    if ← ask then                                     -- it is not suspended
      release (.prState processId)
      pure .noAction
    else
      freeTimer
      release (.prState processId)
      schedProcGiveUp rounds
      pure .noError

/-- `do_stop_self`. -/
def doStopSelf (rounds : Nat) : Kern Unit := schedProcGiveUp rounds

/-- `do_stop`. -/
def doStop (rounds processId : Nat) : Kern RetCode := do
  if ← ask then pure .invalidParam
  else if ← ask then pure .noAction
  else
    acquire (.prState processId)
    freeTimer
    release (.prState processId)
    schedProcGiveUp rounds
    pure .noError

/-- The state of a process is set under its lock. -/
def setState (processId : Nat) : Kern Unit := do
  acquire (.prState processId)
  release (.prState processId)

/-- `do_delayed_start`. -/
def doDelayedStart (rounds processId : Nat) (delayTime : Int) : Kern RetCode := do
  if ← ask then pure .invalidParam
  else if ← ask then pure .noAction
  else if delayTime = systemTimeInfiniteVal then pure .invalidParam
  else if ← ask then pure .invalidParam               -- the period
  else
    if ← ask then                                     -- the process is aperiodic
      procReset rounds processId
      if ← ask then                                   -- the mode is normal
        if delayTime = 0 then pure ()
        else
          acquire (.prState processId)
          timeEventAlloc
          release (.prState processId)
        schedProcGiveUp rounds
      else setState processId
    else
      procReset rounds processId
      setState processId
    pure .noError

/-- `do_start`. -/
def doStart (rounds processId : Nat) : Kern RetCode := doDelayedStart rounds processId 0

/-- `do_timed_wait` by the process `cur`. -/
def doTimedWait (rounds cur : Nat) (delayTime : Int) : Kern RetCode := do
  if delayTime = systemTimeInfiniteVal then pure .invalidParam
  else
    if delayTime = 0 then schedProcGiveUp rounds
    else
      acquire (.prState cur)
      timeEventAlloc
      release (.prState cur)
      schedProcGiveUp rounds
    pure .noError

/-! ## Communication -/

/-- Whether a wait with a time-out is over. -/
def expired (timeOut : Int) : Kern Bool :=
  if timeOut = systemTimeInfiniteVal then pure false else ask

/-- A call waits until the object is ready, from `lk_acquire` on: it returns a code without the lock, or
has the lock of an object that is ready. -/
def waitReady (rounds : Nat) (l : Lock) (timeOut : Int) : Kern (Option RetCode) := do
  acquire l
  if ← ask then                                       -- full, or empty
    if timeOut = 0 then
      release l
      pure (some .notAvailable)
    else
      Program.loop .running (do
        if ← expired timeOut then
          release l
          pure (some (some .timedOut))
        else
          if timeOut = systemTimeInfiniteVal then pure ()
          else
            let _ ← kalloc
            timeEventAlloc
          release l
          schedProcGiveUp rounds
          if timeOut = systemTimeInfiniteVal then pure () else kfree
          if ← expired timeOut then pure (some (some .timedOut))
          else
            acquire l
            if ← ask then pure none else pure (some none)) rounds
  else pure none

/-- A process is taken off the wait list; the answer says whether there was one. -/
def wakeup : Kern Bool := do
  if ← ask then
    freeTimer
    pure true
  else pure false

/-- `do_send_queuing_message` and `do_receive_queuing_message`, after their checks. -/
def portTransfer (rounds portId : Nat) (timeOut : Int) : Kern RetCode := do
  match ← waitReady rounds (.ch portId) timeOut with
  | some c => pure c
  | none =>
      let _ ← wakeup
      release (.ch portId)
      pure .noError

/-- `do_send_queuing_message`. -/
def doSendQueuingMessage (rounds portId length : Nat) (timeOut : Int) : Kern RetCode := do
  if ← ask then pure .invalidParam
  else if ← ask then pure .invalidConfig              -- the message is too long
  else if length = 0 then pure .invalidParam
  else if ← ask then pure .invalidMode
  else portTransfer rounds portId timeOut

/-- `do_receive_queuing_message`. -/
def doReceiveQueuingMessage (rounds portId : Nat) (timeOut : Int) : Kern RetCode := do
  if ← ask then pure .invalidParam
  else if ← ask then pure .invalidMode
  else portTransfer rounds portId timeOut

/-- `do_clear_queuing_port`. -/
def doClearQueuingPort (portId : Nat) : Kern RetCode := do
  if ← ask then pure .invalidParam
  else if ← ask then pure .invalidMode
  else
    acquire (.ch portId)
    if ← ask then                                     -- the queue is full
      let _ ← wakeup
      pure ()
    else pure ()
    release (.ch portId)
    pure .noError

/-- `do_create_queuing_port`. -/
def doCreateQueuingPort : Kern RetCode := do
  match ← answer [.invalidConfig, .noAction, .invalidMode] with
  | .noError => if ← queuingPortAlloc then pure .noError else pure .invalidConfig
  | c => pure c

/-- `do_create_buffer` and `do_create_blackboard`. -/
def createObject (maxMessageSize : Nat) (alloc : Kern Bool) : Kern RetCode := do
  if ← ask then pure .noAction
  else if maxMessageSize = 0 then pure .invalidParam
  else if ← ask then pure .invalidMode
  else if ← alloc then pure .noError
  else pure .invalidConfig

/-- `do_create_buffer`. -/
def doCreateBuffer (maxMessageSize : Nat) : Kern RetCode := createObject maxMessageSize bufferAlloc

/-- `do_create_blackboard`. -/
def doCreateBlackboard (maxMessageSize : Nat) : Kern RetCode :=
  createObject maxMessageSize blackboardAlloc

/-- `do_send_buffer` and `do_receive_buffer`, after their checks. -/
def bufferTransfer (rounds bufferId : Nat) (timeOut : Int) : Kern RetCode := do
  match ← waitReady rounds (.buf bufferId) timeOut with
  | some c => pure c
  | none =>
      if ← wakeup then
        release (.buf bufferId)
        schedProcGiveUp rounds
      else release (.buf bufferId)
      pure .noError

/-- `do_send_buffer`. -/
def doSendBuffer (rounds bufferId length : Nat) (timeOut : Int) : Kern RetCode := do
  if ← ask then pure .invalidParam
  else if ← ask then pure .invalidParam               -- the message is too long
  else if length = 0 then pure .invalidParam
  else bufferTransfer rounds bufferId timeOut

/-- `do_receive_buffer`. -/
def doReceiveBuffer (rounds bufferId : Nat) (timeOut : Int) : Kern RetCode := do
  if ← ask then pure .invalidParam
  else bufferTransfer rounds bufferId timeOut

/-- `do_display_blackboard`. -/
def doDisplayBlackboard (rounds blackboardId length : Nat) : Kern RetCode := do
  if ← ask then pure .invalidParam
  else if ← ask then pure .invalidParam               -- the message is too long
  else if length = 0 then pure .invalidParam
  else
    acquire (.bb blackboardId)
    Program.loop .running (do
      if ← wakeup then pure none else pure (some ())) rounds
    release (.bb blackboardId)
    schedProcGiveUp rounds
    pure .noError

/-- `do_read_blackboard`. -/
def doReadBlackboard (rounds blackboardId : Nat) (timeOut : Int) : Kern RetCode := do
  if ← ask then pure .invalidParam
  else
    match ← waitReady rounds (.bb blackboardId) timeOut with
    | some c => pure c
    | none =>
        release (.bb blackboardId)
        pure .noError

/-- `do_clear_blackboard`. -/
def doClearBlackboard (blackboardId : Nat) : Kern RetCode := do
  if ← ask then pure .invalidParam
  else
    acquire (.bb blackboardId)
    release (.bb blackboardId)
    pure .noError

/-! ## The switch -/

/-- The number of a service is that of `sysno.h`. -/
def sysConsReadChar : Nat := 2

/-- `do_syscall` by the process `cur`, with the number from `a7`. The services that only read, or that
are not implemented, take no lock and do not give up the hart. -/
def doSyscall (rounds cur sysno : Nat) (args : Args) : Kern Unit :=
  match sysno with
  | 1 => doConsWriteChar rounds args.a0
  | 2 => doConsReadChar rounds
  | 3 => doConsWriteBuf rounds args.a1
  | 4 => doHalt
  | 0x1001 => void (doSetPartitionMode rounds args.a0)
  | 0x2002 => void (doCreateProcess rounds args.stackSize args.nxtProcessId)
  | 0x2003 => void (doSetPriority rounds)
  | 0x2004 => void (doSuspendSelf rounds cur (toTime args.a0))
  | 0x2005 => void (doSuspend rounds)
  | 0x2006 => void (doResume rounds args.a0)
  | 0x2007 => doStopSelf rounds
  | 0x2008 => void (doStop rounds args.a0)
  | 0x2009 => void (doStart rounds args.a0)
  | 0x200a => void (doDelayedStart rounds args.a0 (toTime args.a1))
  | 0x3000 => void (doTimedWait rounds cur (toTime args.a0))
  | 0x4100 => void doCreateQueuingPort
  | 0x4101 => void (doSendQueuingMessage rounds args.a0 args.a2 (toTime args.a3))
  | 0x4102 => void (doReceiveQueuingMessage rounds args.a0 (toTime args.a1))
  | 0x4105 => void (doClearQueuingPort args.a0)
  | 0x5000 => void (doCreateBuffer args.a1)
  | 0x5001 => void (doSendBuffer rounds args.a0 args.a2 (toTime args.a3))
  | 0x5002 => void (doReceiveBuffer rounds args.a0 (toTime args.a1))
  | 0x5100 => void (doCreateBlackboard args.a1)
  | 0x5101 => void (doDisplayBlackboard rounds args.a0 args.a2)
  | 0x5102 => void (doReadBlackboard rounds args.a0 (toTime args.a1))
  | 0x5103 => void (doClearBlackboard args.a0)
  | _ => void ask
where
  /-- The return code goes to `a0`. -/
  void {α : Type} (x : Kern α) : Kern Unit := do
    let _ ← x
    pure ()

end Locks

end Jrinx
