import Jrinx.Sched

/-! # The communication services

The parts of `kern/traps/syscalls.c` on buffers, blackboards and queuing ports. A service runs up to
the point where it returns or gives the processor up; what it does after it got the processor back is
a segment of its own. The five services that block share one loop, written once:

* **`mustWait`**, **`commFinish`** — the condition of the loop and what follows it.
* **`commEnter`**, **`commBlock`**, **`commResume`** — from the entry to the loop, through one round
  of it, and back from `sched_proc_give_up`.
* **`doSendBuffer`** … **`doReadBlackboard`** — the services, as that loop after their own checks. -/

namespace Jrinx

/-- What a segment reads from outside the kernel: `clk i` is what its `i`-th reading of the clock
returns, `mem` the memory of the calling process. -/
structure Env where
  clk : Nat → Int
  mem : Nat → UInt8

/-- How a segment ends. -/
inductive Next where
  /-- The service returns. -/
  | ret (code : RetCode) (out : Out)
  /-- It calls `sched_proc_give_up`; the rest of it is `cont`. -/
  | giveUp (roundRobin : Bool) (cont : Cont)
  deriving DecidableEq, Repr

/-- The outcome of a segment. -/
abbrev Outcome : Type := Except Fault (Next × Kernel)

/-- Return a code and store nothing. -/
def retCode (k : Kernel) (code : RetCode) : Outcome := .ok (.ret code .none, k)

/-! ## The loop of the blocking services -/

/-- The object a call waits on. -/
def CommCall.obj (k : Kernel) : CommCall → WaitObj
  | .sendBuffer b _ _ _ => .buffer b
  | .receiveBuffer b _ _ => .buffer b
  | .sendQueuingMessage port _ _ _ => .channel (k.ports port).qpChannel
  | .receiveQueuingMessage port _ _ => .channel (k.ports port).qpChannel
  | .readBlackboard b _ _ => .blackboard b

/-- The timed event that a call arms. -/
def CommCall.teType (p : ProcId) : CommCall → TimeEventType
  | .sendBuffer b _ _ _ => .bufferBlockTimeout p b
  | .receiveBuffer b _ _ => .bufferBlockTimeout p b
  | .sendQueuingMessage port _ _ _ => .queuingPortBlockTimeout p port
  | .receiveQueuingMessage port _ _ => .queuingPortBlockTimeout p port
  | .readBlackboard b _ _ => .blackboardBlockTimeout p b

/-- The condition of the loop: the object cannot serve the call. -/
def mustWait (k : Kernel) : CommCall → Bool
  | .sendBuffer b _ _ _ => circbufIsFull (k.bufs b).bufBody
  | .receiveBuffer b _ _ => circbufIsEmpty (k.bufs b).bufBody
  | .sendQueuingMessage port _ _ _ => circbufIsFull (k.chans (k.ports port).qpChannel).chBody
  | .receiveQueuingMessage port _ _ => circbufIsEmpty (k.chans (k.ports port).qpChannel).chBody
  | .readBlackboard b _ _ => (k.bbs b).bbEmptyInd = .empty

/-- What a call stores when it fails: the receiving services set the length to zero. -/
def CommCall.failOut : CommCall → Out
  | .sendBuffer .. => .none
  | .receiveBuffer .. => .length 0
  | .sendQueuingMessage .. => .none
  | .receiveQueuingMessage .. => .length 0
  | .readBlackboard .. => .length 0

/-- The end of `do_send_buffer` and `do_receive_buffer`: they give the processor up after a wake-up. -/
def bufferWakeup (k : Kernel) (b : BufId) (out : Out) : Outcome := do
  let (woke, k) ← wakeup k (k.bufs b).bufQueDisc (.buffer b)
  match woke with
  | some _ => .ok (.giveUp false (.done .noError out), k)
  | none => .ok (.ret .noError out, k)

/-- The end of `do_send_queuing_message` and `do_receive_queuing_message`, which wake up by the
discipline of the calling port and do not give the processor up. -/
def queuingPortWakeup (k : Kernel) (port : PortId) (out : Out) : Outcome := do
  let (_, k) ← wakeup k (k.ports port).qpDisc (.channel (k.ports port).qpChannel)
  .ok (.ret .noError out, k)

/-- What follows the loop: the message is copied and a waiting process is woken up. -/
def commFinish (k : Kernel) (env : Env) : CommCall → Outcome
  | .sendBuffer b msgAddr length _ =>
      let msg := loadBytes env.mem msgAddr length
      bufferWakeup (k.setBody (.buffer b) (commSend (k.bufs b).bufBody msg)) b .none
  | .receiveBuffer b _ _ =>
      let recv := commRecv (k.bufs b).bufBody
      bufferWakeup (k.setBody (.buffer b) recv.2) b (.message recv.1.1 recv.1.2)
  | .sendQueuingMessage port msgAddr length _ =>
      let msg := loadBytes env.mem msgAddr length
      let c := (k.ports port).qpChannel
      queuingPortWakeup (k.setBody (.channel c) (commSend (k.chans c).chBody msg)) port .none
  | .receiveQueuingMessage port _ _ =>
      let c := (k.ports port).qpChannel
      let recv := commRecv (k.chans c).chBody
      queuingPortWakeup (k.setBody (.channel c) recv.2) port (.message recv.1.1 recv.1.2)
  | .readBlackboard b _ _ =>
      let bb := k.bbs b
      .ok (.ret .noError (.message bb.bbLen (loadBytes bb.bbData 0 bb.bbLen)), k)

/-- The deadline the timer is set to. `do_receive_queuing_message` computes it afresh in every round;
the others use the deadline of the call. -/
def CommCall.armed (now wakeup : Int) : CommCall → Int
  | .receiveQueuingMessage _ timeOut _ => now + timeOut
  | _ => wakeup

/-- Link the calling process in the wait list of the object and arm its timer. -/
def commWait (k : Kernel) (p : ProcId) (c : CommCall) (armed : Int) : Kernel :=
  let o := c.obj k
  let k := k.setState p .waiting
  let k := addWaitingProc k o p
  if c.timeOut ≠ systemTimeInfiniteVal then
    let k := k.setReason p (blockedWithTimeoutReason o)
    timeEventAlloc k armed (c.teType p)
  else
    k.setReason p (blockedReason o)

/-- One round of the loop, up to `sched_proc_give_up`; `i` clock readings were made before. -/
def commBlock (k : Kernel) (env : Env) (p : ProcId) (c : CommCall) (wakeup : Int) (i : Nat) :
    Outcome :=
  if c.timeOut ≠ systemTimeInfiniteVal ∧ wakeup ≤ env.clk i then
    .ok (.ret .timedOut c.failOut, k)
  else
    let armed := c.armed (env.clk (i + 1)) wakeup
    .ok (.giveUp false (.comm c wakeup armed), commWait k p c armed)

/-- From the locks of a blocking service on. -/
def commEnter (k : Kernel) (env : Env) (p : ProcId) (c : CommCall) : Outcome :=
  if mustWait k c then
    if c.timeOut = 0 then .ok (.ret .notAvailable c.failOut, k)
    else commBlock k env p c (env.clk 0 + c.timeOut) 1
  else commFinish k env c

/-- Back from `sched_proc_give_up` in the loop: a call past its deadline returns, even when the object
could serve it now. -/
def commResume (k : Kernel) (env : Env) (p : ProcId) (c : CommCall) (wakeup armed : Int) : Outcome :=
  if c.timeOut ≠ systemTimeInfiniteVal ∧ armed ≤ env.clk 0 then
    .ok (.ret .timedOut c.failOut, k)
  else if mustWait k c then commBlock k env p c wakeup 1
  else commFinish k env c

/-! ## Buffers -/

/-- `buffer_from_id`. -/
def bufferFromId (k : Kernel) (b : BufId) : Option Buffer :=
  if b ∈ k.bufIds then some (k.bufs b) else none

/-- `part_get_buf_by_name`. -/
def partGetBufByName (k : Kernel) (pt : PartId) (name : String) : Option BufId :=
  (k.parts pt).paBufs.find? (fun b => (k.bufs b).bufName = name)

/-- Enter a new buffer of a partition under the next identifier. -/
def registerBuffer (k : Kernel) (mem : Mem) (pt : PartId) (buf : Buffer) : Kernel :=
  { k with
    mem := mem
    nxtBufId := k.nxtBufId + 1
    bufs := Function.update k.bufs k.nxtBufId buf
    bufIds := k.bufIds ++ [k.nxtBufId]
    parts := Function.update k.parts pt
      { k.parts pt with paBufs := (k.parts pt).paBufs ++ [k.nxtBufId] } }

/-- `buffer_alloc`: the identifier is used up even when there is no room for the buffer. -/
def bufferAlloc (k : Kernel) (pt : PartId) (name : String) (maxMsgSize maxNbMsg : Nat)
    (queDisc : QueDisc) : Option BufId × Kernel :=
  match partCommAlloc pt (maxNbMsg * (maxMsgSize + commMsgSize) % wordSize) k.mem with
  | .ok _ mem =>
      (some k.nxtBufId, registerBuffer k mem pt
        { bufName := name, bufPartId := pt, bufQueDisc := queDisc, bufMaxMsgSize := maxMsgSize,
          bufMaxNbMsg := maxNbMsg,
          bufBody := circbufInit (fun _ => 0) ((maxMsgSize + commMsgSize) % wordSize) maxNbMsg,
          bufWaitingProcs := [] })
  | _ => (none, { k with nxtBufId := k.nxtBufId + 1 })

/-- `do_create_buffer`. -/
def doCreateBuffer (k : Kernel) (name : String) (maxMessageSize maxNbMessage : Nat)
    (queuingDiscipline : QueDisc) : Outcome :=
  if (partGetBufByName k k.curPart name).isSome then retCode k .noAction
  else if maxMessageSize = 0 then retCode k .invalidParam
  else if (k.parts k.curPart).paOpMode = .normal then retCode k .invalidMode
  else
    match bufferAlloc k k.curPart name maxMessageSize maxNbMessage queuingDiscipline with
    | (none, k) => retCode k .invalidConfig
    | (some b, k) => .ok (.ret .noError (.identifier b), k)

/-- The buffer with this identifier, if it belongs to the current partition. -/
def curBuffer (k : Kernel) (b : BufId) : Option Buffer :=
  (bufferFromId k b).filter (fun buf => buf.bufPartId = k.curPart)

/-- `do_send_buffer`. -/
def doSendBuffer (k : Kernel) (env : Env) (p : ProcId) (b : BufId) (msgAddr length : Nat)
    (timeOut : Int) : Outcome :=
  match curBuffer k b with
  | none => retCode k .invalidParam
  | some buf =>
      if buf.bufMaxMsgSize < length then retCode k .invalidParam
      else if length = 0 then retCode k .invalidParam
      else commEnter k env p (.sendBuffer b msgAddr length timeOut)

/-- `do_receive_buffer`. -/
def doReceiveBuffer (k : Kernel) (env : Env) (p : ProcId) (b : BufId) (timeOut : Int)
    (msgAddr : Nat) : Outcome :=
  match curBuffer k b with
  | none => retCode k .invalidParam
  | some _ => commEnter k env p (.receiveBuffer b timeOut msgAddr)

/-- `do_get_buffer_id`. -/
def doGetBufferId (k : Kernel) (name : String) : Outcome :=
  match partGetBufByName k k.curPart name with
  | none => retCode k .invalidConfig
  | some b => .ok (.ret .noError (.identifier b), k)

/-- `do_get_buffer_status`. -/
def doGetBufferStatus (k : Kernel) (b : BufId) : Outcome :=
  match curBuffer k b with
  | none => retCode k .invalidParam
  | some buf =>
      .ok (.ret .noError (.bufferStatus buf.bufBody.ccCnt buf.bufMaxNbMsg buf.bufMaxMsgSize
        buf.bufWaitingProcs.length), k)

/-! ## Blackboards -/

/-- `blackboard_from_id`. -/
def blackboardFromId (k : Kernel) (b : BbId) : Option Blackboard :=
  if b ∈ k.bbIds then some (k.bbs b) else none

/-- `part_get_bb_by_name`. -/
def partGetBbByName (k : Kernel) (pt : PartId) (name : String) : Option BbId :=
  (k.parts pt).paBbs.find? (fun b => (k.bbs b).bbName = name)

/-- Enter a new blackboard of a partition under the next identifier. -/
def registerBlackboard (k : Kernel) (mem : Mem) (pt : PartId) (bb : Blackboard) : Kernel :=
  { k with
    mem := mem
    nxtBbId := k.nxtBbId + 1
    bbs := Function.update k.bbs k.nxtBbId bb
    bbIds := k.bbIds ++ [k.nxtBbId]
    parts := Function.update k.parts pt
      { k.parts pt with paBbs := (k.parts pt).paBbs ++ [k.nxtBbId] } }

/-- `blackboard_alloc`. -/
def blackboardAlloc (k : Kernel) (pt : PartId) (name : String) (maxMsgSize : Nat) :
    Option BbId × Kernel :=
  match partCommAlloc pt maxMsgSize k.mem with
  | .ok _ mem =>
      (some k.nxtBbId, registerBlackboard k mem pt
        { bbName := name, bbPartId := pt, bbEmptyInd := .empty, bbMaxMsgSize := maxMsgSize,
          bbData := fun _ => 0, bbLen := 0, bbWaitingProcs := [] })
  | _ => (none, { k with nxtBbId := k.nxtBbId + 1 })

/-- `do_create_blackboard`. -/
def doCreateBlackboard (k : Kernel) (name : String) (maxMessageSize : Nat) : Outcome :=
  if (partGetBbByName k k.curPart name).isSome then retCode k .noAction
  else if maxMessageSize = 0 then retCode k .invalidParam
  else if (k.parts k.curPart).paOpMode = .normal then retCode k .invalidMode
  else
    match blackboardAlloc k k.curPart name maxMessageSize with
    | (none, k) => retCode k .invalidConfig
    | (some b, k) => .ok (.ret .noError (.identifier b), k)

/-- The blackboard with this identifier, if it belongs to the current partition. -/
def curBlackboard (k : Kernel) (b : BbId) : Option Blackboard :=
  (blackboardFromId k b).filter (fun bb => bb.bbPartId = k.curPart)

/-- Change one blackboard. -/
def Kernel.updBb (k : Kernel) (b : BbId) (f : Blackboard → Blackboard) : Kernel :=
  { k with bbs := Function.update k.bbs b (f (k.bbs b)) }

/-- `blackboard_display`. -/
def blackboardDisplay (k : Kernel) (b : BbId) (msg : List UInt8) : Kernel :=
  k.updBb b fun bb =>
    { bb with bbData := storeBytes bb.bbData 0 msg, bbLen := msg.length, bbEmptyInd := .occupied }

/-- `do_display_blackboard`. -/
def doDisplayBlackboard (k : Kernel) (env : Env) (b : BbId) (msgAddr length : Nat) : Outcome :=
  match curBlackboard k b with
  | none => retCode k .invalidParam
  | some bb =>
      if bb.bbMaxMsgSize < length then retCode k .invalidParam
      else if length = 0 then retCode k .invalidParam
      else do
        let k := blackboardDisplay k b (loadBytes env.mem msgAddr length)
        let k ← wakeupAll (.blackboard b) (k.waitingProcs (.blackboard b)) k
        .ok (.giveUp false (.done .noError .none), k)

/-- `do_read_blackboard`. -/
def doReadBlackboard (k : Kernel) (env : Env) (p : ProcId) (b : BbId) (timeOut : Int)
    (msgAddr : Nat) : Outcome :=
  match curBlackboard k b with
  | none => retCode k .invalidParam
  | some _ => commEnter k env p (.readBlackboard b timeOut msgAddr)

/-- `do_clear_blackboard`. -/
def doClearBlackboard (k : Kernel) (b : BbId) : Outcome :=
  match curBlackboard k b with
  | none => retCode k .invalidParam
  | some _ => retCode (k.updBb b fun bb => { bb with bbEmptyInd := .empty }) .noError

/-- `do_get_blackboard_id`. -/
def doGetBlackboardId (k : Kernel) (name : String) : Outcome :=
  match partGetBbByName k k.curPart name with
  | none => retCode k .invalidConfig
  | some b => .ok (.ret .noError (.identifier b), k)

/-- `do_get_blackboard_status`. -/
def doGetBlackboardStatus (k : Kernel) (b : BbId) : Outcome :=
  match curBlackboard k b with
  | none => retCode k .invalidParam
  | some bb =>
      .ok (.ret .noError (.blackboardStatus bb.bbEmptyInd bb.bbMaxMsgSize bb.bbWaitingProcs.length),
        k)

/-! ## Queuing ports -/

/-- `queuing_port_from_id`. -/
def queuingPortFromId (k : Kernel) (port : PortId) : Option QueuingPort :=
  if port ∈ k.portIds then some (k.ports port) else none

/-- `queuing_port_from_name`. -/
def queuingPortFromName (k : Kernel) (name : String) : Option PortId :=
  k.portIds.find? (fun port => (k.ports port).qpName = name)

/-- `queuing_port_conf_validate`. -/
def queuingPortConfValidate (k : Kernel) (pt : PartId) (name : String) (direction : Option PortDir)
    (maxMsgSize maxNbMsg : Nat) : Bool :=
  k.portConfs.any (fun c => some c.qpcDir = direction && c.qpcMaxMsgSize = maxMsgSize &&
    c.qpcMaxNbMsg = maxNbMsg && c.qpcPaName = (k.parts pt).paName && c.qpcName = name)

/-- Enter a new port under the next identifier. -/
def registerPort (k : Kernel) (qp : QueuingPort) : Kernel :=
  { k with
    nxtPortId := k.nxtPortId + 1
    portIds := k.portIds ++ [k.nxtPortId]
    ports := Function.update k.ports k.nxtPortId qp }

/-- `queuing_port_alloc`: the channel is that of the first configuration with this name. -/
def queuingPortAlloc (k : Kernel) (pt : PartId) (name : String) (direction : PortDir)
    (disc : QueDisc) : Option PortId × Kernel :=
  match (k.portConfs.find? (fun c => c.qpcName = name)).bind QueuingPortConf.qpcChannel with
  | none => (none, k)
  | some chan =>
      (some k.nxtPortId, registerPort k
        { qpName := name, qpPartId := pt, qpDir := direction, qpDisc := disc, qpChannel := chan })

/-- `do_create_queuing_port`; `none` stands for a direction outside the enumeration. -/
def doCreateQueuingPort (k : Kernel) (name : String) (maxMessageSize maxNbMessage : Nat)
    (direction : Option PortDir) (queuingDiscipline : QueDisc) : Outcome :=
  if ¬ queuingPortConfValidate k k.curPart name direction maxMessageSize maxNbMessage then
    retCode k .invalidConfig
  else if (queuingPortFromName k name).isSome then retCode k .noAction
  else if (k.parts k.curPart).paOpMode = .normal then retCode k .invalidMode
  else
    match direction with
    | none => retCode k .invalidConfig
    | some dir =>
        match queuingPortAlloc k k.curPart name dir queuingDiscipline with
        | (none, k) => retCode k .invalidConfig
        | (some port, k) => .ok (.ret .noError (.identifier port), k)

/-- The port with this identifier, if it belongs to the current partition. -/
def curQueuingPort (k : Kernel) (port : PortId) : Option QueuingPort :=
  (queuingPortFromId k port).filter (fun qp => qp.qpPartId = k.curPart)

/-- `do_send_queuing_message`. -/
def doSendQueuingMessage (k : Kernel) (env : Env) (p : ProcId) (port : PortId)
    (msgAddr length : Nat) (timeOut : Int) : Outcome :=
  match curQueuingPort k port with
  | none => retCode k .invalidParam
  | some qp =>
      if (k.chans qp.qpChannel).chMaxMsgSize < length then retCode k .invalidConfig
      else if length = 0 then retCode k .invalidParam
      else if qp.qpDir ≠ .source then retCode k .invalidMode
      else commEnter k env p (.sendQueuingMessage port msgAddr length timeOut)

/-- `do_receive_queuing_message`. -/
def doReceiveQueuingMessage (k : Kernel) (env : Env) (p : ProcId) (port : PortId) (timeOut : Int)
    (msgAddr : Nat) : Outcome :=
  match curQueuingPort k port with
  | none => retCode k .invalidParam
  | some qp =>
      if qp.qpDir ≠ .destination then retCode k .invalidMode
      else commEnter k env p (.receiveQueuingMessage port timeOut msgAddr)

/-- `do_get_queuing_port_id`. -/
def doGetQueuingPortId (k : Kernel) (name : String) : Outcome :=
  match queuingPortFromName k name with
  | none => retCode k .invalidConfig
  | some port =>
      if (k.ports port).qpPartId ≠ k.curPart then retCode k .invalidConfig
      else .ok (.ret .noError (.identifier port), k)

/-- `do_get_queuing_port_status`. -/
def doGetQueuingPortStatus (k : Kernel) (port : PortId) : Outcome :=
  match curQueuingPort k port with
  | none => retCode k .invalidParam
  | some qp =>
      let ch := k.chans qp.qpChannel
      .ok (.ret .noError (.queuingPortStatus ch.chBody.ccCnt ch.chMaxNbMsg ch.chMaxMsgSize qp.qpDir
        ch.chWaitingProcs.length), k)

/-- `do_clear_queuing_port`: only a full channel wakes a process up, and only one. -/
def doClearQueuingPort (k : Kernel) (port : PortId) : Outcome :=
  match curQueuingPort k port with
  | none => retCode k .invalidParam
  | some qp =>
      if qp.qpDir ≠ .destination then retCode k .invalidMode
      else do
        let q : Que := .channel qp.qpChannel
        let (_, k) ←
          if circbufIsFull (k.body q) then wakeup k qp.qpDisc q.obj else .ok (none, k)
        retCode (k.setBody q (circbufReset (k.body q))) .noError

end Jrinx
