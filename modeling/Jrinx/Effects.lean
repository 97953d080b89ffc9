import Jrinx.Machine

/-! # What a step can do

Every event is a sequence of a few kinds of effects. Each effect says under which circumstances the
code brings it about and what it changes, so that an invariant of all runs has to be checked against
the effects only, and not against every service.

* **`Act`**, **`Eff`** — the effects: `Eff k a k'` is the effect `a` in the state `k`.
* **`Path`** — a sequence of effects that are allowed where they happen. -/

namespace Jrinx

/-! ## Effects -/

/-- The names of the effects. -/
inductive Act where
  /-- The operating mode of the current partition is set. -/
  | mode (m : OpMode)
  /-- The priority or the deadline of a process is set. -/
  | attr (p : ProcId)
  /-- A process that no timer and no object holds becomes ready. -/
  | ready (p : ProcId)
  /-- A process waits without a timer. -/
  | doze (p : ProcId)
  /-- A process waits for a timer. -/
  | sleep (p : ProcId)
  /-- A process that waits for a timer is made ready before it. -/
  | rouse (p : ProcId)
  /-- The running process becomes dormant. -/
  | halt (p : ProcId)
  /-- `STOP`. -/
  | stop (p : ProcId)
  /-- A dormant process is reset. -/
  | reset (p : ProcId)
  /-- The running process blocks on an object. -/
  | block (p : ProcId) (o : WaitObj)
  /-- A process is taken off a wait list and made ready. -/
  | wake (p : ProcId) (o : WaitObj)
  /-- A message goes into a queue, comes out of it, or the queue is emptied. -/
  | queue (q : Que)
  /-- A blackboard is written or cleared. -/
  | board (b : BbId)
  /-- A process is created. -/
  | newProc
  /-- A buffer is created. -/
  | newBuffer
  /-- A blackboard is created. -/
  | newBoard
  /-- A port is created. -/
  | newPort
  /-- A creation fails after it used up an identifier. -/
  | spend
  /-- The call in progress of the running process is recorded. -/
  | cont (p : ProcId)
  /-- A woken process runs again. -/
  | resumed (p : ProcId)
  /-- A process is dispatched. -/
  | dispatch (p : ProcId)
  /-- The timer of a process expires. -/
  | expire (p : ProcId)
  /-- A partition timer expires. -/
  | partition
  /-- The next partition window begins. -/
  | global
  deriving DecidableEq, Repr

/-- The reasons of a process that is linked in a wait list. -/
def WaitingReason.isBlocked : WaitingReason → Bool
  | .bufferBlocked => true
  | .bufferBlockedWithTimeout => true
  | .blackboardBlocked => true
  | .blackboardBlockedWithTimeout => true
  | .queuingPortBlocked => true
  | .queuingPortBlockedWithTimeout => true
  | _ => false

/-- The process waits in a communication call, by its state and its reason. -/
def isBlocked (k : Kernel) (p : ProcId) : Prop :=
  (k.procs p).prState = .waiting ∧ (k.procs p).prWaitingReason.isBlocked = true

/-- The process belongs to the current partition. -/
def OwnProc (k : Kernel) (p : ProcId) : Prop := (k.procs p).prPartId = k.curPart

/-- The object is one a process of the partition may wait on. -/
def ObjOf (k : Kernel) (pt : PartId) : WaitObj → Prop
  | .buffer b => b ∈ k.bufIds ∧ (k.bufs b).bufPartId = pt
  | .blackboard b => b ∈ k.bbIds ∧ (k.bbs b).bbPartId = pt
  | .channel c => ∃ port ∈ k.portIds, (k.ports port).qpPartId = pt ∧ (k.ports port).qpChannel = c

/-- The call names an object, or a port, of the partition. -/
def CommCall.OfPart (k : Kernel) (pt : PartId) : CommCall → Prop
  | .sendBuffer b _ _ _ => b ∈ k.bufIds ∧ (k.bufs b).bufPartId = pt
  | .receiveBuffer b _ _ => b ∈ k.bufIds ∧ (k.bufs b).bufPartId = pt
  | .sendQueuingMessage port _ _ _ => port ∈ k.portIds ∧ (k.ports port).qpPartId = pt
  | .receiveQueuingMessage port _ _ => port ∈ k.portIds ∧ (k.ports port).qpPartId = pt
  | .readBlackboard b _ _ => b ∈ k.bbIds ∧ (k.bbs b).bbPartId = pt

/-- A message to send is no longer than its queue admits. -/
def CommCall.Fits (k : Kernel) : CommCall → Prop
  | .sendBuffer b _ length _ => length ≤ (k.bufs b).bufMaxMsgSize
  | .sendQueuingMessage port _ length _ =>
      length ≤ (k.chans (k.ports port).qpChannel).chMaxMsgSize
  | _ => True

/-- The object of a call of the partition is one of the partition. -/
theorem CommCall.OfPart.objOf {k : Kernel} {pt : PartId} {c : CommCall} (h : c.OfPart k pt) :
    ObjOf k pt (c.obj k) := by
  cases c with
  | sendBuffer => exact h
  | receiveBuffer => exact h
  | sendQueuingMessage port => exact ⟨port, h.1, h.2, rfl⟩
  | receiveQueuingMessage port => exact ⟨port, h.1, h.2, rfl⟩
  | readBlackboard => exact h

/-- The reasons with a timer that are no communication call, each with its kind of event. -/
inductive SleepKind (p : ProcId) : WaitingReason → TimeEventType → Prop
  | suspended : SleepKind p .suspendedWithTimeout (.processSuspendTimeout p)
  | delayed : SleepKind p .delayedStarted (.processDelayedStart p)
  | timedWait : SleepKind p .timedWaitTimeout (.processTimedWaitTimeout p)

/-- **The effects.** -/
inductive Eff (k : Kernel) : Act → Kernel → Prop
  | mode (m : OpMode) :
      Eff k (.mode m) (setMode k m)
  | attr {p : ProcId} (f : Proc → Proc) (own : OwnProc k p)
      (other : ∀ pr, f pr =
        { pr with prCurPri := (f pr).prCurPri, prDeadlineTime := (f pr).prDeadlineTime }) :
      Eff k (.attr p) (k.updProc p f)
  | ready {p : ProcId} (own : OwnProc k p)
      (held : (k.procs p).prState = .dormant ∨ (k.procs p).prState = .faulted ∨
        (k.procs p).prState = .waiting ∧ ((k.procs p).prWaitingReason = .suspended ∨
          (k.procs p).prWaitingReason = .previousStarted)) :
      Eff k (.ready p) (k.setState p .ready)
  | doze {p : ProcId} (reason : WaitingReason) (own : OwnProc k p)
      (free : eligible k p = true ∨ (k.procs p).prState = .dormant)
      (kind : reason = .suspended ∨ reason = .previousStarted ∨
        reason = .delayedStarted ∧ procIsPeriod (k.procs p) = true) :
      Eff k (.doze p) (waitFor k p reason)
  | sleep {p : ProcId} {reason : WaitingReason} {type : TimeEventType} (time : Int)
      (known : p ∈ k.procIds) (own : OwnProc k p)
      (free : eligible k p = true ∨ (k.procs p).prState = .dormant)
      (kind : SleepKind p reason type) :
      Eff k (.sleep p) (sleepUntil k p reason time type)
  | rouse {p : ProcId} {k₁ : Kernel} (own : OwnProc k p)
      (waits : (k.procs p).prState = .waiting)
      (reason : (k.procs p).prWaitingReason = .suspendedWithTimeout)
      (freed : timeEventFree k (k.procs p).prAssoTimer = .ok k₁) :
      Eff k (.rouse p) (k₁.setState p .ready)
  | halt {p : ProcId} (cur : k.curProc = some p) (own : OwnProc k p) (runs : eligible k p = true) :
      Eff k (.halt p) (k.setState p .dormant)
  | stop {p : ProcId} {k' : Kernel} (own : OwnProc k p) (alive : (k.procs p).prState ≠ .dormant)
      (freed : (if (k.procs p).prAssoTimer ≠ none then
          timeEventFree (k.setState p .dormant) (k.procs p).prAssoTimer
        else .ok (k.setState p .dormant)) = .ok k') :
      Eff k (.stop p) k'
  | reset {p : ProcId} (own : OwnProc k p) (dormant : (k.procs p).prState = .dormant) :
      Eff k (.reset p) (procReset k p)
  | block {p : ProcId} (c : CommCall) (wakeup armed : Int) (cur : k.curProc = some p)
      (own : OwnProc k p) (runs : eligible k p = true) (call : c.OfPart k k.curPart)
      (fits : c.Fits k) (full : mustWait k c = true) :
      Eff k (.block p (c.obj k))
        ((commWait k p c armed).setCont p (some (.comm c wakeup armed)))
  | wake {p : ProcId} {o : WaitObj} {k' : Kernel} (linked : p ∈ k.waitingProcs o)
      (obj : ObjOf k k.curPart o) (done : wakeProc k o p = .ok k') :
      Eff k (.wake p o) k'
  | queue {q : Que} (cc : Circbuf) (obj : ObjOf k k.curPart q.obj) :
      Eff k (.queue q) (k.setBody q cc)
  | board {b : BbId} (f : Blackboard → Blackboard) (obj : ObjOf k k.curPart (.blackboard b))
      (part : ∀ bb, (f bb).bbPartId = bb.bbPartId)
      (list : ∀ bb, (f bb).bbWaitingProcs = bb.bbWaitingProcs) :
      Eff k (.board b) (k.updBb b f)
  | newProc (mem : Mem) (pr : Proc) (own : pr.prPartId = k.curPart)
      (dormant : pr.prState = .dormant) (timer : pr.prAssoTimer = none)
      (frame : ∀ pt, pt ≠ k.curPart → mem.parts pt = k.mem.parts pt) :
      Eff k .newProc (procReset (registerProc k mem k.curPart pr) k.nxtProcId)
  | newBuffer (mem : Mem) (buf : Buffer) (own : buf.bufPartId = k.curPart)
      (empty : buf.bufWaitingProcs = [])
      (body : buf.bufBody = circbufInit (fun _ => 0)
        ((buf.bufMaxMsgSize + commMsgSize) % wordSize) buf.bufMaxNbMsg)
      (frame : ∀ pt, pt ≠ k.curPart → mem.parts pt = k.mem.parts pt) :
      Eff k .newBuffer (registerBuffer k mem k.curPart buf)
  | newBoard (mem : Mem) (bb : Blackboard) (own : bb.bbPartId = k.curPart)
      (empty : bb.bbWaitingProcs = [])
      (blank : bb.bbEmptyInd = .empty ∧ bb.bbLen = 0)
      (frame : ∀ pt, pt ≠ k.curPart → mem.parts pt = k.mem.parts pt) :
      Eff k .newBoard (registerBlackboard k mem k.curPart bb)
  | newPort (qp : QueuingPort) (own : qp.qpPartId = k.curPart) :
      Eff k .newPort (registerPort k qp)
  | spend (mem : Mem) (nb nbb : Nat) (hb : k.nxtBufId ≤ nb) (hbb : k.nxtBbId ≤ nbb)
      (frame : ∀ pt, pt ≠ k.curPart → mem.parts pt = k.mem.parts pt) :
      Eff k .spend { k with mem := mem, nxtBufId := nb, nxtBbId := nbb }
  | cont {p : ProcId} (c : Option Cont) (cur : k.curProc = some p) (own : OwnProc k p)
      (free : ¬ isBlocked k p) (plain : ∀ c' w a, c ≠ some (.comm c' w a)) :
      Eff k (.cont p) (k.setCont p c)
  | resumed {p : ProcId} (cur : k.curProc = some p) (own : OwnProc k p) (runs : eligible k p = true) :
      Eff k (.resumed p) (k.setWoken p false)
  | dispatch {p : ProcId} {k' : Kernel} (done : dispatch k p = .ok k') :
      Eff k (.dispatch p) k'
  | expire {te : TimeEvent} {es : List TimeEvent} {p : ProcId} (head : k.teq = te :: es)
      (proc : te.teType.proc = some p) :
      Eff k (.expire p) { expireProc k te p with teq := es }
  | partition {te : TimeEvent} {es : List TimeEvent} (head : k.teq = te :: es)
      (proc : te.teType.proc = none) :
      Eff k .partition { k with teq := es }
  | global {k' : Kernel} (done : schedGlobal k = .ok k') :
      Eff k .global k'

/-- A sequence of effects, each of them allowed by `A` in the state where it happens. -/
inductive Path (A : Kernel → Act → Prop) : Kernel → Kernel → Prop
  | refl (k : Kernel) : Path A k k
  | cons {k k₁ k' : Kernel} {a : Act} : Eff k a k₁ → A k a → Path A k₁ k' → Path A k k'

namespace Path

variable {A : Kernel → Act → Prop} {k k₁ k' : Kernel}

/-- A single effect. -/
theorem one {a : Act} (h : Eff k a k') (ha : A k a) : Path A k k' := .cons h ha (.refl k')

theorem trans (h : Path A k k₁) (h' : Path A k₁ k') : Path A k k' := by
  induction h with
  | refl k => exact h'
  | cons he ha _ ih => exact .cons he ha (ih h')

/-- What every allowed effect preserves, a sequence of them preserves. -/
theorem preserves {I : Kernel → Prop} (h : Path A k k') (hk : I k)
    (hstep : ∀ ⦃k a k'⦄, I k → A k a → Eff k a k' → I k') : I k' := by
  induction h with
  | refl k => exact hk
  | cons he ha _ ih => exact ih (hstep hk ha he)

end Path

end Jrinx
