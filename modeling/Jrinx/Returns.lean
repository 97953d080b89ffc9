import Jrinx.WaitAgreement

/-! # How the services end

A segment of a service either returns a code or gives the processor up. This file says what a service
can leave on the kernel stack of its process.

* **`Ends`** — the ends of a segment, with the calls in progress.
* **`ends_doSyscall`**, **`ends_commResume`** — every segment ends as it can end. -/

namespace Jrinx

/-- The blocking call that a service starts. -/
def Service.commCall : Service → Option CommCall
  | .sendBuffer b msgAddr length timeOut => some (.sendBuffer b msgAddr length timeOut)
  | .receiveBuffer b timeOut msgAddr => some (.receiveBuffer b timeOut msgAddr)
  | .sendQueuingMessage port msgAddr length timeOut =>
      some (.sendQueuingMessage port msgAddr length timeOut)
  | .receiveQueuingMessage port timeOut msgAddr =>
      some (.receiveQueuingMessage port timeOut msgAddr)
  | .readBlackboard b timeOut msgAddr => some (.readBlackboard b timeOut msgAddr)
  | _ => none

/-- What a service stores when it ends with `NO_ERROR`, right away or after a last
`sched_proc_give_up`. -/
def Next.noErrorOut : Next → Option Out
  | .ret .noError out => some out
  | .giveUp _ (.done .noError out) => some out
  | _ => none

/-! ## What is left on the kernel stack -/

/-- How a segment of the service `s` can end. -/
inductive NextOf (s : Service) : Next → Prop
  | ret (code : RetCode) (out : Out) : NextOf s (.ret code out)
  /-- Only `NO_ERROR` is returned after a last `sched_proc_give_up`. -/
  | done (rr : Bool) (out : Out) : NextOf s (.giveUp rr (.done .noError out))
  | sleep (rr : Bool) (wakeup t : Int) (call : s = .suspendSelf t) :
      NextOf s (.giveUp rr (.suspendSelf wakeup))
  | comm (rr : Bool) (c : CommCall) (w a : Int) (call : s.commCall = some c) :
      NextOf s (.giveUp rr (.comm c w a))

/-- **The end of a segment**: it ends as it can end, and it leaves the calls in progress alone, apart
from one that a reset drops. -/
structure Ends (k : Kernel) (s : Service) (n : Next) (k' : Kernel) : Prop where
  next : NextOf s n
  conts : ∀ q c, k'.conts q = some c → k.conts q = some c

variable {k k' : Kernel} {env : Env} {p : ProcId} {n : Next}

theorem Ends.of_eq {s : Service} (hn : NextOf s n) (hc : k'.conts = k.conts) : Ends k s n k' :=
  ⟨hn, fun q c h => by rw [← hc]; exact h⟩

/-- A service that returns and changes no call in progress. -/
theorem ends_retCode {s : Service} {k₁ : Kernel} {code : RetCode} (hc : k₁.conts = k.conts)
    (h : retCode k₁ code = .ok (n, k')) : Ends k s n k' := by
  simp only [retCode, Except.ok.injEq, Prod.mk.injEq] at h
  rw [← h.1, ← h.2]
  exact .of_eq (.ret code .none) hc

theorem Silent.ends {s : Service} {o : Outcome} (hs : Silent k o) (h : o = .ok (n, k')) :
    Ends k s n k' := by
  obtain ⟨code, out, rfl⟩ := hs
  have heq := Except.ok.inj h
  rw [Prod.mk.injEq] at heq
  rw [← heq.1, ← heq.2]
  exact .of_eq (.ret code out) rfl

theorem mustWait_setWoken (k : Kernel) (p : ProcId) (b : Bool) (c : CommCall) :
    mustWait (k.setWoken p b) c = mustWait k c := by cases c <;> rfl

/-- A wake-up changes no call in progress. -/
theorem conts_of_wakeup {disc : QueDisc} {o : WaitObj} {woke : Option ProcId}
    (h : wakeup k disc o = .ok (woke, k')) : k'.conts = k.conts := by
  rcases wakeup_eq_ok h with ⟨-, -, rfl⟩ | ⟨q, -, -, hw⟩
  · rfl
  · exact (conts_of_wakeProc hw).1

theorem ends_bufferWakeup {s : Service} {b : BufId} {cc : Circbuf} {out : Out}
    (h : bufferWakeup (k.setBody (.buffer b) cc) b out = .ok (n, k')) : Ends k s n k' := by
  unfold bufferWakeup at h
  cases hw : wakeup (k.setBody (.buffer b) cc) ((k.setBody (.buffer b) cc).bufs b).bufQueDisc
      (.buffer b) with
  | error e => simp [hw, bind, Except.bind] at h
  | ok x =>
      obtain ⟨woke, k₁⟩ := x
      have hconts : k₁.conts = k.conts := (conts_of_wakeup hw).trans (by simp)
      cases woke with
      | none =>
          simp only [hw, bind, Except.bind, Except.ok.injEq, Prod.mk.injEq] at h
          rw [← h.1, ← h.2]
          exact .of_eq (.ret .noError out) hconts
      | some q =>
          simp only [hw, bind, Except.bind, Except.ok.injEq, Prod.mk.injEq] at h
          rw [← h.1, ← h.2]
          exact .of_eq (.done false out) hconts

theorem ends_queuingPortWakeup {s : Service} {q : Que} {cc : Circbuf} {port : PortId} {out : Out}
    (h : queuingPortWakeup (k.setBody q cc) port out = .ok (n, k')) : Ends k s n k' := by
  unfold queuingPortWakeup at h
  cases hw : wakeup (k.setBody q cc) ((k.setBody q cc).ports port).qpDisc
      (.channel ((k.setBody q cc).ports port).qpChannel) with
  | error e => simp [hw, bind, Except.bind] at h
  | ok x =>
      have hconts : x.2.conts = k.conts := (conts_of_wakeup hw).trans (by simp)
      simp only [hw, bind, Except.bind, Except.ok.injEq, Prod.mk.injEq] at h
      rw [← h.1, ← h.2]
      exact .of_eq (.ret .noError out) hconts

theorem ends_commFinish {s : Service} {c : CommCall} (h : commFinish k env c = .ok (n, k')) :
    Ends k s n k' := by
  cases c with
  | sendBuffer b msgAddr length timeOut => exact ends_bufferWakeup h
  | receiveBuffer b timeOut msgAddr => exact ends_bufferWakeup h
  | sendQueuingMessage port msgAddr length timeOut => exact ends_queuingPortWakeup h
  | receiveQueuingMessage port timeOut msgAddr => exact ends_queuingPortWakeup h
  | readBlackboard b timeOut msgAddr =>
      simp only [commFinish, Except.ok.injEq, Prod.mk.injEq] at h
      rw [← h.1, ← h.2]
      exact .of_eq (.ret _ _) rfl

theorem ends_commBlock {s : Service} {c : CommCall} {w : Int} {i : Nat}
    (hs : s.commCall = some c) (h : commBlock k env p c w i = .ok (n, k')) : Ends k s n k' := by
  unfold commBlock at h
  split at h
  · simp only [Except.ok.injEq, Prod.mk.injEq] at h
    rw [← h.1, ← h.2]
    exact .of_eq (.ret _ _) rfl
  · simp only [Except.ok.injEq, Prod.mk.injEq] at h
    rw [← h.1, ← h.2]
    exact .of_eq (.comm false c w _ hs) (by simp)

/-- A blocking service up to its first `sched_proc_give_up`. -/
theorem ends_commEnter {s : Service} {c : CommCall} (hs : s.commCall = some c)
    (h : commEnter k env p c = .ok (n, k')) : Ends k s n k' := by
  unfold commEnter at h
  split at h
  · split at h
    · simp only [Except.ok.injEq, Prod.mk.injEq] at h
      rw [← h.1, ← h.2]
      exact .of_eq (.ret _ _) rfl
    · exact ends_commBlock hs h
  · exact ends_commFinish h

/-- A blocking service back from `sched_proc_give_up`. -/
theorem ends_commResume {s : Service} {c : CommCall} {w a : Int} (hs : s.commCall = some c)
    (h : commResume k env p c w a = .ok (n, k')) : Ends k s n k' := by
  unfold commResume at h
  split at h
  · simp only [Except.ok.injEq, Prod.mk.injEq] at h
    rw [← h.1, ← h.2]
    exact .of_eq (.ret _ _) rfl
  · split at h
    · exact ends_commBlock hs h
    · exact ends_commFinish h

theorem ends_doClearQueuingPort {s : Service} {port : PortId}
    (h : doClearQueuingPort k port = .ok (n, k')) : Ends k s n k' := by
  unfold doClearQueuingPort at h
  split at h
  · exact ends_retCode (by rfl) h
  split at h
  · exact ends_retCode (by rfl) h
  rename_i qp hqp hdir
  dsimp only at h
  split at h
  · cases hw : wakeup k qp.qpDisc (Que.obj (.channel qp.qpChannel)) with
    | error f => simp [hw, bind, Except.bind] at h
    | ok x =>
        have hconts : x.2.conts = k.conts := conts_of_wakeup hw
        simp only [hw, bind, Except.bind] at h
        exact ends_retCode ((Kernel.conts_setBody _ _ _).trans hconts) h
  · exact ends_retCode (Kernel.conts_setBody _ _ _) h

theorem conts_of_wakeupAll {o : WaitObj} {l : List ProcId} (h : wakeupAll o l k = .ok k') :
    k'.conts = k.conts := by
  induction l generalizing k with
  | nil =>
      rw [wakeupAll] at h
      rw [Except.ok.inj h]
  | cons q l ih =>
      rw [wakeupAll] at h
      cases hw : wakeProc k o q with
      | error f => simp [hw, bind, Except.bind] at h
      | ok k₁ =>
          simp only [hw, bind, Except.bind] at h
          exact (ih h).trans (conts_of_wakeProc hw).1

theorem ends_doDisplayBlackboard {s : Service} {b : BbId} {msgAddr length : Nat}
    (h : doDisplayBlackboard k env b msgAddr length = .ok (n, k')) : Ends k s n k' := by
  unfold doDisplayBlackboard at h
  split at h
  · exact ends_retCode (by rfl) h
  split at h
  · exact ends_retCode (by rfl) h
  split at h
  · exact ends_retCode (by rfl) h
  dsimp only at h
  cases hw : wakeupAll (.blackboard b) ((blackboardDisplay k b
      (loadBytes env.mem msgAddr length)).waitingProcs (.blackboard b))
      (blackboardDisplay k b (loadBytes env.mem msgAddr length)) with
  | error f => simp [hw, bind, Except.bind] at h
  | ok k₁ =>
      have hconts : k₁.conts = (blackboardDisplay k b (loadBytes env.mem msgAddr length)).conts :=
        conts_of_wakeupAll hw
      simp only [hw, bind, Except.bind, Except.ok.injEq, Prod.mk.injEq] at h
      rw [← h.1, ← h.2]
      exact .of_eq (.done false .none) hconts

theorem ends_doCreateBuffer {s : Service} {name : String} {sz nb : Nat} {disc : QueDisc}
    (h : doCreateBuffer k name sz nb disc = .ok (n, k')) : Ends k s n k' := by
  unfold doCreateBuffer at h
  split at h
  · exact ends_retCode (by rfl) h
  split at h
  · exact ends_retCode (by rfl) h
  split at h
  · exact ends_retCode (by rfl) h
  unfold bufferAlloc at h
  cases hm : partCommAlloc k.curPart (nb * (sz + commMsgSize) % wordSize) k.mem with
  | ok base mem =>
      simp only [hm, Except.ok.injEq, Prod.mk.injEq] at h
      rw [← h.1, ← h.2]
      exact .of_eq (.ret _ _) rfl
  | err mem =>
      simp only [hm] at h
      exact ends_retCode (by rfl) h
  | fatal =>
      simp only [hm] at h
      exact ends_retCode (by rfl) h

theorem ends_doCreateBlackboard {s : Service} {name : String} {sz : Nat}
    (h : doCreateBlackboard k name sz = .ok (n, k')) : Ends k s n k' := by
  unfold doCreateBlackboard at h
  split at h
  · exact ends_retCode (by rfl) h
  split at h
  · exact ends_retCode (by rfl) h
  split at h
  · exact ends_retCode (by rfl) h
  unfold blackboardAlloc at h
  cases hm : partCommAlloc k.curPart sz k.mem with
  | ok base mem =>
      simp only [hm, Except.ok.injEq, Prod.mk.injEq] at h
      rw [← h.1, ← h.2]
      exact .of_eq (.ret _ _) rfl
  | err mem =>
      simp only [hm] at h
      exact ends_retCode (by rfl) h
  | fatal =>
      simp only [hm] at h
      exact ends_retCode (by rfl) h

theorem ends_doCreateQueuingPort {s : Service} {name : String} {sz nb : Nat}
    {dir : Option PortDir} {disc : QueDisc}
    (h : doCreateQueuingPort k name sz nb dir disc = .ok (n, k')) : Ends k s n k' := by
  unfold doCreateQueuingPort at h
  split at h
  · exact ends_retCode (by rfl) h
  split at h
  · exact ends_retCode (by rfl) h
  split at h
  · exact ends_retCode (by rfl) h
  cases dir with
  | none => exact ends_retCode (by rfl) h
  | some d =>
      unfold queuingPortAlloc at h
      cases hc : (k.portConfs.find? (fun c => c.qpcName = name)).bind
          QueuingPortConf.qpcChannel with
      | none =>
          simp only [hc] at h
          exact ends_retCode (by rfl) h
      | some chan =>
          simp only [hc, Except.ok.injEq, Prod.mk.injEq] at h
          rw [← h.1, ← h.2]
          exact .of_eq (.ret _ _) rfl

theorem conts_startPrevious (l : List ProcId) (k : Kernel) :
    (startPrevious k l).conts = k.conts := by
  induction l generalizing k with
  | nil => rfl
  | cons q l ih =>
      rw [startPrevious]
      split
      · exact ih (k.setState q .ready)
      · exact ih k

theorem ends_doSetPartitionMode {s : Service} {m : Nat}
    (h : doSetPartitionMode k p m = .ok (n, k')) : Ends k s n k' := by
  unfold doSetPartitionMode at h
  dsimp only at h
  split at h
  · exact ends_retCode (by rfl) h
  split at h
  · exact ends_retCode (by rfl) h
  split at h
  · exact ends_retCode (by rfl) h
  split at h
  · simp only [Except.ok.injEq, Prod.mk.injEq] at h
    rw [← h.1, ← h.2]
    refine .of_eq (.done false .none) ?_
    rw [conts_setState, conts_startPrevious]
    rfl
  · exact ends_retCode (by rfl) h

/-- Dropping a call in progress. -/
theorem conts_procReset {q r : ProcId} {c : Cont} (h : (procReset k q).conts r = some c) :
    k.conts r = some c := by
  simp only [procReset, Kernel.setWoken, Kernel.setCont] at h
  by_cases hr : r = q
  · rw [hr, Function.update_self] at h
    exact absurd h (by simp)
  · rwa [Function.update_of_ne hr] at h

theorem ends_doCreateProcess {s : Service} {a : ProcessAttribute}
    (h : doCreateProcess k a = .ok (n, k')) : Ends k s n k' := by
  unfold doCreateProcess at h
  dsimp only at h
  split at h
  · exact ends_retCode (by rfl) h
  split at h
  · exact ends_retCode (by rfl) h
  split at h
  · exact ends_retCode (by rfl) h
  split at h
  · exact ends_retCode (by rfl) h
  split at h
  · exact ends_retCode (by rfl) h
  unfold procAlloc at h
  cases hm : procAllocMem k.curPart a.stackSize k.mem with
  | ok stk mem =>
      simp only [hm, bind, Except.bind, Except.ok.injEq, Prod.mk.injEq] at h
      rw [← h.1, ← h.2]
      exact ⟨.ret _ _, fun q c hq => conts_procReset hq⟩
  | err mem =>
      simp only [hm, bind, Except.bind] at h
      exact ends_retCode (by rfl) h
  | fatal => simp [hm, bind, Except.bind] at h

theorem ends_doSuspendSelf {t : Int} (h : doSuspendSelf k env p t = .ok (n, k')) :
    Ends k (.suspendSelf t) n k' := by
  unfold doSuspendSelf at h
  split at h
  · exact ends_retCode (by rfl) h
  split at h
  · exact ends_retCode (by rfl) h
  split at h
  · simp only [Except.ok.injEq, Prod.mk.injEq] at h
    rw [← h.1, ← h.2]
    exact .of_eq (.sleep false _ t rfl) (by simp)
  · simp only [Except.ok.injEq, Prod.mk.injEq] at h
    rw [← h.1, ← h.2]
    exact .of_eq (.done false .none) rfl

theorem ends_doTimedWait {s : Service} {t : Int} (h : doTimedWait k env p t = .ok (n, k')) :
    Ends k s n k' := by
  unfold doTimedWait at h
  split at h
  · exact ends_retCode (by rfl) h
  split at h
  · simp only [Except.ok.injEq, Prod.mk.injEq] at h
    rw [← h.1, ← h.2]
    exact .of_eq (.done true .none) rfl
  · simp only [Except.ok.injEq, Prod.mk.injEq] at h
    rw [← h.1, ← h.2]
    exact .of_eq (.done false .none) (by simp)

theorem ends_doSuspend {s : Service} {id : ProcId} (h : doSuspend k id = .ok (n, k')) :
    Ends k s n k' := by
  unfold doSuspend at h
  split at h
  · exact ends_retCode (by rfl) h
  split at h
  · exact ends_retCode (by rfl) h
  split at h
  · exact ends_retCode (by rfl) h
  split at h
  · exact ends_retCode (by rfl) h
  simp only [Except.ok.injEq, Prod.mk.injEq] at h
  rw [← h.1, ← h.2]
  exact .of_eq (.done false .none) rfl

theorem ends_doResume {s : Service} {id : ProcId} (h : doResume k id = .ok (n, k')) :
    Ends k s n k' := by
  unfold doResume at h
  split at h
  · exact ends_retCode (by rfl) h
  rename_i pr hpr
  split at h
  · exact ends_retCode (by rfl) h
  split at h
  · exact ends_retCode (by rfl) h
  split at h
  · exact ends_retCode (by rfl) h
  split at h
  · cases hf : timeEventFree k pr.prAssoTimer with
    | error f => simp [hf, bind, Except.bind] at h
    | ok k₁ =>
        simp only [hf, bind, Except.bind, Except.ok.injEq, Prod.mk.injEq] at h
        rw [← h.1, ← h.2]
        exact .of_eq (.done false .none) (conts_of_timeEventFree hf).1
  · simp only [bind, Except.bind, Except.ok.injEq, Prod.mk.injEq] at h
    rw [← h.1, ← h.2]
    exact .of_eq (.done false .none) rfl

theorem ends_doStop {s : Service} {id : ProcId} (h : doStop k id = .ok (n, k')) :
    Ends k s n k' := by
  unfold doStop at h
  split at h
  · exact ends_retCode (by rfl) h
  rename_i pr hpr
  split at h
  · exact ends_retCode (by rfl) h
  split at h
  · cases hf : timeEventFree (k.setState id .dormant) pr.prAssoTimer with
    | error f => simp [hf, bind, Except.bind] at h
    | ok k₁ =>
        simp only [hf, bind, Except.bind, Except.ok.injEq, Prod.mk.injEq] at h
        rw [← h.1, ← h.2]
        exact .of_eq (.done false .none) (conts_of_timeEventFree hf).1
  · simp only [bind, Except.bind, Except.ok.injEq, Prod.mk.injEq] at h
    rw [← h.1, ← h.2]
    exact .of_eq (.done false .none) rfl

theorem ends_doDelayedStart {s : Service} {id : ProcId} {t : Int}
    (h : doDelayedStart k env id t = .ok (n, k')) : Ends k s n k' := by
  -- the reset of the started process drops its call, and nothing else touches the calls
  have hreset : ∀ {k₁ : Kernel}, k₁.conts = (startReset k id).conts →
      ∀ q c, k₁.conts q = some c → k.conts q = some c := by
    intro k₁ hk₁ q c hq
    rw [hk₁, startReset] at hq
    exact conts_procReset hq
  unfold doDelayedStart at h
  split at h
  · exact ends_retCode (by rfl) h
  split at h
  · exact ends_retCode (by rfl) h
  split at h
  · exact ends_retCode (by rfl) h
  split at h
  · exact ends_retCode (by rfl) h
  dsimp only at h
  split at h
  · split at h
    · split at h
      · simp only [Except.ok.injEq, Prod.mk.injEq] at h
        rw [← h.1, ← h.2]
        exact ⟨.done false .none, hreset rfl⟩
      · simp only [Except.ok.injEq, Prod.mk.injEq] at h
        rw [← h.1, ← h.2]
        exact ⟨.done false .none, hreset (by simp)⟩
    · simp only [retCode, Except.ok.injEq, Prod.mk.injEq] at h
      rw [← h.1, ← h.2]
      exact ⟨.ret _ _, hreset rfl⟩
  · simp only [retCode, Except.ok.injEq, Prod.mk.injEq] at h
    rw [← h.1, ← h.2]
    exact ⟨.ret _ _, hreset rfl⟩

/-- A blocking service that is called returns at once or goes on to its loop. -/
theorem doSyscall_of_commCall (k : Kernel) (env : Env) (p : ProcId) {s : Service} {c : CommCall}
    (hs : s.commCall = some c) :
    (∃ code, doSyscall k env p s = retCode k code) ∨ doSyscall k env p s = commEnter k env p c := by
  cases s <;> simp only [Service.commCall, Option.some.injEq, reduceCtorEq] at hs
  all_goals
    subst hs
    simp only [doSyscall, doSendBuffer, doReceiveBuffer, doSendQueuingMessage, doReceiveQueuingMessage,
      doReadBlackboard]
  case receiveBuffer | readBlackboard =>
    split
    · exact Or.inl ⟨_, rfl⟩
    · exact Or.inr rfl
  case receiveQueuingMessage =>
    split
    · exact Or.inl ⟨_, rfl⟩
    · split
      · exact Or.inl ⟨_, rfl⟩
      · exact Or.inr rfl
  case sendBuffer =>
    split
    · exact Or.inl ⟨_, rfl⟩
    · split
      · exact Or.inl ⟨_, rfl⟩
      · split
        · exact Or.inl ⟨_, rfl⟩
        · exact Or.inr rfl
  case sendQueuingMessage =>
    split
    · exact Or.inl ⟨_, rfl⟩
    · split
      · exact Or.inl ⟨_, rfl⟩
      · split
        · exact Or.inl ⟨_, rfl⟩
        · split
          · exact Or.inl ⟨_, rfl⟩
          · exact Or.inr rfl

/-- **How a service call ends**, up to its return or its first `sched_proc_give_up`. -/
theorem ends_doSyscall {s : Service} (h : doSyscall k env p s = .ok (n, k')) : Ends k s n k' := by
  cases hasks : s.asks with
  | true => exact (silent_doSyscall hasks env p).ends h
  | false =>
      cases hcall : s.commCall with
      | some c =>
          rcases doSyscall_of_commCall k env p hcall with ⟨code, hret⟩ | henter
          · exact ends_retCode rfl (hret.symm.trans h)
          · exact ends_commEnter hcall (henter.symm.trans h)
      | none =>
          cases s with
          | setPartitionMode m => exact ends_doSetPartitionMode h
          | createProcess a => exact ends_doCreateProcess h
          | setPriority id pri =>
              simp only [doSyscall, doSetPriority] at h
              split at h
              · exact ends_retCode (by rfl) h
              · split at h
                · exact ends_retCode (by rfl) h
                · simp only [Except.ok.injEq, Prod.mk.injEq] at h
                  rw [← h.1, ← h.2]
                  exact .of_eq (.done false .none) rfl
          | suspendSelf t => exact ends_doSuspendSelf h
          | suspend id => exact ends_doSuspend h
          | resume id => exact ends_doResume h
          | stopSelf =>
              simp only [doSyscall, doStopSelf, Except.ok.injEq, Prod.mk.injEq] at h
              rw [← h.1, ← h.2]
              exact .of_eq (.done false .none) rfl
          | stop id => exact ends_doStop h
          | start id => exact ends_doDelayedStart h
          | delayedStart id t => exact ends_doDelayedStart h
          | timedWait t => exact ends_doTimedWait h
          | createQueuingPort name sz nb dir disc => exact ends_doCreateQueuingPort h
          | clearQueuingPort port => exact ends_doClearQueuingPort h
          | createBuffer name sz nb disc => exact ends_doCreateBuffer h
          | createBlackboard name sz => exact ends_doCreateBlackboard h
          | displayBlackboard b a len => exact ends_doDisplayBlackboard h
          | clearBlackboard b =>
              simp only [doSyscall, doClearBlackboard] at h
              split at h
              · exact ends_retCode (by rfl) h
              · exact ends_retCode (by rfl) h
          | sendQueuingMessage | receiveQueuingMessage | sendBuffer | receiveBuffer | readBlackboard => cases hcall
          | _ => cases hasks

/-! ## The calls in progress over a step -/

/-- The service that starts a blocking call. -/
def CommCall.service : CommCall → Service
  | .sendBuffer b msgAddr length timeOut => .sendBuffer b msgAddr length timeOut
  | .receiveBuffer b timeOut msgAddr => .receiveBuffer b timeOut msgAddr
  | .sendQueuingMessage port msgAddr length timeOut => .sendQueuingMessage port msgAddr length timeOut
  | .receiveQueuingMessage port timeOut msgAddr => .receiveQueuingMessage port timeOut msgAddr
  | .readBlackboard b timeOut msgAddr => .readBlackboard b timeOut msgAddr

@[simp] theorem commCall_service (c : CommCall) : c.service.commCall = some c := by
  cases c <;> rfl

theorem service_ne_suspendSelf (c : CommCall) (t : Int) : c.service ≠ .suspendSelf t := by
  cases c <;> exact Service.noConfusion

theorem conts_timeEventLoop (clk : Nat → Int) (l : List TimeEvent) (i : Nat) (r : Resched)
    (k : Kernel) : (timeEventLoop clk l i r k).2.conts = k.conts := by
  induction l generalizing i r k with
  | nil => rfl
  | cons te es ih =>
      rw [timeEventLoop]
      split
      · cases hp : te.teType.proc with
        | none => exact ih _ _ _
        | some p =>
            refine (ih _ _ _).trans ?_
            exact conts_expireProc k te p
      · rfl

theorem conts_of_timeEventAction {clk : Nat → Int} {r : Resched}
    (h : timeEventAction k clk = .ok (r, k')) : k'.conts = k.conts := by
  unfold timeEventAction at h
  have hloop := conts_timeEventLoop clk k.teq 0 ⟨false, false⟩ k
  generalize timeEventLoop clk k.teq 0 ⟨false, false⟩ k = x at h hloop
  obtain ⟨r', k₁⟩ := x
  dsimp only at h hloop
  split at h
  · cases hg : schedGlobal k₁ with
    | error f => simp [hg, bind, Except.bind] at h
    | ok k₂ =>
        simp only [hg, bind, Except.bind, Except.ok.injEq, Prod.mk.injEq] at h
        rw [← h.2, (conts_of_schedGlobal hg).1, hloop]
  · simp only [Except.ok.injEq, Prod.mk.injEq] at h
    rw [← h.2, hloop]

theorem conts_of_dispatch {q : ProcId} (h : dispatch k q = .ok k') : k'.conts = k.conts := by
  simp only [dispatch] at h
  split at h
  · rw [← Except.ok.inj h]
    exact conts_schedProcSt k
  · exact absurd h (by simp)

/-- How the rest of a call can end: it is over, or a blocking call goes on. -/
inductive Rest (c : Cont) : Cont → Prop
  | done (out : Out) : Rest c (.done .noError out)
  | comm (call : CommCall) (w a w' a' : Int) (was : c = .comm call w a) :
      Rest c (.comm call w' a')

theorem ends_resumeCont {c : Cont} (h : resumeCont k env p c = .ok (n, k')) :
    (∀ rr c', n = .giveUp rr c' → Rest c c') ∧ ∀ q c', k'.conts q = some c' → k.conts q = some c' := by
  cases c with
  | comm call w a =>
      have hends := ends_commResume (commCall_service call) h
      refine ⟨fun rr c' hn => ?_, hends.conts⟩
      subst hn
      cases hends.next with
      | done rr out => exact .done out
      | sleep rr wakeup t hs => exact absurd hs (service_ne_suspendSelf call t)
      | comm rr c' w' a' hs =>
          rw [commCall_service, Option.some.injEq] at hs
          exact hs ▸ .comm call w a w' a' rfl
  | suspendSelf wakeup =>
      simp only [resumeCont, retCode, Except.ok.injEq, Prod.mk.injEq] at h
      rw [← h.1, ← h.2]
      exact ⟨fun rr c' hn => absurd hn (by simp), fun _ _ hq => hq⟩
  | done code out =>
      simp only [resumeCont, Except.ok.injEq, Prod.mk.injEq] at h
      rw [← h.1, ← h.2]
      exact ⟨fun rr c' hn => absurd hn (by simp), fun _ _ hq => hq⟩

/-- **The calls in progress after a step** were in progress before it, or the process on the hart
started or continued one. -/
theorem conts_step {e : Event} (h : step k e = .ok k') {q : ProcId} {c : Cont}
    (hc : k'.conts q = some c) :
    k.conts q = some c ∨
      (∃ env s rr, e = .call env s ∧ live k = some q ∧ NextOf s (.giveUp rr c)) ∨
      ∃ env c₀, e = .resume env ∧ live k = some q ∧ k.conts q = some c₀ ∧ Rest c₀ c := by
  rcases step_eq_ok h with ⟨p, rfl, hd⟩ | ⟨clk, r, rfl, ht⟩ | ⟨p, ⟨n, k₁⟩, hs, rfl⟩
  · rw [conts_of_dispatch hd] at hc
    exact Or.inl hc
  · rw [conts_of_timeEventAction ht] at hc
    exact Or.inl hc
  -- the end of a segment is recorded for the process that executed it
  have hsettle : k₁.conts q = some c ∨ q = p ∧ ∃ rr, n = .giveUp rr c := by
    by_cases hq : q = p
    · subst hq
      cases n with
      | ret code out => exact absurd hc (by simp [settle, Kernel.setCont])
      | giveUp rr c' =>
          simp only [settle, Kernel.setCont, Function.update_self, Option.some.injEq] at hc
          exact Or.inr ⟨rfl, rr, by rw [hc]⟩
    · cases n <;> exact Or.inl (by simpa [settle, Kernel.setCont, hq] using hc)
  obtain ⟨hl, ⟨env, s, rfl, -, hout⟩ | ⟨env, c₀, rfl, hc₀, hout⟩⟩ := segment_eq_some hs
  · have hends := ends_doSyscall hout.symm
    rcases hsettle with hold | ⟨rfl, rr, rfl⟩
    · exact Or.inl (hends.conts q c hold)
    · exact Or.inr (Or.inl ⟨env, s, rr, rfl, hl, hends.next⟩)
  · obtain ⟨hnext, hconts⟩ := ends_resumeCont hout.symm
    rcases hsettle with hold | ⟨rfl, rr, rfl⟩
    · exact Or.inl (hconts q c hold)
    · exact Or.inr (Or.inr ⟨env, c₀, rfl, hl, hc₀, hnext rr c rfl⟩)

end Jrinx
