import Jrinx.Crossing
import Jrinx.Returns
import Jrinx.RoundRobin

/-! # Services that return at once

A service that does not give the processor up leaves the order of the processes as it was, so that it need not:
nobody stops, and nobody can run who could not. The exceptions are the services on queuing ports, which make a
process ready and return.

* **`OrderKept`** — the processes that can run, and their priorities, are the same, but for some that may run now.
* **`Service.wakes`**, **`Cont.wakes`** — whom a service on a queuing port wakes up.
* **`Closes`**, **`closes_doSyscall`**, **`closes_resumeCont`** — how a segment of a service ends. -/

namespace Jrinx

/-! ## The relation -/

/-- Nobody stops, no priority of a process that can run changes, and nobody can run who could not, but for the
processes in `woken`. -/
structure OrderKept (woken : ProcId → Prop) (k k' : Kernel) : Prop where
  curPart : k'.curPart = k.curPart
  curProc : k'.curProc = k.curProc
  kept : ∀ p ∈ k.procIds, eligible k p = true → eligible k' p = true
  listed : ∀ p ∈ procList k', eligible k' p = true → p ∈ procList k
  new : ∀ p ∈ k.procIds, eligible k' p = true → eligible k p = true ∨ woken p
  prCurPri : ∀ p ∈ k.procIds, eligible k' p = true → (k'.procs p).prCurPri = (k.procs p).prCurPri

theorem Same.procList_eq {k k' : Kernel} (h : Same k k') (hpart : k'.curPart = k.curPart) :
    procList k' = procList k := by
  rw [procList, procList, hpart, h.procLists]

namespace OrderKept

variable {w w' : ProcId → Prop} {k k₁ k' : Kernel} {p : ProcId}

theorem refl (k : Kernel) : OrderKept w k k :=
  ⟨rfl, rfl, fun _ _ h => h, fun _ h _ => h, fun _ _ h => Or.inl h, fun _ _ _ => rfl⟩

theorem mono (h : OrderKept w k k') (hw : ∀ p, w p → w' p) : OrderKept w' k k' :=
  ⟨h.curPart, h.curProc, h.kept, h.listed, fun p hp hr => (h.new p hp hr).imp_right (hw p), h.prCurPri⟩

/-- The records of the processes are the same. -/
theorem of_procs (hpart : k'.curPart = k.curPart) (hcur : k'.curProc = k.curProc)
    (hlist : (k'.parts k.curPart).paProcList = procList k) (hprocs : k'.procs = k.procs) : OrderKept w k k' := by
  have hruns : ∀ q, eligible k' q = eligible k q := fun q => by rw [eligible, eligible, hprocs]
  refine ⟨hpart, hcur, fun q _ h => by rw [hruns, h], fun q hq _ => ?_, fun q _ h => Or.inl (hruns q ▸ h),
    fun q _ _ => by rw [hprocs]⟩
  rwa [procList, hpart, hlist] at hq

/-- No process is created. -/
theorem of_same (hsame : Same k k') (hpart : k'.curPart = k.curPart) (hcur : k'.curProc = k.curProc)
    (hkept : ∀ q, eligible k q = true → eligible k' q = true)
    (hnew : ∀ q, eligible k' q = true → eligible k q = true ∨ w q)
    (hpri : ∀ q, eligible k' q = true → (k'.procs q).prCurPri = (k.procs q).prCurPri) : OrderKept w k k' := by
  refine ⟨hpart, hcur, fun q _ => hkept q, fun q hq _ => ?_, fun q _ => hnew q, fun q _ => hpri q⟩
  rwa [hsame.procList_eq hpart] at hq

theorem trans (h : OrderKept w k k₁) (h' : OrderKept w k₁ k') (hsame : Same k k₁)
    (hpri : ∀ q, (k₁.procs q).prCurPri = (k.procs q).prCurPri) : OrderKept w k k' := by
  have hids : ∀ q ∈ k.procIds, q ∈ k₁.procIds := fun q hq => hsame.procIds ▸ hq
  refine ⟨h'.curPart.trans h.curPart, h'.curProc.trans h.curProc, fun q hq hr => ?_, fun q hq hr => ?_,
    fun q hq hr => ?_, fun q hq hr => ?_⟩
  · exact h'.kept q (hids q hq) (h.kept q hq hr)
  · rw [← hsame.procList_eq h.curPart]
    exact h'.listed q hq hr
  · rcases h'.new q (hids q hq) hr with hold | hw
    · exact h.new q hq hold
    · exact Or.inr hw
  · rw [h'.prCurPri q (hids q hq) hr, hpri]

/-- The end of a segment is noted on the stack of the process, which has run. -/
theorem settle {n : Next} (h : OrderKept w k k') : OrderKept w k (settle p (n, k')) := by
  cases n <;> exact ⟨h.curPart, h.curProc, h.kept, h.listed, h.new, h.prCurPri⟩

end OrderKept

/-! ## Whom a service on a queuing port wakes up -/

/-- The process that `queuing_port_wakeup_waiting_proc` takes. -/
def portWakes (k : Kernel) (port : PortId) : Option ProcId :=
  pickWaiting k (k.ports port).qpDisc (.channel (k.ports port).qpChannel)

/-- The process that the end of a call wakes up through a port. -/
def CommCall.portWakes (k : Kernel) : CommCall → Option ProcId
  | .sendQueuingMessage port _ _ _ => Jrinx.portWakes k port
  | .receiveQueuingMessage port _ _ => Jrinx.portWakes k port
  | _ => none

/-- The same, for a call in its loop. -/
def CommCall.wakes (k : Kernel) (c : CommCall) : Option ProcId := if mustWait k c then none else c.portWakes k

/-- The services on queuing ports that end in a wake-up, past their checks. -/
def Service.wakes (k : Kernel) : Service → Option ProcId
  | .sendQueuingMessage port msgAddr length timeOut =>
      match curQueuingPort k port with
      | none => none
      | some qp =>
          if (k.chans qp.qpChannel).chMaxMsgSize < length then none
          else if length = 0 then none
          else if qp.qpDir ≠ .source then none
          else (CommCall.sendQueuingMessage port msgAddr length timeOut).wakes k
  | .receiveQueuingMessage port timeOut msgAddr =>
      match curQueuingPort k port with
      | none => none
      | some qp =>
          if qp.qpDir ≠ .destination then none else (CommCall.receiveQueuingMessage port timeOut msgAddr).wakes k
  | .clearQueuingPort port =>
      match curQueuingPort k port with
      | none => none
      | some qp =>
          if qp.qpDir ≠ .destination then none
          else if circbufIsFull (k.body (.channel qp.qpChannel)) then portWakes k port else none
  | _ => none

/-- A call in progress that is not past its deadline. -/
def Cont.wakes (k : Kernel) (env : Env) : Cont → Option ProcId
  | .comm c _ armed => if c.timeOut ≠ systemTimeInfiniteVal ∧ armed ≤ env.clk 0 then none else c.wakes k
  | _ => none

/-! ## Wake-ups -/

variable {w : ProcId → Prop} {k k' : Kernel} {env : Env} {p q : ProcId} {code : RetCode} {out : Out}

theorem prCurPri_freeEvent (k : Kernel) (i : TimeEvent) (q : ProcId) :
    ((freeEvent k i).procs q).prCurPri = (k.procs q).prCurPri := by
  unfold freeEvent
  cases i.teType.proc with
  | none => rfl
  | some r =>
      by_cases hq : q = r
      · rw [hq]
        simp
      · simp [hq]

theorem prCurPri_setState (k : Kernel) (p q : ProcId) (s : ProcState) :
    ((k.setState p s).procs q).prCurPri = (k.procs q).prCurPri := by
  by_cases hq : q = p <;> simp [Kernel.setState, Kernel.updProc, hq]

/-- A wake-up of `q` disturbs nobody else. -/
theorem orderKept_wakeProc {o : WaitObj} (h : wakeProc k o q = .ok k') :
    OrderKept (some q = some ·) k k' ∧ eligible k' q = true := by
  have hpri : ∀ r, (k'.procs r).prCurPri = (k.procs r).prCurPri := by
    intro r
    obtain ⟨k₁, hk₁, rfl⟩ := wakeProc_eq_ok h
    show ((k₁.setState q .ready).procs r).prCurPri = _
    rw [prCurPri_setState]
    rcases hk₁ with ⟨-, hfree⟩ | ⟨-, rfl⟩
    · obtain ⟨i, -, -, rfl⟩ := mem_of_timeEventFree hfree
      rw [prCurPri_freeEvent]
      simp [delWaitingProc]
    · simp [delWaitingProc]
  have hself : eligible k' q = true := eligible_iff.mpr (Or.inl (by rw [prState_wakeProc h, if_pos rfl]))
  have hother : ∀ r ≠ q, eligible k' r = eligible k r := fun r hr => by
    rw [eligible, eligible, prState_wakeProc h, if_neg hr]
  refine ⟨.of_same (Same.wakeProc h) (curPart_of_wakeProc h) (conts_of_wakeProc h).2 (fun r hr => ?_)
    (fun r hr => ?_) fun r _ => hpri r, hself⟩
  · by_cases hrq : r = q
    · exact hrq ▸ hself
    · rwa [hother r hrq]
  · by_cases hrq : r = q
    · exact Or.inr (congrArg some hrq.symm)
    · exact Or.inl (hother r hrq ▸ hr)

/-! ## The ends of the services -/

/-- **How a segment ends**: it returns at once, and nobody is disturbed; or it gives the processor up, which wakes
nobody up through a port. A round-robin election is asked for with the state as it was. -/
inductive Closes (woke : Option ProcId) (k : Kernel) : Next → Kernel → Prop
  | ret {code : RetCode} {out : Out} {k' : Kernel} (undisturbed : OrderKept (woke = some ·) k k')
      (ready : ∀ q, woke = some q → eligible k' q = true) : Closes woke k (.ret code out) k'
  | giveUp {c : Cont} {k' : Kernel} (silent : woke = none) : Closes woke k (.giveUp false c) k'
  | roundRobin {c : Cont} (silent : woke = none) : Closes woke k (.giveUp true c) k

variable {n : Next} {woke : Option ProcId}

theorem closes_ret {k₁ : Kernel} (h : (.ok (.ret code out, k₁) : Outcome) = .ok (n, k'))
    (hu : OrderKept (none = some ·) k k₁) : Closes none k n k' := by
  simp only [Except.ok.injEq, Prod.mk.injEq] at h
  rw [← h.1, ← h.2]
  exact .ret hu fun q hq => absurd hq (by simp)

theorem closes_retCode {k₁ : Kernel} (h : retCode k₁ code = .ok (n, k')) (hu : OrderKept (none = some ·) k k₁) :
    Closes none k n k' := closes_ret h hu

theorem Silent.closes {o : Outcome} (hs : Silent k o) (h : o = .ok (n, k')) : Closes none k n k' := by
  obtain ⟨code, out, rfl⟩ := hs
  exact closes_ret h (.refl k)

theorem closes_giveUp {k₁ : Kernel} {c : Cont} (h : (.ok (.giveUp false c, k₁) : Outcome) = .ok (n, k')) :
    Closes none k n k' := by
  simp only [Except.ok.injEq, Prod.mk.injEq] at h
  rw [← h.1]
  exact .giveUp rfl

/-! ### Communication -/

theorem eligible_setBody (q : Que) (cc : Circbuf) (r : ProcId) : eligible (k.setBody q cc) r = eligible k r := by
  rw [eligible, eligible, Kernel.procs_setBody]

theorem OrderKept.setBody {w : ProcId → Prop} (h : OrderKept w k k') (q : Que) (cc : Circbuf) :
    OrderKept w k (k'.setBody q cc) := by
  have hlist : procList (k'.setBody q cc) = procList k' := by cases q <;> rfl
  refine ⟨(curPart_setBody k' q cc).trans h.curPart, .trans (by cases q <;> rfl) h.curProc, fun r hr hrun => ?_,
    fun r hr hrun => ?_, fun r hr hrun => ?_, fun r hr hrun => ?_⟩
  · exact (eligible_setBody q cc r).trans (h.kept r hr hrun)
  · exact h.listed r (hlist ▸ hr) ((eligible_setBody q cc r).symm.trans hrun)
  · exact h.new r hr ((eligible_setBody q cc r).symm.trans hrun)
  · rw [Kernel.procs_setBody]
    exact h.prCurPri r hr ((eligible_setBody q cc r).symm.trans hrun)

theorem pickWaiting_setBody (q : Que) (cc : Circbuf) (disc : QueDisc) (o : WaitObj) :
    pickWaiting (k.setBody q cc) disc o = pickWaiting k disc o := by
  cases disc <;> simp [pickWaiting]

/-- After a wake-up a buffer gives the processor up. -/
theorem closes_bufferWakeup {b : BufId} {cc : Circbuf}
    (h : bufferWakeup (k.setBody (.buffer b) cc) b out = .ok (n, k')) : Closes none k n k' := by
  obtain ⟨⟨woke, k₁⟩, hw, h⟩ := except_bind_eq_ok.mp h
  cases woke with
  | none =>
      obtain ⟨-, -, rfl⟩ | ⟨q, hq, -⟩ := wakeup_eq_ok hw
      · exact closes_ret h (.setBody (.refl k) _ cc)
      · cases hq
  | some q => exact closes_giveUp h

/-- After a wake-up a port returns. -/
theorem closes_wakeup {q : Que} {cc : Circbuf} {disc : QueDisc} {o : WaitObj}
    (hw : wakeup (k.setBody q cc) disc o = .ok (woke, k')) : Closes (pickWaiting k disc o) k (.ret code out) k' := by
  rw [← pickWaiting_setBody q cc]
  obtain ⟨-, hnone, rfl⟩ | ⟨r, -, hpick, hwake⟩ := wakeup_eq_ok hw
  · rw [pickWaiting_eq_none.mpr hnone]
    exact .ret (.setBody (.refl k) q cc) fun r hr => absurd hr (by simp)
  · obtain ⟨hu, hready⟩ := orderKept_wakeProc hwake
    rw [hpick]
    refine .ret (OrderKept.trans (.setBody (.refl k) q cc) hu (.setBody q cc) fun r => by simp) fun r' hr' => ?_
    exact Option.some.inj hr' ▸ hready

theorem closes_commFinish {c : CommCall} (hwait : mustWait k c = false) (h : commFinish k env c = .ok (n, k')) :
    Closes (c.wakes k) k n k' := by
  have hport : ∀ {q : Que} {cc : Circbuf} {port : PortId} {out : Out},
      queuingPortWakeup (k.setBody q cc) port out = .ok (n, k') → Closes (portWakes k port) k n k' := by
    intro q cc port out h
    obtain ⟨x, hw, h⟩ := except_bind_eq_ok.mp h
    have hports : (k.setBody q cc).ports = k.ports := by cases q <;> rfl
    rw [hports] at hw
    simp only [Except.ok.injEq, Prod.mk.injEq] at h
    rw [← h.1, ← h.2]
    exact closes_wakeup hw
  rw [CommCall.wakes, hwait]
  cases c with
  | sendBuffer b msgAddr length timeOut => exact closes_bufferWakeup h
  | receiveBuffer b timeOut msgAddr => exact closes_bufferWakeup h
  | sendQueuingMessage port msgAddr length timeOut => exact hport h
  | receiveQueuingMessage port timeOut msgAddr => exact hport h
  | readBlackboard b timeOut msgAddr => exact closes_ret h (.refl k)

theorem closes_commBlock {c : CommCall} {w : Int} {i : Nat} (h : commBlock k env p c w i = .ok (n, k')) :
    Closes none k n k' := by
  unfold commBlock at h
  split at h
  · exact closes_ret h (.refl k)
  · exact closes_giveUp h

theorem closes_commEnter {c : CommCall} (h : commEnter k env p c = .ok (n, k')) : Closes (c.wakes k) k n k' := by
  unfold commEnter at h
  split at h
  · rename_i hwait
    rw [CommCall.wakes, if_pos hwait]
    split at h
    · exact closes_ret h (.refl k)
    · exact closes_commBlock h
  · rename_i hwait
    exact closes_commFinish (by simpa using hwait) h

/-- A call on a buffer or a blackboard wakes nobody up through a port. -/
theorem closes_buffer {c : CommCall} (h : Closes (c.wakes k) k n k') (hport : c.portWakes k = none := by rfl) :
    Closes none k n k' := by
  rwa [CommCall.wakes, hport, ite_self] at h

/-- The rest of a call after `sched_proc_give_up`. -/
theorem closes_resumeCont {c : Cont} (h : resumeCont k env p c = .ok (n, k')) : Closes (c.wakes k env) k n k' := by
  cases c with
  | comm c wakeup armed =>
      simp only [resumeCont, commResume] at h
      rw [Cont.wakes]
      split at h
      · rename_i hlate
        rw [if_pos hlate]
        exact closes_ret h (.refl k)
      rename_i hlate
      rw [if_neg hlate, CommCall.wakes]
      split at h
      · rename_i hwait
        rw [if_pos hwait]
        exact closes_commBlock h
      · rename_i hwait
        have hfinish := closes_commFinish (by simpa using hwait) h
        rwa [CommCall.wakes] at hfinish
  | suspendSelf wakeup => exact closes_retCode h (.refl k)
  | done code out => exact closes_ret h (.refl k)

theorem closes_doSendQueuingMessage {port : PortId} {msgAddr length : Nat} {timeOut : Int}
    (h : doSendQueuingMessage k env p port msgAddr length timeOut = .ok (n, k')) :
    Closes (Service.wakes k (.sendQueuingMessage port msgAddr length timeOut)) k n k' := by
  unfold doSendQueuingMessage at h
  rw [Service.wakes]
  -- every check of the service is also one of `wakes`, which names nobody where it fails
  cases hqp : curQueuingPort k port with
  | none =>
      rw [hqp] at h
      exact closes_retCode h (.refl k)
  | some qp =>
      simp only [hqp] at h ⊢
      split at h
      · rename_i hlong
        rw [if_pos hlong]
        exact closes_retCode h (.refl k)
      rename_i hlong
      rw [if_neg hlong]
      split at h
      · rename_i hzero
        rw [if_pos hzero]
        exact closes_retCode h (.refl k)
      rename_i hzero
      rw [if_neg hzero]
      split at h
      · rename_i hdir
        rw [if_pos hdir]
        exact closes_retCode h (.refl k)
      rename_i hdir
      rw [if_neg hdir]
      exact closes_commEnter h

theorem closes_doReceiveQueuingMessage {port : PortId} {timeOut : Int} {msgAddr : Nat}
    (h : doReceiveQueuingMessage k env p port timeOut msgAddr = .ok (n, k')) :
    Closes (Service.wakes k (.receiveQueuingMessage port timeOut msgAddr)) k n k' := by
  unfold doReceiveQueuingMessage at h
  rw [Service.wakes]
  cases hqp : curQueuingPort k port with
  | none =>
      rw [hqp] at h
      exact closes_retCode h (.refl k)
  | some qp =>
      simp only [hqp] at h ⊢
      split at h
      · rename_i hdir
        rw [if_pos hdir]
        exact closes_retCode h (.refl k)
      rename_i hdir
      rw [if_neg hdir]
      exact closes_commEnter h

theorem closes_doClearQueuingPort {port : PortId} (h : doClearQueuingPort k port = .ok (n, k')) :
    Closes (Service.wakes k (.clearQueuingPort port)) k n k' := by
  unfold doClearQueuingPort at h
  rw [Service.wakes]
  -- `wakes` makes the same checks
  cases hqp : curQueuingPort k port with
  | none =>
      rw [hqp] at h
      exact closes_retCode h (.refl k)
  | some qp =>
      obtain ⟨-, -, rfl⟩ := of_curQueuingPort hqp
      simp only [hqp] at h ⊢
      split at h
      · rename_i hdir
        rw [if_pos hdir]
        exact closes_retCode h (.refl k)
      rename_i hdir
      rw [if_neg hdir]
      split at h
      · rename_i hfull
        rw [if_pos hfull]
        -- the channel was full, so that a sender may wait for the room
        obtain ⟨⟨woke, k₁⟩, hw, h⟩ := except_bind_eq_ok.mp h
        simp only [Que.obj] at hw
        simp only [retCode, Except.ok.injEq, Prod.mk.injEq] at h
        rw [← h.1, ← h.2, portWakes]
        obtain ⟨-, hnone, rfl⟩ | ⟨r, -, hpick, hwake⟩ := wakeup_eq_ok hw
        · rw [pickWaiting_eq_none.mpr hnone]
          exact .ret (.setBody (.refl _) _ _) fun r hr => absurd hr (by simp)
        · rw [hpick]
          obtain ⟨hu, hready⟩ := orderKept_wakeProc hwake
          exact .ret (hu.setBody _ _) fun r' hr' => Option.some.inj hr' ▸ (eligible_setBody _ _ r).trans hready
      · rename_i hfull
        rw [if_neg hfull]
        exact closes_retCode h (.setBody (.refl _) _ _)

/-! ### Processes -/

/-- A process that is not running waits, with its priority set back or not. -/
theorem orderKept_waitFor {k₁ : Kernel} {r : ProcId} {reason : WaitingReason} (hsame : Same k k₁)
    (hpart : k₁.curPart = k.curPart) (hcur : k₁.curProc = k.curProc) (hother : ∀ q ≠ r, k₁.procs q = k.procs q)
    (hidle : eligible k r = false) : OrderKept (none = some ·) k (waitFor k₁ r reason) := by
  have hself : eligible (waitFor k₁ r reason) r = false := by simp [eligible, waitFor]
  have hrest : ∀ q ≠ r, (waitFor k₁ r reason).procs q = k.procs q := fun q hq => by
    simp [waitFor, Kernel.setState, Kernel.setReason, Kernel.updProc, hq, hother q hq]
  have hruns : ∀ q, eligible (waitFor k₁ r reason) q = eligible k q := by
    intro q
    by_cases hq : q = r
    · rw [hq, hself, hidle]
    · rw [eligible, eligible, hrest q hq]
  refine .of_same (hsame.trans (.waitFor r reason)) hpart hcur (fun q hq => ?_) (fun q hq => ?_) fun q hq => ?_
  · rwa [hruns]
  · exact Or.inl (hruns q ▸ hq)
  · by_cases hqr : q = r
    · rw [hqr, hself] at hq
      cases hq
    · rw [hrest q hqr]

theorem closes_doDelayedStart {id : ProcId} {t : Int} (h : doDelayedStart k env id t = .ok (n, k')) :
    Closes none k n k' := by
  unfold doDelayedStart at h
  split at h
  · exact closes_retCode h (.refl k)
  rename_i pr hpr
  obtain ⟨-, -, rfl⟩ := of_curPartProc hpr
  split at h
  · exact closes_retCode h (.refl k)
  rename_i hdormant
  have hidle : eligible k id = false := by simp [eligible, not_not.mp hdormant]
  have hwait : ∀ reason : WaitingReason,
      OrderKept (none = some ·) k (waitFor (startReset k id) id reason) := fun reason =>
    orderKept_waitFor (Same.trans .updProc (.procReset id)) rfl rfl
      (fun q hq => by simp [startReset, procReset, Kernel.setWoken, Kernel.setCont, Kernel.updProc, hq]) hidle
  split at h
  · exact closes_retCode h (.refl k)
  split at h
  · exact closes_retCode h (.refl k)
  dsimp only at h
  split at h
  · split at h
    · split at h
      · exact closes_giveUp h
      · exact closes_giveUp h
    · exact closes_retCode h (hwait _)
  · exact closes_retCode h (hwait _)

/-- A new process is dormant, and the others keep their places. -/
theorem closes_doCreateProcess {a : ProcessAttribute} (hr : Registered k) (h : doCreateProcess k a = .ok (n, k')) :
    Closes none k n k' := by
  unfold doCreateProcess at h
  dsimp only at h
  split at h
  · exact closes_retCode h (.refl k)
  split at h
  · exact closes_retCode h (.refl k)
  split at h
  · exact closes_retCode h (.refl k)
  split at h
  · exact closes_retCode h (.refl k)
  split at h
  · exact closes_retCode h (.refl k)
  unfold procAlloc at h
  cases hm : procAllocMem k.curPart a.stackSize k.mem with
  | ok stk mem =>
      simp only [hm, bind, Except.bind] at h
      refine closes_ret h ?_
      -- the identifier is a new one
      have hold : ∀ q ∈ k.procIds, q ≠ k.nxtProcId := fun q hq => (hr.procs_lt q hq).ne
      refine ⟨rfl, rfl, fun q hq hrun => ?_, fun q hq hrun => ?_, fun q hq hrun => ?_, fun q hq hrun => ?_⟩
      · simpa [eligible, procReset, Kernel.setWoken, Kernel.setCont, registerProc, hold q hq] using hrun
      · -- the new process is the last one of its partition, and it is dormant
        have hmem : q ∈ procList k ++ [k.nxtProcId] := by
          simpa [procList, procReset, Kernel.setWoken, Kernel.setCont, registerProc] using hq
        rcases List.mem_append.mp hmem with hmem | hnew
        · exact hmem
        · rw [List.mem_singleton.mp hnew] at hrun
          simp [eligible, procReset, Kernel.setWoken, Kernel.setCont, registerProc] at hrun
      · left
        simpa [eligible, procReset, Kernel.setWoken, Kernel.setCont, registerProc, hold q hq] using hrun
      · simp [procReset, Kernel.setWoken, Kernel.setCont, registerProc, hold q hq]
  | err mem =>
      simp only [hm, bind, Except.bind] at h
      exact closes_retCode h (.of_procs rfl rfl rfl rfl)
  | fatal => simp [hm, bind, Except.bind] at h

/-! ### Objects -/

theorem closes_doCreateBuffer {name : String} {sz nb : Nat} {disc : QueDisc}
    (h : doCreateBuffer k name sz nb disc = .ok (n, k')) : Closes none k n k' := by
  unfold doCreateBuffer at h
  split at h
  · exact closes_retCode h (.refl k)
  split at h
  · exact closes_retCode h (.refl k)
  split at h
  · exact closes_retCode h (.refl k)
  unfold bufferAlloc at h
  cases hm : partCommAlloc k.curPart (nb * (sz + commMsgSize) % wordSize) k.mem with
  | ok base mem =>
      simp only [hm] at h
      exact closes_ret h (.of_procs rfl rfl (by simp [registerBuffer, procList]) rfl)
  | err mem =>
      simp only [hm] at h
      exact closes_retCode h (.of_procs rfl rfl rfl rfl)
  | fatal =>
      simp only [hm] at h
      exact closes_retCode h (.of_procs rfl rfl rfl rfl)

theorem closes_doCreateBlackboard {name : String} {sz : Nat} (h : doCreateBlackboard k name sz = .ok (n, k')) :
    Closes none k n k' := by
  unfold doCreateBlackboard at h
  split at h
  · exact closes_retCode h (.refl k)
  split at h
  · exact closes_retCode h (.refl k)
  split at h
  · exact closes_retCode h (.refl k)
  unfold blackboardAlloc at h
  cases hm : partCommAlloc k.curPart sz k.mem with
  | ok base mem =>
      simp only [hm] at h
      exact closes_ret h (.of_procs rfl rfl (by simp [registerBlackboard, procList]) rfl)
  | err mem =>
      simp only [hm] at h
      exact closes_retCode h (.of_procs rfl rfl rfl rfl)
  | fatal =>
      simp only [hm] at h
      exact closes_retCode h (.of_procs rfl rfl rfl rfl)

theorem closes_doCreateQueuingPort {name : String} {sz nb : Nat} {dir : Option PortDir} {disc : QueDisc}
    (h : doCreateQueuingPort k name sz nb dir disc = .ok (n, k')) : Closes none k n k' := by
  unfold doCreateQueuingPort at h
  split at h
  · exact closes_retCode h (.refl k)
  split at h
  · exact closes_retCode h (.refl k)
  split at h
  · exact closes_retCode h (.refl k)
  cases dir with
  | none => exact closes_retCode h (.refl k)
  | some d =>
      unfold queuingPortAlloc at h
      cases hc : (k.portConfs.find? (fun c => c.qpcName = name)).bind QueuingPortConf.qpcChannel with
      | none =>
          simp only [hc] at h
          exact closes_retCode h (.refl k)
      | some chan =>
          simp only [hc] at h
          exact closes_ret h (.of_procs rfl rfl rfl rfl)

theorem closes_doDisplayBlackboard {b : BbId} {msgAddr length : Nat}
    (h : doDisplayBlackboard k env b msgAddr length = .ok (n, k')) : Closes none k n k' := by
  unfold doDisplayBlackboard at h
  split at h
  · exact closes_retCode h (.refl k)
  split at h
  · exact closes_retCode h (.refl k)
  split at h
  · exact closes_retCode h (.refl k)
  obtain ⟨k₁, -, h⟩ := except_bind_eq_ok.mp h
  exact closes_giveUp h

/-! ### Services with time-outs, and those that start and stop processes -/

theorem closes_doSetPartitionMode {m : Nat} (h : doSetPartitionMode k p m = .ok (n, k')) : Closes none k n k' := by
  have hmode : OrderKept (none = some ·) k (setMode k (OpMode.ofWord m)) :=
    .of_procs rfl rfl (by simp [setMode, Kernel.updPart, procList]) rfl
  unfold doSetPartitionMode at h
  dsimp only at h
  split at h
  · exact closes_retCode h (.refl k)
  split at h
  · exact closes_retCode h (.refl k)
  split at h
  · exact closes_retCode h hmode
  split at h
  · exact closes_giveUp h
  · exact closes_retCode h hmode

theorem closes_doSuspendSelf {t : Int} (h : doSuspendSelf k env p t = .ok (n, k')) : Closes none k n k' := by
  unfold doSuspendSelf at h
  split at h
  · exact closes_retCode h (.refl k)
  split at h
  · exact closes_retCode h (.refl k)
  split at h
  · exact closes_giveUp h
  · exact closes_giveUp h

theorem closes_doTimedWait {t : Int} (h : doTimedWait k env p t = .ok (n, k')) : Closes none k n k' := by
  unfold doTimedWait at h
  split at h
  · exact closes_retCode h (.refl k)
  split at h
  · simp only [Except.ok.injEq, Prod.mk.injEq] at h
    rw [← h.1, ← h.2]
    exact .roundRobin rfl
  · exact closes_giveUp h

theorem closes_doSuspend {id : ProcId} (h : doSuspend k id = .ok (n, k')) : Closes none k n k' := by
  unfold doSuspend at h
  split at h
  · exact closes_retCode h (.refl k)
  split at h
  · exact closes_retCode h (.refl k)
  split at h
  · exact closes_retCode h (.refl k)
  split at h
  · exact closes_retCode h (.refl k)
  exact closes_giveUp h

theorem closes_doResume {id : ProcId} (h : doResume k id = .ok (n, k')) : Closes none k n k' := by
  unfold doResume at h
  split at h
  · exact closes_retCode h (.refl k)
  split at h
  · exact closes_retCode h (.refl k)
  split at h
  · exact closes_retCode h (.refl k)
  split at h
  · exact closes_retCode h (.refl k)
  split at h
  · obtain ⟨k₁, -, h⟩ := except_bind_eq_ok.mp h
    exact closes_giveUp h
  · exact closes_giveUp h

theorem closes_doStop {id : ProcId} (h : doStop k id = .ok (n, k')) : Closes none k n k' := by
  unfold doStop at h
  split at h
  · exact closes_retCode h (.refl k)
  split at h
  · exact closes_retCode h (.refl k)
  split at h
  · obtain ⟨k₁, -, h⟩ := except_bind_eq_ok.mp h
    exact closes_giveUp h
  · exact closes_giveUp h

/-! ### All services -/

/-- A service on a buffer or a blackboard. -/
theorem closes_commCall {s : Service} {c : CommCall} (hcall : s.commCall = some c) (hport : c.portWakes k = none)
    (h : doSyscall k env p s = .ok (n, k')) : Closes none k n k' := by
  rcases doSyscall_of_commCall k env p hcall with ⟨code, hret⟩ | henter
  · exact closes_retCode (hret.symm.trans h) (.refl k)
  · exact closes_buffer (closes_commEnter (henter.symm.trans h)) hport

/-- **How a service call ends**, up to its return or its first `sched_proc_give_up`. -/
theorem closes_doSyscall {s : Service} (hr : Registered k) (h : doSyscall k env p s = .ok (n, k')) :
    Closes (s.wakes k) k n k' := by
  cases hasks : s.asks with
  | true =>
      have hwakes : s.wakes k = none := by cases s <;> first | rfl | cases hasks
      rw [hwakes]
      exact (silent_doSyscall hasks env p).closes h
  | false =>
      cases s with
      | setPartitionMode m => exact closes_doSetPartitionMode h
      | createProcess a => exact closes_doCreateProcess hr h
      | setPriority id pri =>
          simp only [doSyscall, doSetPriority] at h
          split at h
          · exact closes_retCode h (.refl k)
          split at h
          · exact closes_retCode h (.refl k)
          · exact closes_giveUp h
      | suspendSelf t => exact closes_doSuspendSelf h
      | suspend id => exact closes_doSuspend h
      | resume id => exact closes_doResume h
      | stopSelf => exact closes_giveUp h
      | stop id => exact closes_doStop h
      | start id => exact closes_doDelayedStart h
      | delayedStart id t => exact closes_doDelayedStart h
      | timedWait t => exact closes_doTimedWait h
      | createQueuingPort name sz nb dir disc => exact closes_doCreateQueuingPort h
      | sendQueuingMessage port a len t => exact closes_doSendQueuingMessage h
      | receiveQueuingMessage port t a => exact closes_doReceiveQueuingMessage h
      | clearQueuingPort port => exact closes_doClearQueuingPort h
      | createBuffer name sz nb disc => exact closes_doCreateBuffer h
      | sendBuffer b a len t => exact closes_commCall rfl rfl h
      | receiveBuffer b t a => exact closes_commCall rfl rfl h
      | createBlackboard name sz => exact closes_doCreateBlackboard h
      | displayBlackboard b a len => exact closes_doDisplayBlackboard h
      | readBlackboard b t a => exact closes_commCall rfl rfl h
      | clearBlackboard b =>
          simp only [doSyscall, doClearBlackboard] at h
          split at h
          · exact closes_retCode h (.refl k)
          · exact closes_retCode h (.of_procs rfl rfl rfl rfl)
      | _ => cases hasks

end Jrinx
