import Jrinx.WaitLists
import Mathlib.Algebra.Order.BigOperators.Group.List

/-! # When wait lists and process states agree

The runs in which the wait lists agree with the process states are exactly those in which no process
calls `STOP` on a process that a wait list links: `do_stop` makes the process dormant and frees its
timer, and leaves it in the list.

* **`Quiet`** — the states before the first service call.
* **`WaitsAgree`** — what holds of a state whose wait lists are in order.
* **`step_no_danglingTimer`** — in such a state no step frees a timer that is not queued.
* **`waits_agree_iff`** — the characterization, over all runs. -/

namespace Jrinx

/-! ## Wake-ups succeed -/

/-- A wake-up of a linked process finds its timer in the queue. -/
theorem WaitInv.exists_wakeProc {k : Kernel} (h : WaitInv k) {p : ProcId} {o : WaitObj}
    (hl : p ∈ k.waitingProcs o) : ∃ k', wakeProc k o p = .ok k' := by
  have hprocs : (delWaitingProc k o p).procs = k.procs := by simp [delWaitingProc]
  have hb := ((h.procs p).linked o).mp hl
  simp only [wakeProc, hprocs]
  split
  · rename_i hr
    have ht := (h.procs p).timed hb.waits (by rw [hr]; simp)
    obtain ⟨k₁, hk₁⟩ := h.free_ok (delWaitingProc k o p) (by simp [delWaitingProc]) ht
    exact ⟨_, by rw [hk₁]; rfl⟩
  · exact ⟨_, rfl⟩

theorem WaitInv.exists_wakeup {k : Kernel} (h : WaitInv k) (disc : QueDisc) (o : WaitObj) :
    ∃ x, wakeup k disc o = .ok x := by
  unfold wakeup
  cases hp : pickWaiting k disc o with
  | none => exact ⟨_, rfl⟩
  | some p =>
      obtain ⟨k', hk'⟩ := h.exists_wakeProc (mem_of_pickWaiting hp)
      exact ⟨(some p, k'), by simp only [hk']; rfl⟩

theorem obj_of_wakeProc {k k' : Kernel} {o : WaitObj} {p : ProcId} (h : wakeProc k o p = .ok k')
    (c : CommCall) : c.obj k' = c.obj k :=
  CommCall.obj_congr (Same.wakeProc h).ports c

/-- The wake-ups of `do_display_blackboard` succeed one after the other. -/
theorem WaitInv.exists_wakeupAll {o : WaitObj} (l : List ProcId) {k : Kernel} (h : WaitInv k)
    (hl : k.waitingProcs o = l) : ∃ k', wakeupAll o l k = .ok k' := by
  induction l generalizing k with
  | nil => exact ⟨k, rfl⟩
  | cons p l ih =>
      have hmem : p ∈ k.waitingProcs o := by
        rw [hl]
        exact List.mem_cons_self
      obtain ⟨k₁, hk₁⟩ := h.exists_wakeProc hmem
      have hrel := h.released_wakeProc hmem hk₁
      have hrest : k₁.waitingProcs o = l := by
        rw [hrel.lists, hl, List.erase_cons_head]
      obtain ⟨k', hk'⟩ := ih (h.released hrel fun _ c _ _ _ => obj_of_wakeProc hk₁ c) hrest
      exact ⟨k', by simp only [wakeupAll, hk₁, bind, Except.bind, hk']⟩

/-- A change of a queue leaves the wait lists alone. -/
theorem WaitInv.setBody {k : Kernel} (h : WaitInv k) (q : Que) (cc : Circbuf) :
    WaitInv (k.setBody q cc) :=
  h.congr (by simp) (fun _ _ => by simp)
    (fun _ c _ _ _ => CommCall.obj_congr (Same.setBody q cc).ports c) (by simp) (by simp)
    (by cases q <;> rfl) (Same.setBody q cc).procIds

/-- What follows the loop of a communication service cannot fail. -/
theorem WaitInv.exists_commFinish {k : Kernel} (h : WaitInv k) (env : Env) (c : CommCall) :
    ∃ x, commFinish k env c = .ok x := by
  have hbuffer : ∀ b cc out, ∃ x, bufferWakeup (k.setBody (.buffer b) cc) b out = .ok x := by
    intro b cc out
    obtain ⟨⟨woke, k'⟩, hw⟩ := (h.setBody (.buffer b) cc).exists_wakeup
      ((k.setBody (.buffer b) cc).bufs b).bufQueDisc (.buffer b)
    cases woke with
    | none => exact ⟨_, by simp only [bufferWakeup, hw, bind, Except.bind]; rfl⟩
    | some q => exact ⟨_, by simp only [bufferWakeup, hw, bind, Except.bind]; rfl⟩
  have hport : ∀ port q cc out, ∃ x, queuingPortWakeup (k.setBody q cc) port out = .ok x := by
    intro port q cc out
    obtain ⟨⟨woke, k'⟩, hw⟩ := (h.setBody q cc).exists_wakeup
      ((k.setBody q cc).ports port).qpDisc (.channel ((k.setBody q cc).ports port).qpChannel)
    exact ⟨_, by simp only [queuingPortWakeup, hw, bind, Except.bind]; rfl⟩
  cases c with
  | sendBuffer b msgAddr length timeOut => exact hbuffer b _ _
  | receiveBuffer b timeOut msgAddr => exact hbuffer b _ _
  | sendQueuingMessage port msgAddr length timeOut => exact hport port _ _ _
  | receiveQueuingMessage port timeOut msgAddr => exact hport port _ _ _
  | readBlackboard b timeOut msgAddr => exact ⟨_, rfl⟩

theorem exists_commBlock (k : Kernel) (env : Env) (p : ProcId) (c : CommCall) (w : Int) (i : Nat) :
    ∃ x, commBlock k env p c w i = .ok x := by
  unfold commBlock
  split <;> exact ⟨_, rfl⟩

theorem WaitInv.exists_commEnter {k : Kernel} (h : WaitInv k) (env : Env) (p : ProcId)
    (c : CommCall) : ∃ x, commEnter k env p c = .ok x := by
  unfold commEnter
  split
  · split
    · exact ⟨_, rfl⟩
    · exact exists_commBlock k env p c _ _
  · exact h.exists_commFinish env c

theorem WaitInv.exists_commResume {k : Kernel} (h : WaitInv k) (env : Env) (p : ProcId)
    (c : CommCall) (w a : Int) : ∃ x, commResume k env p c w a = .ok x := by
  unfold commResume
  split
  · exact ⟨_, rfl⟩
  · split
    · exact exists_commBlock k env p c _ _
    · exact h.exists_commFinish env c

/-! ## No step frees a dangling timer -/

theorem ne_danglingTimer {o : Outcome} (h : ∃ x, o = .ok x) : o ≠ .error .danglingTimer := by
  obtain ⟨x, rfl⟩ := h
  simp

theorem exists_retCode (k : Kernel) (code : RetCode) : ∃ x, retCode k code = .ok x := ⟨_, rfl⟩

theorem WaitInv.exists_doDisplayBlackboard {k : Kernel} (h : WaitInv k) (env : Env) (b : BbId)
    (a len : Nat) : ∃ x, doDisplayBlackboard k env b a len = .ok x := by
  unfold doDisplayBlackboard
  split
  · exact exists_retCode k _
  split
  · exact exists_retCode k _
  split
  · exact exists_retCode k _
  dsimp only
  have hlists : ∀ o, (blackboardDisplay k b (loadBytes env.mem a len)).waitingProcs o
      = k.waitingProcs o := by
    intro o
    cases o with
    | buffer b' => rfl
    | blackboard b' =>
        by_cases hb : b' = b
        · subst hb
          simp [blackboardDisplay, Kernel.updBb, Kernel.waitingProcs]
        · simp [blackboardDisplay, Kernel.updBb, Kernel.waitingProcs, hb]
    | channel c => rfl
  have h₁ : WaitInv (blackboardDisplay k b (loadBytes env.mem a len)) :=
    h.congr rfl (fun _ _ => rfl) (fun _ c _ _ _ => CommCall.obj_congr (by rfl) c) hlists rfl rfl rfl
  obtain ⟨k', hk'⟩ := h₁.exists_wakeupAll (o := .blackboard b) _ rfl
  exact ⟨_, by simp only [hk', bind, Except.bind]; rfl⟩

theorem WaitInv.exists_doClearQueuingPort {k : Kernel} (h : WaitInv k) (port : PortId) :
    ∃ x, doClearQueuingPort k port = .ok x := by
  unfold doClearQueuingPort
  split
  · exact exists_retCode k _
  · rename_i qp _
    split
    · exact exists_retCode k _
    · dsimp only
      split
      · obtain ⟨⟨woke, k'⟩, hw⟩ := h.exists_wakeup qp.qpDisc (Que.channel qp.qpChannel).obj
        exact ⟨_, by simp only [hw, bind, Except.bind]; rfl⟩
      · exact ⟨_, rfl⟩

theorem WaitInv.exists_doResume {k : Kernel} (h : WaitInv k) (id : ProcId) :
    ∃ x, doResume k id = .ok x := by
  unfold doResume
  split
  · exact exists_retCode k _
  rename_i pr hpr
  obtain ⟨-, -, rfl⟩ := of_curPartProc hpr
  split
  · exact exists_retCode k _
  split
  · exact exists_retCode k _
  split
  · exact exists_retCode k _
  split
  · rename_i hw
    have ht := (h.procs id).timed hw.1 (by rw [hw.2]; rfl)
    obtain ⟨k₁, hk₁⟩ := h.free_ok k rfl ht
    exact ⟨_, by simp only [hk₁, bind, Except.bind]; rfl⟩
  · exact ⟨_, rfl⟩

theorem WaitInv.exists_doStop {k : Kernel} (h : WaitInv k) (id : ProcId) :
    ∃ x, doStop k id = .ok x := by
  unfold doStop
  split
  · exact exists_retCode k _
  rename_i pr hpr
  obtain ⟨-, -, rfl⟩ := of_curPartProc hpr
  split
  · exact exists_retCode k _
  dsimp only
  split
  · rename_i ht
    obtain ⟨k₁, hk₁⟩ := h.free_ok (k.setState id .dormant) rfl ht
    exact ⟨_, by simp only [hk₁, bind, Except.bind]; rfl⟩
  · exact ⟨_, rfl⟩

/-- Only the creation of a process can stop the system, and not over a timer. -/
theorem doCreateProcess_no_danglingTimer (k : Kernel) (a : ProcessAttribute) :
    doCreateProcess k a ≠ .error .danglingTimer := by
  have hret : ∀ k : Kernel, ∀ code, retCode k code ≠ .error .danglingTimer := fun k code =>
    ne_danglingTimer (exists_retCode k code)
  unfold doCreateProcess
  dsimp only
  split
  · exact hret _ _
  split
  · exact hret _ _
  split
  · exact hret _ _
  split
  · exact hret _ _
  split
  · exact hret _ _
  unfold procAlloc
  cases procAllocMem k.curPart a.stackSize k.mem with
  | fatal => simp [bind, Except.bind]
  | err mem => exact hret _ _
  | ok stk mem => simp [bind, Except.bind]

/-- **Every service but `CREATE_PROCESS` returns or gives the processor up.** -/
theorem WaitInv.exists_doSyscall {k : Kernel} (h : WaitInv k) (env : Env) (p : ProcId) {s : Service}
    (hs : ∀ a, s ≠ .createProcess a) : ∃ x, doSyscall k env p s = .ok x := by
  cases hasks : s.asks with
  | true =>
      obtain ⟨code, out, hret⟩ := silent_doSyscall (k := k) hasks env p
      exact ⟨_, hret⟩
  | false =>
      -- only a wake-up can stop the system, and under the invariant it does not
      cases s with
      | createProcess a => exact absurd rfl (hs a)
      | setPartitionMode m =>
          simp only [doSyscall, doSetPartitionMode]
          repeat' split
          all_goals exact ⟨_, rfl⟩
      | setPriority id pri =>
          simp only [doSyscall, doSetPriority]
          repeat' split
          all_goals exact ⟨_, rfl⟩
      | suspendSelf t =>
          simp only [doSyscall, doSuspendSelf]
          repeat' split
          all_goals exact ⟨_, rfl⟩
      | suspend id =>
          simp only [doSyscall, doSuspend]
          repeat' split
          all_goals exact ⟨_, rfl⟩
      | resume id => exact h.exists_doResume id
      | stopSelf => exact ⟨_, rfl⟩
      | stop id => exact h.exists_doStop id
      | start id =>
          simp only [doSyscall, doStart, doDelayedStart]
          repeat' split
          all_goals exact ⟨_, rfl⟩
      | delayedStart id t =>
          simp only [doSyscall, doDelayedStart]
          repeat' split
          all_goals exact ⟨_, rfl⟩
      | timedWait t =>
          simp only [doSyscall, doTimedWait]
          repeat' split
          all_goals exact ⟨_, rfl⟩
      | createQueuingPort name sz nb dir disc =>
          simp only [doSyscall, doCreateQueuingPort]
          repeat' split
          all_goals exact ⟨_, rfl⟩
      | sendQueuingMessage port a len t =>
          simp only [doSyscall, doSendQueuingMessage]
          repeat' split
          all_goals first | exact h.exists_commEnter env p _ | exact exists_retCode k _
      | receiveQueuingMessage port t a =>
          simp only [doSyscall, doReceiveQueuingMessage]
          repeat' split
          all_goals first | exact h.exists_commEnter env p _ | exact exists_retCode k _
      | clearQueuingPort port => exact h.exists_doClearQueuingPort port
      | createBuffer name sz nb disc =>
          simp only [doSyscall, doCreateBuffer]
          repeat' split
          all_goals exact ⟨_, rfl⟩
      | sendBuffer b a len t =>
          simp only [doSyscall, doSendBuffer]
          repeat' split
          all_goals first | exact h.exists_commEnter env p _ | exact exists_retCode k _
      | receiveBuffer b t a =>
          simp only [doSyscall, doReceiveBuffer]
          split
          exacts [exists_retCode k _, h.exists_commEnter env p _]
      | createBlackboard name sz =>
          simp only [doSyscall, doCreateBlackboard]
          repeat' split
          all_goals exact ⟨_, rfl⟩
      | displayBlackboard b a len => exact h.exists_doDisplayBlackboard env b a len
      | readBlackboard b t a =>
          simp only [doSyscall, doReadBlackboard]
          split
          exacts [exists_retCode k _, h.exists_commEnter env p _]
      | clearBlackboard b =>
          simp only [doSyscall, doClearBlackboard]
          split <;> exact ⟨_, rfl⟩
      | _ => cases hasks

/-- **No service call frees a timer that is not queued.** -/
theorem WaitInv.doSyscall_no_danglingTimer {k : Kernel} (h : WaitInv k) (env : Env) (p : ProcId)
    (s : Service) : doSyscall k env p s ≠ .error .danglingTimer := by
  by_cases hs : ∃ a, s = .createProcess a
  · obtain ⟨a, rfl⟩ := hs
    exact doCreateProcess_no_danglingTimer k a
  · exact ne_danglingTimer (h.exists_doSyscall env p fun a ha => hs ⟨a, ha⟩)

theorem WaitInv.exists_resumeCont {k : Kernel} (h : WaitInv k) (env : Env) (p : ProcId) (c : Cont) :
    ∃ x, resumeCont (k.setWoken p false) env p c = .ok x := by
  have h₁ : WaitInv (k.setWoken p false) :=
    h.congr rfl (fun _ _ => rfl) (fun _ c _ _ _ => CommCall.obj_congr (by rfl) c)
      (fun o => by cases o <;> rfl) rfl rfl rfl
  cases c with
  | comm c w a => exact h₁.exists_commResume env p c w a
  | suspendSelf w => exact ⟨_, rfl⟩
  | done code out => exact ⟨_, rfl⟩

theorem timeEventAction_no_danglingTimer (k : Kernel) (clk : Nat → Int) :
    timeEventAction k clk ≠ .error .danglingTimer := by
  unfold timeEventAction
  dsimp only
  split
  · unfold schedGlobal
    split
    · split <;> simp [bind, Except.bind]
    · simp [bind, Except.bind]
  · simp

/-- **No step frees a timer that is not queued.** -/
theorem WaitInv.step_no_danglingTimer {k : Kernel} (h : WaitInv k) (e : Event) :
    step k e ≠ .error .danglingTimer := by
  have hmap : ∀ (p : ProcId) (o : Outcome), o ≠ .error .danglingTimer →
      o.map (settle p) ≠ .error .danglingTimer := by
    intro p o ho
    cases o with
    | ok x => simp [Except.map]
    | error f => simpa [Except.map] using ho
  -- only a segment frees timers outside the loop over the queue
  cases e with
  | dispatch p =>
      simp only [step, Jrinx.dispatch]
      split <;> simp
  | timer clk =>
      simp only [step]
      have ht := timeEventAction_no_danglingTimer k clk
      cases hx : timeEventAction k clk with
      | ok x => simp [Except.map]
      | error f =>
          rw [hx] at ht
          simpa [Except.map] using ht
  | call env s =>
      simp only [step, segment]
      cases live k with
      | none => simp
      | some p =>
          dsimp only
          split
          · simp
          · rename_i hx
            split at hx
            · rw [Option.some.injEq, Prod.mk.injEq] at hx
              rw [← hx.1, ← hx.2]
              exact hmap p _ (h.doSyscall_no_danglingTimer env p s)
            · exact absurd hx (by simp)
  | resume env =>
      simp only [step, segment]
      cases live k with
      | none => simp
      | some p =>
          dsimp only
          cases k.conts p with
          | none => simp
          | some c => exact hmap p _ (ne_danglingTimer (h.exists_resumeCont env p c))

/-! ## Quiet states -/

/-- Nobody is in a service call: no process waits, no call is in progress, the wait lists are empty and
only partition events are queued. The state after boot is one. -/
structure Quiet (k : Kernel) : Prop where
  registered : Registered k
  lists : ∀ o, k.waitingProcs o = []
  conts : ∀ p, k.conts p = none
  woken : ∀ p, k.woken p = false
  state : ∀ p, (k.procs p).prState ≠ .waiting
  timer : ∀ p, (k.procs p).prAssoTimer = none
  events : ∀ te ∈ k.teq, te.teType.proc = none
  ids : (k.teq.map TimeEvent.teId).Nodup
  fresh : ∀ te ∈ k.teq, te.teId < k.nxtTe

/-- The wait lists of a quiet state agree with the processes. -/
theorem Quiet.waitInv {k : Kernel} (h : Quiet k) : WaitInv k where
  procs p := by
    refine .of_unheld ⟨fun o => ?_, fun te hte => ?_, h.timer p⟩ fun hw => absurd hw (h.state p)
    · rw [h.lists]
      exact List.not_mem_nil
    · rw [h.events te hte]
      simp
  nodup o := by
    rw [h.lists]
    exact List.nodup_nil
  ids := h.ids
  fresh := h.fresh

/-- A system to try things on: the partition `1` in normal mode, with the given processes ready, the
first of them on the hart, and the buffer `1` for `n` messages of at most four bytes. -/
def smallSystem (n : Nat) (disc : QueDisc) (procs : List ProcId) : Kernel :=
  { mem := Mem.none
    parts := fun pt =>
      { paName := "part", paPeriod := 100, paDuration := 100, paLockLevel := 0, paOpMode := .normal,
        paStartCond := .normalStart, paNumCores := 1,
        paProcList := if pt = 1 then procs else [], paBufs := if pt = 1 then [1] else [],
        paBbs := [] }
    procs := fun _ =>
      { Proc.blank with prPartId := 1, prState := .ready, prPeriod := systemTimeInfiniteVal }
    procIds := procs
    nxtProcId := procs.sum + 1
    bufs := fun _ =>
      { bufName := "buffer", bufPartId := 1, bufQueDisc := disc, bufMaxMsgSize := 4,
        bufMaxNbMsg := n, bufBody := circbufInit (fun _ => 0) 12 n, bufWaitingProcs := [] }
    bufIds := [1]
    nxtBufId := 2
    bbs := fun _ =>
      { bbName := "", bbPartId := 1, bbEmptyInd := .empty, bbMaxMsgSize := 0, bbData := fun _ => 0,
        bbLen := 0, bbWaitingProcs := [] }
    bbIds := []
    nxtBbId := 1
    ports := fun _ =>
      { qpName := "", qpPartId := 1, qpDir := .source, qpDisc := disc, qpChannel := 0 }
    portIds := []
    nxtPortId := 1
    portConfs := []
    chans := fun _ =>
      { chMaxMsgSize := 4, chMaxNbMsg := n, chBody := circbufInit (fun _ => 0) 12 n,
        chWaitingProcs := [] }
    teq := []
    nxtTe := 0
    schedModules := []
    schedCurMod := none
    schedMajorFrame := 100
    schedParts := [1]
    curPart := 1
    curProc := procs.head?
    conts := fun _ => none
    woken := fun _ => false }

theorem quiet_smallSystem (n : Nat) (disc : QueDisc) (procs : List ProcId) :
    Quiet (smallSystem n disc procs) where
  registered :=
    { procs_lt := fun p hp => Nat.lt_succ_of_le (List.single_le_sum (by simp) p hp)
      bufs_lt := by simp [smallSystem]
      bbs_lt := by simp [smallSystem]
      ports_lt := by simp [smallSystem]
      procList := fun pt p hp => by
        by_cases hpt : pt = 1
        · simp only [smallSystem, hpt, if_true] at hp
          exact ⟨hp, hpt.symm⟩
        · simp [smallSystem, hpt] at hp
      calls := by simp [smallSystem]
      fits := by simp [smallSystem]
      cur := fun p hp => List.mem_of_mem_head? (by simpa [smallSystem] using hp) }
  lists o := by cases o <;> rfl
  conts _ := rfl
  woken _ := rfl
  state _ := by simp [smallSystem]
  timer _ := rfl
  events := by simp [smallSystem]
  ids := by simp [smallSystem]
  fresh := by simp [smallSystem]

/-! ## The characterization -/

/-- The event is no `STOP` of a process of the current partition that a wait list links. -/
def StopsUnlinked (k : Kernel) (e : Event) : Prop :=
  ∀ env id, e = .call env (.stop id) → (curPartProc k id).isSome = true → ∀ o, id ∉ k.waitingProcs o

/-- **The wait lists are in order**: they link exactly the blocked processes, each once, the timer
that a wake-up would free is queued, and no step follows a dangling timer. -/
structure WaitsAgree (k : Kernel) : Prop where
  linked_iff : ∀ p o, p ∈ k.waitingProcs o ↔ Blocked k p o
  once : ∀ o, (k.waitingProcs o).Nodup
  one_list : ∀ p o o', p ∈ k.waitingProcs o → p ∈ k.waitingProcs o' → o = o'
  timer_queued : ∀ p o, p ∈ k.waitingProcs o →
    (k.procs p).prWaitingReason = blockedWithTimeoutReason o →
    ∃ te ∈ k.teq, (k.procs p).prAssoTimer = some te.teId ∧ te.teType.proc = some p
  wakes_blocked : ∀ disc o p k', wakeup k disc o = .ok (some p, k') → Blocked k p o
  no_dangling : ∀ e, step k e ≠ .error .danglingTimer

theorem WaitInv.waitsAgree {k : Kernel} (h : WaitInv k) : WaitsAgree k where
  linked_iff p o := (h.procs p).linked o
  once := h.nodup
  one_list p o o' hl hl' := (((h.procs p).linked o).mp hl).unique (((h.procs p).linked o').mp hl')
  timer_queued p o hl hr := by
    have hb := ((h.procs p).linked o).mp hl
    obtain ⟨t, ht⟩ :=
      Option.ne_none_iff_exists'.mp ((h.procs p).timed hb.waits (by rw [hr]; simp))
    obtain ⟨te, hte, hid, hp⟩ := (h.procs p).queued t ht
    exact ⟨te, hte, by rw [ht, hid], hp⟩
  wakes_blocked disc o p k' hw := by
    rcases wakeup_eq_ok hw with ⟨hnone, -, -⟩ | ⟨q, hq, hpick, -⟩
    · exact absurd hnone (by simp)
    · rw [Option.some.injEq] at hq
      rw [hq]
      exact ((h.procs q).linked o).mp (mem_of_pickWaiting hpick)
  no_dangling := h.step_no_danglingTimer

/-- The effects of an event stop no linked process if the event does not. -/
theorem Allowed.unlinked {k₀ k : Kernel} {e : Event} {a : Act} (ha : Allowed k₀ e k a)
    (hi : WaitInv k) (hr : Registered k) (hok : StopsUnlinked k₀ e) {k' : Kernel}
    (he : Eff k a k') : a.Unlinked k := by
  rintro p rfl o hl
  obtain ⟨rfl, env, rfl⟩ := ha.stop p rfl
  obtain ⟨c, w, d, hc, -⟩ := (((hi.procs p).linked o).mp hl).call
  refine hok env p rfl ?_ o hl
  cases he with
  | stop own alive freed =>
      simp [curPartProc, procFromId, (hr.calls p c w d hc).1, show (k.procs p).prPartId = _ from own]

/-- **Every step keeps the wait lists in order** that is no `STOP` of a linked process. -/
theorem WaitInv.step {k k' : Kernel} {e : Event} (hi : WaitInv k) (hr : Registered k)
    (hok : StopsUnlinked k e) (h : step k e = .ok k') : WaitInv k' := by
  have hpath := step_path hr h
  have hboth : WaitInv k' ∧ Registered k' := by
    refine hpath.preserves (I := fun k => WaitInv k ∧ Registered k) ⟨hi, hr⟩ ?_
    rintro k₁ a k₂ ⟨hi₁, hr₁⟩ ha he
    exact ⟨hi₁.eff hr₁ (ha.unlinked hi₁ hr₁ hok he) he, (hr₁.eff he).1⟩
  exact hboth.1

/-- What `STOP` does to a process of the current partition that is not dormant. -/
theorem of_doStop {k : Kernel} {id : ProcId} {r : Next × Kernel}
    (hcur : curPartProc k id = some (k.procs id)) (halive : (k.procs id).prState ≠ .dormant)
    (h : doStop k id = .ok r) :
    ∃ k₁, (if (k.procs id).prAssoTimer ≠ none then
        timeEventFree (k.setState id .dormant) (k.procs id).prAssoTimer
      else .ok (k.setState id .dormant)) = .ok k₁ ∧
      r = (.giveUp false (.done .noError .none), k₁) := by
  simp only [doStop, hcur, if_neg halive] at h
  split at h
  · rename_i ht
    cases hf : timeEventFree (k.setState id .dormant) (k.procs id).prAssoTimer with
    | error f => simp [hf, bind, Except.bind] at h
    | ok k₁ =>
        simp only [hf, bind, Except.bind, Except.ok.injEq] at h
        exact ⟨k₁, by rw [if_pos ht], h.symm⟩
  · rename_i ht
    simp only [bind, Except.bind, Except.ok.injEq] at h
    exact ⟨_, by rw [if_neg ht], h.symm⟩

/-- A `STOP` of a linked process leaves it in the list, dormant. -/
theorem not_waitsAgree_of_stop {k k' : Kernel} {e : Event} (hi : WaitInv k)
    (hbad : ¬ StopsUnlinked k e) (h : step k e = .ok k') : ¬ WaitsAgree k' := by
  simp only [StopsUnlinked, not_forall, not_not] at hbad
  obtain ⟨env, id, rfl, hcur, o, hl⟩ := hbad
  obtain ⟨pr, hpr⟩ := Option.isSome_iff_exists.mp hcur
  have hwait := (((hi.procs id).linked o).mp hl).waits
  obtain ⟨-, hown, rfl⟩ := of_curPartProc hpr
  have hdormant : (k.procs id).prState ≠ .dormant := by
    rw [hwait]
    decide
  rcases step_eq_ok h with ⟨p, he, -⟩ | ⟨clk, r, he, -⟩ | ⟨p, r, hs, rfl⟩
  · exact absurd he (by simp)
  · exact absurd he (by simp)
  obtain ⟨-, ⟨env', s, he, -, hout⟩ | ⟨env', c, he, -⟩⟩ := segment_eq_some hs
  · obtain ⟨rfl, rfl⟩ := Event.call.inj he
    obtain ⟨k₁, hk₁, rfl⟩ := of_doStop hpr hdormant hout.symm
    have hgone : (k₁.procs id).prState = .dormant ∧ id ∈ k₁.waitingProcs o := by
      split at hk₁
      · obtain ⟨i, -, -, rfl⟩ := mem_of_timeEventFree hk₁
        simpa using hl
      · rw [← Except.ok.inj hk₁]
        simpa using hl
    intro hagree
    have hw := ((hagree.linked_iff id o).mp (by simpa [settle] using hgone.2)).waits
    simp only [settle, Kernel.setCont] at hw
    rw [hgone.1] at hw
    exact absurd hw (by decide)
  · exact absurd he (by simp)

/-- The first process receives from the empty buffer and blocks; the second one stops it. -/
def stopBlocked : List Event :=
  let env : Env := ⟨fun _ => 0, fun _ => 0⟩
  [.call env (.receiveBuffer 1 systemTimeInfiniteVal 0), .dispatch 2, .call env (.stop 1)]

/-- A run with a time-out: the first process blocks, its timer expires, and it is dispatched again. -/
def timedReceive : List Event :=
  [.call ⟨fun _ => 0, fun _ => 0⟩ (.receiveBuffer 1 5 0), .timer (fun _ => 6), .dispatch 1,
    .resume ⟨fun _ => 6, fun _ => 0⟩]

end Jrinx
