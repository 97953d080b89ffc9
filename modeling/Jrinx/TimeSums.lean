import Jrinx.Lib.Signed
import Jrinx.Timeouts

/-! # Time arithmetic in 64 bits

`sys_time_t` is a signed number of 64 bits, and the services add the times they are given to the clock
without a check. This file computes their sums in 64 bits, and lists them.

* **`TimeSum`** — a reading of the clock and what is added to it.
* **`doSyscall64`**, **`resumeCont64`** — the services that compute times, with the sums they compute.
* **`timeEventSetHead`** — what the timer is set to, in ticks.
* **`TimesFit`**, **`HeadFits`** — the arguments for which everything fits.
* **`times_exact_iff`** — sums and product are the mathematical ones iff they fit. -/

namespace Jrinx

variable {k k' : Kernel} {env : Env} {p : ProcId}

/-! ## Sums -/

/-- A sum of times: a reading of the clock, and the times that are added to it from left to right. -/
structure TimeSum where
  now : Int
  delays : List Int
  deriving DecidableEq, Repr

/-- What the code computes. -/
def TimeSum.value (x : TimeSum) : Int := sumSigned 64 x.now x.delays

/-- The mathematical sum. -/
def TimeSum.exact (x : TimeSum) : Int := x.now + x.delays.sum

/-- **A sum of times is right**: it is the mathematical one, and no delay leads into the past. -/
structure TimeSum.Right (x : TimeSum) : Prop where
  exact : x.value = x.exact
  later : (∀ d ∈ x.delays, 0 ≤ d) → x.now ≤ x.value

/-- The readings of the clock that the arithmetic is asked about. -/
def ClockInRange (now : Int) : Prop := 0 ≤ now ∧ now < 2 ^ 62

theorem ClockInRange.fits {now : Int} (h : ClockInRange now) : FitsSigned 64 now := by
  obtain ⟨hle, hlt⟩ := h
  constructor <;> omega

/-- A sum is right iff it fits. -/
theorem TimeSum.right_iff {x : TimeSum} (hnow : ClockInRange x.now) : x.Right ↔ FitsSigned 64 x.exact := by
  have hiff : x.value = x.exact ↔ FitsSigned 64 x.exact := sumSigned_eq_iff hnow.fits x.delays
  constructor
  · intro h
    exact hiff.mp h.exact
  · intro h
    refine ⟨hiff.mpr h, fun hd => ?_⟩
    have hsum : 0 ≤ x.delays.sum := List.sum_nonneg hd
    rw [hiff.mpr h, TimeSum.exact]
    omega

/-! ## The services

Each one with the sums that it computes, in their order. -/

/-- The sums that a segment computes, and its outcome. -/
abbrev Summed : Type := List TimeSum × Outcome

/-- `do_suspend_self`. -/
def doSuspendSelf64 (k : Kernel) (env : Env) (p : ProcId) (timeOut : Int) : Summed :=
  if procIsPeriod (k.procs p) then ([], retCode k .invalidMode)
  else if timeOut = 0 then ([], retCode k .noError)
  else if timeOut < systemTimeInfiniteVal then
    let wakeupTime : TimeSum := ⟨env.clk 0, [timeOut]⟩
    ([wakeupTime], .ok (.giveUp false (.suspendSelf wakeupTime.value),
      sleepUntil k p .suspendedWithTimeout wakeupTime.value (.processSuspendTimeout p)))
  else
    ([], .ok (.giveUp false (.done .noError .none), waitFor k p .suspended))

/-- `do_delayed_start`. -/
def doDelayedStart64 (k : Kernel) (env : Env) (id : ProcId) (delayTime : Int) : Summed :=
  match curPartProc k id with
  | none => ([], retCode k .invalidParam)
  | some pr =>
      if pr.prState ≠ .dormant then ([], retCode k .noAction)
      else if delayTime = systemTimeInfiniteVal then ([], retCode k .invalidParam)
      else if procIsPeriod pr ∧ pr.prPeriod ≤ delayTime then ([], retCode k .invalidParam)
      else
        let normal := (k.parts k.curPart).paOpMode = .normal
        let k := startReset k id
        if ¬ procIsPeriod pr then
          if normal then
            if delayTime = 0 then
              let k := k.setState id .ready
              let deadlineTime : TimeSum := ⟨env.clk 0, [(k.procs id).prTimeCap]⟩
              ([deadlineTime], .ok (.giveUp false (.done .noError .none), k.updProc id fun pr =>
                { pr with prDeadlineTime := deadlineTime.value }))
            else
              let wakeupTime : TimeSum := ⟨env.clk 0, [delayTime]⟩
              let k := sleepUntil k id .delayedStarted wakeupTime.value (.processDelayedStart id)
              let deadlineTime : TimeSum := ⟨env.clk 1, [(k.procs id).prTimeCap, delayTime]⟩
              ([wakeupTime, deadlineTime], .ok (.giveUp false (.done .noError .none), k.updProc id fun pr =>
                { pr with prDeadlineTime := deadlineTime.value }))
          else
            ([], retCode (waitFor k id .previousStarted) .noError)
        else
          ([], retCode (waitFor k id (if normal then .delayedStarted else .previousStarted)) .noError)

/-- `do_timed_wait`. -/
def doTimedWait64 (k : Kernel) (env : Env) (p : ProcId) (delayTime : Int) : Summed :=
  if delayTime = systemTimeInfiniteVal then ([], retCode k .invalidParam)
  else if delayTime = 0 then ([], .ok (.giveUp true (.done .noError .none), k))
  else
    let wakeupTime : TimeSum := ⟨env.clk 0, [delayTime]⟩
    ([wakeupTime], .ok (.giveUp false (.done .noError .none),
      sleepUntil k p .timedWaitTimeout wakeupTime.value (.processTimedWaitTimeout p)))

/-- One round of the loop of a blocking service: `do_receive_queuing_message` computes its deadline once
more, also for an infinite time-out. -/
def commBlock64 (k : Kernel) (env : Env) (p : ProcId) (c : CommCall) (wakeup : Int) (i : Nat) : Summed :=
  if c.timeOut ≠ systemTimeInfiniteVal ∧ wakeup ≤ env.clk i then
    ([], .ok (.ret .timedOut c.failOut, k))
  else
    match c with
    | .receiveQueuingMessage _ timeOut _ =>
        let wakeupTime : TimeSum := ⟨env.clk (i + 1), [timeOut]⟩
        ([wakeupTime], .ok (.giveUp false (.comm c wakeup wakeupTime.value), commWait k p c wakeupTime.value))
    | _ => ([], .ok (.giveUp false (.comm c wakeup wakeup), commWait k p c wakeup))

/-- The deadline that a blocking service computes when it is entered, and its first round. -/
def commEnter64 (k : Kernel) (env : Env) (p : ProcId) (c : CommCall) : Summed :=
  if mustWait k c then
    if c.timeOut = 0 then ([], .ok (.ret .notAvailable c.failOut, k))
    else
      let wakeupTime : TimeSum := ⟨env.clk 0, [c.timeOut]⟩
      let block := commBlock64 k env p c wakeupTime.value 1
      (wakeupTime :: block.1, block.2)
  else ([], commFinish k env c)

/-- A blocking service from the return of `sched_proc_give_up` on. -/
def commResume64 (k : Kernel) (env : Env) (p : ProcId) (c : CommCall) (wakeup armed : Int) : Summed :=
  if c.timeOut ≠ systemTimeInfiniteVal ∧ armed ≤ env.clk 0 then
    ([], .ok (.ret .timedOut c.failOut, k))
  else if mustWait k c then commBlock64 k env p c wakeup 1
  else ([], commFinish k env c)

/-- The call of a blocking service that passes its checks. -/
def passed (k : Kernel) : Service → Option CommCall
  | .sendBuffer b msgAddr length timeOut =>
      match curBuffer k b with
      | none => none
      | some buf =>
          if buf.bufMaxMsgSize < length ∨ length = 0 then none else some (.sendBuffer b msgAddr length timeOut)
  | .receiveBuffer b timeOut msgAddr => (curBuffer k b).map fun _ => .receiveBuffer b timeOut msgAddr
  | .sendQueuingMessage port msgAddr length timeOut =>
      match curQueuingPort k port with
      | none => none
      | some qp =>
          if (k.chans qp.qpChannel).chMaxMsgSize < length ∨ length = 0 ∨ qp.qpDir ≠ .source then none
          else some (.sendQueuingMessage port msgAddr length timeOut)
  | .receiveQueuingMessage port timeOut msgAddr =>
      match curQueuingPort k port with
      | none => none
      | some qp =>
          if qp.qpDir ≠ .destination then none else some (.receiveQueuingMessage port timeOut msgAddr)
  | .readBlackboard b timeOut msgAddr => (curBlackboard k b).map fun _ => .readBlackboard b timeOut msgAddr
  | _ => none

/-- A blocking service computes times once it has passed its checks; the rest computes none. -/
def doPassed64 (k : Kernel) (env : Env) (p : ProcId) (s : Service) : Summed :=
  match passed k s with
  | some c => commEnter64 k env p c
  | none => ([], doSyscall k env p s)

/-- `do_syscall`. -/
def doSyscall64 (k : Kernel) (env : Env) (p : ProcId) : Service → Summed
  | .suspendSelf t => doSuspendSelf64 k env p t
  | .start id => doDelayedStart64 k env id 0
  | .delayedStart id t => doDelayedStart64 k env id t
  | .timedWait t => doTimedWait64 k env p t
  | s => doPassed64 k env p s

/-- The rest of a service call. -/
def resumeCont64 (k : Kernel) (env : Env) (p : ProcId) : Cont → Summed
  | .comm c wakeup armed => commResume64 k env p c wakeup armed
  | cont => ([], resumeCont k env p cont)

/-- A segment of a service call: its first one, or one after `sched_proc_give_up`. -/
inductive Segment where
  | call (s : Service)
  | resume (cont : Cont)
  deriving DecidableEq, Repr

/-- The segment with exact times. -/
def Segment.run (k : Kernel) (env : Env) (p : ProcId) : Segment → Outcome
  | .call s => doSyscall k env p s
  | .resume cont => resumeCont k env p cont

/-- The segment with times of 64 bits, and its sums. -/
def Segment.run64 (k : Kernel) (env : Env) (p : ProcId) : Segment → Summed
  | .call s => doSyscall64 k env p s
  | .resume cont => resumeCont64 k env p cont

/-! ## The hardware timer -/

/-- `SYS_TIME_SECOND`. -/
def sysTimeSecond : Nat := 1000000

/-- `boottime_get_now`, of the counter `time` and the frequency it counts with. -/
def boottimeGetNow (freq time : Nat) : Int := if freq = 0 then 0 else (time / (freq / sysTimeSecond) : Nat)

/-- What `time_event_set_head` does to the timer. -/
inductive HeadTimer where
  /-- `sbi_set_timer`, with the counter at which the timer is to expire. -/
  | setTimer (stimeValue : Nat)
  /-- The interrupt is made pending at once. -/
  | pending
  deriving DecidableEq, Repr

/-- `time_event_set_head`: the product has 64 bits, which `sbi_set_timer` takes as unsigned. -/
def timeEventSetHead (freq time : Nat) : List TimeEvent → HeadTimer
  | [] => .setTimer (2 ^ 64 - 2)
  | te :: _ =>
      if te.teTime ≤ boottimeGetNow freq time then .pending
      else .setTimer (te.teTime * (freq / sysTimeSecond : Nat) % 2 ^ 64).toNat

/-- The product for the head of the queue is the mathematical one. -/
def HeadRight (freq time : Nat) (teq : List TimeEvent) : Prop :=
  ∀ te, teq.head? = some te → ∀ stimeValue, timeEventSetHead freq time teq = .setTimer stimeValue →
    (stimeValue : Int) = te.teTime * (freq / sysTimeSecond : Nat)

/-- **The product for the head of the queue fits**, unless the event is due. -/
def HeadFits (freq time : Nat) (teq : List TimeEvent) : Prop :=
  ∀ te, teq.head? = some te → boottimeGetNow freq time < te.teTime →
    te.teTime * (freq / sysTimeSecond : Nat) < 2 ^ 64

theorem boottimeGetNow_nonneg (freq time : Nat) : 0 ≤ boottimeGetNow freq time := by
  unfold boottimeGetNow
  split
  · exact le_rfl
  · exact Int.natCast_nonneg _

theorem headRight_iff {freq time : Nat} {teq : List TimeEvent} :
    HeadRight freq time teq ↔ HeadFits freq time teq := by
  unfold HeadRight HeadFits
  cases teq with
  | nil => simp
  | cons te tl =>
      simp only [List.head?_cons, Option.some.injEq, forall_eq', timeEventSetHead]
      by_cases hdue : te.teTime ≤ boottimeGetNow freq time
      · simp [hdue]
      · have hnow := boottimeGetNow_nonneg freq time
        have hpos : 0 ≤ te.teTime * (freq / sysTimeSecond : Nat) :=
          mul_nonneg (by omega) (Int.natCast_nonneg _)
        rw [if_neg hdue]
        generalize te.teTime * (freq / sysTimeSecond : Nat) = x at hpos
        constructor
        · intro hright _
          have hx : ((x % 2 ^ 64).toNat : Int) = x := hright _ rfl
          omega
        · intro hfits stimeValue hset
          have hlt : x < 2 ^ 64 := hfits (not_le.mp hdue)
          obtain rfl := HeadTimer.setTimer.inj hset
          omega

/-! ## Exact sums give exact times -/

theorem doSyscall_of_passed {s : Service} {c : CommCall} (h : passed k s = some c) :
    doSyscall k env p s = commEnter k env p c := by
  -- `passed` is the body of the service up to its last check
  cases s <;> simp only [passed, Option.map_eq_some_iff, reduceCtorEq] at h
  case sendBuffer b msgAddr length timeOut =>
    split at h
    · cases h
    next buf hbuf =>
      split at h
      · cases h
      next hcheck =>
        rw [not_or] at hcheck
        cases h
        simp only [doSyscall, doSendBuffer, hbuf, if_neg hcheck.1, if_neg hcheck.2]
  case receiveBuffer b timeOut msgAddr =>
    obtain ⟨buf, hbuf, rfl⟩ := h
    simp only [doSyscall, doReceiveBuffer, hbuf]
  case sendQueuingMessage port msgAddr length timeOut =>
    split at h
    · cases h
    next qp hqp =>
      split at h
      · cases h
      next hcheck =>
        rw [not_or, not_or] at hcheck
        cases h
        simp only [doSyscall, doSendQueuingMessage, hqp, if_neg hcheck.1, if_neg hcheck.2.1, if_neg hcheck.2.2]
  case receiveQueuingMessage port timeOut msgAddr =>
    split at h
    · cases h
    next qp hqp =>
      split at h
      · cases h
      next hdir =>
        cases h
        simp only [doSyscall, doReceiveQueuingMessage, hqp, if_neg hdir]
  case readBlackboard b timeOut msgAddr =>
    obtain ⟨bb, hbb, rfl⟩ := h
    simp only [doSyscall, doReadBlackboard, hbb]

/-- All sums of a segment are exact. -/
def Summed.Exact (r : Summed) : Prop := ∀ x ∈ r.1, x.value = x.exact

theorem doSuspendSelf64_eq {t : Int} (h : Summed.Exact (doSuspendSelf64 k env p t)) :
    (doSuspendSelf64 k env p t).2 = doSuspendSelf k env p t := by
  unfold doSuspendSelf64 doSuspendSelf at *
  split
  · rfl
  · split
    · rfl
    · split
      next hperiod hzero hfinite =>
        rw [if_neg hperiod, if_neg hzero, if_pos hfinite] at h
        have hvalue : TimeSum.value ⟨env.clk 0, [t]⟩ = env.clk 0 + t := by
          rw [h _ List.mem_cons_self, TimeSum.exact, List.sum_singleton]
        simp only [hvalue]
      · rfl

theorem doDelayedStart64_eq {id : ProcId} {t : Int} (h : Summed.Exact (doDelayedStart64 k env id t)) :
    (doDelayedStart64 k env id t).2 = doDelayedStart k env id t := by
  -- both functions branch in the same way, and sums stand only in the two innermost branches
  unfold doDelayedStart64 doDelayedStart at *
  cases hpr : curPartProc k id with
  | none => rfl
  | some pr =>
      simp only [hpr] at h ⊢
      split
      · rfl
      next hdormant =>
        rw [if_neg hdormant] at h
        split
        · rfl
        next hfinite =>
          rw [if_neg hfinite] at h
          split
          · rfl
          next hdelay =>
            rw [if_neg hdelay] at h
            split
            · next hperiod =>
                rw [if_pos hperiod] at h
                split
                · next hnormal =>
                    rw [if_pos hnormal] at h
                    split
                    · next hzero =>
                        rw [if_pos hzero] at h
                        rw [h _ List.mem_cons_self]
                        simp [TimeSum.exact, Kernel.updProc]
                    · next hzero =>
                        rw [if_neg hzero] at h
                        rw [h _ (List.mem_cons_of_mem _ List.mem_cons_self), h _ List.mem_cons_self]
                        simp [TimeSum.exact, Kernel.updProc, Int.add_assoc]
                · rfl
            · rfl

theorem doTimedWait64_eq {t : Int} (h : Summed.Exact (doTimedWait64 k env p t)) :
    (doTimedWait64 k env p t).2 = doTimedWait k env p t := by
  unfold doTimedWait64 doTimedWait at *
  split
  · rfl
  · split
    · rfl
    next hfinite hzero =>
      rw [if_neg hfinite, if_neg hzero] at h
      have hvalue : TimeSum.value ⟨env.clk 0, [t]⟩ = env.clk 0 + t := by
        rw [h _ List.mem_cons_self, TimeSum.exact, List.sum_singleton]
      simp only [hvalue]

theorem commBlock64_eq {c : CommCall} {w : Int} {i : Nat} (h : Summed.Exact (commBlock64 k env p c w i)) :
    (commBlock64 k env p c w i).2 = commBlock k env p c w i := by
  unfold commBlock64 commBlock at *
  split
  · rfl
  next hlate =>
    rw [if_neg hlate] at h
    cases c with
    | receiveQueuingMessage port t addr =>
        have hvalue : TimeSum.value ⟨env.clk (i + 1), [t]⟩ = env.clk (i + 1) + t := by
          rw [h _ List.mem_cons_self, TimeSum.exact, List.sum_singleton]
        simp only [hvalue]
        rfl
    | _ => rfl

theorem commEnter64_eq {c : CommCall} (h : Summed.Exact (commEnter64 k env p c)) :
    (commEnter64 k env p c).2 = commEnter k env p c := by
  unfold commEnter64 commEnter at *
  split
  next hwait =>
    split
    · rfl
    next hzero =>
      rw [if_pos hwait, if_neg hzero] at h
      have hvalue : TimeSum.value ⟨env.clk 0, [c.timeOut]⟩ = env.clk 0 + c.timeOut := by
        rw [h _ List.mem_cons_self, TimeSum.exact, List.sum_singleton]
      rw [← hvalue]
      exact commBlock64_eq fun x hx => h x (List.mem_cons_of_mem _ hx)
  · rfl

theorem commResume64_eq {c : CommCall} {w a : Int} (h : Summed.Exact (commResume64 k env p c w a)) :
    (commResume64 k env p c w a).2 = commResume k env p c w a := by
  unfold commResume64 commResume at *
  split
  · rfl
  · split
    next hlate hwait =>
      rw [if_neg hlate, if_pos hwait] at h
      exact commBlock64_eq h
    · rfl

theorem doPassed64_eq {s : Service} (h : Summed.Exact (doPassed64 k env p s)) :
    (doPassed64 k env p s).2 = doSyscall k env p s := by
  unfold doPassed64 at *
  cases hc : passed k s with
  | none => rfl
  | some c =>
      rw [hc] at h
      rw [doSyscall_of_passed hc]
      exact commEnter64_eq h

/-- **A segment whose sums are exact does what it does with exact times.** -/
theorem Segment.run64_eq {seg : Segment} (h : Summed.Exact (seg.run64 k env p)) :
    (seg.run64 k env p).2 = seg.run k env p := by
  cases seg with
  | call s =>
      cases s with
      | suspendSelf t => exact doSuspendSelf64_eq h
      | start id => exact doDelayedStart64_eq h
      | delayedStart id t => exact doDelayedStart64_eq h
      | timedWait t => exact doTimedWait64_eq h
      | _ => exact doPassed64_eq h
  | resume cont =>
      cases cont with
      | comm c w a => exact commResume64_eq h
      | _ => rfl

/-! ## Which sums fit -/

/-- The sums of a start: the deadline is computed from the time capacity, also from an infinite one. -/
def StartFits (k : Kernel) (env : Env) (id : ProcId) (delayTime : Int) : Prop :=
  ∀ pr, curPartProc k id = some pr → pr.prState = .dormant → delayTime ≠ systemTimeInfiniteVal →
    procIsPeriod pr = false → (k.parts k.curPart).paOpMode = .normal →
      if delayTime = 0 then FitsSigned 64 (env.clk 0 + pr.prTimeCap)
      else env.clk 0 + delayTime < 2 ^ 63 ∧ FitsSigned 64 (env.clk 1 + (pr.prTimeCap + delayTime))

/-- The deadline that is computed once more in a round with the deadline `wakeup`. -/
def AgainFits (env : Env) (wakeup : Int) : CommCall → Prop
  | .receiveQueuingMessage _ timeOut _ =>
      (timeOut ≠ systemTimeInfiniteVal → env.clk 1 < wakeup) → env.clk 2 + timeOut < 2 ^ 63
  | _ => True

/-- The sums of a blocking service that has passed its checks. -/
def EnterFits (k : Kernel) (env : Env) (c : CommCall) : Prop :=
  mustWait k c = true → c.timeOut ≠ 0 →
    env.clk 0 + c.timeOut < 2 ^ 63 ∧ AgainFits env (env.clk 0 + c.timeOut) c

/-- **The times of a segment fit.** -/
def TimesFit (k : Kernel) (env : Env) (p : ProcId) : Segment → Prop
  | .call (.suspendSelf t) =>
      procIsPeriod (k.procs p) = false → t < systemTimeInfiniteVal → env.clk 0 + t < 2 ^ 63
  | .call (.start id) => StartFits k env id 0
  | .call (.delayedStart id t) => StartFits k env id t
  | .call (.timedWait t) => t ≠ systemTimeInfiniteVal → env.clk 0 + t < 2 ^ 63
  | .call s => ∀ c, passed k s = some c → EnterFits k env c
  | .resume (.comm c wakeup armed) =>
      mustWait k c = true → (c.timeOut ≠ systemTimeInfiniteVal → env.clk 0 < armed) → AgainFits env wakeup c
  | .resume _ => True

/-- The times that a segment is given. -/
def Segment.times : Segment → List Int
  | .call (.suspendSelf t) => [t]
  | .call (.delayedStart _ t) => [t]
  | .call (.timedWait t) => [t]
  | .call s => (s.commCall.map CommCall.timeOut).toList
  | .resume (.comm c _ _) => [c.timeOut]
  | .resume _ => []

/-- All sums of a segment are right. -/
def Summed.Right (r : Summed) : Prop := ∀ x ∈ r.1, x.Right

/-- A time of 64 bits is added to the clock. -/
theorem right_delay_iff {now t : Int} (hnow : ClockInRange now) (ht : FitsSigned 64 t) :
    TimeSum.Right ⟨now, [t]⟩ ↔ now + t < 2 ^ 63 := by
  rw [TimeSum.right_iff hnow]
  show FitsSigned 64 (now + [t].sum) ↔ now + t < 2 ^ 63
  rw [List.sum_singleton]
  obtain ⟨hnow₀, -⟩ := hnow
  obtain ⟨ht₀, -⟩ := ht
  constructor
  · rintro ⟨-, hlt⟩
    omega
  · intro hlt
    constructor <;> omega

theorem right_nil (o : Outcome) : Summed.Right ([], o) := fun _ hx => absurd hx List.not_mem_nil

theorem right_singleton {x : TimeSum} {o : Outcome} : Summed.Right ([x], o) ↔ x.Right := by
  simp [Summed.Right]

theorem right_pair {x y : TimeSum} {o : Outcome} : Summed.Right ([x, y], o) ↔ x.Right ∧ y.Right := by
  simp [Summed.Right]

/-- A start keeps the time capacity. -/
theorem prTimeCap_startReset (k : Kernel) (id : ProcId) :
    ((startReset k id).procs id).prTimeCap = (k.procs id).prTimeCap := by
  simp [startReset, procReset, Kernel.updProc, Kernel.setCont, Kernel.setWoken]

theorem prTimeCap_setState (k : Kernel) (id : ProcId) (st : ProcState) :
    ((k.setState id st).procs id).prTimeCap = (k.procs id).prTimeCap := by
  simp [Kernel.setState, Kernel.updProc]

theorem prTimeCap_sleepUntil (k : Kernel) (id : ProcId) (reason : WaitingReason) (time : Int) :
    ((sleepUntil k id reason time (.processDelayedStart id)).procs id).prTimeCap = (k.procs id).prTimeCap := by
  rw [sleepUntil, timeEventAlloc_of_proc _ _ (p := id) rfl]
  simp [waitFor, Kernel.setState, Kernel.setReason, Kernel.updProc]

section Clock

variable (hclk : ∀ i, ClockInRange (env.clk i))

include hclk

theorem doSuspendSelf64_right {t : Int} (ht : FitsSigned 64 t) :
    (doSuspendSelf64 k env p t).Right ↔
      (procIsPeriod (k.procs p) = false → t < systemTimeInfiniteVal → env.clk 0 + t < 2 ^ 63) := by
  unfold doSuspendSelf64
  split
  next hperiod => simp [right_nil, hperiod]
  next hperiod =>
    split
    next hzero =>
      -- a time-out of zero is not added, and the clock itself fits
      obtain ⟨-, hlt⟩ := hclk 0
      refine ⟨fun _ _ _ => ?_, fun _ => right_nil _⟩
      rw [hzero]
      omega
    next hzero =>
      split
      next hfinite => simp [right_singleton, right_delay_iff (hclk 0) ht, hperiod, hfinite]
      next hfinite => simp [right_nil, hfinite]

theorem doTimedWait64_right {t : Int} (ht : FitsSigned 64 t) :
    (doTimedWait64 k env p t).Right ↔ (t ≠ systemTimeInfiniteVal → env.clk 0 + t < 2 ^ 63) := by
  unfold doTimedWait64
  split
  next hfinite => simp [right_nil, hfinite]
  next hfinite =>
    split
    next hzero =>
      obtain ⟨-, hlt⟩ := hclk 0
      refine ⟨fun _ _ => ?_, fun _ => right_nil _⟩
      rw [hzero]
      omega
    next hzero => simp [right_singleton, right_delay_iff (hclk 0) ht, hfinite]

theorem commBlock64_right {c : CommCall} (ht : FitsSigned 64 c.timeOut) (w : Int) :
    (commBlock64 k env p c w 1).Right ↔ AgainFits env w c := by
  unfold commBlock64
  cases c with
  | receiveQueuingMessage port t addr =>
      show Summed.Right (if t ≠ systemTimeInfiniteVal ∧ w ≤ env.clk 1 then _ else _) ↔
        ((t ≠ systemTimeInfiniteVal → env.clk 1 < w) → env.clk 2 + t < 2 ^ 63)
      split
      next hlate =>
        refine ⟨fun _ hearly => ?_, fun _ => right_nil _⟩
        exact absurd (hearly hlate.1) (not_lt.mpr hlate.2)
      next hlate =>
        have ht' : FitsSigned 64 t := ht
        rw [right_singleton, right_delay_iff (hclk (1 + 1)) ht']
        have hearly : t ≠ systemTimeInfiniteVal → env.clk 1 < w := by
          intro hfinite
          exact not_le.mp fun hle => hlate ⟨hfinite, hle⟩
        exact ⟨fun h _ => h, fun h => h hearly⟩
  | _ =>
      refine ⟨fun _ => trivial, fun _ => ?_⟩
      split <;> exact right_nil _

theorem commEnter64_right {c : CommCall} (ht : FitsSigned 64 c.timeOut) :
    (commEnter64 k env p c).Right ↔ EnterFits k env c := by
  unfold commEnter64 EnterFits
  split
  next hwait =>
    split
    next hzero => simp [right_nil, hzero]
    next hzero =>
      have hsum : TimeSum.Right ⟨env.clk 0, [c.timeOut]⟩ ↔ env.clk 0 + c.timeOut < 2 ^ 63 :=
        right_delay_iff (hclk 0) ht
      have hsplit : ∀ (x : TimeSum) (r : Summed), Summed.Right (x :: r.1, r.2) ↔ x.Right ∧ r.Right := by
        intro x r
        exact List.forall_mem_cons
      rw [hsplit, commBlock64_right hclk ht, hsum]
      -- once the deadline fits, the round works with the mathematical one
      have hround : env.clk 0 + c.timeOut < 2 ^ 63 →
          (AgainFits env (TimeSum.value ⟨env.clk 0, [c.timeOut]⟩) c ↔ AgainFits env (env.clk 0 + c.timeOut) c) := by
        intro hlt
        rw [(hsum.mpr hlt).exact, TimeSum.exact, List.sum_singleton]
      rw [and_congr_right hround]
      simp [hwait, hzero]
  next hwait => simp [right_nil, hwait]

theorem commResume64_right {c : CommCall} (ht : FitsSigned 64 c.timeOut) {w a : Int} :
    (commResume64 k env p c w a).Right ↔
      (mustWait k c = true → (c.timeOut ≠ systemTimeInfiniteVal → env.clk 0 < a) → AgainFits env w c) := by
  unfold commResume64
  split
  next hlate =>
    refine ⟨fun _ _ hearly => ?_, fun _ => right_nil _⟩
    exact absurd (hearly hlate.1) (not_lt.mpr hlate.2)
  next hlate =>
    have hearly : c.timeOut ≠ systemTimeInfiniteVal → env.clk 0 < a := by
      intro hfinite
      exact not_le.mp fun hle => hlate ⟨hfinite, hle⟩
    split
    next hwait =>
      rw [commBlock64_right hclk ht]
      exact ⟨fun h _ _ => h, fun h => h hwait hearly⟩
    next hwait => simp [right_nil, hwait]

theorem doDelayedStart64_right {id : ProcId} {t : Int} (ht : FitsSigned 64 t) :
    (doDelayedStart64 k env id t).Right ↔ StartFits k env id t := by
  -- sums stand only in the two branches that start a periodic process of a running partition
  unfold doDelayedStart64 StartFits
  cases hpr : curPartProc k id with
  | none => simp [right_nil]
  | some pr =>
      have hproc : pr = k.procs id := (of_curPartProc hpr).2.2
      simp only [Option.some.injEq, forall_eq']
      split
      next hdormant => simp [right_nil, hdormant]
      next hdormant =>
        split
        next hfinite => simp [right_nil, hfinite]
        next hfinite =>
          split
          next hdelay => simp [right_nil, hdelay.1]
          next hdelay =>
            split
            next hperiod =>
              split
              next hnormal =>
                split
                next hzero =>
                  rw [right_singleton, TimeSum.right_iff (hclk 0)]
                  show FitsSigned 64 (env.clk 0 + [(((startReset k id).setState id .ready).procs id).prTimeCap].sum) ↔ _
                  rw [prTimeCap_setState, prTimeCap_startReset, ← hproc, List.sum_singleton]
                  simp [not_not.mp hdormant, hperiod, hnormal, hzero, systemTimeInfiniteVal]
                next hzero =>
                  rw [right_pair, right_delay_iff (hclk 0) ht, TimeSum.right_iff (hclk 1)]
                  show _ ∧ FitsSigned 64 (env.clk 1 + [((sleepUntil (startReset k id) id .delayedStarted _
                    (.processDelayedStart id)).procs id).prTimeCap, t].sum) ↔ _
                  rw [prTimeCap_sleepUntil, prTimeCap_startReset, ← hproc, List.sum_cons, List.sum_singleton]
                  simp [not_not.mp hdormant, hfinite, hperiod, hnormal]
              next hnormal => simp [right_nil, hnormal]
            next hperiod =>
              rw [not_not] at hperiod
              simp [right_nil, hperiod]

omit hclk in
theorem commCall_of_passed {s : Service} {c : CommCall} (h : passed k s = some c) : s.commCall = some c := by
  cases s <;> simp only [passed, Option.map_eq_some_iff, reduceCtorEq] at h
  case receiveBuffer | readBlackboard =>
    obtain ⟨_, -, rfl⟩ := h
    rfl
  all_goals
    split at h
    · cases h
    · split at h
      · cases h
      · cases h
        rfl

theorem doPassed64_right {s : Service} (hs : ∀ t ∈ s.commCall.map CommCall.timeOut, FitsSigned 64 t) :
    (doPassed64 k env p s).Right ↔ ∀ c, passed k s = some c → EnterFits k env c := by
  unfold doPassed64
  cases hc : passed k s with
  | none => simp [right_nil]
  | some c =>
      simp only [Option.some.injEq, forall_eq']
      refine commEnter64_right hclk (hs _ ?_)
      rw [commCall_of_passed hc]
      rfl

/-- **The sums of a segment are right iff they fit.** -/
theorem Segment.run64_right {seg : Segment} (hseg : ∀ t ∈ seg.times, FitsSigned 64 t) :
    (seg.run64 k env p).Right ↔ TimesFit k env p seg := by
  cases seg with
  | call s =>
      cases s with
      | suspendSelf t => exact doSuspendSelf64_right hclk (hseg t List.mem_cons_self)
      | start id => exact doDelayedStart64_right hclk (by decide)
      | delayedStart id t => exact doDelayedStart64_right hclk (hseg t List.mem_cons_self)
      | timedWait t => exact doTimedWait64_right hclk (hseg t List.mem_cons_self)
      | _ => exact doPassed64_right hclk fun t ht => hseg t (Option.mem_toList.mpr ht)
  | resume cont =>
      cases cont with
      | comm c w a => exact commResume64_right hclk (hseg _ List.mem_cons_self)
      | _ => exact ⟨fun _ => trivial, fun _ => right_nil _⟩

end Clock

/-- **Time arithmetic is exact iff it fits**: the sums of a segment, and the product for the head of the
event queue. -/
theorem times_exact_iff (k : Kernel) (env : Env) (p : ProcId) (seg : Segment) (freq time : Nat)
    (teq : List TimeEvent) (hclk : ∀ i, ClockInRange (env.clk i)) (hseg : ∀ t ∈ seg.times, FitsSigned 64 t) :
    ((seg.run64 k env p).Right ∧ HeadRight freq time teq) ↔
      (TimesFit k env p seg ∧ HeadFits freq time teq) := by
  rw [seg.run64_right hclk hseg, headRight_iff]

/-- The process `2` was stopped; it is aperiodic, and its time capacity is infinite. -/
def stoppedSystem : Kernel :=
  { smallSystem 1 .fifo [1, 2] with
    procs := fun q =>
      { Proc.blank with
        prPartId := 1, prState := if q = 2 then .dormant else .ready, prPeriod := systemTimeInfiniteVal
        prTimeCap := systemTimeInfiniteVal } }

/-- An infinite time capacity gives a deadline in the past. -/
theorem start_deadline_past : ¬ ∀ (k : Kernel) (env : Env) (p : ProcId) (seg : Segment) (freq time : Nat)
    (teq : List TimeEvent), (∀ i, ClockInRange (env.clk i)) → sysTimeSecond ≤ freq →
      (∀ t ∈ seg.times, FitsSigned 64 t) → (seg.run64 k env p).Right ∧ HeadRight freq time teq := by
  intro hall
  obtain ⟨hright, -⟩ := hall stoppedSystem (.at 1) 1 (.call (.start 2)) 10000000 10 []
    (fun _ => (⟨by decide, by decide⟩ : ClockInRange 1)) (by decide) (by decide)
  have hsum : TimeSum.Right ⟨1, [systemTimeInfiniteVal]⟩ := hright _ List.mem_cons_self
  have hexact := hsum.exact
  revert hexact
  decide

/-- A wait of five units from the clock at ten on, with a frequency of 10 MHz. -/
theorem times_exact_iff_timedWait :
    let seg := Segment.call (.timedWait 5)
    (seg.run64 stoppedSystem (.at 10) 1).Right ∧ HeadRight 10000000 100 [⟨0, 15, .processTimedWaitTimeout 1⟩] := by
  intro seg
  refine (times_exact_iff stoppedSystem (.at 10) 1 seg 10000000 100 [⟨0, 15, .processTimedWaitTimeout 1⟩]
    (fun _ => (⟨by decide, by decide⟩ : ClockInRange 10)) (by decide)).mpr ⟨fun _ => by decide, ?_⟩
  intro te hte _
  cases hte
  decide

end Jrinx
