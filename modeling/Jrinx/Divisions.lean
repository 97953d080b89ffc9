import Jrinx.Boot.Bootargs
import Jrinx.Lib.Logged
import Jrinx.MajorFrame
import Jrinx.Schedule
import Jrinx.TimeSums
import Mathlib.Algebra.Order.Ring.Abs
import Mathlib.Data.Int.ModEq

/-! # Divisions

Four divisors of the kernel come from the boot arguments, the device tree or a service call: the period of a
partition, the greatest common divisor in `lcm`, the bytes of a circular buffer, and the ticks in a
microsecond. Nothing tests them before the division. The functions that divide are written once more here, in
a monad that logs what they divide by.

* **`schedLaunchLogged`**, **`stepLogged`** — the launch and a step, with the divisors they use.
* **`value_stepLogged`** — without the log it is the step of the machine.
* **`noZero_stepLogged_iff`** — which divisors a step uses.
* **`Formed`** — the circular buffers have the sizes of their queues, in every run.
* **`divisors_nonzero_iff`** — the boots and runs that divide by zero nowhere. -/

namespace Jrinx

/-! ## Dividing -/

/-- A computation that logs the numbers it divides by. -/
abbrev Divides : Type → Type := Logged Int

/-- The quotient of two numbers of 64 bits with a sign. -/
def divide (a b : Int) : Divides Int := .entry b (quot a b)

/-- Their remainder, which is the dividend if the divisor is zero. -/
def remainder (a b : Int) : Divides Int := .entry b (a.tmod b)

/-- The remainder of two words. -/
def modulo (a b : Nat) : Divides Nat := .entry b (a % b)

/-- No divisor is zero. -/
def NoZero {α : Type} (x : Divides α) : Prop := x.All (· ≠ 0)

section NoZero

variable {α β : Type}

@[simp] theorem noZero_pure (a : α) : NoZero (pure a : Divides α) := Logged.all_pure a

@[simp] theorem noZero_bind {x : Divides α} {f : α → Divides β} :
    NoZero (x >>= f) ↔ NoZero x ∧ NoZero (f x.value) := Logged.all_bind

@[simp] theorem noZero_map {f : α → β} {x : Divides α} : NoZero (f <$> x) ↔ NoZero x := Logged.all_map

@[simp] theorem noZero_divide {a b : Int} : NoZero (divide a b) ↔ b ≠ 0 := Logged.all_entry

@[simp] theorem noZero_remainder {a b : Int} : NoZero (remainder a b) ↔ b ≠ 0 := Logged.all_entry

@[simp] theorem noZero_modulo {a b : Nat} : NoZero (modulo a b) ↔ b ≠ 0 :=
  Logged.all_entry.trans Nat.cast_ne_zero

end NoZero

/-! ## The launch -/

/-- `lcm`. -/
def lcmLogged (a b : Int) : Divides Int := divide (signed 64 (a * b)) (gcd a b)

/-- `boottime_get_now`, of the counter `time` and the frequency it counts with. -/
def boottimeGetNowLogged (freq time : Nat) : Divides Int :=
  if freq = 0 then pure 0 else divide time (freq / sysTimeSecond : Nat)

/-- The periods of the partitions, in the order of `sched_parts`. -/
def periods (k : Kernel) : List Int := k.schedParts.map fun pt => (k.parts pt).paPeriod

/-- `sched_launch`, in the arithmetic of the code; `none` if it returns an error. -/
def schedLaunchLogged (freq time : Nat) (k : Kernel) : Divides (Option Kernel) :=
  if k.schedParts = [] then pure none
  else do
    let frame ← (periods k).foldlM lcmLogged 1
    if k.schedModules.any (fun m => decide (frame < m.smOffset + m.smDuration)) then pure none
    else do
      let now ← boottimeGetNowLogged freq time
      let k' := launchModules now true k.schedModules { k with schedMajorFrame := frame }
      pure (some { k' with
        schedModules := k'.schedModules.map fun m => { m with smPrevActTime := now + m.smOffset } })

/-! ## The services -/

/-- `circbuf_enqu_st`. -/
def circbufEnquStLogged (cc : Circbuf) : Divides Circbuf := do
  let tail ← modulo ((cc.ccTail + cc.ccEleSize) % wordSize) (cc.ccCap * cc.ccEleSize % wordSize)
  pure { cc with ccTail := tail }

/-- `circbuf_dequ_ed`. -/
def circbufDequEdLogged (cc : Circbuf) : Divides Circbuf := do
  let head ← modulo ((cc.ccHead + cc.ccEleSize) % wordSize) (cc.ccCap * cc.ccEleSize % wordSize)
  pure { cc with ccHead := head }

/-- The body shared by `buffer_send` and `queuing_port_send`. -/
def commSendLogged (cc : Circbuf) (msg : List UInt8) : Divides Circbuf := do
  let cc₁ ← circbufEnquStLogged cc
  pure (circbufEnquEd { cc₁ with ccBuf := writeMsg cc₁.ccBuf cc₁.ccTail msg })

/-- The body shared by `buffer_recv` and `queuing_port_recv`. -/
def commRecvLogged (cc : Circbuf) : Divides ((Nat × List UInt8) × Circbuf) := do
  let cc₁ := circbufDequSt cc
  let cc₂ ← circbufDequEdLogged cc₁
  pure (readMsg cc₁.ccBuf cc₁.ccHead, cc₂)

/-- What follows the loop of a blocking service. -/
def commFinishLogged (k : Kernel) (env : Env) : CommCall → Divides Outcome
  | .sendBuffer b msgAddr length _ => do
      let cc ← commSendLogged (k.bufs b).bufBody (loadBytes env.mem msgAddr length)
      pure (bufferWakeup (k.setBody (.buffer b) cc) b .none)
  | .receiveBuffer b _ _ => do
      let recv ← commRecvLogged (k.bufs b).bufBody
      pure (bufferWakeup (k.setBody (.buffer b) recv.2) b (.message recv.1.1 recv.1.2))
  | .sendQueuingMessage port msgAddr length _ => do
      let c := (k.ports port).qpChannel
      let cc ← commSendLogged (k.chans c).chBody (loadBytes env.mem msgAddr length)
      pure (queuingPortWakeup (k.setBody (.channel c) cc) port .none)
  | .receiveQueuingMessage port _ _ => do
      let c := (k.ports port).qpChannel
      let recv ← commRecvLogged (k.chans c).chBody
      pure (queuingPortWakeup (k.setBody (.channel c) recv.2) port (.message recv.1.1 recv.1.2))
  | c => pure (commFinish k env c)

/-- A blocking service from its locks on. -/
def commEnterLogged (k : Kernel) (env : Env) (p : ProcId) (c : CommCall) : Divides Outcome :=
  if mustWait k c then pure (commEnter k env p c) else commFinishLogged k env c

/-- A blocking service that got the processor back is past its deadline. -/
def CommCall.late (env : Env) (armed : Int) (c : CommCall) : Bool :=
  decide (c.timeOut ≠ systemTimeInfiniteVal ∧ armed ≤ env.clk 0)

/-- A blocking service from the return of `sched_proc_give_up` on. -/
def commResumeLogged (k : Kernel) (env : Env) (p : ProcId) (c : CommCall) (wakeup armed : Int) :
    Divides Outcome :=
  if c.late env armed || mustWait k c then pure (commResume k env p c wakeup armed)
  else commFinishLogged k env c

/-- `do_create_process`. -/
def doCreateProcessLogged (k : Kernel) (a : ProcessAttribute) : Divides Outcome :=
  let part := k.parts k.curPart
  if (partGetProcByName k k.curPart a.name).isSome then pure (retCode k .noAction)
  else if ustkSizeMax < a.stackSize then pure (retCode k .invalidConfig)
  else do
    -- an infinite period is not divided
    let rest ← if a.period < systemTimeInfiniteVal then remainder a.period part.paPeriod else pure 0
    pure <|
      if rest ≠ 0 then retCode k .invalidConfig
      else if a.period < systemTimeInfiniteVal ∧ a.period < a.timeCapacity then retCode k .invalidConfig
      else if part.paOpMode = .normal then retCode k .invalidMode
      else do
        let (made, k) ← procAlloc k k.curPart a
        match made with
        | none => retCode k .invalidConfig
        | some p => .ok (.ret .noError (.identifier p), k)

/-- `do_syscall`. -/
def doSyscallLogged (k : Kernel) (env : Env) (p : ProcId) : Service → Divides Outcome
  | .createProcess a => doCreateProcessLogged k a
  | s =>
      match passed k s with
      | some c => commEnterLogged k env p c
      | none => pure (doSyscall k env p s)

/-- The rest of a service call. -/
def resumeContLogged (k : Kernel) (env : Env) (p : ProcId) : Cont → Divides Outcome
  | .comm c wakeup armed => commResumeLogged k env p c wakeup armed
  | c => pure (resumeCont k env p c)

/-- One step. -/
def stepLogged (k : Kernel) (e : Event) : Divides (Except Fault Kernel) :=
  match e with
  | .call env s =>
      match live k with
      | none => pure (.error .disabled)
      | some p =>
          if k.conts p = none then (fun out => out.map (settle p)) <$> doSyscallLogged k env p s
          else pure (.error .disabled)
  | .resume env =>
      match live k with
      | none => pure (.error .disabled)
      | some p =>
          match k.conts p with
          | none => pure (.error .disabled)
          | some c =>
              (fun out => out.map (settle p)) <$> resumeContLogged (k.setWoken p false) env p c
  | e => pure (step k e)

/-! ## Without the log -/

section Value

variable {k : Kernel} {env : Env} {p : ProcId}

@[simp] theorem value_lcmLogged (a b : Int) : (lcmLogged a b).value = lcm a b := rfl

theorem value_frame (ps : List Int) : (ps.foldlM lcmLogged 1).value = launchFrame ps :=
  Logged.value_foldlM lcmLogged ps 1

@[simp] theorem value_commSendLogged (cc : Circbuf) (msg : List UInt8) :
    (commSendLogged cc msg).value = commSend cc msg := rfl

@[simp] theorem value_commRecvLogged (cc : Circbuf) : (commRecvLogged cc).value = commRecv cc := rfl

theorem value_commFinishLogged (c : CommCall) : (commFinishLogged k env c).value = commFinish k env c := by
  cases c <;> rfl

theorem value_commEnterLogged (c : CommCall) : (commEnterLogged k env p c).value = commEnter k env p c := by
  unfold commEnterLogged
  split
  · rfl
  · rename_i hfree
    rw [value_commFinishLogged, commEnter, if_neg hfree]

theorem value_commResumeLogged (c : CommCall) (w a : Int) :
    (commResumeLogged k env p c w a).value = commResume k env p c w a := by
  unfold commResumeLogged
  split
  · rfl
  · rename_i hserved
    rw [Bool.or_eq_true, not_or, CommCall.late, decide_eq_true_eq] at hserved
    rw [value_commFinishLogged, commResume, if_neg hserved.1, if_neg hserved.2]

theorem value_doCreateProcessLogged (a : ProcessAttribute) :
    (doCreateProcessLogged k a).value = doCreateProcess k a := by
  unfold doCreateProcessLogged doCreateProcess
  dsimp only
  split
  · rfl
  split
  · rfl
  by_cases hperiod : a.period < systemTimeInfiniteVal
  · simp only [hperiod, true_and]
    rfl
  · simp only [hperiod, false_and, if_false]
    rfl

theorem value_doSyscallLogged (s : Service) : (doSyscallLogged k env p s).value = doSyscall k env p s := by
  have hpassed : (match passed k s with
      | some c => commEnterLogged k env p c
      | none => pure (doSyscall k env p s)).value = doSyscall k env p s := by
    cases hc : passed k s with
    | none => rfl
    | some c => rw [doSyscall_of_passed hc, ← value_commEnterLogged]
  cases s with
  | createProcess a => exact value_doCreateProcessLogged a
  | _ => exact hpassed

theorem value_resumeContLogged (c : Cont) : (resumeContLogged k env p c).value = resumeCont k env p c := by
  cases c with
  | comm c w a => exact value_commResumeLogged c w a
  | _ => rfl

/-- **Without the log it is the step** of the machine. -/
theorem value_stepLogged (k : Kernel) (e : Event) : (stepLogged k e).value = step k e := by
  cases e with
  | call env s =>
      simp only [stepLogged, step, segment]
      cases live k with
      | none => rfl
      | some p =>
          dsimp only
          split
          · rw [Logged.value_map, value_doSyscallLogged]
          · rfl
  | resume env =>
      simp only [stepLogged, step, segment]
      cases live k with
      | none => rfl
      | some p =>
          dsimp only
          cases k.conts p with
          | none => rfl
          | some c => rw [Logged.value_map, value_resumeContLogged]
  | _ => rfl

end Value

/-- The counter in microseconds, as long as it is a number with a sign. -/
theorem value_boottimeGetNowLogged {freq time : Nat} (hfreq : sysTimeSecond ≤ freq) (htime : time < 2 ^ 63) :
    (boottimeGetNowLogged freq time).value = boottimeGetNow freq time := by
  have hpos : 0 < freq / sysTimeSecond := Nat.div_pos hfreq (by decide)
  have hne : freq ≠ 0 := (Nat.lt_of_lt_of_le (by decide) hfreq).ne'
  rw [boottimeGetNowLogged, boottimeGetNow, if_neg hne, if_neg hne, divide, Logged.value_entry, quot_eq]
  · exact Int.tdiv_eq_ediv_of_nonneg (Int.natCast_nonneg time)
  · constructor <;> omega
  · exact_mod_cast hpos

/-- **The launch is that of the scheduler**, where the products of the periods fit. -/
theorem value_schedLaunchLogged {freq time : Nat} {k : Kernel} (hfreq : sysTimeSecond ≤ freq)
    (htime : time < 2 ^ 63) (hpos : ∀ pt ∈ k.schedParts, 0 < (k.parts pt).paPeriod)
    (hfit : ProductsFit 1 (periods k)) :
    (schedLaunchLogged freq time k).value = schedLaunch k (boottimeGetNow freq time) := by
  have hframe : launchFrame (periods k) = majorFrame k := launchFrame_eq_majorFrame hpos hfit
  unfold schedLaunchLogged schedLaunch
  dsimp only
  split
  · rfl
  rw [Logged.value_bind, value_frame, hframe]
  split
  · rfl
  rw [Logged.value_bind, value_boottimeGetNowLogged hfreq htime, Logged.value_pure]

/-! ## The divisors of the launch -/

/-- The loop ends with a zero and a number that is none. -/
theorem gcdLoop_ne_zero {a b : Int} (hb : b ≠ 0) : gcdLoop a b ≠ 0 := by
  fun_induction gcdLoop a b with
  | case1 a b hzero =>
      rw [hzero, Int.zero_add]
      exact hb
  | case2 a b hne hzero =>
      rw [hzero, Int.add_zero]
      exact hne
  | case3 a b hne hne' ih => exact ih hne'

/-- The greatest common divisor is zero only for two zeros. -/
theorem gcd_eq_zero_iff {a b : Int} : gcd a b = 0 ↔ a = 0 ∧ b = 0 := by
  unfold gcd
  split
  · rename_i hb
    exact ⟨fun h => absurd h (gcdLoop_ne_zero hb), fun h => absurd h.2 hb⟩
  · rename_i hb
    rw [not_not.mp hb, Int.add_zero]
    simp

/-- **The frame lasts**: where a partition has the period zero, the frame of the partitions before it is not
zero. -/
def FrameLasts (ps : List Int) : Prop := ∀ pre post, ps = pre ++ 0 :: post → launchFrame pre ≠ 0

theorem noZero_frame {ps : List Int} : NoZero (ps.foldlM lcmLogged 1) ↔ FrameLasts ps := by
  have hround : ∀ a b, NoZero (lcmLogged a b) ↔ ¬ (a = 0 ∧ b = 0) := fun a b => by
    rw [lcmLogged, noZero_divide, ne_eq, gcd_eq_zero_iff]
  rw [NoZero, Logged.all_foldlM]
  constructor
  · intro h pre post hps hzero
    exact (hround _ _).mp (h pre 0 post hps) ⟨hzero, rfl⟩
  · intro h pre b post hps
    refine (hround _ _).mpr ?_
    rintro ⟨hzero, rfl⟩
    exact h pre post hps hzero

theorem noZero_boottimeGetNowLogged {freq : Nat} (hfreq : freq ≠ 0) (time : Nat) :
    NoZero (boottimeGetNowLogged freq time) ↔ sysTimeSecond ≤ freq := by
  rw [boottimeGetNowLogged, if_neg hfreq, noZero_divide, Nat.cast_ne_zero, Nat.div_ne_zero_iff]
  exact ⟨fun h => h.2, fun h => ⟨by decide, h⟩⟩

/-- What an accepted launch divided by. -/
theorem noZero_schedLaunchLogged {freq time : Nat} {k k' : Kernel} (hfreq : freq ≠ 0)
    (h : (schedLaunchLogged freq time k).value = some k') :
    NoZero (schedLaunchLogged freq time k) ↔ FrameLasts (periods k) ∧ sysTimeSecond ≤ freq := by
  unfold schedLaunchLogged at h ⊢
  split at h
  · exact absurd h (by simp)
  rename_i hparts
  rw [if_neg hparts]
  rw [Logged.value_bind] at h
  split at h
  · exact absurd h (by simp)
  rename_i hwindows
  rw [noZero_bind, noZero_frame, if_neg hwindows, noZero_bind, noZero_boottimeGetNowLogged hfreq]
  simp

/-! ## The divisors of a step -/

/-- The bytes of a circular buffer, in the arithmetic of the code. -/
def Circbuf.storage (cc : Circbuf) : Nat := cc.ccCap * cc.ccEleSize % wordSize

/-- The queue that a message is copied into or out of, unless the call has to wait. -/
def CommCall.served (k : Kernel) (c : CommCall) : Option Que := if mustWait k c then none else c.que k

/-- The queue that the step copies a message into or out of. -/
def Event.copies (k : Kernel) : Event → Option Que
  | .call _ s =>
      (live k).bind fun p => if k.conts p = none then (passed k s).bind (CommCall.served k) else none
  | .resume env =>
      (live k).bind fun p =>
        match k.conts p with
        | some (.comm c _ armed) => if c.late env armed then none else c.served k
        | _ => none
  | _ => none

/-- The attributes of a new process come to the comparison of the periods. -/
def ProcessAttribute.compared (k : Kernel) (a : ProcessAttribute) : Bool :=
  (partGetProcByName k k.curPart a.name).isNone && decide (a.stackSize ≤ ustkSizeMax) &&
    decide (a.period < systemTimeInfiniteVal)

/-- The step compares the period of a new process with that of its partition. -/
def Event.comparesPeriods (k : Kernel) : Event → Bool
  | .call _ (.createProcess a) => (live k).any (fun p => decide (k.conts p = none)) && a.compared k
  | _ => false

section Steps

variable {k : Kernel} {env : Env} {p : ProcId}

theorem noZero_commSendLogged {cc : Circbuf} {msg : List UInt8} :
    NoZero (commSendLogged cc msg) ↔ cc.storage ≠ 0 := by
  simp [commSendLogged, circbufEnquStLogged, Circbuf.storage]

theorem noZero_commRecvLogged {cc : Circbuf} : NoZero (commRecvLogged cc) ↔ cc.storage ≠ 0 := by
  simp [commRecvLogged, circbufDequEdLogged, circbufDequSt, Circbuf.storage]

theorem noZero_commFinishLogged {c : CommCall} :
    NoZero (commFinishLogged k env c) ↔ ∀ q, c.que k = some q → (k.body q).storage ≠ 0 := by
  have hone : ∀ q₀ : Que, (∀ q, some q₀ = some q → (k.body q).storage ≠ 0) ↔ (k.body q₀).storage ≠ 0 :=
    fun q₀ => by simp
  cases c with
  | readBlackboard b timeOut msgAddr => simp [commFinishLogged, CommCall.que]
  | _ =>
      simp only [commFinishLogged, noZero_bind, noZero_pure, and_true, CommCall.que, hone,
        noZero_commSendLogged, noZero_commRecvLogged]
      rfl

theorem noZero_commEnterLogged {c : CommCall} :
    NoZero (commEnterLogged k env p c) ↔ ∀ q, c.served k = some q → (k.body q).storage ≠ 0 := by
  unfold commEnterLogged CommCall.served
  split
  · simp
  · exact noZero_commFinishLogged

theorem noZero_commResumeLogged {c : CommCall} {w a : Int} :
    NoZero (commResumeLogged k env p c w a) ↔
      ∀ q, (if c.late env a then none else c.served k) = some q → (k.body q).storage ≠ 0 := by
  unfold commResumeLogged CommCall.served
  cases c.late env a with
  | true => simp
  | false =>
      cases mustWait k c with
      | true => simp
      | false => simpa using noZero_commFinishLogged

theorem noZero_doCreateProcessLogged {a : ProcessAttribute} :
    NoZero (doCreateProcessLogged k a) ↔ (a.compared k = true → (k.parts k.curPart).paPeriod ≠ 0) := by
  unfold doCreateProcessLogged ProcessAttribute.compared
  dsimp only
  split
  · rename_i hname
    simp [Option.isNone_eq_false_iff.mpr hname]
  rename_i hname
  split
  · rename_i hsize
    simp [hsize]
  rename_i hsize
  rw [Option.not_isSome_iff_eq_none] at hname
  by_cases hperiod : a.period < systemTimeInfiniteVal
  · simp [hperiod, hname, not_lt.mp hsize]
  · simp [hperiod]

theorem noZero_doSyscallLogged {s : Service} :
    NoZero (doSyscallLogged k env p s) ↔
      (∀ a, s = .createProcess a → a.compared k = true → (k.parts k.curPart).paPeriod ≠ 0) ∧
        ∀ q, (passed k s).bind (CommCall.served k) = some q → (k.body q).storage ≠ 0 := by
  have hpassed : NoZero (match passed k s with
      | some c => commEnterLogged k env p c
      | none => pure (doSyscall k env p s)) ↔
        ∀ q, (passed k s).bind (CommCall.served k) = some q → (k.body q).storage ≠ 0 := by
    cases passed k s with
    | none => simp
    | some c => exact noZero_commEnterLogged
  cases s with
  | createProcess a =>
      rw [doSyscallLogged, noZero_doCreateProcessLogged]
      simp [passed]
  | _ => exact hpassed.trans (by simp)

theorem noZero_resumeContLogged {c : Cont} :
    NoZero (resumeContLogged k env p c) ↔ ∀ c' w a, c = .comm c' w a →
      ∀ q, (if c'.late env a then none else c'.served k) = some q → (k.body q).storage ≠ 0 := by
  cases c with
  | comm c w a => simp [resumeContLogged, noZero_commResumeLogged]
  | _ => simp [resumeContLogged]

/-- **What a step divides by** is the period of the partition and the bytes of a queue. -/
theorem noZero_stepLogged_iff {e : Event} :
    NoZero (stepLogged k e) ↔ (e.comparesPeriods k = true → (k.parts k.curPart).paPeriod ≠ 0) ∧
      ∀ q, e.copies k = some q → (k.body q).storage ≠ 0 := by
  -- a segment divides by what its service divides by, and a segment that does not run by nothing
  cases e with
  | call env s =>
      simp only [stepLogged, Event.copies]
      cases hl : live k with
      | none => cases s <;> simp [Event.comparesPeriods, hl]
      | some p =>
          by_cases hc : k.conts p = none
          · simp only [hc, if_true, noZero_map, noZero_doSyscallLogged, Option.bind_some]
            cases s <;> simp [Event.comparesPeriods, hl, hc]
          · cases s <;> simp [Event.comparesPeriods, hl, hc]
  | resume env =>
      simp only [stepLogged, Event.copies]
      cases live k with
      | none => simp [Event.comparesPeriods]
      | some p =>
          cases hc : k.conts p with
          | none => simp [Event.comparesPeriods, hc]
          | some c =>
              simp only [Option.bind_some, hc, noZero_map, noZero_resumeContLogged]
              cases c with
              | comm c w a =>
                  have hserved : c.served (k.setWoken p false) = c.served k := by cases c <;> rfl
                  have hbody : ∀ q, (k.setWoken p false).body q = k.body q := fun q => by cases q <;> rfl
                  simp [Event.comparesPeriods, hserved, hbody]
              | _ => simp [Event.comparesPeriods]
  | _ => simp [stepLogged, Event.comparesPeriods, Event.copies]

end Steps

/-! ## The bytes of a queue -/

/-- The circular buffer has the slots and the slot size of its queue. -/
structure Shaped (k : Kernel) (q : Que) : Prop where
  cap : (k.body q).ccCap = k.maxNbMsg q
  eleSize : (k.body q).ccEleSize = (k.maxMsgSize q + commMsgSize) % wordSize

/-- **The queues are formed**: every circular buffer has the shape of its queue. -/
structure Formed (k : Kernel) : Prop where
  registered : Registered k
  shaped : ∀ q : Que, q.Known k → Shaped k q

section Queues

variable {k k' : Kernel} {q : Que}

theorem FreshQue.shaped (h : FreshQue k q) : Shaped k q := by
  constructor <;> rw [h] <;> rfl

/-- The product of the two sizes wraps, and only then it is zero. -/
theorem Shaped.storage_eq_zero_iff (h : Shaped k q) :
    (k.body q).storage = 0 ↔ wordSize ∣ k.maxNbMsg q * (k.maxMsgSize q + commMsgSize) := by
  rw [Circbuf.storage, h.cap, h.eleSize, Nat.mul_mod_mod, Nat.dvd_iff_mod_eq_zero]

/-- No operation changes the shape. -/
theorem Shaped.didOp {op : Option (QueueOp Msg)} (h : Shaped k q) (hop : DidOp q k op k') : Shaped k' q := by
  obtain ⟨⟨hmax, hnb⟩, hbody⟩ := hop
  have hsame : (k'.body q).ccCap = (k.body q).ccCap ∧ (k'.body q).ccEleSize = (k.body q).ccEleSize := by
    cases op with
    | none => rw [hbody]; exact ⟨rfl, rfl⟩
    | some op =>
        cases op with
        | enq m => rw [hbody.2.2.2]; exact ⟨rfl, rfl⟩
        | deq m => rw [hbody.2.2]; exact ⟨rfl, rfl⟩
        | clear => rw [hbody]; exact ⟨rfl, rfl⟩
  exact ⟨by rw [hsame.1, hnb, h.cap], by rw [hsame.2, hmax, h.eleSize]⟩

theorem Formed.step {e : Event} (h : Formed k) (hstep : Jrinx.step k e = .ok k') : Formed k' where
  registered := (h.registered.step hstep).1
  shaped q hq := by
    by_cases hold : q.Known k
    · exact (h.shaped q hold).didOp (body_step h.registered hstep hold)
    · exact (fresh_step h.registered hstep hold hq).shaped

/-- A call that passed its checks works on a queue that there is. -/
theorem known_of_passed {s : Service} {c : CommCall} (h : passed k s = some c) (hq : c.que k = some q) :
    q.Known k := by
  -- a buffer was looked up; the channel of a port is there by its type
  cases s <;> simp only [passed, Option.map_eq_some_iff, reduceCtorEq] at h
  case sendBuffer b msgAddr length timeOut =>
    split at h
    · cases h
    rename_i buf hbuf
    split at h
    · cases h
    cases h
    cases hq
    exact (of_curBuffer hbuf).1
  case receiveBuffer b timeOut msgAddr =>
    obtain ⟨buf, hbuf, rfl⟩ := h
    cases hq
    exact (of_curBuffer hbuf).1
  case sendQueuingMessage port msgAddr length timeOut =>
    split at h
    · cases h
    split at h
    · cases h
    cases h
    cases hq
    exact trivial
  case receiveQueuingMessage port timeOut msgAddr =>
    split at h
    · cases h
    split at h
    · cases h
    cases h
    cases hq
    exact trivial
  case readBlackboard b timeOut msgAddr =>
    obtain ⟨bb, -, rfl⟩ := h
    cases hq

/-- The queue that a step copies a message into or out of is there. -/
theorem known_of_copies {e : Event} (hr : Registered k) (h : e.copies k = some q) : q.Known k := by
  have hque : ∀ {c : CommCall}, c.served k = some q → c.que k = some q := by
    intro c hc
    unfold CommCall.served at hc
    split at hc
    · cases hc
    · exact hc
  cases e with
  | call env s =>
      obtain ⟨p, -, hs⟩ := Option.bind_eq_some_iff.mp h
      split at hs
      · obtain ⟨c, hc, hserved⟩ := Option.bind_eq_some_iff.mp hs
        exact known_of_passed hc (hque hserved)
      · cases hs
  | resume env =>
      obtain ⟨p, -, hs⟩ := Option.bind_eq_some_iff.mp h
      split at hs
      · rename_i c w armed hc
        split at hs
        · cases hs
        have hq := hque hs
        -- a call in progress names an object of the registry
        have hpart := (hr.calls p c w armed hc).2
        cases c with
        | sendBuffer b => cases hq; exact hpart.1
        | receiveBuffer b => cases hq; exact hpart.1
        | sendQueuingMessage port => cases hq; exact trivial
        | receiveQueuingMessage port => cases hq; exact trivial
        | readBlackboard b => cases hq
      · cases hs
  | _ => cases h

end Queues

/-- An `int` as a word. -/
theorem cast_sizeOfInt (n : Int) : ((sizeOfInt n : Nat) : Int) = n % (2 ^ 64 : Int) := by
  rw [sizeOfInt, Int.toNat_of_nonneg (Int.emod_nonneg n (by decide))]

/-- Of the numbers in a text, only these give a channel no bytes: `0` for the messages, which is never sent
to, or a size that cancels the header of a message. -/
theorem storage_of_text_iff (nb size : String) :
    wordSize ∣ sizeOfInt (atoi nb) * (sizeOfInt (atoi size) + commMsgSize) ↔
      atoi nb = 0 ∨ atoi size = -(commMsgSize : Int) := by
  have hrange : ∀ str, -2 ^ 31 ≤ atoi str ∧ atoi str < 2 ^ 31 := fun str =>
    ⟨Int.le_bmod (by decide), Int.bmod_lt (by decide)⟩
  obtain ⟨hnb, hnb'⟩ := hrange nb
  obtain ⟨hsize, hsize'⟩ := hrange size
  -- modulo the word size the words are the numbers, whose product is too small to wrap
  have hmod : ((sizeOfInt (atoi nb) * (sizeOfInt (atoi size) + commMsgSize) : ℕ) : Int) ≡
      atoi nb * (atoi size + commMsgSize) [ZMOD 2 ^ 64] := by
    rw [Nat.cast_mul, Nat.cast_add, cast_sizeOfInt, cast_sizeOfInt]
    exact (Int.mod_modEq _ _).mul ((Int.mod_modEq _ _).add_right _)
  have hsmall : |atoi nb * (atoi size + commMsgSize)| < 2 ^ 64 := by
    have hl : |atoi nb| ≤ 2 ^ 31 := abs_le.mpr ⟨hnb, hnb'.le⟩
    have hr : |atoi size + commMsgSize| ≤ 2 ^ 32 := by
      rw [commMsgSize, abs_le]
      constructor <;> push_cast <;> omega
    rw [abs_mul]
    calc |atoi nb| * |atoi size + commMsgSize| ≤ 2 ^ 31 * 2 ^ 32 :=
          mul_le_mul hl hr (abs_nonneg _) (by decide)
      _ < 2 ^ 64 := by decide
  have hdvd : wordSize ∣ sizeOfInt (atoi nb) * (sizeOfInt (atoi size) + commMsgSize) ↔
      (2 ^ 64 : Int) ∣ atoi nb * (atoi size + commMsgSize) := by
    rw [← Int.natCast_dvd_natCast, wordSize_eq, Int.dvd_iff_emod_eq_zero, Int.dvd_iff_emod_eq_zero, ← hmod.eq]
    push_cast
    rfl
  rw [hdvd]
  constructor
  · intro h
    rcases mul_eq_zero.mp (Int.eq_zero_of_abs_lt_dvd h hsmall) with hzero | hzero
    · exact Or.inl hzero
    · exact Or.inr (eq_neg_of_add_eq_zero_left hzero)
  · rintro (h | h)
    · rw [h, zero_mul]
      exact dvd_zero _
    · rw [h, neg_add_cancel, mul_zero]
      exact dvd_zero _

/-- **The step divides well**: a period that is compared is compared with one that is not zero, and a message
is copied only into or out of a queue whose size in bytes is no multiple of the word size. -/
structure DividesWell (k : Kernel) (e : Event) : Prop where
  period : e.comparesPeriods k = true → (k.parts k.curPart).paPeriod ≠ 0
  storage : ∀ q, e.copies k = some q → ¬ wordSize ∣ k.maxNbMsg q * (k.maxMsgSize q + commMsgSize)

instance (k : Kernel) (e : Event) : Decidable (DividesWell k e) :=
  decidable_of_iff ((e.comparesPeriods k = true → (k.parts k.curPart).paPeriod ≠ 0) ∧
      ∀ q ∈ e.copies k, ¬ wordSize ∣ k.maxNbMsg q * (k.maxMsgSize q + commMsgSize))
    ⟨fun h => ⟨h.1, h.2⟩, fun h => ⟨h.period, h.storage⟩⟩

theorem Formed.noZero_iff {k : Kernel} {e : Event} (h : Formed k) :
    NoZero (stepLogged k e) ↔ DividesWell k e := by
  rw [noZero_stepLogged_iff]
  have hbytes : ∀ q, e.copies k = some q →
      ((k.body q).storage ≠ 0 ↔ ¬ wordSize ∣ k.maxNbMsg q * (k.maxMsgSize q + commMsgSize)) := fun q hq =>
    not_congr (h.shaped q (known_of_copies h.registered hq)).storage_eq_zero_iff
  constructor
  · rintro ⟨hperiod, hstorage⟩
    exact ⟨hperiod, fun q hq => (hbytes q hq).mp (hstorage q hq)⟩
  · rintro ⟨hperiod, hstorage⟩
    exact ⟨hperiod, fun q hq => (hbytes q hq).mpr (hstorage q hq)⟩

/-! ## The boot -/

/-- Before the ports and the channels of the boot arguments: nothing waits, and what a queue will take is as
`circbuf_init` makes it. -/
structure BeforeBoot (k : Kernel) : Prop where
  quiet : Quiet k
  confs : k.portConfs = []
  fresh : ∀ q : Que, q.Known k → FreshQue k q

section Boot

variable {k k' k₀ k₁ k₂ : Kernel} {qpcs : List QueuingPortConf} {tbl : List ChannelConf}

theorem fresh_channelCreate {ch : ChanId} {cc : ChannelConf} (h : ∀ q : Que, q.Known k → FreshQue k q)
    (hc : channelCreate k ch cc = .ok k') : ∀ q : Que, q.Known k' → FreshQue k' q := by
  obtain ⟨a, b, qpc, -, -, -, rfl⟩ := channelCreate_eq_ok hc
  intro q hq
  cases q with
  | buffer b => exact h (.buffer b) hq
  | channel c =>
      by_cases hne : c = ch
      · subst hne
        simp [FreshQue, Kernel.body, Kernel.maxMsgSize, Kernel.maxNbMsg]
      · have hold := h (.channel c) trivial
        simp only [FreshQue, Kernel.body, Kernel.maxMsgSize, Kernel.maxNbMsg] at hold ⊢
        simpa only [Function.update_of_ne hne] using hold

theorem fresh_channelsCreate {i : Nat} (h : ∀ q : Que, q.Known k → FreshQue k q)
    (hc : channelsCreate k i tbl = .ok k') : ∀ q : Que, q.Known k' → FreshQue k' q := by
  induction tbl generalizing k i with
  | nil =>
      rw [← Except.ok.inj hc]
      exact h
  | cons cc tbl ih =>
      rw [channelsCreate] at hc
      split at hc
      · cases hc
      · rename_i k₁ hone
        exact ih (fresh_channelCreate h hone) hc

/-- The boot forms the queues. -/
theorem BeforeBoot.formed (h : BeforeBoot k₀) (hboot : bootPorts k₀ qpcs tbl = .ok k₁) : Formed k₁ where
  registered := (portsBooted_bootPorts h.quiet h.confs hboot).registered
  shaped q hq := by
    refine (fresh_channelsCreate (fun q hq => ?_) hboot q hq).shaped
    rw [foldl_queuingPortRegister] at hq ⊢
    cases q with
    | buffer b => exact h.fresh (.buffer b) hq
    | channel ch => exact h.fresh (.channel ch) trivial

/-- `sched_launch` leaves the queues alone. -/
theorem Formed.launch {freq time : Nat} (h : Formed k₁)
    (hlaunch : (schedLaunchLogged freq time k₁).value = some k₂) : Formed k₂ := by
  unfold schedLaunchLogged at hlaunch
  split at hlaunch
  · cases hlaunch
  rw [Logged.value_bind] at hlaunch
  split at hlaunch
  · cases hlaunch
  rw [Logged.value_bind, Logged.value_pure, Option.some.injEq] at hlaunch
  obtain ⟨es, n, heq⟩ := launchModules_eq (boottimeGetNowLogged freq time).value true k₁.schedModules
    { k₁ with schedMajorFrame := ((periods k₁).foldlM lcmLogged 1).value }
  rw [heq] at hlaunch
  rw [← hlaunch]
  refine ⟨h.registered.setSched _ _ es n, fun q hq => ?_⟩
  cases q with
  | buffer b =>
      have hold := h.shaped (.buffer b) hq
      exact ⟨hold.cap, hold.eleSize⟩
  | channel ch =>
      have hold := h.shaped (.channel ch) trivial
      exact ⟨hold.cap, hold.eleSize⟩

/-- **No division by zero**: in the launch, in any reading of the clock, and in the steps of the run. -/
structure NoDivisionByZero (freq time : Nat) (k : Kernel) (tr : List (Kernel × Event)) : Prop where
  launch : NoZero (schedLaunchLogged freq time k)
  clock : ∀ time', NoZero (boottimeGetNowLogged freq time')
  steps : AllSteps (fun k e => NoZero (stepLogged k e)) tr

/-- **Nothing is divided by zero** iff the clock ticks in every microsecond, the major frame lasts, and every
step divides well. -/
theorem divisors_nonzero_iff {freq time : Nat} {tr : List (Kernel × Event)} (hfreq : freq ≠ 0)
    (hb : BeforeBoot k₀) (hboot : bootPorts k₀ qpcs tbl = .ok k₁)
    (hlaunch : (schedLaunchLogged freq time k₁).value = some k₂) (hrun : Run k₂ tr k) :
    NoDivisionByZero freq time k₁ tr ↔
      sysTimeSecond ≤ freq ∧ FrameLasts (periods k₁) ∧ AllSteps DividesWell tr := by
  have hclock := noZero_boottimeGetNowLogged hfreq
  have hsteps : AllSteps (fun k e => NoZero (stepLogged k e)) tr ↔ AllSteps DividesWell tr :=
    hrun.allSteps_iff ((hb.formed hboot).launch hlaunch) (fun _ _ _ hi hstep => hi.step hstep)
      fun _ _ _ hi _ => hi.noZero_iff
  constructor
  · intro h
    obtain ⟨hframe, hticks⟩ := (noZero_schedLaunchLogged hfreq hlaunch).mp h.launch
    exact ⟨hticks, hframe, hsteps.mp h.steps⟩
  · rintro ⟨hticks, hframe, hwell⟩
    refine ⟨?_, fun time' => ?_, hsteps.mpr hwell⟩
    · exact (noZero_schedLaunchLogged hfreq hlaunch).mpr ⟨hframe, hticks⟩
    · exact (hclock time').mpr hticks

end Boot

/-! ## A period of zero -/

/-- The partition of `portSystem`, with another period. -/
def systemOfPeriod (period : Int) : Kernel :=
  { portSystem with parts := fun pt => { portSystem.parts pt with paPeriod := period } }

theorem beforeBoot_systemOfPeriod (period : Int) : BeforeBoot (systemOfPeriod period) where
  quiet :=
    { registered := { quiet_portSystem.registered with }
      lists := quiet_portSystem.lists, conts := quiet_portSystem.conts, woken := quiet_portSystem.woken
      state := quiet_portSystem.state, timer := quiet_portSystem.timer, events := quiet_portSystem.events
      ids := quiet_portSystem.ids, fresh := quiet_portSystem.fresh }
  confs := rfl
  fresh q _ := by
    have hsize : (4 + commMsgSize) % wordSize = 12 := by rw [wordSize_eq]; rfl
    cases q <;> simp [FreshQue, Kernel.body, Kernel.maxMsgSize, Kernel.maxNbMsg, systemOfPeriod, portSystem,
      smallSystem, hsize]

/-- After its launch, which there are no windows for. -/
def launchedWithPeriod (period : Int) : Kernel :=
  { systemOfPeriod period with schedMajorFrame := launchFrame [period] }

theorem launch_systemOfPeriod (freq time : Nat) (period : Int) :
    (schedLaunchLogged freq time (systemOfPeriod period)).value = some (launchedWithPeriod period) := rfl

/-- The process `1` creates a process with a period of a hundred microseconds. -/
def createPeriodic : Event :=
  .call ⟨fun _ => 0, fun _ => 0⟩ (.createProcess ⟨"worker", 100, 0, 0, 0, 1, .soft⟩)

/-- A period of zero is accepted, unlike a memory of zero, and `CREATE_PROCESS` divides by it. -/
theorem divisors_zero : ¬ ∀ (freq time : Nat) (k₀ k₁ k₂ k : Kernel) (qpcs : List QueuingPortConf)
    (tbl : List ChannelConf) (tr : List (Kernel × Event)), freq ≠ 0 → BeforeBoot k₀ →
    bootPorts k₀ qpcs tbl = .ok k₁ → (schedLaunchLogged freq time k₁).value = some k₂ → Run k₂ tr k →
    NoDivisionByZero freq time k₁ tr := by
  intro hall
  obtain ⟨k, hrun, -⟩ := Exec.of_checkRun step (launchedWithPeriod 0) [createPeriodic] (fun _ => true)
    (by decide +kernel)
  have hno := hall 10000000 0 _ _ _ _ [] [] _ (by decide) (beforeBoot_systemOfPeriod 0) rfl
    (launch_systemOfPeriod _ _ 0) hrun
  have hdivisors : (stepLogged (launchedWithPeriod 0) createPeriodic).log = [0] := by decide +kernel
  exact hno.steps (launchedWithPeriod 0, createPeriodic) List.mem_cons_self 0 (by simp [hdivisors]) rfl

example : doPartitionsCreate (fun _ => true) (fun _ => ⟨"", "", 0, 0, 0⟩) (fun pc pcs => some (pc :: pcs))
    "name=a,prog=p,memory=4096,period=0,duration=0".toList [] = .ok [⟨"a", "p", 4096, 0, 0⟩] := by
  decide +kernel

/-- With a period of thirty microseconds the process is refused; then a message goes into the buffer `1`. -/
theorem divisors_nonzero_iff_thirty : ∃ k tr, Run (launchedWithPeriod 30) tr k ∧ tr.length = 2 ∧
    NoDivisionByZero 10000000 0 (systemOfPeriod 30) tr := by
  let events := [createPeriodic, .call ⟨fun _ => 0, fun _ => 0⟩ (.sendBuffer 1 0 4 0)]
  obtain ⟨k, hrun, -⟩ := Exec.of_checkRun step (launchedWithPeriod 30) events (fun _ => true)
    (by decide +kernel)
  have hboot : bootPorts (systemOfPeriod 30) [] [] = .ok (systemOfPeriod 30) := rfl
  refine ⟨k, _, hrun, by decide +kernel, (divisors_nonzero_iff (by decide) (beforeBoot_systemOfPeriod 30) hboot
    (launch_systemOfPeriod _ _ 30) hrun).mpr ⟨by decide, ?_, ?_⟩⟩
  · intro pre post hps
    have hlist : [30] = pre ++ 0 :: post := hps
    have hzero : (0 : Int) ∈ [30] := by
      rw [hlist]
      exact List.mem_append_right pre List.mem_cons_self
    exact absurd hzero (by decide)
  · show ∀ x ∈ traceEvents step (launchedWithPeriod 30) events, DividesWell x.1 x.2
    decide +kernel

end Jrinx
