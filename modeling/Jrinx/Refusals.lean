import Jrinx.Returns

/-! # Refused calls

A service refuses a call with one of five codes. All services look at their arguments before they
change anything, except that `SET_PARTITION_MODE` stores the mode before it looks at it.

* **`SameButIds`** — two states that differ in the counters of identifiers at most.
* **`refused_doSyscall`** — a refused call leaves the state as it was, with that exception.
* **`rejected_calls_iff`** — the runs in which every refused call is without effect. -/

namespace Jrinx

/-- The codes with which a service refuses a call. -/
def RetCode.refuses : RetCode → Bool
  | .noAction => true
  | .notAvailable => true
  | .invalidParam => true
  | .invalidConfig => true
  | .invalidMode => true
  | _ => false

/-- The two states differ in the counters from which identifiers are taken, at most. -/
def SameButIds (k k' : Kernel) : Prop :=
  ∃ nb nbb, k' = { k with nxtBufId := nb, nxtBbId := nbb }

theorem SameButIds.refl (k : Kernel) : SameButIds k k := ⟨k.nxtBufId, k.nxtBbId, rfl⟩

/-- If the segment ended with a refusal, the state is as it was. -/
def RefusedSame (k : Kernel) (n : Next) (k' : Kernel) : Prop :=
  ∀ code out, n = .ret code out → code.refuses = true → SameButIds k k'

variable {k k' : Kernel} {env : Env} {p : ProcId} {n : Next}

/-! ## The services -/

theorem RefusedSame.of_same (n : Next) (h : SameButIds k k') : RefusedSame k n k' :=
  fun _ _ _ _ => h

theorem RefusedSame.of_noError {out : Out} : RefusedSame k (.ret .noError out) k' := by
  intro code out' hn hc
  rw [Next.ret.injEq] at hn
  rw [← hn.1] at hc
  exact absurd hc (by decide)

theorem RefusedSame.of_giveUp {rr : Bool} {c : Cont} : RefusedSame k (.giveUp rr c) k' :=
  fun _ _ hn _ => absurd hn (by simp)

/-- A service that returns a code right away. -/
theorem refused_retCode {code : RetCode} {k₁ : Kernel} (hk : SameButIds k k₁)
    (h : retCode k₁ code = .ok (n, k')) : RefusedSame k n k' := by
  simp only [retCode, Except.ok.injEq, Prod.mk.injEq] at h
  rw [← h.2]
  exact .of_same n hk

/-- A service that returns `NO_ERROR`. -/
theorem refused_noError {k₁ : Kernel} {out : Out}
    (h : (.ok (.ret .noError out, k₁) : Outcome) = .ok (n, k')) : RefusedSame k n k' := by
  have heq := Except.ok.inj h
  rw [Prod.mk.injEq] at heq
  rw [← heq.1]
  exact .of_noError

/-- A service that gives the processor up. -/
theorem refused_giveUp {k₁ : Kernel} {rr : Bool} {c : Cont}
    (h : (.ok (.giveUp rr c, k₁) : Outcome) = .ok (n, k')) : RefusedSame k n k' := by
  have heq := Except.ok.inj h
  rw [Prod.mk.injEq] at heq
  rw [← heq.1]
  exact .of_giveUp

theorem Silent.refused {o : Outcome} (hs : Silent k o) (h : o = .ok (n, k')) :
    RefusedSame k n k' := by
  obtain ⟨code, out, rfl⟩ := hs
  have heq := Except.ok.inj h
  rw [Prod.mk.injEq] at heq
  rw [← heq.2]
  exact .of_same n (.refl k)

theorem code_bufferWakeup {k₁ : Kernel} {b : BufId} {out out' : Out} {code : RetCode}
    (h : bufferWakeup k₁ b out = .ok (.ret code out', k')) : code = .noError := by
  unfold bufferWakeup at h
  cases hx : wakeup k₁ (k₁.bufs b).bufQueDisc (.buffer b) with
  | error f => simp [hx, bind, Except.bind] at h
  | ok x =>
      obtain ⟨woke, k₂⟩ := x
      simp only [hx, bind, Except.bind] at h
      cases woke with
      | none =>
          cases h
          rfl
      | some q => exact absurd (Except.ok.inj h) (by simp)

theorem code_queuingPortWakeup {k₁ : Kernel} {port : PortId} {out out' : Out} {code : RetCode}
    (h : queuingPortWakeup k₁ port out = .ok (.ret code out', k')) : code = .noError := by
  unfold queuingPortWakeup at h
  cases hx : wakeup k₁ (k₁.ports port).qpDisc (.channel (k₁.ports port).qpChannel) with
  | error f => simp [hx, bind, Except.bind] at h
  | ok x =>
      simp only [hx, bind, Except.bind] at h
      cases h
      rfl

/-- What follows the loop returns `NO_ERROR` if it returns. -/
theorem code_commFinish {c : CommCall} {code : RetCode} {out : Out}
    (h : commFinish k env c = .ok (.ret code out, k')) : code = .noError := by
  cases c with
  | sendBuffer b msgAddr length timeOut => exact code_bufferWakeup h
  | receiveBuffer b timeOut msgAddr => exact code_bufferWakeup h
  | sendQueuingMessage port msgAddr length timeOut => exact code_queuingPortWakeup h
  | receiveQueuingMessage port timeOut msgAddr => exact code_queuingPortWakeup h
  | readBlackboard b timeOut msgAddr =>
      cases h
      rfl

/-- Whatever follows the loop is no refusal. -/
theorem refused_commFinish {c : CommCall} (h : commFinish k env c = .ok (n, k')) :
    RefusedSame k n k' := by
  cases n with
  | ret code out =>
      rw [code_commFinish h]
      exact .of_noError
  | giveUp rr c' => exact .of_giveUp

theorem refused_commBlock {c : CommCall} {w : Int} {i : Nat}
    (h : commBlock k env p c w i = .ok (n, k')) : RefusedSame k n k' := by
  unfold commBlock at h
  split at h
  · exact (silent_ret k _ _).refused h
  · exact refused_giveUp h

theorem refused_commEnter {c : CommCall} (h : commEnter k env p c = .ok (n, k')) :
    RefusedSame k n k' := by
  unfold commEnter at h
  split at h
  · split at h
    · exact (silent_ret k _ _).refused h
    · exact refused_commBlock h
  · exact refused_commFinish h

theorem refused_doClearQueuingPort {port : PortId}
    (h : doClearQueuingPort k port = .ok (n, k')) : RefusedSame k n k' := by
  unfold doClearQueuingPort at h
  split at h
  · exact refused_retCode (.refl k) h
  split at h
  · exact refused_retCode (.refl k) h
  rename_i qp hqp hdir
  dsimp only at h
  split at h
  · cases hw : wakeup k qp.qpDisc (Que.obj (.channel qp.qpChannel)) with
    | error f => simp [hw, bind, Except.bind] at h
    | ok x =>
        simp only [hw, bind, Except.bind] at h
        exact refused_noError h
  · exact refused_noError h

theorem refused_doCreateBuffer {name : String} {sz nb : Nat} {disc : QueDisc}
    (h : doCreateBuffer k name sz nb disc = .ok (n, k')) : RefusedSame k n k' := by
  unfold doCreateBuffer at h
  split at h
  · exact refused_retCode (.refl k) h
  split at h
  · exact refused_retCode (.refl k) h
  split at h
  · exact refused_retCode (.refl k) h
  unfold bufferAlloc at h
  cases hm : partCommAlloc k.curPart (nb * (sz + commMsgSize) % wordSize) k.mem with
  | ok base mem =>
      simp only [hm] at h
      exact refused_noError h
  | err mem =>
      -- only the identifier is used up
      simp only [hm] at h
      exact refused_retCode ⟨k.nxtBufId + 1, k.nxtBbId, rfl⟩ h
  | fatal =>
      simp only [hm] at h
      exact refused_retCode ⟨k.nxtBufId + 1, k.nxtBbId, rfl⟩ h

theorem refused_doCreateBlackboard {name : String} {sz : Nat}
    (h : doCreateBlackboard k name sz = .ok (n, k')) : RefusedSame k n k' := by
  unfold doCreateBlackboard at h
  split at h
  · exact refused_retCode (.refl k) h
  split at h
  · exact refused_retCode (.refl k) h
  split at h
  · exact refused_retCode (.refl k) h
  unfold blackboardAlloc at h
  cases hm : partCommAlloc k.curPart sz k.mem with
  | ok base mem =>
      simp only [hm] at h
      exact refused_noError h
  | err mem =>
      simp only [hm] at h
      exact refused_retCode ⟨k.nxtBufId, k.nxtBbId + 1, rfl⟩ h
  | fatal =>
      simp only [hm] at h
      exact refused_retCode ⟨k.nxtBufId, k.nxtBbId + 1, rfl⟩ h

theorem refused_doCreateQueuingPort {name : String} {sz nb : Nat} {dir : Option PortDir}
    {disc : QueDisc} (h : doCreateQueuingPort k name sz nb dir disc = .ok (n, k')) :
    RefusedSame k n k' := by
  unfold doCreateQueuingPort at h
  split at h
  · exact refused_retCode (.refl k) h
  split at h
  · exact refused_retCode (.refl k) h
  split at h
  · exact refused_retCode (.refl k) h
  cases dir with
  | none => exact refused_retCode (.refl k) h
  | some d =>
      unfold queuingPortAlloc at h
      cases hc : (k.portConfs.find? (fun c => c.qpcName = name)).bind
          QueuingPortConf.qpcChannel with
      | none =>
          simp only [hc] at h
          exact refused_retCode (.refl k) h
      | some chan =>
          simp only [hc] at h
          exact refused_noError h

theorem refused_doCreateProcess {a : ProcessAttribute}
    (h : doCreateProcess k a = .ok (n, k')) : RefusedSame k n k' := by
  unfold doCreateProcess at h
  dsimp only at h
  split at h
  · exact refused_retCode (.refl k) h
  split at h
  · exact refused_retCode (.refl k) h
  split at h
  · exact refused_retCode (.refl k) h
  split at h
  · exact refused_retCode (.refl k) h
  split at h
  · exact refused_retCode (.refl k) h
  unfold procAlloc at h
  cases hm : procAllocMem k.curPart a.stackSize k.mem with
  | ok stk mem =>
      simp only [hm, bind, Except.bind] at h
      exact refused_noError h
  | err mem =>
      simp only [hm, bind, Except.bind] at h
      -- the budget is looked at before any page is taken
      rw [procAllocMem_err hm] at h
      exact refused_retCode (.refl k) h
  | fatal => simp [hm, bind, Except.bind] at h

theorem refused_doSuspendSelf {t : Int} (h : doSuspendSelf k env p t = .ok (n, k')) :
    RefusedSame k n k' := by
  unfold doSuspendSelf at h
  split at h
  · exact refused_retCode (.refl k) h
  split at h
  · exact refused_retCode (.refl k) h
  split at h
  exacts [refused_giveUp h, refused_giveUp h]

theorem refused_doTimedWait {t : Int} (h : doTimedWait k env p t = .ok (n, k')) :
    RefusedSame k n k' := by
  unfold doTimedWait at h
  split at h
  · exact refused_retCode (.refl k) h
  split at h
  exacts [refused_giveUp h, refused_giveUp h]

theorem refused_doSuspend {id : ProcId} (h : doSuspend k id = .ok (n, k')) :
    RefusedSame k n k' := by
  unfold doSuspend at h
  split at h
  · exact refused_retCode (.refl k) h
  split at h
  · exact refused_retCode (.refl k) h
  split at h
  · exact refused_retCode (.refl k) h
  split at h
  exacts [refused_retCode (.refl k) h, refused_giveUp h]

theorem refused_doResume {id : ProcId} (h : doResume k id = .ok (n, k')) :
    RefusedSame k n k' := by
  unfold doResume at h
  split at h
  · exact refused_retCode (.refl k) h
  rename_i pr hpr
  split at h
  · exact refused_retCode (.refl k) h
  split at h
  · exact refused_retCode (.refl k) h
  split at h
  · exact refused_retCode (.refl k) h
  split at h
  · cases hf : timeEventFree k pr.prAssoTimer with
    | error f => simp [hf, bind, Except.bind] at h
    | ok k₁ =>
        simp only [hf, bind, Except.bind] at h
        exact refused_giveUp h
  · exact refused_giveUp h

theorem refused_doStop {id : ProcId} (h : doStop k id = .ok (n, k')) : RefusedSame k n k' := by
  unfold doStop at h
  split at h
  · exact refused_retCode (.refl k) h
  rename_i pr hpr
  split at h
  · exact refused_retCode (.refl k) h
  split at h
  · cases hf : timeEventFree (k.setState id .dormant) pr.prAssoTimer with
    | error f => simp [hf, bind, Except.bind] at h
    | ok k₁ =>
        simp only [hf, bind, Except.bind] at h
        exact refused_giveUp h
  · exact refused_giveUp h

theorem refused_doDelayedStart {id : ProcId} {t : Int}
    (h : doDelayedStart k env id t = .ok (n, k')) : RefusedSame k n k' := by
  unfold doDelayedStart at h
  split at h
  · exact refused_retCode (.refl k) h
  split at h
  · exact refused_retCode (.refl k) h
  split at h
  · exact refused_retCode (.refl k) h
  split at h
  · exact refused_retCode (.refl k) h
  dsimp only at h
  split at h
  · split at h
    · split at h
      exacts [refused_giveUp h, refused_giveUp h]
    · exact refused_noError h
  · exact refused_noError h

/-- The event is no call of `SET_PARTITION_MODE` with a value outside the enumeration that is not the
mode of the partition already. -/
def Service.KnownMode (k : Kernel) (s : Service) : Prop :=
  ∀ m, s = .setPartitionMode m → 3 < m → OpMode.ofWord m = (k.parts k.curPart).paOpMode

/-- `SET_PARTITION_MODE` refuses a value outside the enumeration, after it stored it. -/
theorem doSetPartitionMode_of_lt {m : Nat} (hm : 3 < m) :
    doSetPartitionMode k p m = retCode (setMode k (OpMode.ofWord m)) .invalidParam := by
  have h3 : m ≠ 3 := by omega
  have h2 : m ≠ 2 := by omega
  have hlt : ¬ m < 3 := by omega
  simp [doSetPartitionMode, h3, h2, hlt]

theorem setMode_eq_self_iff {m : OpMode} :
    SameButIds k (setMode k m) ↔ m = (k.parts k.curPart).paOpMode := by
  constructor
  · rintro ⟨nb, nbb, heq⟩
    have hparts := congrArg (fun k' : Kernel => (k'.parts k.curPart).paOpMode) heq
    simpa [setMode, Kernel.updPart] using hparts
  · intro heq
    have hself : setMode k m = k := by
      rw [heq, setMode, Kernel.updPart]
      simp
    rw [hself]
    exact .refl k

theorem refused_doSetPartitionMode {m : Nat} (hm : 3 < m → OpMode.ofWord m = (k.parts k.curPart).paOpMode)
    (h : doSetPartitionMode k p m = .ok (n, k')) : RefusedSame k n k' := by
  by_cases hlt : 3 < m
  · rw [doSetPartitionMode_of_lt hlt] at h
    exact refused_retCode (setMode_eq_self_iff.mpr (hm hlt)) h
  · unfold doSetPartitionMode at h
    dsimp only at h
    split at h
    · exact refused_retCode (.refl k) h
    split at h
    · exact refused_retCode (.refl k) h
    split at h
    · exact refused_noError h
    split at h
    · exact refused_giveUp h
    · omega

/-- **A refused call leaves the state as it was**, unless it stored an unknown mode. -/
theorem refused_doSyscall {s : Service} (hs : s.KnownMode k)
    (h : doSyscall k env p s = .ok (n, k')) : RefusedSame k n k' := by
  cases hasks : s.asks with
  | true => exact (silent_doSyscall hasks env p).refused h
  | false =>
      cases hcall : s.commCall with
      | some c =>
          rcases doSyscall_of_commCall k env p hcall with ⟨code, hret⟩ | henter
          · exact refused_retCode (.refl k) (hret.symm.trans h)
          · exact refused_commEnter (henter.symm.trans h)
      | none =>
          cases s with
          | setPartitionMode m => exact refused_doSetPartitionMode (hs m rfl) h
          | createProcess a => exact refused_doCreateProcess h
          | setPriority id pri =>
              simp only [doSyscall, doSetPriority] at h
              split at h
              · exact refused_retCode (.refl k) h
              · split at h
                exacts [refused_retCode (.refl k) h, refused_giveUp h]
          | suspendSelf t => exact refused_doSuspendSelf h
          | suspend id => exact refused_doSuspend h
          | resume id => exact refused_doResume h
          | stopSelf => exact refused_giveUp h
          | stop id => exact refused_doStop h
          | start id => exact refused_doDelayedStart h
          | delayedStart id t => exact refused_doDelayedStart h
          | timedWait t => exact refused_doTimedWait h
          | createQueuingPort name sz nb dir disc => exact refused_doCreateQueuingPort h
          | clearQueuingPort port => exact refused_doClearQueuingPort h
          | createBuffer name sz nb disc => exact refused_doCreateBuffer h
          | createBlackboard name sz => exact refused_doCreateBlackboard h
          | displayBlackboard b a len =>
              simp only [doSyscall, doDisplayBlackboard] at h
              split at h
              · exact refused_retCode (.refl k) h
              split at h
              · exact refused_retCode (.refl k) h
              split at h
              · exact refused_retCode (.refl k) h
              -- the wake-ups may stop the system, but they return no error
              cases hw : wakeupAll (.blackboard b) ((blackboardDisplay k b
                  (loadBytes env.mem a len)).waitingProcs (.blackboard b))
                  (blackboardDisplay k b (loadBytes env.mem a len)) with
              | error f => simp [hw, bind, Except.bind] at h
              | ok k₁ =>
                  simp only [hw, bind, Except.bind] at h
                  exact refused_giveUp h
          | clearBlackboard b =>
              simp only [doSyscall, doClearBlackboard] at h
              split at h
              exacts [refused_retCode (.refl k) h, refused_noError h]
          | sendQueuingMessage | receiveQueuingMessage | sendBuffer | receiveBuffer | readBlackboard => cases hcall
          | _ => cases hasks

/-! ## Runs -/

/-- A segment that ends with a refusal leaves the state as it was. -/
def RefusesCleanly (k : Kernel) (e : Event) : Prop :=
  ∀ p code out k₁, segment k e = some (p, .ok (.ret code out, k₁)) → code.refuses = true →
    SameButIds k (settle p (.ret code out, k₁))

/-- The event is no call of `SET_PARTITION_MODE` with an unknown mode. -/
def Event.KnownMode (k : Kernel) (e : Event) : Prop := ∀ env s, e = .call env s → s.KnownMode k

/-- No call is left to return anything but `NO_ERROR` without looking. -/
def DonesOk (k : Kernel) : Prop :=
  ∀ p code out, k.conts p = some (.done code out) → code = .noError

theorem DonesOk.step {e : Event} (hi : DonesOk k) (h : step k e = .ok k') : DonesOk k' := by
  intro p code out hc
  rcases conts_step h hc with hold | ⟨env, s, rr, -, -, hn⟩ | ⟨env, c₀, -, -, -, hrest⟩
  · exact hi p code out hold
  · cases hn
    rfl
  · cases hrest
    rfl

/-- The rest of a call refuses nothing. -/
theorem not_refuses_resumeCont {c : Cont} (hi : ∀ code out, c = .done code out → code = .noError)
    {code : RetCode} {out : Out} (h : resumeCont k env p c = .ok (.ret code out, k')) :
    code.refuses = false := by
  cases c with
  | comm call w a =>
      simp only [resumeCont, commResume] at h
      split at h
      · cases h
        rfl
      · split at h
        · unfold commBlock at h
          split at h
          · cases h
            rfl
          · exact absurd (Except.ok.inj h) (by simp)
        · -- the end of the loop is never a refusal
          rw [code_commFinish h]
          rfl
  | suspendSelf wakeup =>
      simp only [resumeCont, retCode, Except.ok.injEq, Prod.mk.injEq, Next.ret.injEq] at h
      rw [← h.1.1]
      split <;> rfl
  | done code' out' =>
      simp only [resumeCont, Except.ok.injEq, Prod.mk.injEq, Next.ret.injEq] at h
      rw [← h.1.1, hi code' out' rfl]
      rfl

/-- **A step refuses cleanly exactly when it stores no unknown mode.** -/
theorem refusesCleanly_iff {e : Event} (hi : DonesOk k) (h : step k e = .ok k') :
    RefusesCleanly k e ↔ e.KnownMode k := by
  constructor
  · rintro hclean env s rfl m rfl hm
    rcases step_eq_ok h with ⟨p, he, -⟩ | ⟨clk, r, he, -⟩ | ⟨p, ⟨n, k₁⟩, hs, -⟩
    · exact absurd he (by simp)
    · exact absurd he (by simp)
    obtain ⟨-, ⟨env', s', he, hc, hout⟩ | ⟨env', c, he, -, -⟩⟩ := segment_eq_some hs
    swap
    · exact absurd he (by simp)
    rw [Event.call.injEq] at he
    rw [← he.2, doSyscall, doSetPartitionMode_of_lt hm] at hout
    simp only [retCode, Except.ok.injEq, Prod.mk.injEq] at hout
    obtain ⟨rfl, rfl⟩ := hout
    have hsame := hclean p _ _ _ hs rfl
    refine (setMode_eq_self_iff (k := k)).mp ?_
    have hcont : settle p (.ret .invalidParam .none, setMode k (OpMode.ofWord m))
        = setMode k (OpMode.ofWord m) := by
      rw [settle, Kernel.setCont, ← show (setMode k (OpMode.ofWord m)).conts p = none from hc,
        Function.update_eq_self]
    rwa [hcont] at hsame
  · rintro hknown p code out k₁ hs hcode
    obtain ⟨-, ⟨env, s, rfl, hc, hout⟩ | ⟨env, c, rfl, hc, hout⟩⟩ := segment_eq_some hs
    · obtain ⟨nb, nbb, rfl⟩ := refused_doSyscall (hknown env s rfl) hout.symm code out rfl hcode
      refine ⟨nb, nbb, ?_⟩
      rw [settle, Kernel.setCont, ← hc, Function.update_eq_self]
    · rw [not_refuses_resumeCont (fun code' out' heq => hi p code' out' (heq ▸ hc)) hout.symm] at hcode
      exact absurd hcode (by decide)

/-- **Rejected calls change nothing** in exactly those runs in which `SET_PARTITION_MODE` is never
called with a value outside the enumeration. -/
theorem rejected_calls_iff {tr : List (Kernel × Event)} (hq : Quiet k) (hrun : Run k tr k') :
    AllSteps RefusesCleanly tr ↔ AllSteps (fun k e => e.KnownMode k) tr :=
  hrun.allSteps_iff (fun p code out hc => absurd ((hq.conts p).symm.trans hc) (by simp))
    (fun _ _ _ hi h => hi.step h) fun _ _ _ hi h => refusesCleanly_iff hi h

/-- A mode that is none. -/
def unknownMode : List Event := [.call ⟨fun _ => 0, fun _ => 0⟩ (.setPartitionMode 4)]

/-- A refused `SET_PARTITION_MODE` leaves its argument in the operating mode of the partition. -/
theorem rejected_call_changes_mode : ¬ ∀ (k k' : Kernel) (tr : List (Kernel × Event)), Quiet k →
    Run k tr k' → AllSteps RefusesCleanly tr := by
  intro hall
  have hq := quiet_smallSystem 1 .fifo [1]
  obtain ⟨k', hrun, -⟩ := Exec.of_checkRun step (smallSystem 1 .fifo [1]) unknownMode (fun _ => true)
    (by decide +kernel)
  have hstep : ∃ k₁, step (smallSystem 1 .fifo [1])
      (.call ⟨fun _ => 0, fun _ => 0⟩ (.setPartitionMode 4)) = .ok k₁ := ⟨_, rfl⟩
  obtain ⟨k₁, hk₁⟩ := hstep
  have hmem : (smallSystem 1 .fifo [1], Event.call ⟨fun _ => 0, fun _ => 0⟩ (.setPartitionMode 4))
      ∈ traceEvents step (smallSystem 1 .fifo [1]) unknownMode := by
    simp [unknownMode, traceEvents, hk₁]
  have hdone : DonesOk (smallSystem 1 .fifo [1]) := fun p code out hc => absurd hc (by simp [smallSystem])
  have hknown := (refusesCleanly_iff hdone hk₁).mp (hall _ _ _ hq hrun _ hmem)
  exact absurd (hknown _ _ rfl 4 rfl (by decide)) (by decide)

/-- Without an unknown mode, a refused call is without effect. -/
theorem rejected_calls_iff_emptyBuffer : ∃ k' tr, Run (smallSystem 1 .fifo [1]) tr k' ∧
    (AllSteps RefusesCleanly tr ↔ AllSteps (fun k e => e.KnownMode k) tr) := by
  obtain ⟨k', hrun, -⟩ := Exec.of_checkRun step (smallSystem 1 .fifo [1])
    [.call ⟨fun _ => 0, fun _ => 0⟩ (.receiveBuffer 1 0 0)] (fun _ => true) (by decide +kernel)
  exact ⟨k', _, hrun, rejected_calls_iff (quiet_smallSystem 1 .fifo [1]) hrun⟩

end Jrinx
