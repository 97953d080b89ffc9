import Jrinx.Causes
import Jrinx.PartTimers
import Jrinx.TimerMatch

/-! # Deadlines of the blocking services

A blocking service computes its deadline once, when it is entered, and may then block many times: a
wake-up does not mean that the object can serve it. This file follows a call through all its rounds.

* **`entered`** — the reading of the clock with which a process entered its service.
* **`TimeoutKept`** — a step keeps to the deadline of the call it belongs to.
* **`ReadsEntryClock`** — the step arms no `RECEIVE_QUEUING_MESSAGE` at another reading of the clock.
* **`timeouts_kept_iff`** — every step of a run keeps to the deadlines iff it does so. -/

namespace Jrinx

variable {k k' : Kernel} {env : Env} {p : ProcId}

/-! ## The deadline of a call -/

/-- The monitor of the process `p`: the reading of the clock from which a service it calls computes its
deadline. -/
def enter (p : ProcId) (m : Option Int) (x : Kernel × Event) : Option Int :=
  match x.2 with
  | .call env _ => if live x.1 = some p then some (env.clk 0) else m
  | _ => m

/-- The reading of the clock with which the process `p` entered its last service. -/
def entered (p : ProcId) (tr : List (Kernel × Event)) : Option Int := tr.foldl (enter p) none

theorem entered_snoc (p : ProcId) (tr : List (Kernel × Event)) (x : Kernel × Event) :
    entered p (tr ++ [x]) = enter p (entered p tr) x := by
  simp [entered, List.foldl_append]

/-- The blocking call that the event enters or continues, with its process. -/
def inCall (k : Kernel) : Event → Option (ProcId × CommCall)
  | .call _ s =>
      match live k with
      | none => none
      | some p => if k.conts p = none then s.commCall.map (p, ·) else none
  | .resume _ =>
      match live k with
      | none => none
      | some p =>
          match k.conts p with
          | some (.comm c _ _) => some (p, c)
          | _ => none
  | _ => none

/-- The deadlines that the segment compares the clock with: on entry the one it computes, and after
`sched_proc_give_up` the one of its timer and the one of the loop. -/
def comparedDeadlines (k : Kernel) : Event → List Int
  | .call env s =>
      match s.commCall with
      | none => []
      | some c => [env.clk 0 + c.timeOut]
  | .resume _ =>
      match (live k).bind k.conts with
      | some (.comm _ w a) => [a, w]
      | _ => []
  | _ => []

/-- The reasons of a process that is blocked in a communication service with a time-out. -/
def WaitingReason.isTimedCall : WaitingReason → Bool
  | .bufferBlockedWithTimeout => true
  | .blackboardBlockedWithTimeout => true
  | .queuingPortBlockedWithTimeout => true
  | _ => false

/-- The process waits in a communication service with a time-out. -/
def WaitsTimed (k : Kernel) (p : ProcId) : Prop :=
  (k.procs p).prState = .waiting ∧ (k.procs p).prWaitingReason.isTimedCall = true

/-- The deadline of the call `c` that the process `p` entered in the run. -/
def IsDeadline (tr : List (Kernel × Event)) (p : ProcId) (c : CommCall) (d : Int) : Prop :=
  ∃ t, entered p tr = some t ∧ d = t + c.timeOut

/-- **The time-out is kept** by the step `x` after the run `pre`: what a segment of a call compares the
clock with and what it arms is the deadline of the call, and after a timer interrupt at or past the
deadline the call does not keep its process waiting. -/
structure TimeoutKept (pre : List (Kernel × Event)) (x : Kernel × Event) : Prop where
  compares : ∀ p c d, inCall x.1 x.2 = some (p, c) → c.timeOut ≠ systemTimeInfiniteVal →
    d ∈ comparedDeadlines x.1 x.2 → IsDeadline (pre ++ [x]) p c d
  arms : ∀ p c k' te, inCall x.1 x.2 = some (p, c) → c.timeOut ≠ systemTimeInfiniteVal →
    step x.1 x.2 = .ok k' → te ∈ k'.teq → x.1.nxtTe ≤ te.teId → IsDeadline (pre ++ [x]) p c te.teTime
  releases : ∀ p c w a clk k', x.2 = .timer clk → step x.1 x.2 = .ok k' →
    x.1.conts p = some (.comm c w a) → c.timeOut ≠ systemTimeInfiniteVal → WaitsTimed k' p →
    ∃ d i, IsDeadline pre p c d ∧ clk i < d

/-- The segment links the process `p` in a `RECEIVE_QUEUING_MESSAGE` with a finite time-out, on entry or
once more. -/
inductive LinksReceiver (k : Kernel) : Event → ProcId → Env → Prop
  | enter {env : Env} {p : ProcId} {port : PortId} {t : Int} {addr : Nat} {qp : QueuingPort}
      (exec : live k = some p) (free : k.conts p = none) (known : curQueuingPort k port = some qp)
      (dir : qp.qpDir = .destination) (empty : mustWait k (.receiveQueuingMessage port t addr) = true)
      (positive : t ≠ 0) (finite : t ≠ systemTimeInfiniteVal) (early : env.clk 1 < env.clk 0 + t) :
      LinksReceiver k (.call env (.receiveQueuingMessage port t addr)) p env
  | again {env : Env} {p : ProcId} {port : PortId} {t : Int} {addr : Nat} {w a : Int}
      (exec : live k = some p) (held : k.conts p = some (.comm (.receiveQueuingMessage port t addr) w a))
      (finite : t ≠ systemTimeInfiniteVal) (woken : env.clk 0 < a)
      (empty : mustWait k (.receiveQueuingMessage port t addr) = true) (early : env.clk 1 < w) :
      LinksReceiver k (.resume env) p env

/-- A receiver that the step links reads the clock as it read when the call was entered. -/
def ReadsEntryClock (pre : List (Kernel × Event)) (x : Kernel × Event) : Prop :=
  ∀ p env, LinksReceiver x.1 x.2 p env → entered p (pre ++ [x]) = some (env.clk 2)

/-! ## Segments of the blocking services -/

/-- One round of the loop: it is past its deadline, or it blocks. -/
theorem commBlock_eq_ok {c : CommCall} {w : Int} {i : Nat} {n : Next}
    (h : commBlock k env p c w i = .ok (n, k')) :
    ((c.timeOut ≠ systemTimeInfiniteVal ∧ w ≤ env.clk i) ∧ n = .ret .timedOut c.failOut ∧ k' = k) ∨
      (¬ (c.timeOut ≠ systemTimeInfiniteVal ∧ w ≤ env.clk i) ∧
        n = .giveUp false (.comm c w (c.armed (env.clk (i + 1)) w)) ∧
        k' = commWait k p c (c.armed (env.clk (i + 1)) w)) := by
  unfold commBlock at h
  split at h
  · rename_i hlate
    obtain ⟨rfl, rfl⟩ := Prod.mk.inj (Except.ok.inj h)
    exact Or.inl ⟨hlate, rfl, rfl⟩
  · rename_i hearly
    obtain ⟨rfl, rfl⟩ := Prod.mk.inj (Except.ok.inj h)
    exact Or.inr ⟨hearly, rfl, rfl⟩

/-- A wake-up queues no event. -/
theorem teq_of_wakeup {disc : QueDisc} {o : WaitObj} {woke : Option ProcId}
    (h : wakeup k disc o = .ok (woke, k')) : k'.teq ⊆ k.teq := by
  rcases wakeup_eq_ok h with ⟨-, -, rfl⟩ | ⟨q, -, -, hw⟩
  · exact List.Subset.refl _
  obtain ⟨k₁, hk₁, rfl⟩ := wakeProc_eq_ok hw
  rcases hk₁ with ⟨-, hfree⟩ | ⟨-, rfl⟩
  · obtain ⟨i, -, -, rfl⟩ := mem_of_timeEventFree hfree
    intro te hte
    have hmem := (List.mem_filter.mp hte).1
    simpa [delWaitingProc] using hmem
  · intro te hte
    simpa [delWaitingProc, Kernel.setState, Kernel.updProc, Kernel.setWoken] using hte

theorem teq_of_commFinish {c : CommCall} {n : Next} (h : commFinish k env c = .ok (n, k')) :
    k'.teq ⊆ k.teq := by
  -- a wake-up only takes events off the queue
  have hbuffer : ∀ {q : Que} {cc : Circbuf} {b : BufId} {out : Out},
      bufferWakeup (k.setBody q cc) b out = .ok (n, k') → k'.teq ⊆ k.teq := by
    intro q cc b out h
    unfold bufferWakeup at h
    generalize hw : wakeup _ _ _ = x at h
    rcases x with f | ⟨woke, k₁⟩
    · exact absurd h (by simp [bind, Except.bind])
    have hsub := teq_of_wakeup hw
    rw [Kernel.teq_setBody] at hsub
    cases woke <;> simp only [bind, Except.bind, Except.ok.injEq, Prod.mk.injEq] at h
    all_goals exact h.2 ▸ hsub
  have hport : ∀ {q : Que} {cc : Circbuf} {port : PortId} {out : Out},
      queuingPortWakeup (k.setBody q cc) port out = .ok (n, k') → k'.teq ⊆ k.teq := by
    intro q cc port out h
    unfold queuingPortWakeup at h
    generalize hw : wakeup _ _ _ = x at h
    rcases x with f | ⟨woke, k₁⟩
    · exact absurd h (by simp [bind, Except.bind])
    have hsub := teq_of_wakeup hw
    rw [Kernel.teq_setBody] at hsub
    simp only [bind, Except.bind, Except.ok.injEq, Prod.mk.injEq] at h
    exact h.2 ▸ hsub
  cases c with
  | sendBuffer b msgAddr length timeOut => exact hbuffer h
  | receiveBuffer b timeOut msgAddr => exact hbuffer h
  | sendQueuingMessage port msgAddr length timeOut => exact hport h
  | receiveQueuingMessage port timeOut msgAddr => exact hport h
  | readBlackboard b timeOut msgAddr =>
      simp only [commFinish, Except.ok.injEq, Prod.mk.injEq] at h
      exact h.2 ▸ List.Subset.refl _

/-- The events of a process that blocks: those of before, and its own one if the call has a time-out. -/
theorem mem_teq_commWait {c : CommCall} {a : Int} {te : TimeEvent} :
    te ∈ (commWait k p c a).teq ↔
      (c.timeOut ≠ systemTimeInfiniteVal ∧ te = ⟨k.nxtTe, a, c.teType p⟩) ∨ te ∈ k.teq := by
  unfold commWait
  dsimp only
  split
  · rename_i hfin
    rw [timeEventAlloc_of_proc _ _ (proc_teType p c)]
    simp [mem_insertEvent, addWaitingProc, Kernel.setState, Kernel.setReason, Kernel.updProc, hfin]
  · rename_i hinf
    simp only [hinf, false_and, false_or]
    simp [addWaitingProc, Kernel.setState, Kernel.setReason, Kernel.updProc]

/-! ## A process that waits has its event -/

/-- A process that waits in a call with a time-out has an event at the deadline of its timer. -/
def HeldAt (k : Kernel) (p : ProcId) : Prop :=
  ∀ c w a, k.conts p = some (.comm c w a) → WaitsTimed k p →
    ∃ te ∈ k.teq, te.teType.proc = some p ∧ te.teTime = a

/-- A timer of a process names an event of the process, if it is still queued. -/
def OwnsTimer (k : Kernel) (p : ProcId) : Prop :=
  ∀ t, (k.procs p).prAssoTimer = some t → ∀ te ∈ k.teq, te.teId = t → te.teType.proc = some p

/-- **The invariant of the event queue**, which no `STOP` breaks. -/
structure CallTimers (k : Kernel) : Prop where
  order : QueueOrder k
  own : ∀ p, OwnsTimer k p
  held : ∀ p, HeldAt k p

theorem HeldAt.of_not_waiting (h : (k.procs p).prState ≠ .waiting) : HeldAt k p :=
  fun _ _ _ _ hw => absurd hw.1 h

theorem HeldAt.of_reason (h : (k.procs p).prWaitingReason.isTimedCall = false) : HeldAt k p :=
  fun _ _ _ _ hw => absurd hw.2 (by simp [h])

namespace CallTimers

/-- **An effect on one process**: events of its own come and go, those of the others stay. -/
theorem update (h : CallTimers k) (p : ProcId) (ho : QueueOrder k')
    (hother : ∀ q, q ≠ p → k'.procs q = k.procs q) (hconts : ∀ q, q ≠ p → k'.conts q = k.conts q)
    (hnew : ∀ te ∈ k'.teq, te ∈ k.teq ∨ te.teId = k.nxtTe)
    (hkeep : ∀ te ∈ k.teq, te.teType.proc ≠ some p → te ∈ k'.teq)
    (hown : OwnsTimer k' p) (hheld : HeldAt k' p) : CallTimers k' where
  order := ho
  own q := by
    by_cases hq : q = p
    · exact hq ▸ hown
    intro t ht te hte hid
    rw [hother q hq] at ht
    rcases hnew te hte with hmem | hfresh
    · exact h.own q t ht te hmem hid
    · -- the event is new, and the timers of the others are older
      have hlt := h.order.fresh q t ht
      omega
  held q := by
    by_cases hq : q = p
    · exact hq ▸ hheld
    intro c w a hc hw
    unfold WaitsTimed at hw
    rw [hother q hq] at hw
    rw [hconts q hq] at hc
    obtain ⟨te, hte, hproc, htime⟩ := h.held q c w a hc hw
    refine ⟨te, hkeep te hte ?_, hproc, htime⟩
    rw [hproc, ne_eq, Option.some.injEq]
    exact hq

/-- An effect on one process that leaves the queue alone. -/
theorem updateProc (h : CallTimers k) (p : ProcId) (hteq : k'.teq = k.teq) (hnxt : k'.nxtTe = k.nxtTe)
    (hother : ∀ q, q ≠ p → k'.procs q = k.procs q) (hconts : ∀ q, q ≠ p → k'.conts q = k.conts q)
    (htimer : (k'.procs p).prAssoTimer = none ∨ (k'.procs p).prAssoTimer = (k.procs p).prAssoTimer)
    (hheld : HeldAt k' p) : CallTimers k' := by
  refine h.update p ?_ hother hconts ?_ ?_ ?_ hheld
  · refine h.order.sub (hteq ▸ List.Sublist.refl _) hnxt fun q => ?_
    by_cases hq : q = p
    · exact hq ▸ htimer
    · exact Or.inr (by rw [hother q hq])
  · rw [hteq]
    exact fun te hte => Or.inl hte
  · rw [hteq]
    exact fun te hte _ => hte
  · intro t ht te hte hid
    rw [hteq] at hte
    rcases htimer with hnone | hsame
    · exact absurd (hnone.symm.trans ht) (by simp)
    · exact h.own p t (hsame.symm.trans ht) te hte hid

theorem of_eq (h : CallTimers k) (hteq : k'.teq = k.teq) (hnxt : k'.nxtTe = k.nxtTe)
    (hprocs : k'.procs = k.procs) (hconts : k'.conts = k.conts) : CallTimers k' := by
  refine h.updateProc 0 hteq hnxt (fun q _ => by rw [hprocs]) (fun q _ => by rw [hconts])
    (Or.inr (by rw [hprocs])) ?_
  unfold HeldAt WaitsTimed
  rw [hteq, hprocs, hconts]
  exact h.held 0

/-- A process changes its state to one in which it does not wait. -/
theorem setState (h : CallTimers k) (p : ProcId) {s : ProcState} (hs : s ≠ .waiting) :
    CallTimers (k.setState p s) := by
  refine h.updateProc p rfl rfl ?_ (fun _ _ => rfl) (Or.inr (by simp))
    (.of_not_waiting (by simpa using hs))
  intro q hq
  simp [Kernel.setState, Kernel.updProc, hq]

/-- The timer of a process is freed, and it does not wait any more. -/
theorem freed (h : CallTimers k) (k₀ : Kernel) {p : ProcId} {i : TimeEvent} {s : ProcState}
    (hs : s ≠ .waiting) (hi : i ∈ k.teq) (hid : (k.procs p).prAssoTimer = some i.teId)
    (hteq : k₀.teq = k.teq) (hnxt : k₀.nxtTe = k.nxtTe) (hconts : k₀.conts = k.conts)
    (hother : ∀ q, q ≠ p → k₀.procs q = k.procs q) :
    CallTimers ((freeEvent k₀ i).setState p s) := by
  -- the event that the process names is its own
  have hp : i.teType.proc = some p := h.own p _ hid i hi rfl
  have hsub : (freeEvent k₀ i).teq.Sublist k.teq := by
    rw [← hteq]
    exact List.filter_sublist
  have hfree : ((freeEvent k₀ i).procs p).prAssoTimer = none := by
    rw [procs_freeEvent k₀ hp, Function.update_self]
  have hprocs : ∀ q, q ≠ p → ((freeEvent k₀ i).setState p s).procs q = k.procs q := by
    intro q hq
    simp only [Kernel.setState, Kernel.updProc, Function.update_of_ne hq, procs_freeEvent k₀ hp]
    exact hother q hq
  have htimer : (((freeEvent k₀ i).setState p s).procs p).prAssoTimer = none := by
    rw [Kernel.prAssoTimer_setState, hfree]
  refine h.update p ?_ hprocs (fun q _ => by rw [← hconts]; rfl) (fun te hte => Or.inl (hsub.subset hte))
    ?_ ?_ (.of_not_waiting (by simpa using hs))
  · refine h.order.sub hsub hnxt fun q => ?_
    by_cases hq : q = p
    · exact Or.inl (hq ▸ htimer)
    · exact Or.inr (by rw [hprocs q hq])
  · intro te hte hne
    refine List.mem_filter.mpr ⟨by rwa [hteq], ?_⟩
    rw [decide_eq_true_eq]
    intro hsame
    exact hne (h.own p _ hid te hte hsame)
  · intro t ht
    exact absurd (htimer.symm.trans ht) (by simp)

/-- A process arms a timer, and waits for nothing or for this timer. -/
theorem armed (h : CallTimers k) (p : ProcId) {te : TimeEvent} (ho : QueueOrder k')
    (hteq : k'.teq = insertEvent te k.teq) (hid : te.teId = k.nxtTe) (hproc : te.teType.proc = some p)
    (hother : ∀ q, q ≠ p → k'.procs q = k.procs q) (hconts : ∀ q, q ≠ p → k'.conts q = k.conts q)
    (htimer : (k'.procs p).prAssoTimer = some te.teId) (hheld : HeldAt k' p) : CallTimers k' := by
  refine h.update p ho hother hconts ?_ ?_ ?_ hheld
  · intro te' hte'
    rw [hteq] at hte'
    rcases mem_insertEvent.mp hte' with rfl | hmem
    · exact Or.inr hid
    · exact Or.inl hmem
  · intro te' hte' _
    rw [hteq]
    exact mem_insertEvent.mpr (Or.inr hte')
  · intro t ht te' hte' hid'
    rw [hteq] at hte'
    rcases mem_insertEvent.mp hte' with rfl | hmem
    · exact hproc
    · have hlt := h.order.ids te' hmem
      have heq : te.teId = t := Option.some.inj (htimer.symm.trans ht)
      omega

end CallTimers

theorem SleepKind.isTimedCall {r : WaitingReason} {type : TimeEventType} (h : SleepKind p r type) :
    r.isTimedCall = false := by cases h <;> rfl

theorem isTimedCall_blockedReason (o : WaitObj) : (blockedReason o).isTimedCall = false := by
  cases o <;> rfl

/-- **Every effect keeps the event of a process that waits.** -/
theorem CallTimers.eff {a : Act} (h : CallTimers k) (he : Eff k a k') : CallTimers k' := by
  cases he with
  | mode m => exact h.of_eq rfl rfl rfl rfl
  | @attr p f own other =>
      have hsame : ((k.updProc p f).procs p) = f (k.procs p) := by simp [Kernel.updProc]
      refine h.updateProc p rfl rfl ?_ (fun _ _ => rfl) (Or.inr ?_) ?_
      · intro q hq
        simp [Kernel.updProc, hq]
      · rw [hsame, other]
      · intro c w a hc hw
        refine h.held p c w a hc ?_
        unfold WaitsTimed at hw ⊢
        rw [hsame, other] at hw
        exact hw
  | ready own held => exact h.setState _ (by decide)
  | @doze p reason own free kind =>
      refine h.updateProc p rfl rfl ?_ (fun _ _ => rfl) (Or.inr ?_) (.of_reason ?_)
      · intro q hq
        simp [waitFor, Kernel.setState, Kernel.setReason, Kernel.updProc, hq]
      · simp [waitFor]
      · have hreason : ((waitFor k p reason).procs p).prWaitingReason = reason := by simp [waitFor]
        rw [hreason]
        rcases kind with rfl | rfl | ⟨rfl, -⟩ <;> rfl
  | @sleep p reason type time known own free kind =>
      have hw := KeepsPartTimers.waitFor h.order p reason
      have hreason : ((waitFor k p reason).procs p).prWaitingReason = reason := by simp [waitFor]
      have horder := (hw.trans (.timeEventAlloc hw.order time kind.proc)).order
      unfold sleepUntil
      rw [timeEventAlloc_of_proc _ time kind.proc] at horder ⊢
      refine h.armed p horder rfl rfl kind.proc ?_ (fun _ _ => rfl) ?_ (.of_reason ?_)
      · intro q hq
        simp [waitFor, Kernel.setState, Kernel.setReason, Kernel.updProc, hq]
      · simp
      · simpa [hreason] using kind.isTimedCall
  | @rouse p k₁ own waits reason freed =>
      obtain ⟨i, hi, hid, rfl⟩ := mem_of_timeEventFree freed
      exact h.freed k (by decide) hi hid rfl rfl rfl fun _ _ => rfl
  | halt cur own runs => exact h.setState _ (by decide)
  | @stop p _ own alive freed =>
      split at freed
      · obtain ⟨i, hi, hid, rfl⟩ := mem_of_timeEventFree freed
        have hstop := h.freed (k.setState p .dormant) (s := .dormant) (by decide) hi hid rfl rfl rfl
          fun q hq => by simp [Kernel.setState, Kernel.updProc, hq]
        have hp : i.teType.proc = some p := h.own p _ hid i hi rfl
        -- setting the state once more changes nothing
        have hidle : (freeEvent (k.setState p .dormant) i).setState p .dormant =
            freeEvent (k.setState p .dormant) i := by
          simp [freeEvent, hp, Kernel.setState, Kernel.updProc]
        exact hidle ▸ hstop
      · rw [← Except.ok.inj freed]
        exact h.setState p (by decide)
  | @reset p own dormant =>
      refine h.updateProc p rfl rfl (fun _ _ => rfl) ?_ (Or.inr rfl) (.of_not_waiting ?_)
      · intro q hq
        simp [procReset, Kernel.setCont, Kernel.setWoken, hq]
      · show (k.procs p).prState ≠ .waiting
        rw [dormant]
        decide
  | @block p c w a cur own runs call fits full =>
      obtain ⟨hother, hcont, -, -, -, -, htimed⟩ := block_fields k p c w a
      have horder : QueueOrder ((commWait k p c a).setCont p (some (.comm c w a))) :=
        (KeepsPartTimers.commWait h.order p c a).order.sub (List.Sublist.refl _) rfl fun _ => Or.inr rfl
      generalize (commWait k p c a).setCont p (some (.comm c w a)) = k' at *
      split at htimed
      · obtain ⟨-, htimer, -, hteq⟩ := htimed
        refine h.armed p horder hteq rfl (proc_teType p c) (fun q hq => (hother q hq).1)
          (fun q hq => (hother q hq).2) htimer ?_
        intro c' w' a' hc' _
        rw [hcont, Option.some.injEq, Cont.comm.injEq] at hc'
        refine ⟨_, hteq ▸ mem_insertEvent.mpr (Or.inl rfl), proc_teType p c, hc'.2.2⟩
      · obtain ⟨hreason, htimer, hnxt, hteq⟩ := htimed
        exact h.updateProc p hteq hnxt (fun q hq => (hother q hq).1) (fun q hq => (hother q hq).2)
          (Or.inr htimer) (.of_reason (by rw [hreason, isTimedCall_blockedReason]))
  | @wake p o _ linked obj done =>
      obtain ⟨k₁, hk₁, rfl⟩ := wakeProc_eq_ok done
      have hwoken : ∀ k₁ : Kernel, CallTimers (k₁.setState p .ready) →
          CallTimers ((k₁.setState p .ready).setWoken p true) := fun k₁ h₁ =>
        h₁.of_eq rfl rfl rfl rfl
      have hdel : CallTimers (delWaitingProc k o p) := by
        refine h.of_eq ?_ ?_ ?_ ?_ <;> simp [delWaitingProc]
      rcases hk₁ with ⟨-, hfree⟩ | ⟨-, rfl⟩
      · obtain ⟨i, hi, hid, rfl⟩ := mem_of_timeEventFree hfree
        have hsame : (k.procs p).prAssoTimer = ((delWaitingProc k o p).procs p).prAssoTimer := by
          simp [delWaitingProc]
        exact hwoken _ (hdel.freed _ (by decide) hi (hsame ▸ hid) rfl rfl rfl fun _ _ => rfl)
      · exact hwoken _ (hdel.setState p (by decide))
  | @queue q cc obj =>
      refine h.of_eq ?_ ?_ ?_ ?_ <;> cases q <;> rfl
  | @newProc mem pr own dormant timer frame =>
      refine h.updateProc k.nxtProcId rfl rfl ?_ ?_ (Or.inl ?_) (.of_not_waiting ?_)
      · intro q hq
        simp [procReset, Kernel.setWoken, Kernel.setCont, registerProc, hq]
      · intro q hq
        simp [procReset, Kernel.setWoken, Kernel.setCont, registerProc, hq]
      · simp [procReset, Kernel.setWoken, Kernel.setCont, registerProc, timer]
      · simp [procReset, Kernel.setWoken, Kernel.setCont, registerProc, dormant]
  | @cont p c cur own free plain =>
      refine h.updateProc p rfl rfl (fun _ _ => rfl) ?_ (Or.inr rfl) ?_
      · intro q hq
        simp [Kernel.setCont, hq]
      · intro c' w a hc'
        simp only [Kernel.setCont, Function.update_self] at hc'
        exact absurd hc' (plain c' w a)
  | @dispatch p _ done =>
      rw [(dispatch_eq_ok done).2]
      have hst : CallTimers (schedProcSt k) := by
        rcases schedProcSt_cases k with hst | ⟨cur, -, -, hst⟩ <;> rw [hst]
        · exact h
        · exact h.setState cur (by decide)
      have hcur : CallTimers { schedProcSt k with curProc := some p } :=
        hst.of_eq rfl rfl rfl rfl
      exact hcur.setState p (by decide)
  | @expire te es p head proc =>
      have hsub : es.Sublist k.teq := head ▸ List.sublist_cons_self te es
      have hprocs : ∀ q, q ≠ p → (expireProc k te p).procs q = k.procs q := by
        intro q hq
        rw [procs_expireProc, Function.update_of_ne hq]
      have hself : ((expireProc k te p).procs p).prState = .ready ∧
          ((expireProc k te p).procs p).prAssoTimer = none := by
        rw [procs_expireProc, Function.update_self]
        exact ⟨rfl, rfl⟩
      have hconts := conts_expireProc k te p
      refine h.update p ?_ hprocs (fun q _ => by rw [← hconts]) (fun te' hte' => Or.inl (hsub.subset hte'))
        ?_ ?_ (.of_not_waiting ?_)
      · refine h.order.sub hsub (LoopFrame.expireProc te p).nxtTe fun q => ?_
        exact (LoopFrame.expireProc (k := k) te p).timers q
      · intro te' hte' hne
        rw [head] at hte'
        rcases List.mem_cons.mp hte' with rfl | hmem
        · exact absurd proc hne
        · exact hmem
      · intro t ht
        exact absurd (hself.2.symm.trans ht) (by simp)
      · show ((expireProc k te p).procs p).prState ≠ .waiting
        rw [hself.1]
        decide
  | @partition te es head proc =>
      have hsub : es.Sublist k.teq := head ▸ List.sublist_cons_self te es
      refine ⟨h.order.sub hsub rfl fun _ => Or.inr rfl, fun q t ht te' hte' => ?_, fun q c w a hc hw => ?_⟩
      · exact h.own q t ht te' (hsub.subset hte')
      · obtain ⟨te', hte', hp, htime⟩ := h.held q c w a hc hw
        rw [head] at hte'
        rcases List.mem_cons.mp hte' with rfl | hmem
        · exact absurd (proc.symm.trans hp) (by simp)
        · exact ⟨te', hmem, hp, htime⟩
  | global done =>
      obtain ⟨pt, rfl⟩ | ⟨time, mods, pt, rfl⟩ := schedGlobal_eq_ok done
      · exact h.of_eq rfl rfl rfl rfl
      · refine ⟨?_, fun q t ht te hte hid => ?_, fun q c w a hc hw => ?_⟩
        · exact h.order.insert _ rfl rfl rfl fun _ => Or.inl rfl
        · rcases mem_insertEvent.mp hte with rfl | hmem
          · have hlt := h.order.fresh q t ht
            exact absurd hid hlt.ne'
          · exact h.own q t ht te hmem hid
        · obtain ⟨te, hte, hp, htime⟩ := h.held q c w a hc hw
          exact ⟨te, mem_insertEvent.mpr (Or.inr hte), hp, htime⟩
  | _ => exact h.of_eq rfl rfl rfl rfl

theorem CallTimers.step {e : Event} (h : CallTimers k) (hr : Registered k) (hs : step k e = .ok k') :
    CallTimers k' :=
  (step_path hr hs).preserves h fun _ _ _ hi _ he => hi.eff he

/-- A quiet state whose events are in order. -/
theorem Quiet.callTimers (hq : Quiet k) (hsort : k.teq.Pairwise TimeEvent.Before) : CallTimers k where
  order :=
    { sorted := hsort
      ids := hq.fresh
      fresh := fun p t ht => absurd ((hq.timer p).symm.trans ht) (by simp)
      own := fun p t ht => absurd ((hq.timer p).symm.trans ht) (by simp) }
  own p t ht := absurd ((hq.timer p).symm.trans ht) (by simp)
  held p := .of_not_waiting (hq.state p)

/-! ## A timer interrupt at the deadline -/

/-- The loop over the queue makes no process wait. -/
theorem not_waiting_timeEventLoop (clk : Nat → Int) (p : ProcId) (l : List TimeEvent) (i : Nat)
    (r : Resched) (k : Kernel) (hp : (k.procs p).prState ≠ .waiting) :
    ((timeEventLoop clk l i r k).2.procs p).prState ≠ .waiting := by
  induction l generalizing i r k with
  | nil => exact hp
  | cons te es ih =>
      rw [timeEventLoop]
      split
      · cases hq : te.teType.proc with
        | none => exact ih _ _ _ hp
        | some q =>
            refine ih _ _ _ ?_
            show ((expireProc k te q).procs p).prState ≠ .waiting
            rw [procs_expireProc]
            by_cases hpq : p = q
            · simp [hpq]
            · rwa [Function.update_of_ne hpq]
      · exact hp

/-- An event that every reading of the clock finds due is taken off, and its process does not wait. -/
theorem expired_timeEventLoop {clk : Nat → Int} {p : ProcId} {te : TimeEvent}
    (hproc : te.teType.proc = some p) (hdue : ∀ i, te.teTime ≤ clk i) (l : List TimeEvent) (i : Nat) (r : Resched) (k : Kernel)
    (hsort : l.Pairwise TimeEvent.Before) (hte : te ∈ l) :
    ((timeEventLoop clk l i r k).2.procs p).prState ≠ .waiting := by
  induction l generalizing i r k with
  | nil => exact absurd hte List.not_mem_nil
  | cons x es ih =>
      obtain ⟨hx, hes⟩ := List.pairwise_cons.mp hsort
      have hle : x.teTime ≤ clk i := by
        rcases List.mem_cons.mp hte with rfl | hmem
        · exact hdue i
        · rcases hx te hmem with hlt | ⟨heq, -⟩
          · exact hlt.le.trans (hdue i)
          · exact heq.le.trans (hdue i)
      rw [timeEventLoop, if_pos hle]
      rcases List.mem_cons.mp hte with rfl | hmem
      · rw [hproc]
        refine not_waiting_timeEventLoop _ _ _ _ _ _ ?_
        show ((expireProc k te p).procs p).prState ≠ .waiting
        simp [procs_expireProc]
      · cases hq : x.teType.proc with
        | none => exact ih _ _ _ hes hmem
        | some q => exact ih _ _ _ hes hmem

/-- What a timer interrupt leaves of a process is what its loop leaves. -/
theorem procs_timer {clk : Nat → Int} (h : step k (.timer clk) = .ok k') :
    k'.procs = (timeEventLoop clk k.teq 0 ⟨false, false⟩ k).2.procs := by
  simp only [step, timeEventAction] at h
  generalize timeEventLoop clk k.teq 0 ⟨false, false⟩ k = x at h ⊢
  obtain ⟨r, k₁⟩ := x
  dsimp only at h
  split at h
  · cases hg : schedGlobal k₁ with
    | error f => simp [hg, bind, Except.bind, Except.map] at h
    | ok k₂ =>
        simp only [hg, bind, Except.bind, Except.map, Except.ok.injEq] at h
        rw [← h, procs_of_schedGlobal hg]
  · simp only [Except.map, Except.ok.injEq] at h
    rw [← h]

/-- A process that no event made ready is as before the interrupt. -/
theorem procs_timeEventLoop_of_waiting (clk : Nat → Int) (p : ProcId) (l : List TimeEvent) (i : Nat)
    (r : Resched) (k : Kernel) (hw : ((timeEventLoop clk l i r k).2.procs p).prState = .waiting) :
    (timeEventLoop clk l i r k).2.procs p = k.procs p := by
  induction l generalizing i r k with
  | nil => rfl
  | cons te es ih =>
      rw [timeEventLoop] at hw ⊢
      split
      · rename_i hle
        rw [if_pos hle] at hw
        cases hq : te.teType.proc with
        | none =>
            rw [hq] at hw
            exact ih _ _ _ hw
        | some q =>
            rw [hq] at hw
            have hsame := ih _ _ _ hw
            dsimp only at hsame hw ⊢
            by_cases hpq : p = q
            · -- the process of the event is ready from here on
              exfalso
              refine not_waiting_timeEventLoop _ p _ _ _ _ ?_ hw
              show ((expireProc k te q).procs p).prState ≠ .waiting
              simp [procs_expireProc, hpq]
            · refine hsame.trans ?_
              show (expireProc k te q).procs p = k.procs p
              rw [procs_expireProc, Function.update_of_ne hpq]
      · rfl

/-- **A timer interrupt releases a process whose deadline is past.** -/
theorem CallTimers.released (h : CallTimers k) {clk : Nat → Int} {c : CommCall} {w a : Int}
    (hs : Jrinx.step k (.timer clk) = .ok k') (hc : k.conts p = some (.comm c w a)) (hw : WaitsTimed k' p) :
    ∃ i, clk i < a := by
  unfold WaitsTimed at hw
  rw [procs_timer hs] at hw
  have hsame := procs_timeEventLoop_of_waiting clk p k.teq 0 ⟨false, false⟩ k hw.1
  have hbefore : WaitsTimed k p := by
    unfold WaitsTimed
    rw [← hsame]
    exact hw
  obtain ⟨te, hte, hproc, rfl⟩ := h.held p c w a hc hbefore
  by_contra hnone
  have hdue : ∀ i, te.teTime ≤ clk i := fun i => not_lt.mp fun hlt => hnone ⟨i, hlt⟩
  exact expired_timeEventLoop hproc hdue k.teq 0 _ k h.order.sorted hte hw.1

/-! ## The segments that block -/

/-- What a round of the loop queues. -/
theorem round_commBlock {c : CommCall} {w : Int} {i : Nat} {n : Next}
    (h : commBlock k env p c w i = .ok (n, k')) {te : TimeEvent} (hte : te ∈ k'.teq) :
    te ∈ k.teq ∨ n = .giveUp false (.comm c w te.teTime) := by
  rcases commBlock_eq_ok h with ⟨-, -, rfl⟩ | ⟨-, rfl, rfl⟩
  · exact Or.inl hte
  · rcases mem_teq_commWait.mp hte with ⟨-, rfl⟩ | hmem
    · exact Or.inr rfl
    · exact Or.inl hmem

/-- **What a segment of a call queues** is the event that the call compares the clock with when it goes
on. -/
theorem queued_of_inCall {e : Event} {c : CommCall} (hin : inCall k e = some (p, c))
    (hs : step k e = .ok k') {te : TimeEvent} (hte : te ∈ k'.teq) :
    te ∈ k.teq ∨ ∃ w, k'.conts p = some (.comm c w te.teTime) := by
  -- the end of the segment is what `settle` records
  have hsettle : ∀ {n : Next} {k₁ : Kernel} {w : Int}, settle p (n, k₁) = k' →
      n = .giveUp false (.comm c w te.teTime) → ∃ w, k'.conts p = some (.comm c w te.teTime) := by
    rintro n k₁ w rfl rfl
    exact ⟨w, by simp [settle, Kernel.setCont]⟩
  have hteq : ∀ {n : Next} {k₁ : Kernel}, settle p (n, k₁) = k' → te ∈ k₁.teq := by
    rintro n k₁ rfl
    cases n <;> exact hte
  cases e with
  | dispatch q => simp [inCall] at hin
  | timer clk => simp [inCall] at hin
  | call env s =>
      cases hl : live k with
      | none => simp [inCall, hl] at hin
      | some q =>
          simp only [inCall, hl, Option.ite_none_right_eq_some, Option.map_eq_some_iff, Prod.mk.injEq] at hin
          obtain ⟨hfree, c', hc, rfl, rfl⟩ := hin
          have hseg : segment k (.call env s) = some (q, doSyscall k env q s) := by
            simp [segment, hl, hfree]
          obtain ⟨⟨n, k₁⟩, ho, hk⟩ := step_of_segment hseg hs
          have hmem := hteq hk
          rcases doSyscall_of_commCall k env q hc with ⟨code, hret⟩ | henter
          · obtain ⟨rfl, rfl⟩ := Prod.mk.inj (Except.ok.inj (hret.symm.trans ho))
            exact Or.inl hmem
          rw [henter, commEnter] at ho
          split at ho
          · split at ho
            · obtain ⟨rfl, rfl⟩ := Prod.mk.inj (Except.ok.inj ho)
              exact Or.inl hmem
            · rcases round_commBlock ho hmem with hold | hn
              · exact Or.inl hold
              · exact Or.inr (hsettle hk hn)
          · exact Or.inl (teq_of_commFinish ho hmem)
  | resume env =>
      cases hl : live k with
      | none => simp [inCall, hl] at hin
      | some q =>
          simp only [inCall, hl] at hin
          split at hin
          · rename_i c' w a hc
            obtain ⟨rfl, rfl⟩ := Prod.mk.inj (Option.some.inj hin)
            have hseg := segment_comm env hl hc
            obtain ⟨⟨n, k₁⟩, ho, hk⟩ := step_of_segment hseg hs
            have hmem := hteq hk
            rw [commResume] at ho
            split at ho
            · obtain ⟨rfl, rfl⟩ := Prod.mk.inj (Except.ok.inj ho)
              exact Or.inl hmem
            · split at ho
              · rcases round_commBlock ho hmem with hold | hn
                · exact Or.inl hold
                · exact Or.inr (hsettle hk hn)
              · exact Or.inl (teq_of_commFinish ho hmem)
          · exact absurd hin (by simp)

/-- A receiver that is linked arms its timer at the third reading of the clock. -/
theorem LinksReceiver.segment {e : Event} (h : LinksReceiver k e p env) :
    ∃ port t addr w k₁, inCall k e = some (p, .receiveQueuingMessage port t addr) ∧
      t ≠ systemTimeInfiniteVal ∧
      Jrinx.segment k e =
        some (p, .ok (.giveUp false (.comm (.receiveQueuingMessage port t addr) w (env.clk 2 + t)), k₁)) ∧
      ∃ te ∈ k₁.teq, te.teId = k.nxtTe ∧ te.teTime = env.clk 2 + t := by
  cases h with
  | @enter _ _ port t addr qp exec free known dir empty positive finite early =>
      refine ⟨port, t, addr, env.clk 0 + t, commWait k p (.receiveQueuingMessage port t addr)
        (env.clk 2 + t), by simp [inCall, exec, free, Service.commCall], finite, ?_,
        ⟨k.nxtTe, env.clk 2 + t, .queuingPortBlockTimeout p port⟩, mem_teq_commWait.mpr (Or.inl ?_), rfl, rfl⟩
      case refine_2 => exact ⟨finite, rfl⟩
      simp only [Jrinx.segment, exec, free, if_true, doSyscall, doReceiveQueuingMessage, known, dir, ne_eq,
        not_true_eq_false, if_false, commEnter, empty, CommCall.timeOut, positive]
      rw [commBlock, if_neg (fun hlate => absurd hlate.2 (not_le.mpr early))]
      rfl
  | @again _ _ port t addr w a exec held finite woken empty early =>
      refine ⟨port, t, addr, w, commWait (k.setWoken p false) p (.receiveQueuingMessage port t addr)
        (env.clk 2 + t), by simp [inCall, exec, held], finite, ?_,
        ⟨k.nxtTe, env.clk 2 + t, .queuingPortBlockTimeout p port⟩, mem_teq_commWait.mpr (Or.inl ?_), rfl, rfl⟩
      case refine_2 => exact ⟨finite, rfl⟩
      rw [segment_comm env exec held, commResume, if_neg (fun hlate => absurd hlate.2 (not_le.mpr woken)),
        mustWait_setWoken, if_pos empty, commBlock, if_neg (fun hlate => absurd hlate.2 (not_le.mpr early))]
      rfl

/-! ## Deadlines over a run -/

/-- Every call in progress keeps the deadline it was entered with, in its loop and in its timer. -/
def CallsKept (tr : List (Kernel × Event)) (k : Kernel) : Prop :=
  ∀ p c w a, k.conts p = some (.comm c w a) → c.timeOut ≠ systemTimeInfiniteVal →
    IsDeadline tr p c w ∧ IsDeadline tr p c a

theorem entered_call {tr : List (Kernel × Event)} {s : Service} (hl : live k = some p) :
    entered p (tr ++ [(k, .call env s)]) = some (env.clk 0) := by
  rw [entered_snoc]
  simp [enter, hl]

/-- A process in a call enters no other one. -/
theorem entered_of_conts {tr : List (Kernel × Event)} {e : Event} (hs : step k e = .ok k')
    (hc : k.conts p ≠ none) : entered p (tr ++ [(k, e)]) = entered p tr := by
  rw [entered_snoc]
  cases e with
  | dispatch q => rfl
  | timer clk => rfl
  | resume env => rfl
  | call env s =>
      refine if_neg fun hl => ?_
      simp [step, segment, hl, hc] at hs

/-- What follows the loop does not block again. -/
theorem not_comm_of_commFinish {c c' : CommCall} {rr : Bool} {w a : Int}
    (h : commFinish k env c = .ok (.giveUp rr (.comm c' w a), k')) : False := by
  have hends := (ends_commFinish (s := .getTime) h).next
  cases hends with
  | comm rr c w a call => exact absurd call (by simp [Service.commCall])

/-- A receiver that gives the processor up has a port to receive at. -/
theorem port_of_receive {port : PortId} {t : Int} {addr : Nat} {rr : Bool} {x : Cont}
    (h : doSyscall k env p (.receiveQueuingMessage port t addr) = .ok (.giveUp rr x, k')) :
    ∃ qp, curQueuingPort k port = some qp ∧ qp.qpDir = .destination := by
  simp only [doSyscall, doReceiveQueuingMessage] at h
  split at h
  · exact absurd (Prod.mk.inj (Except.ok.inj h)).1 (by simp)
  · rename_i qp hqp
    split at h
    · exact absurd (Prod.mk.inj (Except.ok.inj h)).1 (by simp)
    · rename_i hdir
      exact ⟨qp, hqp, not_not.mp hdir⟩

/-- **The segment with which a call blocks**, on entry. -/
theorem blocks_of_call {s : Service} {c : CommCall} {rr : Bool} {w a : Int} (hs : s.commCall = some c)
    (h : doSyscall k env p s = .ok (.giveUp rr (.comm c w a), k')) :
    mustWait k c = true ∧ c.timeOut ≠ 0 ∧ ¬ (c.timeOut ≠ systemTimeInfiniteVal ∧ w ≤ env.clk 1) ∧
      w = env.clk 0 + c.timeOut ∧ a = c.armed (env.clk 2) w := by
  rcases doSyscall_of_commCall k env p hs with ⟨code, hret⟩ | henter
  · exact absurd (Prod.mk.inj (Except.ok.inj (hret.symm.trans h))).1 (by simp)
  rw [henter, commEnter] at h
  split at h
  · rename_i hmust
    split at h
    · exact absurd (Prod.mk.inj (Except.ok.inj h)).1 (by simp)
    · rename_i hpos
      rcases commBlock_eq_ok h with ⟨-, hn, -⟩ | ⟨hearly, hn, -⟩
      · exact absurd hn (by simp)
      · simp only [Next.giveUp.injEq, Cont.comm.injEq, true_and] at hn
        obtain ⟨-, rfl, rfl⟩ := hn
        exact ⟨hmust, hpos, hearly, rfl, rfl⟩
  · exact (not_comm_of_commFinish h).elim

/-- **The segment with which a call blocks**, once more. -/
theorem blocks_of_resume {c c' : CommCall} {rr : Bool} {w₀ a₀ w a : Int}
    (h : commResume k env p c w₀ a₀ = .ok (.giveUp rr (.comm c' w a), k')) :
    ¬ (c.timeOut ≠ systemTimeInfiniteVal ∧ a₀ ≤ env.clk 0) ∧ mustWait k c = true ∧
      ¬ (c.timeOut ≠ systemTimeInfiniteVal ∧ w₀ ≤ env.clk 1) ∧ c' = c ∧ w = w₀ ∧
      a = c.armed (env.clk 2) w := by
  unfold commResume at h
  split at h
  · exact absurd (Prod.mk.inj (Except.ok.inj h)).1 (by simp)
  rename_i hwoken
  split at h
  · rename_i hmust
    rcases commBlock_eq_ok h with ⟨-, hn, -⟩ | ⟨hearly, hn, -⟩
    · exact absurd hn (by simp)
    · simp only [Next.giveUp.injEq, Cont.comm.injEq] at hn
      obtain ⟨-, rfl, rfl, rfl⟩ := hn
      exact ⟨hwoken, hmust, hearly, rfl, rfl, rfl⟩
  · exact (not_comm_of_commFinish h).elim

/-- Only a receiver of a queuing port arms another deadline than the one of its loop. -/
theorem isDeadline_armed {tr : List (Kernel × Event)} {c : CommCall} {now w : Int}
    (hw : IsDeadline tr p c w)
    (hr : ∀ port t addr, c = .receiveQueuingMessage port t addr → entered p tr = some now) :
    IsDeadline tr p c (c.armed now w) := by
  cases c with
  | receiveQueuingMessage port t addr => exact ⟨now, hr port t addr rfl, rfl⟩
  | sendBuffer b msgAddr length timeOut => exact hw
  | receiveBuffer b timeOut msgAddr => exact hw
  | sendQueuingMessage port msgAddr length timeOut => exact hw
  | readBlackboard b timeOut msgAddr => exact hw

theorem CallsKept.step {tr : List (Kernel × Event)} {e : Event} (h : CallsKept tr k)
    (hs : step k e = .ok k') (hok : ReadsEntryClock tr (k, e)) : CallsKept (tr ++ [(k, e)]) k' := by
  intro p c w a hc hfin
  have hold : ∀ w a, k.conts p = some (.comm c w a) →
      IsDeadline (tr ++ [(k, e)]) p c w ∧ IsDeadline (tr ++ [(k, e)]) p c a := by
    intro w a hc
    unfold IsDeadline
    rw [entered_of_conts hs (by rw [hc]; simp)]
    exact h p c w a hc hfin
  rcases conts_step hs hc with hsame | ⟨env, s, rr, rfl, hl, hnext⟩ | ⟨env, c₀, rfl, hl, hc₀, hrest⟩
  · exact hold w a hsame
  · cases hnext with
    | comm rr c w a hcall =>
        -- the process entered the call in this step
        have hfree : k.conts p = none := by
          by_contra hbusy
          simp [Jrinx.step, Jrinx.segment, hl, hbusy] at hs
        have hseg : Jrinx.segment k (.call env s) = some (p, doSyscall k env p s) := by
          simp [Jrinx.segment, hl, hfree]
        obtain ⟨⟨n, k₁⟩, ho, rfl⟩ := step_of_segment hseg hs
        cases n with
        | ret code out => exact absurd hc (by simp [settle, Kernel.setCont])
        | giveUp rr x =>
            simp only [settle, Kernel.setCont, Function.update_self, Option.some.injEq] at hc
            subst hc
            obtain ⟨hmust, hpos, hearly, rfl, rfl⟩ := blocks_of_call hcall ho
            have henter : entered p (tr ++ [(k, .call env s)]) = some (env.clk 0) := entered_call hl
            have hw : IsDeadline (tr ++ [(k, .call env s)]) p c (env.clk 0 + c.timeOut) :=
              ⟨env.clk 0, henter, rfl⟩
            refine ⟨hw, isDeadline_armed hw ?_⟩
            rintro port t addr rfl
            obtain rfl : s = .receiveQueuingMessage port t addr := by
              cases s <;> simp_all [Service.commCall]
            obtain ⟨qp, hqp, hdir⟩ := port_of_receive ho
            exact hok p env (.enter hl hfree hqp hdir hmust hpos hfin
              (not_le.mp fun hlate => hearly ⟨hfin, hlate⟩))
  · cases hrest with
    | comm call w₀ a₀ w a was =>
        subst was
        have hseg := segment_comm env hl hc₀
        obtain ⟨⟨n, k₁⟩, ho, rfl⟩ := step_of_segment hseg hs
        cases n with
        | ret code out => exact absurd hc (by simp [settle, Kernel.setCont])
        | giveUp rr x =>
            simp only [settle, Kernel.setCont, Function.update_self, Option.some.injEq] at hc
            subst hc
            obtain ⟨hwoken, hmust, hearly, -, rfl, rfl⟩ := blocks_of_resume ho
            rw [mustWait_setWoken] at hmust
            have hw := (hold _ _ hc₀).1
            refine ⟨hw, isDeadline_armed hw ?_⟩
            rintro port t addr rfl
            exact hok p env (.again hl hc₀ hfin (not_le.mp fun hlate => hwoken ⟨hfin, hlate⟩) hmust
              (not_le.mp fun hlate => hearly ⟨hfin, hlate⟩))

/-- The invariant of the runs in question. -/
structure CallInv (tr : List (Kernel × Event)) (k : Kernel) : Prop where
  registered : Registered k
  timers : CallTimers k
  kept : CallsKept tr k

theorem callInv {tr : List (Kernel × Event)} (hq : Quiet k) (hsort : k.teq.Pairwise TimeEvent.Before)
    (hrun : Run k tr k') (hok : EachStep ReadsEntryClock tr) : CallInv tr k' := by
  induction hrun with
  | nil =>
      exact ⟨hq.registered, hq.callTimers hsort, fun p c w a hc => absurd ((hq.conts p).symm.trans hc) (by simp)⟩
  | @snoc tr t u e hrun hu ih =>
      have hi := ih fun pre x post htr => hok pre x (post ++ [(t, e)]) (by simp [htr])
      exact ⟨(hi.registered.step hu).1, hi.timers.step hi.registered hu,
        hi.kept.step hu (hok tr (t, e) [] (by simp))⟩

/-- A step that reads the clock as on entry keeps the time-outs. -/
theorem CallInv.timeoutKept {pre : List (Kernel × Event)} {e : Event} (hi : CallInv pre k)
    (hs : step k e = .ok k') (hok : ReadsEntryClock pre (k, e)) : TimeoutKept pre (k, e) where
  compares p c d hin hfin hd := by
    cases e with
    | dispatch q => simp [inCall] at hin
    | timer clk => simp [inCall] at hin
    | call env s =>
        cases hl : live k with
        | none => simp [inCall, hl] at hin
        | some q =>
            simp only [inCall, hl, Option.ite_none_right_eq_some, Option.map_eq_some_iff,
              Prod.mk.injEq] at hin
            -- the first segment compares with the reading of its own entry
            obtain ⟨-, c', hc, rfl, rfl⟩ := hin
            simp only [comparedDeadlines, hc, List.mem_singleton] at hd
            exact ⟨env.clk 0, entered_call hl, hd⟩
    | resume env =>
        cases hl : live k with
        | none => simp [inCall, hl] at hin
        | some q =>
            simp only [inCall, hl] at hin
            split at hin
            · rename_i c' w a hc
              obtain ⟨rfl, rfl⟩ := Prod.mk.inj (Option.some.inj hin)
              simp only [comparedDeadlines, hl, Option.bind_some, hc, List.mem_cons, List.not_mem_nil,
                or_false] at hd
              -- the later ones compare with the deadline and with the time of the event, and both are that reading
              obtain ⟨hw, ha⟩ := hi.kept q c' w a hc hfin
              unfold IsDeadline
              rw [entered_of_conts hs (by rw [hc]; simp)]
              rcases hd with rfl | rfl
              exacts [ha, hw]
            · exact absurd hin (by simp)
  arms p c k₁ te hin hfin hs' hte hnew := by
    obtain rfl : k' = k₁ := Except.ok.inj (hs.symm.trans hs')
    -- an event that the step queues is the one that is recorded on the stack
    rcases queued_of_inCall hin hs hte with hold | ⟨w, hc⟩
    · have hlt := hi.timers.order.ids te hold
      have hge : k.nxtTe ≤ te.teId := hnew
      omega
    · exact ((hi.kept.step hs hok) p c w te.teTime hc hfin).2
  releases p c w a clk k₁ he hs' hc hfin hw := by
    have hstep : Jrinx.step k (.timer clk) = .ok k₁ := by
      have hs'' : Jrinx.step k e = .ok k₁ := hs'
      have he' : e = .timer clk := he
      rw [← he', hs'']
    obtain ⟨i, hlt⟩ := hi.timers.released hstep hc hw
    exact ⟨a, i, (hi.kept p c w a hc hfin).2, hlt⟩

/-- In the runs from a quiet state whose events are in order, every step keeps the time-outs **iff** every
`RECEIVE_QUEUING_MESSAGE` with a finite time-out that a step links reads the clock as when it was entered. -/
theorem timeouts_kept_iff {tr : List (Kernel × Event)} (hq : Quiet k)
    (hsort : k.teq.Pairwise TimeEvent.Before) (hrun : Run k tr k') :
    EachStep TimeoutKept tr ↔ EachStep ReadsEntryClock tr := by
  constructor
  · rintro h pre ⟨k₁, e⟩ post htr p env hlink
    obtain ⟨u, hu⟩ := (hrun.split htr).2
    obtain ⟨port, t, addr, w, k₂, hin, hfin, hseg, te, hte, hid, htime⟩ := hlink.segment
    obtain ⟨r, ho, hk⟩ := step_of_segment hseg hu
    have hte' : te ∈ u.teq := by
      rw [← hk, ← Except.ok.inj ho]
      exact hte
    -- the event that the receiver arms is the one of its deadline
    obtain ⟨t₀, hentered, heq⟩ := (h pre (k₁, e) post htr).arms p _ u te hin hfin hu hte' hid.ge
    rw [hentered, Option.some.injEq]
    have htime' : t₀ + t = env.clk 2 + t := heq.symm.trans htime
    omega
  · rintro h pre ⟨k₁, e⟩ post htr
    obtain ⟨hpre, u, hu⟩ := hrun.split htr
    have hi : CallInv pre k₁ := by
      refine callInv hq hsort hpre fun pre' x post' htr' => h pre' x (post' ++ (k₁, e) :: post) ?_
      rw [htr, htr']
      simp
    exact hi.timeoutKept hu (h pre (k₁, e) post htr)

/-- Three processes with a port to send at and a port to receive at, on a channel for one message. -/
def queueSystem : Kernel :=
  { smallSystem 1 .fifo [1, 2, 3] with
    ports := fun port =>
      { qpName := "", qpPartId := 1, qpDir := if port = 1 then .source else .destination, qpDisc := .fifo,
        qpChannel := 0 }
    portIds := [1, 2]
    nxtPortId := 3 }

theorem quiet_queueSystem : Quiet queueSystem :=
  have hq := quiet_smallSystem 1 .fifo [1, 2, 3]
  { registered := { hq.registered with
      ports_lt := by decide
      calls := by simp [queueSystem, smallSystem]
      fits := by simp [queueSystem, smallSystem] }
    lists := hq.lists, conts := hq.conts, woken := hq.woken, state := hq.state, timer := hq.timer
    events := hq.events, ids := hq.ids, fresh := hq.fresh }

/-- The clock stands still in this segment. -/
def Env.at (t : Int) : Env := ⟨fun _ => t, fun _ => 0⟩

/-- A receiver blocks for ten units from 0 on. It is woken up by a message that another receiver takes, and
runs again at `t`. -/
def wokenInVain (t : Int) : List Event :=
  [.call (.at 0) (.receiveQueuingMessage 2 10 0), .dispatch 2, .call (.at 0) (.sendQueuingMessage 1 0 1 0),
    .dispatch 3, .call (.at 0) (.receiveQueuingMessage 2 10 0), .dispatch 1, .resume (.at t)]

/-- A receiver that was woken up in vain at 8 still waits at 17, although its deadline was 10. -/
theorem receiver_waits_on : ¬ ∀ (k k' : Kernel) (tr : List (Kernel × Event)), Quiet k →
    k.teq.Pairwise TimeEvent.Before → Run k tr k' → EachStep TimeoutKept tr := by
  intro hall
  obtain ⟨k₁, hrun, hcheck⟩ := Exec.of_checkRun step queueSystem (wokenInVain 8)
    (fun k => decide (k.teq = [⟨1, 18, .queuingPortBlockTimeout 1 2⟩] ∧
      (k.procs 1).prState = .waiting ∧ (k.procs 1).prWaitingReason = .queuingPortBlockedWithTimeout ∧
      k.conts 1 = some (.comm (.receiveQueuingMessage 2 10 0) 10 18))) (by decide +kernel)
  obtain ⟨hteq, hstate, hreason, hc⟩ := of_decide_eq_true hcheck
  have hstep : step k₁ (.timer fun _ => 17) = .ok k₁ := by
    simp only [step, timeEventAction, hteq, timeEventLoop]
    rw [← hteq]
    rfl
  have hkept := hall queueSystem _ _ quiet_queueSystem (by simp [queueSystem, smallSystem])
    (hrun.snoc hstep) _ _ [] rfl
  obtain ⟨d, i, ⟨t, ht, rfl⟩, hlt⟩ := hkept.releases 1 _ 10 18 _ _ rfl hstep hc (by decide)
    ⟨hstate, by rw [hreason]; rfl⟩
  have hentered : entered 1 (traceEvents step queueSystem (wokenInVain 8)) = some 0 := by decide +kernel
  rw [hentered, Option.some.injEq] at ht
  subst ht
  exact absurd hlt (by decide)

/-- A receiver that runs again before the clock moved on. -/
theorem timeouts_kept_iff_wokenInVain : ∃ k' tr, Run queueSystem tr k' ∧ tr.length = 7 ∧
    (EachStep TimeoutKept tr ↔ EachStep ReadsEntryClock tr) := by
  obtain ⟨k', hrun, -⟩ := Exec.of_checkRun step queueSystem (wokenInVain 0) (fun _ => true)
    (by decide +kernel)
  exact ⟨k', _, hrun, by decide +kernel, timeouts_kept_iff quiet_queueSystem (by simp [queueSystem, smallSystem])
    hrun⟩

end Jrinx
