import Jrinx.Returns

/-! # Timers and process states

The process and time services keep three things in step: the state of an aperiodic process, its
`pr_asso_timer`, and the events queued for it. A periodic process can wait for a delayed start
without a timer, since its release points are not computed yet.

* **`SleepTimed`** — a process that waits for a timer has one.
* **`TimersMatch`** — the agreement of timers, events and states.
* **`timers_match`** — it holds in every state of every run of these services. -/

namespace Jrinx

variable {k k' : Kernel}

/-! ## A process that sleeps has a timer -/

/-- The process waits for a timer, by its state and its reason. -/
def Sleeping (k : Kernel) (p : ProcId) : Prop :=
  (k.procs p).prState = .waiting ∧
    ((k.procs p).prWaitingReason = .suspendedWithTimeout ∨
      (k.procs p).prWaitingReason = .delayedStarted ∨
      (k.procs p).prWaitingReason = .timedWaitTimeout)

/-- A process that waits for a delayed start or for a point in time has a timer, unless it is
periodic. -/
def SleepTimedAt (k : Kernel) (p : ProcId) : Prop :=
  (k.procs p).prState = .waiting →
    ((k.procs p).prWaitingReason = .timedWaitTimeout ∨
      (k.procs p).prWaitingReason = .delayedStarted ∧ procIsPeriod (k.procs p) = false) →
    (k.procs p).prAssoTimer ≠ none

/-- This is so for every process. -/
def SleepTimed (k : Kernel) : Prop := ∀ p, SleepTimedAt k p

theorem SleepTimedAt.of_not_waiting {p : ProcId} (h : (k.procs p).prState ≠ .waiting) :
    SleepTimedAt k p := fun hw => absurd hw h

theorem SleepTimedAt.of_eq {p : ProcId} (h : SleepTimedAt k p) (hp : k'.procs p = k.procs p) :
    SleepTimedAt k' p := by
  unfold SleepTimedAt
  rw [hp]
  exact h

/-- An effect on one process. -/
theorem SleepTimed.update (h : SleepTimed k) (p : ProcId)
    (hother : ∀ q, q ≠ p → k'.procs q = k.procs q) (hp : SleepTimedAt k' p) : SleepTimed k' := by
  intro q
  by_cases hq : q = p
  · rw [hq]
    exact hp
  · exact (h q).of_eq (hother q hq)

theorem SleepTimed.of_procs (h : SleepTimed k) (hp : k'.procs = k.procs) : SleepTimed k' :=
  fun q => (h q).of_eq (by rw [hp])

/-- A released process does not wait. -/
theorem SleepTimed.released {p : ProcId} (h : SleepTimed k) (hr : Released k k' p) :
    SleepTimed k' :=
  h.update p hr.other (.of_not_waiting hr.state)

theorem SleepTimed.setState {p : ProcId} {st : ProcState} (h : SleepTimed k) (hst : st ≠ .waiting) :
    SleepTimed (k.setState p st) := by
  refine h.update p (fun q hq => ?_) (.of_not_waiting ?_)
  · simp [Kernel.setState, Kernel.updProc, hq]
  · simpa using hst

/-- A process falls asleep, with a timer. -/
theorem SleepTimed.timeEventAlloc {p : ProcId} {time : Int} {type : TimeEventType}
    (hproc : type.proc = some p) (hother : ∀ q, q ≠ p → SleepTimedAt k q) :
    SleepTimed (Jrinx.timeEventAlloc k time type) := by
  rw [timeEventAlloc_of_proc k time hproc]
  intro q
  by_cases hq : q = p
  · intro _ _
    rw [hq]
    simp
  · exact (hother q hq).of_eq (by simp [hq])

/-- **Every effect keeps it.** -/
theorem SleepTimed.eff {a : Act} (h : SleepTimed k) (hi : WaitInv k) (he : Eff k a k') :
    SleepTimed k' := by
  cases he with
  | mode m => exact h.of_procs rfl
  | @attr p f own other =>
      have hfields : ∀ pr, (f pr).prState = pr.prState ∧
          (f pr).prWaitingReason = pr.prWaitingReason ∧ (f pr).prAssoTimer = pr.prAssoTimer ∧
          (f pr).prPeriod = pr.prPeriod := by
        intro pr
        rw [other pr]
        exact ⟨rfl, rfl, rfl, rfl⟩
      obtain ⟨hst, hrs, htm, hpd⟩ := hfields (k.procs p)
      refine h.update p (fun q hq => by simp [Kernel.updProc, hq]) ?_
      have hp := h p
      unfold SleepTimedAt procIsPeriod at hp ⊢
      simp only [Kernel.updProc, Function.update_self, hst, hrs, htm, hpd]
      exact hp
  | ready own held => exact h.setState (by decide)
  | @doze p reason own free kind =>
      refine h.update p (fun q hq => ?_) ?_
      · simp [waitFor, Kernel.setState, Kernel.setReason, Kernel.updProc, hq]
      · intro _ hreason
        have hrs : ((waitFor k p reason).procs p).prWaitingReason = reason := by simp [waitFor]
        have hpd : procIsPeriod ((waitFor k p reason).procs p) = procIsPeriod (k.procs p) := by
          simp [waitFor, Kernel.setState, Kernel.setReason, Kernel.updProc, procIsPeriod]
        rw [hrs, hpd] at hreason
        -- none of the reasons without a timer is one of those in question
        rcases kind with rfl | rfl | ⟨rfl, hper⟩ <;> simp_all
  | @sleep p reason type time known own free kind =>
      refine SleepTimed.timeEventAlloc kind.proc fun q hq => (h q).of_eq ?_
      simp [waitFor, Kernel.setState, Kernel.setReason, Kernel.updProc, hq]
  | @rouse p k₁ own waits reason freed =>
      obtain ⟨i, -, hp, rfl⟩ := hi.freed k rfl freed
      refine h.update p (fun q hq => ?_) (.of_not_waiting (by simp))
      simp [Kernel.setState, Kernel.updProc, procs_freeEvent k hp, hq]
  | halt cur own runs => exact h.setState (by decide)
  | @stop p _ own alive freed =>
      split at freed
      · obtain ⟨i, -, hp, rfl⟩ := hi.freed (k.setState p .dormant) rfl freed
        refine h.update p (fun q hq => ?_) (.of_not_waiting ?_)
        · simp [Kernel.setState, Kernel.updProc, procs_freeEvent _ hp, hq]
        · rw [prState_freeEvent]
          simp
      · rw [← Except.ok.inj freed]
        exact h.setState (by decide)
  | reset own dormant => exact h.of_procs rfl
  | @block p c wakeup armed cur own runs call fits full =>
      obtain ⟨hother, -, -, -, -, -, htimer⟩ := block_fields k p c wakeup armed
      have hblocked : (((commWait k p c armed).setCont p (some (.comm c wakeup armed))).procs
          p).prWaitingReason.isBlocked = true := by
        split at htimer
        · rw [htimer.1]
          exact isBlocked_blockedWithTimeoutReason _
        · rw [htimer.1]
          exact isBlocked_blockedReason _
      refine h.update p (fun q hq => (hother q hq).1) ?_
      -- a reason of a communication call is none of those in question
      rintro - (hrs | ⟨hrs, -⟩)
      · rw [hrs] at hblocked
        exact absurd hblocked (by decide)
      · rw [hrs] at hblocked
        exact absurd hblocked (by decide)
  | wake linked obj done => exact h.released (hi.released_wakeProc linked done)
  | queue cc obj => exact h.of_procs (Kernel.procs_setBody _ _ _)
  | board f obj part list => exact h.of_procs rfl
  | newProc mem pr own dormant timer frame =>
      refine h.update k.nxtProcId (fun q hq => ?_) (.of_not_waiting ?_)
      · simp [procReset, Kernel.setWoken, Kernel.setCont, registerProc, hq]
      · simp [procReset, Kernel.setWoken, Kernel.setCont, registerProc, dormant]
  | newBuffer mem buf own empty body frame => exact h.of_procs rfl
  | newBoard mem bb own empty blank frame => exact h.of_procs rfl
  | newPort qp own => exact h.of_procs rfl
  | spend mem nb nbb hb hbb frame => exact h.of_procs rfl
  | cont c cur own free plain => exact h.of_procs rfl
  | resumed cur own runs => exact h.of_procs rfl
  | @dispatch p _ done =>
      rw [(dispatch_eq_ok done).2]
      have hst : SleepTimed (schedProcSt k) := by
        rcases schedProcSt_cases k with hst | ⟨cur, -, -, hst⟩ <;> rw [hst]
        · exact h
        · exact h.setState (by decide)
      exact SleepTimed.setState (k := { schedProcSt k with curProc := some p }) (hst.of_procs rfl)
        (by decide)
  | expire head proc => exact h.released (hi.released_expire head proc)
  | partition head proc => exact h.of_procs rfl
  | global done =>
      exact h.of_procs (procs_of_schedGlobal done)

/-! ## Runs of the process and time services -/

/-- The services in question. -/
def Service.ofTimers : Service → Bool
  | .suspendSelf _ => true
  | .suspend _ => true
  | .resume _ => true
  | .stop _ => true
  | .stopSelf => true
  | .start _ => true
  | .delayedStart _ _ => true
  | .timedWait _ => true
  | .setPriority _ _ => true
  | .setPartitionMode _ => true
  | _ => false

/-- The event is no call of another service. -/
def OfTimers (_ : Kernel) (e : Event) : Prop := ∀ env s, e = .call env s → s.ofTimers = true

/-- Nobody is in a communication call. -/
def NoComm (k : Kernel) : Prop := ∀ p c w a, k.conts p ≠ some (.comm c w a)

theorem commCall_of_ofTimers {s : Service} (h : s.ofTimers = true) : s.commCall = none := by
  cases s <;> first | rfl | simp [Service.ofTimers] at h

theorem NoComm.step {e : Event} (hi : NoComm k) (hok : OfTimers k e) (h : step k e = .ok k') :
    NoComm k' := by
  intro p c w a hc
  rcases conts_step h hc with hold | ⟨env, s, rr, rfl, -, hn⟩ | ⟨env, c₀, -, -, hc₀, hrest⟩
  · exact hi p c w a hold
  · cases hn with
    | comm rr c w a hs =>
        rw [commCall_of_ofTimers (hok env s rfl)] at hs
        exact absurd hs (by simp)
  · cases hrest with
    | comm call w₀ a₀ w a was => exact hi p c w₀ a₀ (was ▸ hc₀)

/-- Without communication calls the wait lists are empty. -/
theorem NoComm.lists (h : NoComm k) (hi : WaitInv k) (o : WaitObj) : k.waitingProcs o = [] := by
  cases hl : k.waitingProcs o with
  | nil => rfl
  | cons p l =>
      have hmem : p ∈ k.waitingProcs o := by
        rw [hl]
        exact List.mem_cons_self
      obtain ⟨c, w, a, hc, -⟩ := (((hi.procs p).linked o).mp hmem).call
      exact absurd hc (h p c w a)

/-- The invariant of these runs. -/
structure TimerInv (k : Kernel) : Prop where
  waits : WaitInv k
  registered : Registered k
  noComm : NoComm k
  slept : SleepTimed k

theorem TimerInv.step {e : Event} (hi : TimerInv k) (hok : OfTimers k e)
    (h : step k e = .ok k') : TimerInv k' := by
  have hstops : StopsUnlinked k e := by
    intro env id _ _ o
    rw [hi.noComm.lists hi.waits o]
    exact List.not_mem_nil
  have hpath := step_path hi.registered h
  have hslept : (WaitInv k' ∧ Registered k') ∧ SleepTimed k' := by
    refine hpath.preserves (I := fun k => (WaitInv k ∧ Registered k) ∧ SleepTimed k)
      ⟨⟨hi.waits, hi.registered⟩, hi.slept⟩ ?_
    rintro k₁ a k₂ ⟨⟨hw, hr⟩, hs⟩ ha he
    exact ⟨⟨hw.eff hr (ha.unlinked hw hr hstops he) he, (hr.eff he).1⟩, hs.eff hw he⟩
  exact ⟨hslept.1.1, hslept.1.2, hi.noComm.step hok h, hslept.2⟩

/-! ## The agreement -/

/-- The process is one that an expiry must leave alone. -/
def Undisturbed (k : Kernel) (p : ProcId) : Prop :=
  (k.procs p).prState = .dormant ∨ (k.procs p).prState = .ready ∨ (k.procs p).prState = .running ∨
    (k.procs p).prState = .waiting ∧ (k.procs p).prWaitingReason = .suspended

/-- The events queued for a process. -/
def eventsOf (k : Kernel) (p : ProcId) : List TimeEvent :=
  k.teq.filter fun te => te.teType.proc = some p

/-- **Timers, events and states agree**: an aperiodic process has a timer iff one event is queued for
it iff it sleeps, the timer is that event, no process owns two events, and no expiry changes a process
that does not wait for one. -/
structure TimersMatch (k : Kernel) : Prop where
  timer_iff : ∀ p, procIsPeriod (k.procs p) = false →
    ((k.procs p).prAssoTimer ≠ none ↔ (eventsOf k p).length = 1)
  event_iff : ∀ p, procIsPeriod (k.procs p) = false →
    ((eventsOf k p).length = 1 ↔ Sleeping k p)
  pointer : ∀ p, ∀ te ∈ eventsOf k p, (k.procs p).prAssoTimer = some te.teId
  one_event : ∀ p, (eventsOf k p).length ≤ 1
  expiry : ∀ clk r k', timeEventAction k clk = .ok (r, k') → ∀ p, Undisturbed k p →
    k'.procs p = k.procs p

theorem mem_eventsOf {p : ProcId} {te : TimeEvent} :
    te ∈ eventsOf k p ↔ te ∈ k.teq ∧ te.teType.proc = some p := by
  simp [eventsOf]

/-- A process owns at most one event. -/
theorem WaitInv.length_eventsOf (hi : WaitInv k) (p : ProcId) : (eventsOf k p).length ≤ 1 := by
  have hnodup : (eventsOf k p).Nodup := (List.Nodup.of_map _ hi.ids).filter _
  cases hl : eventsOf k p with
  | nil => simp
  | cons te l =>
      cases l with
      | nil => simp
      | cons te' l' =>
          have hte : te ∈ eventsOf k p := by simp [hl]
          have hte' : te' ∈ eventsOf k p := by simp [hl]
          have heq := hi.event_unique (mem_eventsOf.mp hte).1 (mem_eventsOf.mp hte).2
            (mem_eventsOf.mp hte').1 (mem_eventsOf.mp hte').2
          rw [hl, heq] at hnodup
          exact absurd List.mem_cons_self (List.nodup_cons.mp hnodup).1

/-- A process has a timer iff an event is queued for it. -/
theorem WaitInv.timer_iff (hi : WaitInv k) (p : ProcId) :
    (k.procs p).prAssoTimer ≠ none ↔ (eventsOf k p).length = 1 := by
  have hle := hi.length_eventsOf p
  constructor
  · intro ht
    obtain ⟨t, ht⟩ := Option.ne_none_iff_exists'.mp ht
    obtain ⟨te, hte, -, hp⟩ := (hi.procs p).queued t ht
    have hpos := List.length_pos_of_mem (mem_eventsOf.mpr ⟨hte, hp⟩)
    omega
  · intro hlen
    obtain ⟨te, hte⟩ := List.exists_mem_of_length_pos (l := eventsOf k p) (by omega)
    obtain ⟨-, ht, -, -⟩ := (hi.procs p).owner te (mem_eventsOf.mp hte).1 (mem_eventsOf.mp hte).2
    rw [ht]
    simp

theorem SleepKind.reason {p : ProcId} {r : WaitingReason} {type : TimeEventType}
    (h : SleepKind p r type) :
    r = .suspendedWithTimeout ∨ r = .delayedStarted ∨ r = .timedWaitTimeout := by
  cases h with
  | suspended => exact Or.inl rfl
  | delayed => exact Or.inr (Or.inl rfl)
  | timedWait => exact Or.inr (Or.inr rfl)

/-- An aperiodic process has a timer iff it sleeps. -/
theorem TimerInv.timer_iff_sleeping (hi : TimerInv k) {p : ProcId}
    (hper : procIsPeriod (k.procs p) = false) :
    (k.procs p).prAssoTimer ≠ none ↔ Sleeping k p := by
  constructor
  · intro ht
    obtain ⟨t, ht⟩ := Option.ne_none_iff_exists'.mp ht
    obtain ⟨te, hte, -, hp⟩ := (hi.waits.procs p).queued t ht
    obtain ⟨-, -, hw, hkind⟩ := (hi.waits.procs p).owner te hte hp
    refine ⟨hw, ?_⟩
    cases hkind with
    | sleep kind => exact kind.reason
    | comm c w a call type_eq reason => exact absurd call (hi.noComm p c w a)
  · rintro ⟨hw, hr | hr | hr⟩
    · exact (hi.waits.procs p).timed hw (by rw [hr]; rfl)
    · exact hi.slept p hw (Or.inr ⟨hr, hper⟩)
    · exact hi.slept p hw (Or.inl hr)

/-- The loop over the queue leaves a process alone for which no event is queued. -/
theorem procs_timeEventLoop (clk : Nat → Int) (p : ProcId) (l : List TimeEvent) (i : Nat)
    (r : Resched) (k : Kernel) (hp : ∀ te ∈ l, te.teType.proc ≠ some p) :
    (timeEventLoop clk l i r k).2.procs p = k.procs p := by
  induction l generalizing i r k with
  | nil => rfl
  | cons te es ih =>
      have hrest : ∀ te' ∈ es, te'.teType.proc ≠ some p :=
        fun te' hte' => hp te' (List.mem_cons_of_mem te hte')
      rw [timeEventLoop]
      split
      · cases hq : te.teType.proc with
        | none => exact ih _ _ _ hrest
        | some q =>
            have hne : p ≠ q := by
              rintro rfl
              exact hp te List.mem_cons_self hq
            refine (ih _ _ _ hrest).trans ?_
            show (expireProc k te q).procs p = k.procs p
            rw [procs_expireProc, Function.update_of_ne hne]
      · rfl

theorem procs_of_timeEventAction {clk : Nat → Int} {r : Resched} {p : ProcId}
    (hp : ∀ te ∈ k.teq, te.teType.proc ≠ some p) (h : timeEventAction k clk = .ok (r, k')) :
    k'.procs p = k.procs p := by
  unfold timeEventAction at h
  have hloop := procs_timeEventLoop clk p k.teq 0 ⟨false, false⟩ k hp
  generalize timeEventLoop clk k.teq 0 ⟨false, false⟩ k = x at h hloop
  obtain ⟨r', k₁⟩ := x
  dsimp only at h hloop
  split at h
  · cases hg : schedGlobal k₁ with
    | error f => simp [hg, bind, Except.bind] at h
    | ok k₂ =>
        simp only [hg, bind, Except.bind, Except.ok.injEq, Prod.mk.injEq] at h
        rw [← h.2, procs_of_schedGlobal hg, hloop]
  · simp only [Except.ok.injEq, Prod.mk.injEq] at h
    rw [← h.2, hloop]

/-- An expiry leaves a process alone that does not wait for one. -/
theorem WaitInv.expiry (hi : WaitInv k) {clk : Nat → Int} {r : Resched} {p : ProcId}
    (hu : Undisturbed k p) (h : timeEventAction k clk = .ok (r, k')) : k'.procs p = k.procs p := by
  have hfree : Unheld k p := by
    apply (hi.procs p).unheld
    intro hw
    rcases hu with hs | hs | hs | ⟨-, hr⟩
    · exact absurd (hs.symm.trans hw) (by decide)
    · exact absurd (hs.symm.trans hw) (by decide)
    · exact absurd (hs.symm.trans hw) (by decide)
    · exact Or.inl hr
  exact procs_of_timeEventAction hfree.events h

theorem TimerInv.timersMatch (hi : TimerInv k) : TimersMatch k where
  timer_iff p _ := hi.waits.timer_iff p
  event_iff p hper := (hi.waits.timer_iff p).symm.trans (hi.timer_iff_sleeping hper)
  pointer p te hte := ((hi.waits.procs p).owner te (mem_eventsOf.mp hte).1 (mem_eventsOf.mp hte).2).2.1
  one_event := hi.waits.length_eventsOf
  expiry _ _ _ h _ hu := hi.waits.expiry hu h

theorem Quiet.timerInv (h : Quiet k) : TimerInv k where
  waits := h.waitInv
  registered := h.registered
  noComm p c w a hc := absurd ((h.conts p).symm.trans hc) (by simp)
  slept p hw := absurd hw (h.state p)

/-- A process suspends itself, is resumed by its neighbour, and waits for a point in time. -/
def suspendResumeWait : List Event :=
  let env : Env := ⟨fun _ => 0, fun _ => 0⟩
  [.call env (.suspendSelf 5), .dispatch 2, .call env (.resume 1), .resume env, .dispatch 1,
    .resume env, .call env (.timedWait 3), .timer (fun _ => 3)]

end Jrinx
