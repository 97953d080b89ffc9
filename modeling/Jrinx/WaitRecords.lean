import Jrinx.Crossing
import Jrinx.Lib.RecordLog
import Jrinx.Timeouts

/-! # The records of a wait

A process that blocks with a time-out allocates two records: a `te_proc` record that says who waits and where,
which it frees itself when it goes on, and a timed event that points to it, which the one who ends the wait
frees. This file puts both into a log next to the kernel.

* **`Records`**, **`recordStep`** — the log, the pointers of the blocked processes, and a step that keeps them.
* **`InTimedCall`** — the process is in a blocking call with a time-out, and was not stopped.
* **`RecordsKept`** — every record is freed once, is not used afterwards, and does not outlive its wait.
* **`StopsOutside`** — the step is no `STOP` of a process in a blocking call.
* **`records_kept_iff`** — the records are kept throughout a run iff none of its steps is one. -/

namespace Jrinx

/-- The records of a wait, by the number of its event. -/
inductive WaitRecord where
  | event (i : Nat)
  | proc (i : Nat)
  deriving DecidableEq, Repr

/-- The events of the blocking services. -/
def TimeEventType.ofCall : TimeEventType → Bool
  | .bufferBlockTimeout _ _ => true
  | .blackboardBlockTimeout _ _ => true
  | .queuingPortBlockTimeout _ _ => true
  | _ => false

/-- The events of the blocking services in the queue. -/
def callEvents (k : Kernel) : List TimeEvent := k.teq.filter fun te => te.teType.ofCall

/-- What was done to the records, and the pointer to its `te_proc` record that a blocked process has. -/
structure Records where
  log : List (RecordOp WaitRecord)
  tep : ProcId → Option Nat

namespace Records

/-- Before the first call. -/
def none : Records := ⟨[], fun _ => .none⟩

/-- A blocking service allocates the `te_proc` record, and `time_event_alloc` the event. -/
def allocOps (te : TimeEvent) : List (RecordOp WaitRecord) := [.alloc (.proc te.teId), .alloc (.event te.teId)]

/-- `time_event_free` and `time_event_action` take an event off the queue: they follow its `te_ctx` to the
`te_proc` record, and free the event. -/
def freeOps (te : TimeEvent) : List (RecordOp WaitRecord) :=
  [.use (.event te.teId), .use (.proc te.teId), .free (.event te.teId)]

/-- Back from `sched_proc_give_up`, a blocking service with a time-out frees the record that it allocated. -/
def backOps (k : Kernel) (m : Records) : Event → List (RecordOp WaitRecord)
  | .resume _ =>
      match live k with
      | .none => []
      | some p =>
          match k.conts p with
          | some (.comm c _ _) =>
              if c.timeOut ≠ systemTimeInfiniteVal then (m.tep p).toList.map fun i => .free (.proc i) else []
          | _ => []
  | _ => []

/-- The events that a step took off the queue. -/
def gone (k k' : Kernel) : List TimeEvent := (callEvents k).filter fun te => te ∉ k'.teq

/-- The events that a step queued. -/
def made (k k' : Kernel) : List TimeEvent := (callEvents k').filter fun te => te ∉ k.teq

/-- The records after the step `e` from `k` to `k'`. -/
def after (m : Records) (k : Kernel) (e : Event) (k' : Kernel) : Records where
  log := m.log ++ (backOps k m e ++ ((gone k k').flatMap freeOps ++ (made k k').flatMap allocOps))
  tep p :=
    match (made k k').find? (fun te => te.teType.proc = some p) with
    | some te => some te.teId
    | .none => m.tep p

end Records

/-- One step, with the records. -/
def recordStep (s : Kernel × Records) (e : Event) : Except Fault (Kernel × Records) :=
  (step s.1 e).map fun k' => (k', s.2.after s.1 e k')

variable {k k' : Kernel} {m : Records} {e : Event} {p q : ProcId}

/-- The process is in a blocking call with a time-out, and was not stopped. It is so until it runs again. -/
def InTimedCall (k : Kernel) (p : ProcId) : Prop :=
  (k.procs p).prState ≠ .dormant ∧ ∃ c w a, k.conts p = some (.comm c w a) ∧ c.timeOut ≠ systemTimeInfiniteVal

/-- **The records are kept**: the log is legal, so that no record is used after it was freed or freed twice;
what is in use belongs to a call in progress; and what is not was freed once. -/
structure RecordsKept (s : Kernel × Records) : Prop where
  legal : LegalLog s.2.log
  once : ∀ r, .alloc r ∈ s.2.log → ¬ InUse s.2.log r → s.2.log.count (.free r) = 1
  owned : ∀ i, InUse s.2.log (.proc i) → ∃ p, InTimedCall s.1 p ∧ s.2.tep p = some i
  queued : ∀ i, InUse s.2.log (.event i) →
    ∃ te ∈ callEvents s.1, te.teId = i ∧ ∃ p, te.teType.proc = some p ∧ InTimedCall s.1 p
  empty : (∀ p, ¬ InTimedCall s.1 p) → ∀ r, ¬ InUse s.2.log r
  no_dangling : ∀ e, step s.1 e ≠ .error .danglingTimer

/-- The blocking calls have finite time-outs. -/
def FiniteCalls (_ : Kernel × Records) (e : Event) : Prop :=
  ∀ env s c, e = .call env s → s.commCall = some c → c.timeOut ≠ systemTimeInfiniteVal

/-- The step is no `STOP` of a process that is in a blocking call. -/
def StopsOutside (s : Kernel × Records) (e : Event) : Prop :=
  ∀ env id, e = .call env (.stop id) → (curPartProc s.1 id).isSome = true →
    ∀ c w a, s.1.conts id ≠ some (.comm c w a)

/-! ## What a step queues -/

theorem mem_callEvents {te : TimeEvent} : te ∈ callEvents k ↔ te ∈ k.teq ∧ te.teType.ofCall = true :=
  List.mem_filter

theorem SleepKind.ofCall {r : WaitingReason} {type : TimeEventType} (h : SleepKind p r type) :
    type.ofCall = false := by cases h <;> rfl

theorem ofCall_teType (p : ProcId) (c : CommCall) : (c.teType p).ofCall = true := by cases c <;> rfl

/-- What an effect queues is new, and an event of a blocking service is one of a process that blocks. -/
structure Queues (k : Kernel) (a : Act) (k' : Kernel) : Prop where
  nxt : k.nxtTe ≤ k'.nxtTe
  new : ∀ te ∈ k'.teq, te ∈ k.teq ∨ k.nxtTe ≤ te.teId ∧
    (te.teType.ofCall = true → ∃ p o, a = .block p o ∧ te.teType.proc = some p)

theorem Queues.of_sub {a : Act} (hteq : k'.teq ⊆ k.teq) (hnxt : k'.nxtTe = k.nxtTe) : Queues k a k' :=
  ⟨hnxt.ge, fun _ hte => Or.inl (hteq hte)⟩

theorem Queues.of_eq {a : Act} (hteq : k'.teq = k.teq) (hnxt : k'.nxtTe = k.nxtTe) : Queues k a k' :=
  .of_sub (hteq ▸ List.Subset.refl _) hnxt

/-- An event that was inserted. -/
theorem Queues.of_insert {a : Act} {te : TimeEvent} (hteq : k'.teq = insertEvent te k.teq)
    (hid : te.teId = k.nxtTe) (hnxt : k'.nxtTe = k.nxtTe + 1)
    (hcall : te.teType.ofCall = true → ∃ p o, a = .block p o ∧ te.teType.proc = some p) : Queues k a k' := by
  refine ⟨by omega, fun te' hte' => ?_⟩
  rw [hteq] at hte'
  rcases mem_insertEvent.mp hte' with rfl | hmem
  · exact Or.inr ⟨hid.ge, hcall⟩
  · exact Or.inl hmem

/-- An event that was freed. -/
theorem Queues.of_free {a : Act} {k₁ : Kernel} {t : Option Nat} (h : timeEventFree k₁ t = .ok k')
    (hteq : k₁.teq = k.teq) (hnxt : k₁.nxtTe = k.nxtTe) : Queues k a k' := by
  obtain ⟨i, -, -, rfl⟩ := mem_of_timeEventFree h
  refine .of_sub ?_ hnxt
  rw [← hteq]
  exact List.filter_sublist.subset

/-- **What an effect queues.** -/
theorem Eff.queues {a : Act} (he : Eff k a k') : Queues k a k' := by
  -- an event enters the queue with a sleep, a block or a partition switch, and each of them draws a number
  cases he with
  | @sleep p reason type time known own free kind =>
      unfold sleepUntil
      rw [timeEventAlloc_of_proc _ time kind.proc]
      exact .of_insert rfl rfl rfl fun h => absurd h (by simp [kind.ofCall])
  | @rouse p k₁ own waits reason freed =>
      have h : Queues k (.rouse p) k₁ := .of_free freed rfl rfl
      exact ⟨h.nxt, h.new⟩
  | @stop p _ own alive freed =>
      split at freed
      · exact .of_free freed rfl rfl
      · rw [← Except.ok.inj freed]
        exact .of_eq rfl rfl
  | @block p c w a cur own runs call fits full =>
      obtain ⟨-, -, -, -, -, -, htimed⟩ := block_fields k p c w a
      split at htimed
      · obtain ⟨-, -, hnxt, hteq⟩ := htimed
        exact .of_insert hteq rfl hnxt fun _ => ⟨p, _, rfl, proc_teType p c⟩
      · obtain ⟨-, -, hnxt, hteq⟩ := htimed
        exact .of_eq hteq hnxt
  | @wake p o _ linked obj done =>
      obtain ⟨k₁, hk₁, rfl⟩ := wakeProc_eq_ok done
      rcases hk₁ with ⟨-, hfree⟩ | ⟨-, rfl⟩
      · have h : Queues k (.wake p o) k₁ := .of_free hfree (by simp [delWaitingProc]) (by simp [delWaitingProc])
        exact ⟨h.nxt, h.new⟩
      · refine .of_eq ?_ ?_ <;> simp [delWaitingProc, Kernel.setState, Kernel.updProc, Kernel.setWoken]
  | @queue q cc obj => cases q <;> exact .of_eq rfl rfl
  | @dispatch p _ done =>
      rw [(dispatch_eq_ok done).2]
      rcases schedProcSt_cases k with hst | ⟨cur, -, -, hst⟩ <;> rw [hst] <;> exact .of_eq rfl rfl
  | @expire te es p head proc =>
      refine .of_sub ?_ (LoopFrame.expireProc te p).nxtTe
      rw [head]
      exact List.subset_cons_self te es
  | @partition te es head proc =>
      refine .of_sub ?_ rfl
      rw [head]
      exact List.subset_cons_self te es
  | global done =>
      obtain ⟨pt, rfl⟩ | ⟨time, mods, pt, rfl⟩ := schedGlobal_eq_ok done
      · exact .of_eq rfl rfl
      · exact .of_insert rfl rfl rfl fun h => absurd h (by simp [TimeEventType.ofCall])
  | _ => exact .of_eq rfl rfl

/-! ## A process that does not execute -/

/-- A process that does not execute: its call goes on, and it is not stopped. -/
structure Bystands (k : Kernel) (q : ProcId) (k' : Kernel) : Prop where
  conts : k'.conts q = k.conts q
  alive : (k.procs q).prState ≠ .dormant → (k'.procs q).prState ≠ .dormant

theorem Bystands.refl (k : Kernel) (q : ProcId) : Bystands k q k := ⟨rfl, id⟩

theorem Bystands.trans {k₁ : Kernel} (h : Bystands k q k₁) (h' : Bystands k₁ q k') : Bystands k q k' :=
  ⟨h'.conts.trans h.conts, fun ha => h'.alive (h.alive ha)⟩

theorem Bystands.of_eq (hconts : k'.conts q = k.conts q) (hstate : (k'.procs q).prState = (k.procs q).prState) :
    Bystands k q k' :=
  ⟨hconts, fun h => hstate ▸ h⟩

/-- The state of some process changes, but not to dormant. -/
theorem Bystands.of_state {t : ProcState} (hst : t ≠ .dormant) (hconts : k'.conts q = k.conts q)
    (hstate : (k'.procs q).prState = if q = p then t else (k.procs q).prState) : Bystands k q k' := by
  refine ⟨hconts, fun h => ?_⟩
  rw [hstate]
  split
  · exact hst
  · exact h

theorem bystands_timeEventFree {k₁ : Kernel} {t : Option Nat} (h : timeEventFree k₁ t = .ok k') :
    k'.conts q = k₁.conts q ∧ (k'.procs q).prState = (k₁.procs q).prState := by
  obtain ⟨i, -, -, rfl⟩ := mem_of_timeEventFree h
  exact ⟨rfl, prState_freeEvent k₁ i q⟩

/-- **What an effect does to a process that does not execute**, and is not stopped. -/
theorem Eff.bystands {a : Act} (he : Eff k a k') (hr : Registered k) (hq : q ∈ k.procIds)
    (hcur : a.ofHart = true ∨ k.curProc ≠ some q) (hstop : a ≠ .stop q)
    (halive : (k.procs q).prState ≠ .dormant) : Bystands k q k' := by
  -- the process on the hart is another one, or no process executes
  have hother : ∀ {p}, k.curProc = some p → a.ofHart = false → q ≠ p := by
    rintro p hp hhart rfl
    rcases hcur with h | h
    · exact absurd (hhart.symm.trans h) (by decide)
    · exact h hp
  -- the state that is set is not `DORMANT`, or it is set for another process
  cases he with
  | @attr p f own other =>
      refine .of_eq rfl ?_
      by_cases hqp : q = p
      · subst hqp
        simp only [Kernel.updProc, Function.update_self]
        rw [other]
      · simp [Kernel.updProc, hqp]
  | @ready p own held => exact .of_state (p := p) (t := .ready) (by decide) rfl (by simp)
  | @doze p reason own free kind =>
      exact .of_state (p := p) (t := .waiting) (by decide) (by simp) (by simp [waitFor])
  | @sleep p reason type time known own free kind =>
      unfold sleepUntil
      rw [timeEventAlloc_of_proc _ time kind.proc]
      refine .of_state (p := p) (t := .waiting) (by decide) (by simp) ?_
      by_cases hqp : q = p <;> simp [waitFor, hqp]
  | @rouse p k₁ own waits reason freed =>
      obtain ⟨hconts, hstate⟩ := bystands_timeEventFree (q := q) freed
      exact .of_state (p := p) (t := .ready) (by decide) hconts (by simp [hstate])
  | @halt p cur own runs =>
      have hqp : q ≠ p := hother cur rfl
      exact .of_eq rfl (by simp [hqp])
  | @stop p _ own alive freed =>
      have hqp : q ≠ p := fun h => hstop (by rw [h])
      split at freed
      · obtain ⟨hconts, hstate⟩ := bystands_timeEventFree (q := q) freed
        exact .of_eq hconts (by simp [hstate, hqp])
      · rw [← Except.ok.inj freed]
        exact .of_eq rfl (by simp [hqp])
  | @reset p own dormant =>
      have hqp : q ≠ p := by
        rintro rfl
        exact halive dormant
      exact .of_eq (by simp [procReset, Kernel.setCont, Kernel.setWoken, hqp]) rfl
  | @block p c w a cur own runs call fits full =>
      have hqp : q ≠ p := hother cur rfl
      obtain ⟨hsame, -⟩ := block_fields k p c w a
      obtain ⟨hprocs, hconts⟩ := hsame q hqp
      exact .of_eq hconts (by rw [hprocs])
  | @wake p o _ linked obj done =>
      obtain ⟨k₁, hk₁, rfl⟩ := wakeProc_eq_ok done
      have hdel : (delWaitingProc k o p).conts q = k.conts q ∧
          ((delWaitingProc k o p).procs q).prState = (k.procs q).prState := by
        constructor <;> simp [delWaitingProc]
      have hsame : k₁.conts q = k.conts q ∧ (k₁.procs q).prState = (k.procs q).prState := by
        rcases hk₁ with ⟨-, hfree⟩ | ⟨-, rfl⟩
        · obtain ⟨hconts, hstate⟩ := bystands_timeEventFree (q := q) hfree
          exact ⟨hconts.trans hdel.1, hstate.trans hdel.2⟩
        · exact hdel
      refine .of_state (p := p) (t := .ready) (by decide) ?_ ?_
      · exact hsame.1
      · show ((k₁.setState p .ready).procs q).prState = _
        rw [Kernel.prState_setState, hsame.2]
  | @queue r cc obj => cases r <;> exact .of_eq rfl rfl
  | @newProc mem pr own dormant timer frame =>
      have hqp : q ≠ k.nxtProcId := (hr.procs_lt q hq).ne
      refine .of_eq ?_ ?_ <;> simp [procReset, Kernel.setWoken, Kernel.setCont, registerProc, hqp]
  | @cont p c cur own free plain =>
      have hqp : q ≠ p := hother cur rfl
      exact .of_eq (by simp [Kernel.setCont, hqp]) rfl
  | @dispatch p _ done =>
      rw [(dispatch_eq_ok done).2]
      have hst : Bystands k q (schedProcSt k) := by
        rcases schedProcSt_cases k with hst | ⟨cur, -, -, hst⟩ <;> rw [hst]
        · exact .refl k q
        · exact .of_state (p := cur) (t := .ready) (by decide) rfl (by simp)
      refine hst.trans (.of_state (p := p) (t := .running) (by decide) rfl ?_)
      unfold schedProcEd
      simp
  | @expire te es p head proc =>
      refine .of_state (p := p) (t := .ready) (by decide) ?_ ?_
      · exact congrFun (conts_expireProc k te p) q
      · show ((expireProc k te p).procs q).prState = _
        rw [procs_expireProc]
        by_cases hqp : q = p <;> simp [hqp]
  | global done =>
      refine .of_eq ?_ ?_
      · rw [(conts_of_schedGlobal done).1]
      · rw [procs_of_schedGlobal done]
  | _ => exact .of_eq rfl rfl

/-! ## Whole steps -/

/-- An event that is no segment of a service has only effects of the hart. -/
theorem path_of_hart (he : e.ofService = false) (h : step k e = .ok k') :
    Path (fun _ a => a.ofHart = true) k k' := by
  rcases step_eq_ok h with ⟨p, rfl, hd⟩ | ⟨clk, r, rfl, ht⟩ | ⟨p, r, hs, -⟩
  · exact .one (.dispatch hd) rfl
  · exact path_timeEventAction (fun _ _ ha => ha) ht
  · obtain ⟨-, ⟨env, s, rfl, -⟩ | ⟨env, c, rfl, -⟩⟩ := segment_eq_some hs
    · exact absurd he (by simp [Event.ofService])
    · exact absurd he (by simp [Event.ofService])

/-- A segment of a service is executed by the process on the hart. -/
theorem live_of_service (he : e.ofService = true) (h : step k e = .ok k') :
    ∃ p, live k = some p ∧ k.curProc = some p := by
  rcases step_eq_ok h with ⟨p, rfl, -⟩ | ⟨clk, r, rfl, -⟩ | ⟨p, r, hs, -⟩
  · exact absurd he (by simp [Event.ofService])
  · exact absurd he (by simp [Event.ofService])
  · exact ⟨p, (segment_eq_some hs).1, (live_eq_some.mp (segment_eq_some hs).1).cur⟩

/-- **What a step does to a process that does not execute in it**, and is not stopped. -/
theorem bystands_step (hr : Registered k) (h : step k e = .ok k') (hq : q ∈ k.procIds)
    (hexec : e.ofService = true → live k ≠ some q)
    (hstop : ∀ env, e = .call env (.stop q) → curPartProc k q = .none)
    (halive : (k.procs q).prState ≠ .dormant) : Bystands k q k' := by
  by_cases he : e.ofService = true
  · obtain ⟨p, hl, hcur⟩ := live_of_service he h
    have hne : k.curProc ≠ some q := by
      rw [hcur, ← hl]
      exact hexec he
    -- all effects of a service are effects of the process that executes, a `STOP` apart
    have hinv : Bystands k q k' ∧ Registered k' ∧ q ∈ k'.procIds ∧ k'.curProc = k.curProc := by
      refine (step_path hr h).preserves (I := fun k₁ => Bystands k q k₁ ∧ Registered k₁ ∧ q ∈ k₁.procIds ∧
        k₁.curProc = k.curProc) ⟨.refl k q, hr, hq, rfl⟩ ?_
      rintro k₁ a k₂ ⟨hb, hr₁, hq₁, hcur₁⟩ ha heff
      have hhart : a.ofHart = false := by
        by_contra hh
        exact absurd (he.symm.trans (ha.hart (by simpa using hh))) (by decide)
      have hstop' : a ≠ .stop q := by
        rintro rfl
        obtain ⟨rfl, env, hcall⟩ := ha.stop q rfl
        cases heff with
        | stop own alive freed =>
            have hown : (k₁.procs q).prPartId = k₁.curPart := own
            have hnone := hstop env hcall
            simp [curPartProc, procFromId, hq, hown] at hnone
      have hone := heff.bystands hr₁ hq₁ (Or.inr (hcur₁ ▸ hne)) hstop' (hb.alive halive)
      obtain ⟨hr₂, hext⟩ := hr₁.eff heff
      exact ⟨hb.trans hone, hr₂, (hext.procs q hq₁).1, (heff.hart_eq hhart).2.trans hcur₁⟩
    exact hinv.1
  · -- the effects of the hart touch nobody but by an expiry or an election
    have hinv : Bystands k q k' ∧ Registered k' ∧ q ∈ k'.procIds := by
      refine (path_of_hart (by simpa using he) h).preserves
        (I := fun k₁ => Bystands k q k₁ ∧ Registered k₁ ∧ q ∈ k₁.procIds) ⟨.refl k q, hr, hq⟩ ?_
      rintro k₁ a k₂ ⟨hb, hr₁, hq₁⟩ ha heff
      have hstop' : a ≠ .stop q := by
        rintro rfl
        exact absurd ha (by simp [Act.ofHart])
      have hone := heff.bystands hr₁ hq₁ (Or.inl ha) hstop' (hb.alive halive)
      obtain ⟨hr₂, hext⟩ := hr₁.eff heff
      exact ⟨hb.trans hone, hr₂, (hext.procs q hq₁).1⟩
    exact hinv.1

/-- **What a step queues** is new; an event of a blocking service is queued for the process that executes the
step. -/
theorem queues_step (hr : Registered k) (h : step k e = .ok k') :
    k.nxtTe ≤ k'.nxtTe ∧ ∀ te ∈ k'.teq, te ∈ k.teq ∨ k.nxtTe ≤ te.teId ∧
      (te.teType.ofCall = true → e.ofService = true ∧ ∃ p, live k = some p ∧ te.teType.proc = some p) := by
  by_cases he : e.ofService = true
  · obtain ⟨p, hl, hcur⟩ := live_of_service he h
    -- the process on the hart stays the same over the effects of its service
    have hinv : (k.nxtTe ≤ k'.nxtTe ∧ ∀ te ∈ k'.teq, te ∈ k.teq ∨ k.nxtTe ≤ te.teId ∧
        (te.teType.ofCall = true → te.teType.proc = some p)) ∧ k'.curProc = some p := by
      refine (step_path hr h).preserves (I := fun k₁ => (k.nxtTe ≤ k₁.nxtTe ∧ ∀ te ∈ k₁.teq,
        te ∈ k.teq ∨ k.nxtTe ≤ te.teId ∧ (te.teType.ofCall = true → te.teType.proc = some p)) ∧
        k₁.curProc = some p) ⟨⟨le_rfl, fun _ hte => Or.inl hte⟩, hcur⟩ ?_
      rintro k₁ a k₂ ⟨⟨hnxt, hnew⟩, hcur₁⟩ ha heff
      have hhart : a.ofHart = false := by
        by_contra hh
        exact absurd (he.symm.trans (ha.hart (by simpa using hh))) (by decide)
      have hqueues := heff.queues
      refine ⟨⟨hnxt.trans hqueues.nxt, fun te hte => ?_⟩, (heff.hart_eq hhart).2.trans hcur₁⟩
      rcases hqueues.new te hte with hold | ⟨hid, hcall⟩
      · exact hnew te hold
      · refine Or.inr ⟨hnxt.trans hid, fun hof => ?_⟩
        obtain ⟨p', o, rfl, hproc⟩ := hcall hof
        rw [hproc]
        cases heff with
        | block c w a cur own runs call fits full => rw [← cur, hcur₁]
    refine ⟨hinv.1.1, fun te hte => (hinv.1.2 te hte).imp_right fun hid => ⟨hid.1, fun hof => ?_⟩⟩
    exact ⟨he, p, hl, hid.2 hof⟩
  · -- the hart itself queues only partition events
    have hinv : k.nxtTe ≤ k'.nxtTe ∧ ∀ te ∈ k'.teq, te ∈ k.teq ∨ k.nxtTe ≤ te.teId ∧
        te.teType.ofCall ≠ true := by
      refine (path_of_hart (by simpa using he) h).preserves (I := fun k₁ => k.nxtTe ≤ k₁.nxtTe ∧
        ∀ te ∈ k₁.teq, te ∈ k.teq ∨ k.nxtTe ≤ te.teId ∧ te.teType.ofCall ≠ true)
        ⟨le_rfl, fun _ hte => Or.inl hte⟩ ?_
      rintro k₁ a k₂ ⟨hnxt, hnew⟩ ha heff
      have hqueues := heff.queues
      refine ⟨hnxt.trans hqueues.nxt, fun te hte => ?_⟩
      rcases hqueues.new te hte with hold | ⟨hid, hcall⟩
      · exact hnew te hold
      · refine Or.inr ⟨hnxt.trans hid, fun hof => ?_⟩
        obtain ⟨p', o, rfl, -⟩ := hcall hof
        exact absurd ha (by simp [Act.ofHart])
    exact ⟨hinv.1, fun te hte => (hinv.2 te hte).imp_right fun hid => ⟨hid.1, fun hof => absurd hof hid.2⟩⟩

theorem isTimedCall_blockedWithTimeoutReason (o : WaitObj) :
    (blockedWithTimeoutReason o).isTimedCall = true := by
  cases o <;> rfl

/-- A round of the loop that ends in `sched_proc_give_up` leaves its process waiting. -/
theorem waitsTimed_of_commBlock {env : Env} {c c' : CommCall} {w w' a : Int} {i : Nat} {rr : Bool}
    (h : commBlock k env p c w i = .ok (.giveUp rr (.comm c' w' a), k'))
    (hfin : c'.timeOut ≠ systemTimeInfiniteVal) : WaitsTimed (k'.setCont p (some (.comm c' w' a))) p := by
  rcases commBlock_eq_ok h with ⟨-, hn, -⟩ | ⟨-, hn, rfl⟩
  · exact absurd hn (by simp)
  · simp only [Next.giveUp.injEq, Cont.comm.injEq] at hn
    obtain ⟨-, rfl, rfl, rfl⟩ := hn
    obtain ⟨-, -, hwaits, -, -, -, htimed⟩ := block_fields k p c' w' (c'.armed (env.clk (i + 1)) w')
    rw [if_pos hfin] at htimed
    refine ⟨hwaits, ?_⟩
    rw [htimed.1]
    exact isTimedCall_blockedWithTimeoutReason _

/-- **The process that executes a step** and is in a blocking call after it waits there. -/
theorem waitsTimed_of_exec {c : CommCall} {w a : Int} (h : step k e = .ok k') (he : e.ofService = true)
    (hl : live k = some p) (hc : k'.conts p = some (.comm c w a)) (hfin : c.timeOut ≠ systemTimeInfiniteVal) :
    WaitsTimed k' p := by
  rcases step_eq_ok h with ⟨q, rfl, -⟩ | ⟨clk, r, rfl, -⟩ | ⟨q, ⟨n, k₁⟩, hs, rfl⟩
  · exact absurd he (by simp [Event.ofService])
  · exact absurd he (by simp [Event.ofService])
  obtain ⟨hl', hseg⟩ := segment_eq_some hs
  obtain rfl : q = p := Option.some.inj (hl'.symm.trans hl)
  cases n with
  | ret code out => exact absurd hc (by simp [settle, Kernel.setCont])
  | giveUp rr x =>
      simp only [settle, Kernel.setCont, Function.update_self, Option.some.injEq] at hc
      subst hc
      show WaitsTimed (k₁.setCont q (some (.comm c w a))) q
      -- the call has just begun to wait, or it waits again
      rcases hseg with ⟨env, s, rfl, -, hout⟩ | ⟨env, c₀, rfl, -, hout⟩
      · cases (ends_doSyscall hout.symm).next with
        | comm rr c w a hcall =>
            rcases doSyscall_of_commCall k env q hcall with ⟨code, hret⟩ | henter
            · exact absurd (Prod.mk.inj (Except.ok.inj (hret.symm.trans hout.symm))).1 (by simp)
            rw [henter, commEnter] at hout
            split at hout
            · split at hout
              · exact absurd (Prod.mk.inj (Except.ok.inj hout)).1 (by simp)
              · exact waitsTimed_of_commBlock hout.symm hfin
            · exact (not_comm_of_commFinish hout.symm).elim
      · cases c₀ with
        | comm c₀ w₀ a₀ =>
            have hresume : commResume (k.setWoken q false) env q c₀ w₀ a₀ =
                .ok (.giveUp rr (.comm c w a), k₁) := hout.symm
            unfold commResume at hresume
            split at hresume
            · exact absurd (Prod.mk.inj (Except.ok.inj hresume)).1 (by simp)
            split at hresume
            · exact waitsTimed_of_commBlock hresume hfin
            · exact (not_comm_of_commFinish hresume).elim
        | suspendSelf w₀ => exact absurd (Prod.mk.inj (Except.ok.inj hout)).1 (by simp)
        | done code out => exact absurd (Prod.mk.inj (Except.ok.inj hout)).1 (by simp)

/-! ## Call events and calls -/

/-- The process of a call event waits in a call, and the event is its timer. -/
theorem WaitInv.of_callEvent (hi : WaitInv k) {te : TimeEvent} (hte : te ∈ callEvents k) :
    ∃ p c w a, te.teType.proc = some p ∧ k.conts p = some (.comm c w a) ∧
      (k.procs p).prAssoTimer = some te.teId ∧ (k.procs p).prState = .waiting := by
  obtain ⟨hmem, hof⟩ := mem_callEvents.mp hte
  obtain ⟨p, hp⟩ : ∃ p, te.teType.proc = some p := by
    cases hty : te.teType <;> simp_all [TimeEventType.ofCall, TimeEventType.proc]
  obtain ⟨-, htimer, hwaits, hkind⟩ := (hi.procs p).owner te hmem hp
  cases hkind with
  | sleep kind => exact absurd (kind.ofCall.symm.trans hof) (by decide)
  | comm c w a call type_eq reason => exact ⟨p, c, w, a, hp, call, htimer, hwaits⟩

/-- A process that waits in a call with a time-out has a call event. -/
theorem WaitInv.callEvent_of_waits (hi : WaitInv k) (hw : WaitsTimed k p) :
    ∃ te ∈ callEvents k, te.teType.proc = some p := by
  have htimed : (k.procs p).prWaitingReason.isTimed = true := by
    have hcall := hw.2
    cases hr : (k.procs p).prWaitingReason <;> simp_all [WaitingReason.isTimedCall, WaitingReason.isTimed]
  obtain ⟨t, ht⟩ := Option.ne_none_iff_exists'.mp ((hi.procs p).timed hw.1 htimed)
  obtain ⟨te, hmem, -, hp⟩ := (hi.procs p).queued t ht
  refine ⟨te, mem_callEvents.mpr ⟨hmem, ?_⟩, hp⟩
  obtain ⟨-, -, -, hkind⟩ := (hi.procs p).owner te hmem hp
  cases hkind with
  | sleep kind => exact absurd (kind.isTimedCall.symm.trans hw.2) (by decide)
  | comm c w a call type_eq reason =>
      rw [type_eq]
      exact ofCall_teType p c

/-- A process has one call event at most. -/
theorem WaitInv.callEvent_unique (hi : WaitInv k) {te te' : TimeEvent} (hte : te ∈ callEvents k)
    (hte' : te' ∈ callEvents k) (hp : te.teType.proc = some p) (hp' : te'.teType.proc = some p) : te = te' := by
  have htimer := ((hi.procs p).owner te (mem_callEvents.mp hte).1 hp).2.1
  have htimer' := ((hi.procs p).owner te' (mem_callEvents.mp hte').1 hp').2.1
  have hid : te.teId = te'.teId := Option.some.inj (htimer.symm.trans htimer')
  exact List.inj_on_of_nodup_map hi.ids (mem_callEvents.mp hte).1 (mem_callEvents.mp hte').1 hid

/-- **The invariant of the records.** -/
structure RecInv (k : Kernel) (m : Records) : Prop where
  wait : WaitInv k
  registered : Registered k
  legal : LegalLog m.log
  held : ∀ p c w a, k.conts p = some (.comm c w a) → ∃ i, m.tep p = some i ∧ InUse m.log (.proc i)
  distinct : ∀ p c w a q c' w' a', k.conts p = some (.comm c w a) → k.conts q = some (.comm c' w' a') →
    m.tep p = m.tep q → p = q
  owned : ∀ i, InUse m.log (.proc i) → ∃ p c w a, k.conts p = some (.comm c w a) ∧ m.tep p = some i
  events : ∀ i, InUse m.log (.event i) ↔ ∃ te ∈ callEvents k, te.teId = i
  ctx : ∀ te ∈ callEvents k, ∀ p, te.teType.proc = some p → m.tep p = some te.teId
  fresh : ∀ i, (.alloc (.proc i) ∈ m.log ∨ .alloc (.event i) ∈ m.log) → i < k.nxtTe
  finite : ∀ p c w a, k.conts p = some (.comm c w a) → c.timeOut ≠ systemTimeInfiniteVal
  alive : ∀ p c w a, k.conts p = some (.comm c w a) → (k.procs p).prState ≠ .dormant

/-- In a quiet state there are no records. -/
theorem Quiet.recInv (hq : Quiet k) : RecInv k .none where
  wait := hq.waitInv
  registered := hq.registered
  legal := .nil
  held p c w a hc := absurd ((hq.conts p).symm.trans hc) (by simp)
  distinct p c w a _ _ _ _ hc _ := absurd ((hq.conts p).symm.trans hc) (by simp)
  owned i h := absurd h.made List.not_mem_nil
  events i := by
    constructor
    · intro h
      exact absurd h.made List.not_mem_nil
    · rintro ⟨te, hte, -⟩
      obtain ⟨p, -, -, -, hp, -⟩ := hq.waitInv.of_callEvent hte
      exact absurd ((hq.events te (mem_callEvents.mp hte).1).symm.trans hp) (by simp)
  ctx te hte p hp := absurd ((hq.events te (mem_callEvents.mp hte).1).symm.trans hp) (by simp)
  fresh i h := by rcases h with h | h <;> exact absurd h List.not_mem_nil
  finite p c w a hc := absurd ((hq.conts p).symm.trans hc) (by simp)
  alive p c w a hc := absurd ((hq.conts p).symm.trans hc) (by simp)

theorem RecInv.inTimedCall (h : RecInv k m) {c : CommCall} {w a : Int} (hc : k.conts p = some (.comm c w a)) :
    InTimedCall k p := ⟨h.alive p c w a hc, c, w, a, hc, h.finite p c w a hc⟩

/-- What the invariant says of the records. -/
theorem RecInv.recordsKept (h : RecInv k m) : RecordsKept (k, m) := by
  have howned : ∀ i, InUse m.log (.proc i) → ∃ p, InTimedCall k p ∧ m.tep p = some i := by
    intro i hi
    obtain ⟨p, c, w, a, hc, htep⟩ := h.owned i hi
    exact ⟨p, h.inTimedCall hc, htep⟩
  have hqueued : ∀ i, InUse m.log (.event i) →
      ∃ te ∈ callEvents k, te.teId = i ∧ ∃ p, te.teType.proc = some p ∧ InTimedCall k p := by
    intro i hi
    obtain ⟨te, hte, hid⟩ := (h.events i).mp hi
    obtain ⟨p, c, w, a, hp, hc, -, -⟩ := h.wait.of_callEvent hte
    exact ⟨te, hte, hid, p, hp, h.inTimedCall hc⟩
  refine ⟨h.legal, fun r hr hend => h.legal.freed_once hr hend, howned, hqueued, ?_,
    h.wait.step_no_danglingTimer⟩
  intro hidle r hr
  cases r with
  | event i =>
      obtain ⟨te, -, -, p, -, hin⟩ := hqueued i hr
      exact hidle p hin
  | proc i =>
      obtain ⟨p, hin, -⟩ := howned i hr
      exact hidle p hin

/-! ## The log of a step -/

namespace Records

theorem alloc_notMem_freeOps {l : List TimeEvent} {r : WaitRecord} : .alloc r ∉ l.flatMap freeOps := by
  simp [freeOps]

theorem free_notMem_allocOps {l : List TimeEvent} {r : WaitRecord} : .free r ∉ l.flatMap allocOps := by
  simp [allocOps]

theorem free_proc_notMem_freeOps {l : List TimeEvent} {i : Nat} : .free (.proc i) ∉ l.flatMap freeOps := by
  simp [freeOps]

theorem free_event_mem_freeOps {l : List TimeEvent} {i : Nat} :
    .free (.event i) ∈ l.flatMap freeOps ↔ ∃ te ∈ l, te.teId = i := by
  simp [freeOps, eq_comm]

theorem alloc_proc_mem_allocOps {l : List TimeEvent} {i : Nat} :
    .alloc (.proc i) ∈ l.flatMap allocOps ↔ ∃ te ∈ l, te.teId = i := by
  simp [allocOps, eq_comm]

theorem alloc_event_mem_allocOps {l : List TimeEvent} {i : Nat} :
    .alloc (.event i) ∈ l.flatMap allocOps ↔ ∃ te ∈ l, te.teId = i := by
  simp [allocOps, eq_comm]

/-- A process that is back only frees `te_proc` records. -/
theorem of_mem_backOps {op : RecordOp WaitRecord} (h : op ∈ backOps k m e) : ∃ i, op = .free (.proc i) := by
  cases e with
  | resume env =>
      simp only [backOps] at h
      split at h
      · exact absurd h List.not_mem_nil
      · split at h
        · split at h
          · obtain ⟨i, -, rfl⟩ := List.mem_map.mp h
            exact ⟨i, rfl⟩
          · exact absurd h List.not_mem_nil
        · exact absurd h List.not_mem_nil
  | _ => exact absurd h List.not_mem_nil

theorem alloc_notMem_backOps {r : WaitRecord} : .alloc r ∉ backOps k m e := by
  intro h
  obtain ⟨i, hi⟩ := of_mem_backOps h
  exact absurd hi (by simp)

theorem free_event_notMem_backOps {i : Nat} : .free (.event i) ∉ backOps k m e := by
  intro h
  obtain ⟨j, hj⟩ := of_mem_backOps h
  exact absurd hj (by simp)

/-- Events that are in use, with their `te_proc` records, can be freed one after the other. -/
theorem legal_freeOps {log : List (RecordOp WaitRecord)} (h : LegalLog log) {l : List TimeEvent}
    (hl : ∀ te ∈ l, InUse log (.event te.teId) ∧ InUse log (.proc te.teId)) (hids : (l.map TimeEvent.teId).Nodup) :
    LegalLog (log ++ l.flatMap freeOps) := by
  induction l generalizing log with
  | nil => simpa using h
  | cons te l ih =>
      obtain ⟨hevent, hproc⟩ := hl te List.mem_cons_self
      rw [List.map_cons, List.nodup_cons] at hids
      have h₁ : LegalLog (log ++ [.use (.event te.teId)]) := .snoc h hevent
      have h₂ : LegalLog (log ++ [.use (.event te.teId)] ++ [.use (.proc te.teId)]) :=
        .snoc h₁ (hproc.append (by simp))
      have h₃ : LegalLog (log ++ [.use (.event te.teId)] ++ [.use (.proc te.teId)] ++ [.free (.event te.teId)]) :=
        .snoc h₂ ((hevent.append (by simp)).append (by simp))
      have hops : log ++ [.use (.event te.teId)] ++ [.use (.proc te.teId)] ++ [.free (.event te.teId)] =
          log ++ freeOps te := by
        simp [freeOps]
      rw [hops] at h₃
      rw [List.flatMap_cons, ← List.append_assoc]
      refine ih h₃ (fun te' hte' => ?_) hids.2
      obtain ⟨hevent', hproc'⟩ := hl te' (List.mem_cons_of_mem te hte')
      have hne : te'.teId ≠ te.teId := fun heq => hids.1 (heq ▸ List.mem_map_of_mem hte')
      exact ⟨hevent'.append (by simpa [freeOps] using hne), hproc'.append (by simp [freeOps])⟩

/-- Records that were never allocated can be allocated one after the other. -/
theorem legal_allocOps {log : List (RecordOp WaitRecord)} (h : LegalLog log) {l : List TimeEvent}
    (hl : ∀ te ∈ l, .alloc (.proc te.teId) ∉ log ∧ .alloc (.event te.teId) ∉ log)
    (hids : (l.map TimeEvent.teId).Nodup) : LegalLog (log ++ l.flatMap allocOps) := by
  induction l generalizing log with
  | nil => simpa using h
  | cons te l ih =>
      obtain ⟨hproc, hevent⟩ := hl te List.mem_cons_self
      rw [List.map_cons, List.nodup_cons] at hids
      have h₁ : LegalLog (log ++ [.alloc (.proc te.teId)]) := .snoc h hproc
      have h₂ : LegalLog (log ++ [.alloc (.proc te.teId)] ++ [.alloc (.event te.teId)]) := by
        refine .snoc h₁ ?_
        show _ ∉ _
        simpa using hevent
      have hops : log ++ [.alloc (.proc te.teId)] ++ [.alloc (.event te.teId)] = log ++ allocOps te := by
        simp [allocOps]
      rw [hops] at h₂
      rw [List.flatMap_cons, ← List.append_assoc]
      refine ih h₂ (fun te' hte' => ?_) hids.2
      obtain ⟨hproc', hevent'⟩ := hl te' (List.mem_cons_of_mem te hte')
      have hne : te'.teId ≠ te.teId := fun heq => hids.1 (heq ▸ List.mem_map_of_mem hte')
      constructor <;> simpa [allocOps, hne]

end Records

open Records

theorem mem_gone {te : TimeEvent} : te ∈ gone k k' ↔ te ∈ callEvents k ∧ te ∉ k'.teq := by
  simp [gone]

theorem mem_made {te : TimeEvent} : te ∈ made k k' ↔ te ∈ callEvents k' ∧ te ∉ k.teq := by
  simp [made]

/-- What a process frees when it is back: its own record, if it is in a call. -/
theorem RecInv.backOps_cases (h : RecInv k m) (e : Event) :
    (backOps k m e = [] ∧ ∀ env p c w a, e = .resume env → live k = some p → k.conts p ≠ some (.comm c w a)) ∨
      ∃ env p c w a i, e = .resume env ∧ live k = some p ∧ k.conts p = some (.comm c w a) ∧
        m.tep p = some i ∧ InUse m.log (.proc i) ∧ backOps k m e = [.free (.proc i)] := by
  by_cases hback : ∃ env p c w a, e = .resume env ∧ live k = some p ∧ k.conts p = some (.comm c w a)
  · obtain ⟨env, p, c, w, a, rfl, hl, hc⟩ := hback
    obtain ⟨i, htep, huse⟩ := h.held p c w a hc
    refine Or.inr ⟨env, p, c, w, a, i, rfl, hl, hc, htep, huse, ?_⟩
    simp [backOps, hl, hc, h.finite p c w a hc, htep]
  · refine Or.inl ⟨?_, fun env p c w a he hl hc => hback ⟨env, p, c, w, a, he, hl, hc⟩⟩
    cases e with
    | resume env =>
        simp only [backOps]
        split
        · rfl
        next p hl =>
          split
          next c w a hc => exact absurd ⟨env, p, c, w, a, rfl, hl, hc⟩ hback
          · rfl
    | _ => rfl

section Step

variable (h : RecInv k m) (hs : step k e = .ok k') (hi' : WaitInv k')

include h hs

/-- What is queued in a step has a new number. -/
theorem RecInv.le_made {te : TimeEvent} (hte : te ∈ made k k') : k.nxtTe ≤ te.teId := by
  obtain ⟨hcall, hnew⟩ := mem_made.mp hte
  rcases (queues_step h.registered hs).2 te (mem_callEvents.mp hcall).1 with hold | ⟨hid, -⟩
  · exact absurd hold hnew
  · exact hid

/-- It is queued for the process that executes the step. -/
theorem RecInv.proc_made {te : TimeEvent} (hte : te ∈ made k k') :
    e.ofService = true ∧ ∃ p, live k = some p ∧ te.teType.proc = some p := by
  obtain ⟨hcall, hnew⟩ := mem_made.mp hte
  obtain ⟨hmem, hof⟩ := mem_callEvents.mp hcall
  rcases (queues_step h.registered hs).2 te hmem with hold | ⟨-, hproc⟩
  · exact absurd hold hnew
  · exact hproc hof

omit hs in
/-- A record of the log is older than what is queued now. -/
theorem RecInv.not_made {i : Nat} (hi : k.nxtTe ≤ i) : .alloc (.proc i) ∉ m.log ∧ .alloc (.event i) ∉ m.log := by
  constructor
  · intro hmem
    exact absurd (h.fresh i (Or.inl hmem)) (not_lt.mpr hi)
  · intro hmem
    exact absurd (h.fresh i (Or.inr hmem)) (not_lt.mpr hi)

omit hs in
/-- The record that a process frees when it is back is none of an event that is queued. -/
theorem RecInv.back_ne {te : TimeEvent} (hte : te ∈ callEvents k) : .free (.proc te.teId) ∉ backOps k m e := by
  rcases h.backOps_cases e with ⟨hnil, -⟩ | ⟨env, p, c, w, a, i, -, hl, hc, htep, -, hback⟩
  · rw [hnil]
    exact List.not_mem_nil
  · rw [hback, List.mem_singleton]
    intro heq
    obtain rfl : te.teId = i := by simpa using heq
    -- the process of the event waits, so it does not execute
    obtain ⟨q, c', w', a', hq, hc', -, hwaits⟩ := h.wait.of_callEvent hte
    have hpq : q = p := h.distinct q c' w' a' p c w a hc' hc ((h.ctx te hte q hq).trans htep.symm)
    have hruns := (live_eq_some.mp hl).runs
    rw [← hpq, eligible_iff, hwaits] at hruns
    simp at hruns

omit h hs in
/-- The events that a step takes off have different numbers. -/
theorem nodup_gone (hi : WaitInv k) : ((gone k k').map TimeEvent.teId).Nodup :=
  hi.ids.sublist ((List.filter_sublist.trans List.filter_sublist).map _)

omit h hs in
theorem nodup_made (hi' : WaitInv k') : ((made k k').map TimeEvent.teId).Nodup :=
  hi'.ids.sublist ((List.filter_sublist.trans List.filter_sublist).map _)

include hi'

/-- **The log stays legal.** -/
theorem RecInv.legal_after : LegalLog (m.after k e k').log := by
  have hback : LegalLog (m.log ++ backOps k m e) := by
    rcases h.backOps_cases e with ⟨hnil, -⟩ | ⟨env, p, c, w, a, i, -, -, -, -, huse, hback⟩
    · rw [hnil, List.append_nil]
      exact h.legal
    · rw [hback]
      exact .snoc h.legal huse
  have hgone : LegalLog (m.log ++ backOps k m e ++ (gone k k').flatMap freeOps) := by
    refine legal_freeOps hback (fun te hte => ?_) (nodup_gone h.wait)
    have hcall := (mem_gone.mp hte).1
    have hevent : InUse m.log (.event te.teId) := (h.events te.teId).mpr ⟨te, hcall, rfl⟩
    obtain ⟨p, c, w, a, hp, hc, -, -⟩ := h.wait.of_callEvent hcall
    obtain ⟨i, htep, huse⟩ := h.held p c w a hc
    obtain rfl : te.teId = i := Option.some.inj ((h.ctx te hcall p hp).symm.trans htep)
    exact ⟨hevent.append free_event_notMem_backOps, huse.append (h.back_ne hcall)⟩
  have hmade := legal_allocOps hgone (l := made k k') (fun te hte => ?_) (nodup_made hi')
  · simpa [after] using hmade
  · obtain ⟨hproc, hevent⟩ := h.not_made (h.le_made hs hte)
    constructor
    · simp only [List.mem_append, hproc, alloc_notMem_backOps, alloc_notMem_freeOps, or_self, not_false_eq_true]
    · simp only [List.mem_append, hevent, alloc_notMem_backOps, alloc_notMem_freeOps, or_self, not_false_eq_true]

omit hi' in
/-- The `te_proc` records after a step: those of before, without the one that a process freed, and the new
ones. -/
theorem RecInv.inUse_proc_after {i : Nat} : InUse (m.after k e k').log (.proc i) ↔
    (InUse m.log (.proc i) ∧ .free (.proc i) ∉ backOps k m e) ∨ ∃ te ∈ made k k', te.teId = i := by
  have hnew : ∀ te ∈ made k k', .free (.proc te.teId) ∉ m.log ∧ .free (.proc te.teId) ∉ backOps k m e := by
    intro te hte
    obtain ⟨hproc, -⟩ := h.not_made (h.le_made hs hte)
    refine ⟨h.legal.not_freed hproc, ?_⟩
    rcases h.backOps_cases e with ⟨hnil, -⟩ | ⟨_, _, _, _, _, i, -, -, -, -, huse, hback⟩
    · rw [hnil]
      exact List.not_mem_nil
    · rw [hback, List.mem_singleton]
      intro heq
      obtain rfl : te.teId = i := by simpa using heq
      exact hproc huse.made
  rw [after, inUse_append]
  simp only [List.mem_append, alloc_notMem_backOps, alloc_notMem_freeOps, alloc_proc_mem_allocOps,
    free_proc_notMem_freeOps, free_notMem_allocOps, false_or, or_false]
  constructor
  · rintro ⟨hold | hmade, hkept, hkept'⟩
    · exact Or.inl ⟨⟨hold, hkept⟩, hkept'⟩
    · exact Or.inr hmade
  · rintro (⟨⟨hold, hkept⟩, hkept'⟩ | ⟨te, hte, rfl⟩)
    · exact ⟨Or.inl hold, hkept, hkept'⟩
    · exact ⟨Or.inr ⟨te, hte, rfl⟩, hnew te hte⟩

omit hi' in
/-- The events after a step. -/
theorem RecInv.inUse_event_after {i : Nat} : InUse (m.after k e k').log (.event i) ↔
    (InUse m.log (.event i) ∧ ∀ te ∈ gone k k', te.teId ≠ i) ∨ ∃ te ∈ made k k', te.teId = i := by
  have hnew : ∀ te ∈ made k k', .free (.event te.teId) ∉ m.log ∧ ∀ te' ∈ gone k k', te'.teId ≠ te.teId := by
    intro te hte
    obtain ⟨-, hevent⟩ := h.not_made (h.le_made hs hte)
    refine ⟨h.legal.not_freed hevent, fun te' hte' heq => hevent ?_⟩
    exact ((h.events te.teId).mpr ⟨te', (mem_gone.mp hte').1, heq⟩).made
  rw [after, inUse_append]
  simp only [List.mem_append, alloc_notMem_backOps, free_event_notMem_backOps, alloc_notMem_freeOps,
    alloc_event_mem_allocOps, free_event_mem_freeOps, free_notMem_allocOps, false_or, or_false]
  constructor
  · rintro ⟨hold | hmade, hkept, hkept'⟩
    · exact Or.inl ⟨⟨hold, hkept⟩, fun te hte heq => hkept' ⟨te, hte, heq⟩⟩
    · exact Or.inr hmade
  · rintro (⟨⟨hold, hkept⟩, hkept'⟩ | ⟨te, hte, rfl⟩)
    · exact ⟨Or.inl hold, hkept, fun ⟨te, hte, heq⟩ => hkept' te hte heq⟩
    · obtain ⟨hkept, hother⟩ := hnew te hte
      exact ⟨Or.inr ⟨te, hte, rfl⟩, hkept, fun ⟨te', hte', heq⟩ => hother te' hte' heq⟩

omit hi' in
/-- **The events in use are those of the queue.** -/
theorem RecInv.events_after (i : Nat) :
    InUse (m.after k e k').log (.event i) ↔ ∃ te ∈ callEvents k', te.teId = i := by
  rw [h.inUse_event_after hs]
  constructor
  · rintro (⟨huse, hkept⟩ | ⟨te, hte, hid⟩)
    · obtain ⟨te, hte, hid⟩ := (h.events i).mp huse
      refine ⟨te, ?_, hid⟩
      have hstays : te ∈ k'.teq := by
        by_contra hgone
        exact hkept te (mem_gone.mpr ⟨hte, hgone⟩) hid
      exact mem_callEvents.mpr ⟨hstays, (mem_callEvents.mp hte).2⟩
    · exact ⟨te, (mem_made.mp hte).1, hid⟩
  · rintro ⟨te, hte, hid⟩
    by_cases hold : te ∈ k.teq
    · have hcall : te ∈ callEvents k := mem_callEvents.mpr ⟨hold, (mem_callEvents.mp hte).2⟩
      refine Or.inl ⟨(h.events i).mpr ⟨te, hcall, hid⟩, fun te' hte' hid' => ?_⟩
      -- an event that went has the number of one that stayed
      obtain ⟨hcall', hgone⟩ := mem_gone.mp hte'
      have heq : te' = te := List.inj_on_of_nodup_map h.wait.ids (mem_callEvents.mp hcall').1 hold
        (hid'.trans hid.symm)
      exact hgone (heq ▸ (mem_callEvents.mp hte).1)
    · exact Or.inr ⟨te, mem_made.mpr ⟨hte, hold⟩, hid⟩

omit h hs in
/-- The pointer of a process for which an event is queued. -/
theorem tep_of_made (m : Records) (e : Event) {te : TimeEvent} (hte : te ∈ made k k') (hp : te.teType.proc = some p) :
    (m.after k e k').tep p = some te.teId := by
  have hsome : ((made k k').find? fun te => te.teType.proc = some p).isSome = true := by
    rw [List.find?_isSome]
    exact ⟨te, hte, by simpa using hp⟩
  obtain ⟨te', hfind⟩ := Option.isSome_iff_exists.mp hsome
  have hp' : te'.teType.proc = some p := by simpa using List.find?_some hfind
  have hmem' := List.mem_of_find?_eq_some hfind
  have heq : te' = te := hi'.callEvent_unique (mem_made.mp hmem').1 (mem_made.mp hte).1 hp' hp
  simp only [after, hfind, heq]

omit h hs hi' in
/-- The pointer of a process for which none is. -/
theorem tep_of_not_made (m : Records) (e : Event) (hnone : ∀ te ∈ made k k', te.teType.proc ≠ some p) :
    (m.after k e k').tep p = m.tep p := by
  have hfind : (made k k').find? (fun te => te.teType.proc = some p) = .none := by
    rw [List.find?_eq_none]
    intro te hte
    simpa using hnone te hte
  simp only [after, hfind]

omit hs in
/-- The pointer of a process with an event names its record. -/
theorem RecInv.ctx_after {te : TimeEvent} (hte : te ∈ callEvents k') (hp : te.teType.proc = some p) :
    (m.after k e k').tep p = some te.teId := by
  by_cases hold : te ∈ k.teq
  · have hcall : te ∈ callEvents k := mem_callEvents.mpr ⟨hold, (mem_callEvents.mp hte).2⟩
    rw [tep_of_not_made m e, h.ctx te hcall p hp]
    intro te' hte' hp'
    have heq : te' = te := hi'.callEvent_unique (mem_made.mp hte').1 hte hp' hp
    exact (mem_made.mp hte').2 (heq ▸ hold)
  · exact tep_of_made hi' m e (mem_made.mpr ⟨hte, hold⟩) hp

end Step

theorem StopsOutside.unlinked (h : RecInv k m) (hok : StopsOutside (k, m) e) : StopsUnlinked k e := by
  rintro env id he hcur o hl
  obtain ⟨c, w, a, hc, -⟩ := (((h.wait.procs id).linked o).mp hl).call
  exact hok env id he hcur c w a hc

/-- A process in a call executes the step, or it stands by. -/
theorem RecInv.executes_or_bystands (h : RecInv k m) (hs : step k e = .ok k') (hok : StopsOutside (k, m) e)
    {c : CommCall} {w a : Int} (hc : k.conts p = some (.comm c w a)) :
    (∃ env, e = .resume env ∧ live k = some p) ∨
      ¬ (e.ofService = true ∧ live k = some p) ∧ Bystands k p k' := by
  by_cases hexec : e.ofService = true ∧ live k = some p
  · obtain ⟨he, hl⟩ := hexec
    cases e with
    | resume env => exact Or.inl ⟨env, rfl, hl⟩
    | call env s => simp [step, segment, hl, hc] at hs
    | dispatch q => exact absurd he (by simp [Event.ofService])
    | timer clk => exact absurd he (by simp [Event.ofService])
  · refine Or.inr ⟨hexec, bystands_step h.registered hs (h.registered.calls p c w a hc).1
      (fun he hl => hexec ⟨he, hl⟩) (fun env he => ?_) (h.alive p c w a hc)⟩
    by_contra hcur
    exact hok env p he (Option.isSome_iff_ne_none.mpr hcur) c w a hc

/-- A process in a call after a step waits in it, with a new event, or was in it before. -/
theorem RecInv.call_after (h : RecInv k m) (hs : step k e = .ok k') (hi' : WaitInv k')
    (hok : StopsOutside (k, m) e) (hdom : FiniteCalls (k, m) e) {c : CommCall} {w a : Int}
    (hc : k'.conts p = some (.comm c w a)) :
    c.timeOut ≠ systemTimeInfiniteVal ∧ (k'.procs p).prState ≠ .dormant ∧
      ((∃ te ∈ made k k', te.teType.proc = some p) ∨
        k.conts p = some (.comm c w a) ∧ (∀ te ∈ made k k', te.teType.proc ≠ some p) ∧
          ∀ env, e = .resume env → live k ≠ some p) := by
  -- the process executes the step: it has blocked
  have hexec : e.ofService = true → live k = some p → c.timeOut ≠ systemTimeInfiniteVal →
      (k'.procs p).prState ≠ .dormant ∧ ∃ te ∈ made k k', te.teType.proc = some p := by
    intro he hl hfin
    have hwaits := waitsTimed_of_exec hs he hl hc hfin
    obtain ⟨te, hte, hp⟩ := hi'.callEvent_of_waits hwaits
    refine ⟨fun hd => absurd (hwaits.1.symm.trans hd) (by decide), te, mem_made.mpr ⟨hte, fun hold => ?_⟩, hp⟩
    -- before the step the process did not wait
    have hwaiting := ((h.wait.procs p).owner te hold hp).2.2.1
    have hruns := (live_eq_some.mp hl).runs
    rw [eligible_iff, hwaiting] at hruns
    simp at hruns
  rcases conts_step hs hc with hold | ⟨env, s, rr, rfl, hl, hnext⟩ | ⟨env, c₀, rfl, hl, hc₀, hrest⟩
  · have hfin := h.finite p c w a hold
    rcases h.executes_or_bystands hs hok hold with ⟨env, rfl, hl⟩ | ⟨hnot, hby⟩
    · obtain ⟨halive, hmade⟩ := hexec rfl hl hfin
      exact ⟨hfin, halive, Or.inl hmade⟩
    · refine ⟨hfin, hby.alive (h.alive p c w a hold), Or.inr ⟨hold, fun te hte hp => ?_, fun env he hl => ?_⟩⟩
      · obtain ⟨he, q, hl, hq⟩ := h.proc_made hs hte
        obtain rfl : p = q := Option.some.inj (hp.symm.trans hq)
        exact hnot ⟨he, hl⟩
      · exact hnot ⟨by rw [he]; rfl, hl⟩
  · cases hnext with
    | comm rr c w a hcall =>
        have hfin := hdom env s c rfl hcall
        obtain ⟨halive, hmade⟩ := hexec rfl hl hfin
        exact ⟨hfin, halive, Or.inl hmade⟩
  · cases hrest with
    | comm call w₀ a₀ w a was =>
        have hfin := h.finite p c w₀ a₀ (hc₀.trans (by rw [was]))
        obtain ⟨halive, hmade⟩ := hexec rfl hl hfin
        exact ⟨hfin, halive, Or.inl hmade⟩

/-- **A step that stops no process in a call keeps the invariant.** -/
theorem RecInv.step (h : RecInv k m) (hs : step k e = .ok k') (hok : StopsOutside (k, m) e)
    (hdom : FiniteCalls (k, m) e) : RecInv k' (m.after k e k') := by
  have hi' : WaitInv k' := h.wait.step h.registered (hok.unlinked h) hs
  have hcall := fun p c w a hc => h.call_after (p := p) (c := c) (w := w) (a := a) hs hi' hok hdom hc
  -- the record of a process that stood by is older than the new ones
  have hold_lt : ∀ p c w a, k.conts p = some (.comm c w a) → ∃ i, m.tep p = some i ∧ i < k.nxtTe := by
    intro p c w a hc
    obtain ⟨i, htep, huse⟩ := h.held p c w a hc
    exact ⟨i, htep, h.fresh i (Or.inl huse.made)⟩
  refine
    { wait := hi', registered := (h.registered.step hs).1, legal := h.legal_after hs hi', held := ?_, distinct := ?_
      owned := ?_, events := fun i => h.events_after hs i, ctx := fun te hte p hp => h.ctx_after hi' hte hp
      fresh := ?_, finite := fun p c w a hc => (hcall p c w a hc).1
      alive := fun p c w a hc => (hcall p c w a hc).2.1 }
  · intro p c w a hc
    rcases (hcall p c w a hc).2.2 with ⟨te, hte, hp⟩ | ⟨hold, hnone, hback⟩
    · exact ⟨te.teId, tep_of_made hi' m e hte hp, (h.inUse_proc_after hs).mpr (Or.inr ⟨te, hte, rfl⟩)⟩
    · obtain ⟨i, htep, huse⟩ := h.held p c w a hold
      refine ⟨i, (tep_of_not_made m e hnone).trans htep, (h.inUse_proc_after hs).mpr (Or.inl ⟨huse, ?_⟩)⟩
      rcases h.backOps_cases e with ⟨hnil, -⟩ | ⟨env, q, c', w', a', j, he, hl, hc', htep', -, hops⟩
      · rw [hnil]
        exact List.not_mem_nil
      · rw [hops, List.mem_singleton]
        intro heq
        obtain rfl : i = j := by simpa using heq
        obtain rfl := h.distinct p c w a q c' w' a' hold hc' (htep.trans htep'.symm)
        exact hback env he hl
  · intro p c w a q c' w' a' hc hc' heq
    rcases (hcall p c w a hc).2.2 with ⟨te, hte, hp⟩ | ⟨hold, hnone, -⟩ <;>
      rcases (hcall q c' w' a' hc').2.2 with ⟨te', hte', hp'⟩ | ⟨hold', hnone', -⟩
    · obtain ⟨-, r, hl, hr⟩ := h.proc_made hs hte
      obtain ⟨-, r', hl', hr'⟩ := h.proc_made hs hte'
      rw [Option.some.inj (hp.symm.trans hr), Option.some.inj (hp'.symm.trans hr')]
      exact Option.some.inj (hl.symm.trans hl')
    · obtain ⟨i, htep, hlt⟩ := hold_lt q c' w' a' hold'
      rw [tep_of_made hi' m e hte hp, tep_of_not_made m e hnone', htep, Option.some.injEq] at heq
      exact absurd (heq ▸ h.le_made hs hte) (not_le.mpr hlt)
    · obtain ⟨i, htep, hlt⟩ := hold_lt p c w a hold
      rw [tep_of_made hi' m e hte' hp', tep_of_not_made m e hnone, htep, Option.some.injEq] at heq
      exact absurd (heq ▸ h.le_made hs hte') (not_le.mpr hlt)
    · rw [tep_of_not_made m e hnone, tep_of_not_made m e hnone'] at heq
      exact h.distinct p c w a q c' w' a' hold hold' heq
  · intro i huse
    rcases (h.inUse_proc_after hs).mp huse with ⟨hold, hkept⟩ | ⟨te, hte, rfl⟩
    · obtain ⟨p, c, w, a, hc, htep⟩ := h.owned i hold
      rcases h.executes_or_bystands hs hok hc with ⟨env, rfl, hl⟩ | ⟨hnot, hby⟩
      · -- the process that is back has freed its record
        rcases h.backOps_cases (.resume env) with ⟨-, hno⟩ | ⟨_, q, _, _, _, j, _, hl', _, htep', -, hops⟩
        · exact absurd hc (hno env p c w a rfl hl)
        · obtain rfl : p = q := Option.some.inj (hl.symm.trans hl')
          obtain rfl : i = j := Option.some.inj (htep.symm.trans htep')
          rw [hops] at hkept
          exact absurd List.mem_cons_self hkept
      · refine ⟨p, c, w, a, hby.conts.trans hc, (tep_of_not_made m e fun te hte hp => ?_).trans htep⟩
        obtain ⟨he, q, hl, hq⟩ := h.proc_made hs hte
        obtain rfl : p = q := Option.some.inj (hp.symm.trans hq)
        exact hnot ⟨he, hl⟩
    · obtain ⟨p, c, w, a, hp, hc, -, -⟩ := hi'.of_callEvent (mem_made.mp hte).1
      exact ⟨p, c, w, a, hc, tep_of_made hi' m e hte hp⟩
  · have hnxt := (queues_step h.registered hs).1
    have hnew : ∀ te ∈ made k k', te.teId < k'.nxtTe := fun te hte =>
      hi'.fresh te (mem_callEvents.mp (mem_made.mp hte).1).1
    intro i hi
    simp only [after, List.mem_append, alloc_notMem_backOps, alloc_notMem_freeOps, alloc_proc_mem_allocOps,
      alloc_event_mem_allocOps, false_or] at hi
    rcases hi with (hold | ⟨te, hte, rfl⟩) | (hold | ⟨te, hte, rfl⟩)
    · exact (h.fresh i (Or.inl hold)).trans_le hnxt
    · exact hnew te hte
    · exact (h.fresh i (Or.inr hold)).trans_le hnxt
    · exact hnew te hte

/-! ## Stopped calls -/

/-- A process that was stopped is dormant. -/
theorem dormant_of_stop {env : Env} (h : step k (.call env (.stop p)) = .ok k')
    (hcur : (curPartProc k p).isSome = true) (halive : (k.procs p).prState ≠ .dormant) :
    (k'.procs p).prState = .dormant := by
  obtain ⟨pr, hpr⟩ := Option.isSome_iff_exists.mp hcur
  obtain ⟨-, -, rfl⟩ := of_curPartProc hpr
  rcases step_eq_ok h with ⟨q, he, -⟩ | ⟨clk, r, he, -⟩ | ⟨q, r, hs, rfl⟩
  · exact absurd he (by simp)
  · exact absurd he (by simp)
  obtain ⟨-, ⟨env', s, he, -, hout⟩ | ⟨env', c, he, -⟩⟩ := segment_eq_some hs
  · obtain ⟨rfl, rfl⟩ := Event.call.inj he
    obtain ⟨k₁, hk₁, rfl⟩ := of_doStop hpr halive hout.symm
    show (k₁.procs p).prState = .dormant
    split at hk₁
    · rw [(bystands_timeEventFree (q := p) hk₁).2]
      simp
    · rw [← Except.ok.inj hk₁]
      simp
  · exact absurd he (by simp)

/-- A `STOP` starts no blocking call. -/
theorem conts_of_stop {env : Env} (h : step k (.call env (.stop p)) = .ok k') {c : CommCall} {w a : Int}
    (hc : k'.conts q = some (.comm c w a)) : k.conts q = some (.comm c w a) := by
  rcases conts_step h hc with hold | ⟨env', s, rr, he, -, hnext⟩ | ⟨env', c₀, he, -⟩
  · exact hold
  · obtain ⟨rfl, rfl⟩ := Event.call.inj he
    cases hnext with
    | comm rr c w a hcall => exact absurd hcall (by simp [Service.commCall])
  · exact absurd he (by simp)

/-- **A `STOP` of a process in a blocking call leaks its `te_proc` record**: the pointer to it was on the
stack of the call, and nobody else frees it. -/
theorem RecInv.not_recordsKept_of_stop (h : RecInv k m) (hbad : ¬ StopsOutside (k, m) e)
    (hs : Jrinx.step k e = .ok k') : ¬ RecordsKept (k', m.after k e k') := by
  simp only [StopsOutside, not_forall, not_not] at hbad
  obtain ⟨env, id, rfl, hcur, c, w, a, hc⟩ := hbad
  obtain ⟨i, htep, huse⟩ := h.held id c w a hc
  intro hkept
  -- the record is in use after the step
  have huse' : InUse (m.after k (.call env (.stop id)) k').log (.proc i) :=
    (h.inUse_proc_after hs).mpr (Or.inl ⟨huse, List.not_mem_nil⟩)
  obtain ⟨q, ⟨hawake, c', w', a', hc', -⟩, htep'⟩ := hkept.owned i huse'
  have hold : k.conts q = some (.comm c' w' a') := conts_of_stop hs hc'
  -- and only the stopped process has the pointer
  have hsame : m.tep q = some i := by
    simp only [after] at htep'
    split at htep'
    · next te hfind =>
        have hge := h.le_made hs (List.mem_of_find?_eq_some hfind)
        have hlt := h.fresh i (Or.inl huse.made)
        rw [Option.some.injEq] at htep'
        omega
    · exact htep'
  obtain rfl : q = id := h.distinct q c' w' a' id c w a hold hc (hsame.trans htep.symm)
  exact hawake (dormant_of_stop hs hcur (h.alive q c w a hc))

theorem recordStep_eq_ok {s t : Kernel × Records} :
    recordStep s e = .ok t ↔ ∃ k', step s.1 e = .ok k' ∧ t = (k', s.2.after s.1 e k') := by
  unfold recordStep
  cases step s.1 e with
  | error f => simp [Except.map]
  | ok k' => simp [Except.map, eq_comm]

/-- **The records of the waits are kept throughout a run** iff no step of the run is a `STOP` of a process
that is in a blocking call. -/
theorem records_kept_iff {tr : List ((Kernel × Records) × Event)} {s : Kernel × Records} (hq : Quiet k)
    (hrun : Exec recordStep (k, .none) tr s) (hdom : AllSteps FiniteCalls tr) :
    Throughout RecordsKept tr s ↔ AllSteps StopsOutside tr := by
  refine hrun.forall_iff_within (I := fun s => RecInv s.1 s.2) hq.recInv hdom
    (fun s hi => hi.recordsKept) ?_ ?_
  · intro s e t hi hfin hok h
    obtain ⟨k', hs, rfl⟩ := recordStep_eq_ok.mp h
    exact hi.step hs hok hfin
  · intro s e t hi hfin hbad h
    obtain ⟨k', hs, rfl⟩ := recordStep_eq_ok.mp h
    exact hi.not_recordsKept_of_stop hbad hs

/-- The first process receives from the empty buffer with a time-out; the second one stops it and starts it
again. -/
def stopTimed : List Event :=
  let env : Env := ⟨fun _ => 0, fun _ => 0⟩
  [.call env (.receiveBuffer 1 5 0), .dispatch 2, .call env (.stop 1), .dispatch 2, .resume env,
    .call env (.start 1)]

/-- The records are not always kept: the restarted process is in no call, and its `te_proc` record is still
in use. -/
theorem records_leak : ¬ ∀ (k : Kernel) (tr : List ((Kernel × Records) × Event)) (s : Kernel × Records),
    Quiet k → Exec recordStep (k, .none) tr s → AllSteps FiniteCalls tr → Throughout RecordsKept tr s := by
  intro hall
  obtain ⟨s, hrun, hcheck⟩ := Exec.of_checkRun recordStep (smallSystem 1 .fifo [1, 2], .none) stopTimed
    (fun s => decide (.alloc (.proc 0) ∈ s.2.log ∧ .free (.proc 0) ∉ s.2.log ∧
      s.1.procIds = [1, 2] ∧ (s.1.procs 1).prState = .ready ∧ s.1.conts 1 = Option.none ∧
      s.1.conts 2 = some (.done .noError Out.none)))
    (by decide +kernel)
  obtain ⟨hmade, hkept, hprocs, -, hc1, hc2⟩ := of_decide_eq_true hcheck
  -- the only blocking call of the run has a deadline
  have hfinite : AllSteps FiniteCalls (traceEvents recordStep (smallSystem 1 .fifo [1, 2], .none) stopTimed) := by
    refine fun x hx env s c heq hcall => ?_
    have he : x.2 ∈ stopTimed := mem_of_traceEvents hx
    rw [heq] at he
    simp only [stopTimed, List.mem_cons, Event.call.injEq, List.not_mem_nil, or_false, reduceCtorEq,
      false_or] at he
    rcases he with ⟨-, rfl⟩ | ⟨-, rfl⟩ | ⟨-, rfl⟩ <;> simp [Service.commCall] at hcall
    subst hcall
    decide
  have hr : Registered s.1 := by
    refine hrun.invariant (I := fun s => Registered s.1) (quiet_smallSystem 1 .fifo [1, 2]).registered ?_
    intro s e t hr h
    obtain ⟨k', hs, rfl⟩ := recordStep_eq_ok.mp h
    exact (hr.step hs).1
  -- at its end nobody is in a call
  have hidle : ∀ p, ¬ InTimedCall s.1 p := by
    rintro p ⟨-, c, w, a, hc, -⟩
    have hp := (hr.calls p c w a hc).1
    rw [hprocs, List.mem_cons, List.mem_singleton] at hp
    rcases hp with rfl | rfl
    · exact absurd (hc1.symm.trans hc) (by simp)
    · exact absurd (hc2.symm.trans hc) (by simp)
  have hempty := (hall _ _ _ (quiet_smallSystem 1 .fifo [1, 2]) hrun hfinite).2.empty hidle
  exact hempty (.proc 0) ⟨hmade, hkept⟩

theorem records_kept_timedReceive : ∃ s tr, Exec recordStep (smallSystem 1 .fifo [1, 2], .none) tr s ∧
    Throughout RecordsKept tr s := by
  obtain ⟨s, hrun, -⟩ := Exec.of_checkRun recordStep (smallSystem 1 .fifo [1, 2], .none) timedReceive
    (fun _ => true) (by decide +kernel)
  refine ⟨s, _, hrun, (records_kept_iff (quiet_smallSystem 1 .fifo [1, 2]) hrun ?_).mpr ?_⟩
  · refine fun x hx env s c heq hcall => ?_
    have he : x.2 ∈ timedReceive := mem_of_traceEvents hx
    rw [heq] at he
    simp only [timedReceive, List.mem_cons, Event.call.injEq, List.not_mem_nil, or_false, reduceCtorEq] at he
    obtain ⟨-, rfl⟩ := he
    obtain rfl : _ = c := Option.some.inj hcall
    decide
  · have hstop : ∀ e ∈ timedReceive, ∀ env id, e ≠ .call env (.stop id) := by
      simp [timedReceive]
    exact fun x hx env id he => absurd he (hstop x.2 (mem_of_traceEvents hx) env id)

end Jrinx
