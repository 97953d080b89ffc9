import Jrinx.TimerQueue
import Jrinx.WaitLists

/-! # The partition events over a run

The event queue holds events of processes and events of partitions. Processes arm and free events of their
own only; this file follows the queue over the effects of a run.

* **`QueueOrder`** — the queue is ordered by time, and the timer of a process is none of a partition.
* **`SamePartTimers`** — the schedule and the partition events are those of before.
* **`Eff.keepsPartTimers`** — what the services and `sched_proc` do leaves them alone.
* **`expire_eq_filter`**, **`LoopFrame`** — what the timer interrupt takes off the queue, and what it leaves. -/

namespace Jrinx

variable {k m k' : Kernel}

/-- The times of the queued `TE_PARTITION_ACTIVATE` events, in the order of the queue. -/
def partitionTimes (l : List TimeEvent) : List Int :=
  (l.filter fun te => te.teType.proc = none).map TimeEvent.teTime

theorem partitionTimes_cons (te : TimeEvent) (l : List TimeEvent) : partitionTimes (te :: l) =
    if te.teType.proc = none then te.teTime :: partitionTimes l else partitionTimes l := by
  unfold partitionTimes
  by_cases h : te.teType.proc = none <;> simp [h]

theorem partitionTimes_insertEvent_of_proc {te : TimeEvent} (h : te.teType.proc ≠ none)
    (l : List TimeEvent) : partitionTimes (insertEvent te l) = partitionTimes l := by
  induction l with
  | nil => rw [insertEvent, partitionTimes_cons, if_neg h]
  | cons i es ih =>
      rw [insertEvent]
      split
      · rw [partitionTimes_cons, if_neg h]
      · rw [partitionTimes_cons, partitionTimes_cons, ih]

theorem partitionTimes_insertEvent_perm (te : TimeEvent) (h : te.teType.proc = none)
    (l : List TimeEvent) : (partitionTimes (insertEvent te l)).Perm (te.teTime :: partitionTimes l) := by
  have hperm := ((insertEvent_perm te l).filter fun te => te.teType.proc = none).map TimeEvent.teTime
  rwa [List.filter_cons_of_pos (by simpa using h), List.map_cons] at hperm

/-! ## The order of the queue -/

/-- The queue is in order, events are numbered as they come, and no timer of a process names a partition
event. -/
structure QueueOrder (k : Kernel) : Prop where
  sorted : k.teq.Pairwise TimeEvent.Before
  ids : ∀ te ∈ k.teq, te.teId < k.nxtTe
  fresh : ∀ p t, (k.procs p).prAssoTimer = some t → t < k.nxtTe
  own : ∀ p t, (k.procs p).prAssoTimer = some t → ∀ te ∈ k.teq, te.teId = t → te.teType.proc ≠ none

/-- Events leave the queue, and timers are forgotten. -/
theorem QueueOrder.sub (h : QueueOrder k) (hteq : k'.teq.Sublist k.teq) (hnxt : k'.nxtTe = k.nxtTe)
    (htimer : ∀ p, (k'.procs p).prAssoTimer = none ∨
      (k'.procs p).prAssoTimer = (k.procs p).prAssoTimer) : QueueOrder k' where
  sorted := h.sorted.sublist hteq
  ids te hte := by
    rw [hnxt]
    exact h.ids te (hteq.subset hte)
  fresh p t ht := by
    rcases htimer p with hp | hp
    · exact absurd (hp.symm.trans ht) (by simp)
    · rw [hnxt]
      exact h.fresh p t (hp.symm.trans ht)
  own p t ht te hte hid := by
    rcases htimer p with hp | hp
    · exact absurd (hp.symm.trans ht) (by simp)
    · exact h.own p t (hp.symm.trans ht) te (hteq.subset hte) hid

/-- An event with the next number takes its place; the timers that name it are of its process. -/
theorem QueueOrder.insert (h : QueueOrder k) (te : TimeEvent) (hid : te.teId = k.nxtTe)
    (hteq : k'.teq = insertEvent te k.teq) (hnxt : k'.nxtTe = k.nxtTe + 1)
    (htimer : ∀ p, (k'.procs p).prAssoTimer = (k.procs p).prAssoTimer ∨
      (k'.procs p).prAssoTimer = some te.teId ∧ te.teType.proc ≠ none) : QueueOrder k' where
  sorted := by
    rw [hteq]
    exact pairwise_insertEvent te h.sorted fun x hx => hid ▸ h.ids x hx
  ids x hx := by
    rw [hteq] at hx
    rw [hnxt]
    rcases mem_insertEvent.mp hx with rfl | hx
    · omega
    · exact (h.ids x hx).trans (Nat.lt_succ_self _)
  fresh p t ht := by
    rw [hnxt]
    -- a timer that was there has an earlier number
    rcases htimer p with hp | ⟨hp, -⟩
    · exact (h.fresh p t (hp.symm.trans ht)).trans (Nat.lt_succ_self _)
    · have heq : te.teId = t := Option.some.inj (hp.symm.trans ht)
      omega
  own p t ht x hx hxt := by
    rw [hteq] at hx
    rcases mem_insertEvent.mp hx with rfl | hx
    · rcases htimer p with hp | ⟨-, hproc⟩
      · exact absurd hid (hxt ▸ (h.fresh p t (hp.symm.trans ht)).ne)
      · exact hproc
    · rcases htimer p with hp | ⟨hp, -⟩
      · exact h.own p t (hp.symm.trans ht) x hx hxt
      · have heq : te.teId = t := Option.some.inj (hp.symm.trans ht)
        exact absurd (h.ids x hx) (by omega)

/-! ## What the processes do -/

/-- The schedule and its events are those of before. -/
structure SamePartTimers (k k' : Kernel) : Prop where
  schedModules : k'.schedModules = k.schedModules
  schedCurMod : k'.schedCurMod = k.schedCurMod
  schedMajorFrame : k'.schedMajorFrame = k.schedMajorFrame
  times : partitionTimes k'.teq = partitionTimes k.teq

/-- The queue stays in order, and the schedule and its events are those of before. -/
structure KeepsPartTimers (k k' : Kernel) : Prop where
  order : QueueOrder k'
  same : SamePartTimers k k'

namespace KeepsPartTimers

theorem trans (h : KeepsPartTimers k m) (h' : KeepsPartTimers m k') : KeepsPartTimers k k' :=
  ⟨h'.order, h'.same.schedModules.trans h.same.schedModules,
    h'.same.schedCurMod.trans h.same.schedCurMod,
    h'.same.schedMajorFrame.trans h.same.schedMajorFrame, h'.same.times.trans h.same.times⟩

/-- The queue is not touched. -/
theorem of_eq (h : QueueOrder k) (hteq : k'.teq = k.teq) (hnxt : k'.nxtTe = k.nxtTe)
    (hmods : k'.schedModules = k.schedModules) (hcur : k'.schedCurMod = k.schedCurMod)
    (hframe : k'.schedMajorFrame = k.schedMajorFrame)
    (htimer : ∀ p, (k'.procs p).prAssoTimer = none ∨
      (k'.procs p).prAssoTimer = (k.procs p).prAssoTimer) : KeepsPartTimers k k' :=
  ⟨h.sub (hteq ▸ List.Sublist.refl _) hnxt htimer, hmods, hcur, hframe, by rw [hteq]⟩

/-- Fields of processes other than the timer change. -/
theorem updProc (h : QueueOrder k) (p : ProcId) {f : Proc → Proc}
    (hf : ∀ pr, (f pr).prAssoTimer = pr.prAssoTimer) : KeepsPartTimers k (k.updProc p f) := by
  refine of_eq h rfl rfl rfl rfl rfl fun q => Or.inr ?_
  by_cases hq : q = p
  · subst hq
    simp [Kernel.updProc, hf]
  · simp [Kernel.updProc, hq]

theorem setState (h : QueueOrder k) (p : ProcId) (s : ProcState) : KeepsPartTimers k (k.setState p s) :=
  updProc h p fun _ => rfl

theorem setReason (h : QueueOrder k) (p : ProcId) (r : WaitingReason) :
    KeepsPartTimers k (k.setReason p r) :=
  updProc h p fun _ => rfl

theorem waitFor (h : QueueOrder k) (p : ProcId) (r : WaitingReason) :
    KeepsPartTimers k (waitFor k p r) :=
  (setState h p .waiting).trans (setReason (setState h p .waiting).order p r)

theorem setWaitingProcs (h : QueueOrder k) (o : WaitObj) (l : List ProcId) :
    KeepsPartTimers k (k.setWaitingProcs o l) := by
  refine of_eq h (by simp) (by simp) ?_ ?_ ?_ fun p => Or.inr (by simp)
  all_goals cases o <;> rfl

/-- A process arms an event. -/
theorem timeEventAlloc (h : QueueOrder k) (time : Int) {type : TimeEventType} {p : ProcId}
    (hp : type.proc = some p) : KeepsPartTimers k (timeEventAlloc k time type) := by
  rw [timeEventAlloc_of_proc k time hp]
  refine ⟨h.insert ⟨k.nxtTe, time, type⟩ rfl rfl rfl fun q => ?_, rfl, rfl, rfl, ?_⟩
  · by_cases hq : q = p
    · right
      simp [hq, hp]
    · left
      simp [hq]
  · exact partitionTimes_insertEvent_of_proc (by simp [hp]) k.teq

/-- A process frees its timer. -/
theorem timeEventFree {p : ProcId} (h : QueueOrder k)
    (hfree : timeEventFree k (k.procs p).prAssoTimer = .ok k') : KeepsPartTimers k k' := by
  obtain ⟨i, hi, hid, rfl⟩ := mem_of_timeEventFree hfree
  refine ⟨h.sub List.filter_sublist rfl fun q => ?_, rfl, rfl, rfl, ?_⟩
  · cases htype : i.teType.proc with
    | none => exact Or.inr (by simp [freeEvent, htype])
    | some q' =>
        by_cases hq : q = q'
        · left
          simp [freeEvent, htype, hq]
        · right
          simp [freeEvent, htype, hq]
  · simp only [partitionTimes, freeEvent, List.filter_filter]
    congr 1
    apply List.filter_congr
    intro te hte
    by_cases hpart : te.teType.proc = none
    · have hne : te.teId ≠ i.teId := fun heq => h.own p i.teId hid te hte heq hpart
      simp [hne]
    · simp [hpart]

theorem wakeProc {o : WaitObj} {p : ProcId} (h : QueueOrder k) (hw : wakeProc k o p = .ok k') :
    KeepsPartTimers k k' := by
  obtain ⟨k₁, hk₁, rfl⟩ := wakeProc_eq_ok hw
  have hdel : KeepsPartTimers k (delWaitingProc k o p) := setWaitingProcs h o _
  have hmid : KeepsPartTimers k k₁ := by
    rcases hk₁ with ⟨-, hfree⟩ | ⟨-, rfl⟩
    · rw [show (k.procs p) = (delWaitingProc k o p).procs p by simp [delWaitingProc]] at hfree
      exact hdel.trans (timeEventFree hdel.order hfree)
    · exact hdel
  have hready := setState hmid.order p .ready
  exact hmid.trans (hready.trans (of_eq hready.order rfl rfl rfl rfl rfl fun _ => Or.inr rfl))

theorem commWait (h : QueueOrder k) (p : ProcId) (c : CommCall) (armed : Int) :
    KeepsPartTimers k (commWait k p c armed) := by
  have hadd : KeepsPartTimers k (addWaitingProc (k.setState p .waiting) (c.obj k) p) :=
    (setState h p .waiting).trans (setWaitingProcs (setState h p .waiting).order _ _)
  unfold Jrinx.commWait
  dsimp only
  split
  · have hreason := hadd.trans (setReason hadd.order p (blockedWithTimeoutReason (c.obj k)))
    exact hreason.trans (timeEventAlloc hreason.order armed (proc_teType p c))
  · exact hadd.trans (setReason hadd.order p _)

end KeepsPartTimers

/-- The effect is one of the timer interrupt. -/
def Act.ofTimer : Act → Bool
  | .expire _ => true
  | .partition => true
  | .global => true
  | _ => false

/-- **What the services and `sched_proc` do** leaves the schedule and its events alone. -/
theorem Eff.keepsPartTimers {a : Act} (he : Eff k a k') (h : QueueOrder k) (ha : a.ofTimer = false) :
    KeepsPartTimers k k' := by
  -- the events that come and go are those of processes; the timer has its own lemma
  cases he with
  | attr f own other => exact .updProc h _ fun pr => by rw [other]
  | ready own held => exact .setState h _ _
  | doze reason own free kind => exact .waitFor h _ reason
  | @sleep p reason type time known own free kind =>
      have hw := KeepsPartTimers.waitFor h p reason
      exact hw.trans (.timeEventAlloc hw.order time kind.proc)
  | rouse own waits reason freed =>
      have hfreed := KeepsPartTimers.timeEventFree h freed
      exact hfreed.trans (.setState hfreed.order _ _)
  | halt cur own runs => exact .setState h _ _
  | @stop p _ own alive freed =>
      have hdormant := KeepsPartTimers.setState h p .dormant
      split at freed
      · rw [show (k.procs p).prAssoTimer = ((k.setState p .dormant).procs p).prAssoTimer by
          simp [Kernel.setState, Kernel.updProc]] at freed
        exact hdormant.trans (.timeEventFree hdormant.order freed)
      · rw [← Except.ok.inj freed]
        exact hdormant
  | @block p c wakeup armed cur own runs call fits full =>
      have hw := KeepsPartTimers.commWait h p c armed
      exact hw.trans (.of_eq hw.order rfl rfl rfl rfl rfl fun _ => Or.inr rfl)
  | wake linked obj done => exact .wakeProc h done
  | @queue q cc obj =>
      refine .of_eq h (by simp) ?_ ?_ ?_ ?_ fun p => Or.inr (by simp)
      all_goals cases q <;> rfl
  | newProc mem pr own dormant timer frame =>
      refine .of_eq h rfl rfl rfl rfl rfl fun p => ?_
      by_cases hp : p = k.nxtProcId
      · left
        simp [procReset, registerProc, Kernel.setCont, Kernel.setWoken, hp, timer]
      · right
        simp [procReset, registerProc, Kernel.setCont, Kernel.setWoken, hp]
  | @dispatch p _ done =>
      rw [(dispatch_eq_ok done).2]
      have hst : KeepsPartTimers k (schedProcSt k) := by
        rcases schedProcSt_cases k with hst | ⟨cur, -, -, hst⟩ <;> rw [hst]
        · exact .of_eq h rfl rfl rfl rfl rfl fun _ => Or.inr rfl
        · exact .setState h _ _
      have hcur : KeepsPartTimers k { schedProcSt k with curProc := some p } :=
        hst.trans (.of_eq hst.order rfl rfl rfl rfl rfl fun _ => Or.inr rfl)
      exact hcur.trans (.setState hcur.order p .running)
  | expire head proc => exact absurd ha (by simp [Act.ofTimer])
  | partition head proc => exact absurd ha (by simp [Act.ofTimer])
  | global done => exact absurd ha (by simp [Act.ofTimer])
  | _ => exact .of_eq h rfl rfl rfl rfl rfl fun _ => Or.inr rfl

/-! ## What the timer interrupt does -/

/-- The last reading that the loop makes of the clock: the time at which it handles the interrupt. -/
def handledAt (clk : Nat → Int) : List TimeEvent → Nat → Int
  | [], i => clk (i - 1)
  | te :: es, i => if te.teTime ≤ clk i then handledAt clk es (i + 1) else clk i

theorem le_handledAt {clk : Nat → Int} (hclk : Monotone clk) (l : List TimeEvent) (i : Nat) :
    clk (i - 1) ≤ handledAt clk l i := by
  induction l generalizing i with
  | nil => exact le_rfl
  | cons te es ih =>
      rw [handledAt]
      split
      · exact (hclk (by omega)).trans (ih (i + 1))
      · exact hclk (by omega)

/-- **The loop takes off what is due** at the time of its last reading. -/
theorem expire_eq_filter {clk : Nat → Int} (hclk : Monotone clk) {l : List TimeEvent}
    (hl : l.Pairwise TimeEvent.Before) (i : Nat) :
    expire clk l i = (l.filter fun te => te.teTime ≤ handledAt clk l i,
      l.filter fun te => handledAt clk l i < te.teTime) := by
  induction l generalizing i with
  | nil => rfl
  | cons te es ih =>
      obtain ⟨hte, hes⟩ := List.pairwise_cons.mp hl
      rw [expire, handledAt]
      split
      · rename_i hdue
        have hle : te.teTime ≤ handledAt clk es (i + 1) := hdue.trans (le_handledAt hclk es (i + 1))
        rw [ih hes (i + 1), List.filter_cons_of_pos (by simpa using hle),
          List.filter_cons_of_neg (by simpa using hle)]
      · rename_i hlate
        have hlt : ∀ x ∈ te :: es, clk i < x.teTime := by
          intro x hx
          rcases List.mem_cons.mp hx with rfl | hx
          · exact not_le.mp hlate
          · rcases hte x hx with h | ⟨h, -⟩
            · exact (not_le.mp hlate).trans h
            · exact h ▸ not_le.mp hlate
        rw [Prod.mk.injEq]
        constructor
        · exact (List.filter_eq_nil_iff.mpr fun x hx => by simpa using hlt x hx).symm
        · exact (List.filter_eq_self.mpr fun x hx => by simpa using hlt x hx).symm

/-- The loop asks for a partition switch if it took a partition event off. -/
theorem part_timeEventLoop (clk : Nat → Int) (l : List TimeEvent) (i : Nat) (r : Resched) (k : Kernel) :
    (timeEventLoop clk l i r k).1.part =
      (r.part || (expire clk l i).1.any fun te => te.teType.proc = none) := by
  induction l generalizing i r k with
  | nil => simp [timeEventLoop, expire]
  | cons te es ih =>
      rw [timeEventLoop, expire]
      split
      · cases hp : te.teType.proc with
        | none =>
            dsimp only
            rw [ih]
            simp [hp]
        | some p =>
            dsimp only
            rw [ih, List.any_cons]
            split <;> simp [hp]
      · simp

/-- What the loop does not change. -/
structure LoopFrame (k k' : Kernel) : Prop where
  schedModules : k'.schedModules = k.schedModules
  schedCurMod : k'.schedCurMod = k.schedCurMod
  schedMajorFrame : k'.schedMajorFrame = k.schedMajorFrame
  nxtTe : k'.nxtTe = k.nxtTe
  timers : ∀ p, (k'.procs p).prAssoTimer = none ∨ (k'.procs p).prAssoTimer = (k.procs p).prAssoTimer

namespace LoopFrame

theorem trans (h : LoopFrame k m) (h' : LoopFrame m k') : LoopFrame k k' where
  schedModules := h'.schedModules.trans h.schedModules
  schedCurMod := h'.schedCurMod.trans h.schedCurMod
  schedMajorFrame := h'.schedMajorFrame.trans h.schedMajorFrame
  nxtTe := h'.nxtTe.trans h.nxtTe
  timers p := by
    rcases h'.timers p with hp | hp
    · exact Or.inl hp
    · rw [hp]
      exact h.timers p

theorem setTeq (es : List TimeEvent) : LoopFrame k { k with teq := es } :=
  ⟨rfl, rfl, rfl, rfl, fun _ => Or.inr rfl⟩

theorem expireProc (te : TimeEvent) (p : ProcId) : LoopFrame k (expireProc k te p) := by
  have hproc : LoopFrame k (k.updProc p fun pr => { pr with prState := .ready, prAssoTimer := none }) := by
    refine ⟨rfl, rfl, rfl, rfl, fun q => ?_⟩
    by_cases hq : q = p
    · left
      simp [Kernel.updProc, hq]
    · right
      simp [Kernel.updProc, hq]
  unfold Jrinx.expireProc
  dsimp only
  split
  · exact hproc
  · rename_i o _
    refine hproc.trans ?_
    constructor
    case timers => exact fun q => Or.inr (by simp [delWaitingProc])
    all_goals cases o <;> rfl

theorem timeEventLoop (clk : Nat → Int) (l : List TimeEvent) (i : Nat) (r : Resched) (k : Kernel) :
    LoopFrame k (timeEventLoop clk l i r k).2 := by
  induction l generalizing i r k with
  | nil => exact setTeq []
  | cons te es ih =>
      rw [Jrinx.timeEventLoop]
      split
      · cases hp : te.teType.proc with
        | none => exact (setTeq es).trans (ih (i + 1) _ _)
        | some p => exact ((expireProc te p).trans (setTeq es)).trans (ih (i + 1) _ _)
      · exact setTeq _

end LoopFrame

end Jrinx
