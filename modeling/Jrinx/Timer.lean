import Jrinx.Kernel

/-! # Timed events and wait lists

The queue of `kern/traps/timer.c` and the wait-list operations of `kern/comm` and `kern/chan`. Wait
lists are sequences of processes; adding appends and deleting removes the first occurrence, which is
what the intrusive lists do as long as a process is linked where the operation assumes it.

* **`timeEventAlloc`**, **`timeEventFree`**, **`timeEventLoop`** — the event queue.
* **`pickWaiting`**, **`wakeup`** — which process a wake-up takes, and what becomes of it. -/

namespace Jrinx

/-! ## The event queue -/

/-- Insert before the first event that is later. -/
def insertEvent (te : TimeEvent) : List TimeEvent → List TimeEvent
  | [] => [te]
  | i :: es => if te.teTime < i.teTime then te :: i :: es else i :: insertEvent te es

/-- `time_event_alloc`. -/
def timeEventAlloc (k : Kernel) (time : Int) (type : TimeEventType) : Kernel :=
  let te : TimeEvent := ⟨k.nxtTe, time, type⟩
  let k := { k with teq := insertEvent te k.teq, nxtTe := k.nxtTe + 1 }
  match type.proc with
  | none => k
  | some p => k.updProc p fun pr => { pr with prAssoTimer := some te.teId }

/-- `time_event_free`, which follows the pointer it is given even when the event is no longer in the
queue. -/
def timeEventFree (k : Kernel) (te : Option Nat) : Except Fault Kernel :=
  match k.teq.find? (fun i => te = some i.teId) with
  | none => .error .danglingTimer
  | some i =>
      let k := { k with teq := k.teq.filter (fun j => j.teId ≠ i.teId) }
      match i.teType.proc with
      | none => .ok k
      | some p => .ok (k.updProc p fun pr => { pr with prAssoTimer := none })

/-- An event of a process is allocated: the queue, the counter and the process change. -/
theorem timeEventAlloc_of_proc (k : Kernel) (time : Int) {type : TimeEventType} {p : ProcId}
    (hp : type.proc = some p) :
    timeEventAlloc k time type =
      { k with
        teq := insertEvent ⟨k.nxtTe, time, type⟩ k.teq
        nxtTe := k.nxtTe + 1
        procs := Function.update k.procs p { k.procs p with prAssoTimer := some k.nxtTe } } := by
  simp only [timeEventAlloc, hp]
  rfl

/-- A partition event is allocated: only the queue and the counter change. -/
theorem timeEventAlloc_partition (k : Kernel) (time : Int) :
    timeEventAlloc k time .partitionActivate =
      { k with
        teq := insertEvent ⟨k.nxtTe, time, .partitionActivate⟩ k.teq
        nxtTe := k.nxtTe + 1 } := rfl

/-- The state after an event of the queue was freed. -/
def freeEvent (k : Kernel) (i : TimeEvent) : Kernel :=
  { k with
    teq := k.teq.filter (fun j => j.teId ≠ i.teId)
    procs := match i.teType.proc with
      | none => k.procs
      | some p => Function.update k.procs p { k.procs p with prAssoTimer := none } }

/-- `time_event_free` succeeds exactly on an event that is in the queue. -/
theorem timeEventFree_eq_ok {k k' : Kernel} {te : Option Nat} :
    timeEventFree k te = .ok k' ↔
      ∃ i, k.teq.find? (fun i => te = some i.teId) = some i ∧ freeEvent k i = k' := by
  unfold timeEventFree
  cases hf : k.teq.find? (fun i => te = some i.teId) with
  | none => simp
  | some i =>
      simp only [Option.some.injEq, exists_eq_left']
      unfold freeEvent
      cases i.teType.proc with
      | none => simp
      | some p => simp [Kernel.updProc]

/-- The event that was freed was in the queue and is the one the pointer named. -/
theorem mem_of_timeEventFree {k k' : Kernel} {te : Option Nat} (h : timeEventFree k te = .ok k') :
    ∃ i ∈ k.teq, te = some i.teId ∧ freeEvent k i = k' := by
  obtain ⟨i, hf, hk⟩ := timeEventFree_eq_ok.mp h
  exact ⟨i, List.mem_of_find?_eq_some hf, by simpa using List.find?_some hf, hk⟩

theorem mem_insertEvent {te e : TimeEvent} {l : List TimeEvent} :
    e ∈ insertEvent te l ↔ e = te ∨ e ∈ l := by
  induction l with
  | nil => simp [insertEvent]
  | cons i es ih =>
      rw [insertEvent]
      split
      · simp
      · simp only [List.mem_cons, ih]
        tauto

/-- Inserting an event permutes the queue with the event put in front. -/
theorem insertEvent_perm (te : TimeEvent) (l : List TimeEvent) :
    (insertEvent te l).Perm (te :: l) := by
  induction l with
  | nil => exact List.Perm.refl _
  | cons i es ih =>
      rw [insertEvent]
      split
      · exact List.Perm.refl _
      · exact (ih.cons i).trans (List.Perm.swap te i es)

/-! ## Wait lists -/

/-- `buffer_add_waiting_proc` and its siblings. -/
def addWaitingProc (k : Kernel) (o : WaitObj) (p : ProcId) : Kernel :=
  k.setWaitingProcs o (k.waitingProcs o ++ [p])

/-- `buffer_del_waiting_proc` and its siblings. -/
def delWaitingProc (k : Kernel) (o : WaitObj) (p : ProcId) : Kernel :=
  k.setWaitingProcs o ((k.waitingProcs o).erase p)

/-- The first process of the list with the highest current priority. -/
def maxPriProc (procs : ProcId → Proc) : List ProcId → Option ProcId
  | [] => none
  | p :: l =>
      some (l.foldl (fun m q => if (procs m).prCurPri < (procs q).prCurPri then q else m) p)

/-- The process that `buffer_wakeup_waiting_proc` and its siblings take, by the queuing discipline. -/
def pickWaiting (k : Kernel) (disc : QueDisc) (o : WaitObj) : Option ProcId :=
  match disc with
  | .fifo => (k.waitingProcs o).head?
  | .priority => maxPriProc k.procs (k.waitingProcs o)

/-- The reason a process waits on an object for, without a time-out. -/
def blockedReason : WaitObj → WaitingReason
  | .buffer _ => .bufferBlocked
  | .blackboard _ => .blackboardBlocked
  | .channel _ => .queuingPortBlocked

/-- The reason a process waits on an object for, with a time-out. -/
def blockedWithTimeoutReason : WaitObj → WaitingReason
  | .buffer _ => .bufferBlockedWithTimeout
  | .blackboard _ => .blackboardBlockedWithTimeout
  | .channel _ => .queuingPortBlockedWithTimeout

/-- Wake up the process `p`: it leaves the wait list, its timer is freed and it becomes `READY`. -/
def wakeProc (k : Kernel) (o : WaitObj) (p : ProcId) : Except Fault Kernel := do
  let k := delWaitingProc k o p
  let k ←
    if (k.procs p).prWaitingReason = blockedWithTimeoutReason o then
      timeEventFree k (k.procs p).prAssoTimer
    else
      .ok k
  .ok ((k.setState p .ready).setWoken p true)

/-- Take one process off the wait list of the object and wake it up; `none` if nobody waits. -/
def wakeup (k : Kernel) (disc : QueDisc) (o : WaitObj) : Except Fault (Option ProcId × Kernel) :=
  match pickWaiting k disc o with
  | none => .ok (none, k)
  | some p => do
      let k ← wakeProc k o p
      .ok (some p, k)

/-- What a successful wake-up of `p` leads to: with a timed reason its timer was freed, in the state
`k₁` right before the process becomes ready. -/
theorem wakeProc_eq_ok {k k' : Kernel} {o : WaitObj} {p : ProcId} (h : wakeProc k o p = .ok k') :
    ∃ k₁, (((k.procs p).prWaitingReason = blockedWithTimeoutReason o ∧
          timeEventFree (delWaitingProc k o p) (k.procs p).prAssoTimer = .ok k₁) ∨
        ((k.procs p).prWaitingReason ≠ blockedWithTimeoutReason o ∧ k₁ = delWaitingProc k o p)) ∧
      k' = (k₁.setState p .ready).setWoken p true := by
  have hprocs : (delWaitingProc k o p).procs = k.procs := by simp [delWaitingProc]
  simp only [wakeProc, hprocs] at h
  split at h
  · rename_i hr
    cases hf : timeEventFree (delWaitingProc k o p) (k.procs p).prAssoTimer with
    | error e => simp [hf, bind, Except.bind] at h
    | ok k₁ =>
        simp only [hf, bind, Except.bind, Except.ok.injEq] at h
        exact ⟨k₁, Or.inl ⟨hr, rfl⟩, h.symm⟩
  · rename_i hr
    simp only [bind, Except.bind, Except.ok.injEq] at h
    exact ⟨_, Or.inr ⟨hr, rfl⟩, h.symm⟩

/-- The process that a wake-up takes is on the list. -/
theorem mem_of_maxPriProc {procs : ProcId → Proc} {l : List ProcId} {p : ProcId}
    (h : maxPriProc procs l = some p) : p ∈ l := by
  cases l with
  | nil => simp [maxPriProc] at h
  | cons a l =>
      rw [maxPriProc, Option.some.injEq] at h
      have hfold : ∀ (l : List ProcId) (m : ProcId),
          l.foldl (fun m q => if (procs m).prCurPri < (procs q).prCurPri then q else m) m
            ∈ m :: l := by
        intro l
        induction l with
        | nil => simp
        | cons q l ih =>
            intro m
            rw [List.foldl_cons]
            have hih := ih (if (procs m).prCurPri < (procs q).prCurPri then q else m)
            rcases List.mem_cons.mp hih with heq | hmem
            · rw [heq]
              split <;> simp
            · exact List.mem_cons_of_mem _ (List.mem_cons_of_mem _ hmem)
      rw [← h]
      exact hfold l a

theorem mem_of_pickWaiting {k : Kernel} {disc : QueDisc} {o : WaitObj} {p : ProcId}
    (h : pickWaiting k disc o = some p) : p ∈ k.waitingProcs o := by
  cases disc with
  | fifo => exact List.mem_of_mem_head? (by rw [pickWaiting] at h; rw [h]; rfl)
  | priority => exact mem_of_maxPriProc h

/-- A wake-up takes nobody only from an empty list. -/
theorem pickWaiting_eq_none {k : Kernel} {disc : QueDisc} {o : WaitObj} :
    pickWaiting k disc o = none ↔ k.waitingProcs o = [] := by
  cases disc with
  | fifo => simp [pickWaiting]
  | priority =>
      rw [pickWaiting]
      cases k.waitingProcs o <;> simp [maxPriProc]

/-- What a successful `*_wakeup_waiting_proc` with its follow-up did. -/
theorem wakeup_eq_ok {k k' : Kernel} {disc : QueDisc} {o : WaitObj} {woke : Option ProcId}
    (h : wakeup k disc o = .ok (woke, k')) :
    (woke = none ∧ k.waitingProcs o = [] ∧ k' = k) ∨
      ∃ p, woke = some p ∧ pickWaiting k disc o = some p ∧ wakeProc k o p = .ok k' := by
  unfold wakeup at h
  cases hp : pickWaiting k disc o with
  | none =>
      simp only [hp, Except.ok.injEq, Prod.mk.injEq] at h
      exact Or.inl ⟨h.1.symm, pickWaiting_eq_none.mp hp, h.2.symm⟩
  | some p =>
      simp only [hp] at h
      cases hw : wakeProc k o p with
      | error e => simp [hw, bind, Except.bind] at h
      | ok k₁ =>
          simp only [hw, bind, Except.bind, Except.ok.injEq, Prod.mk.injEq] at h
          exact Or.inr ⟨p, h.1.symm, rfl, by rw [hw, h.2]⟩

/-- The loop of `do_display_blackboard`, which wakes every process on the list. -/
def wakeupAll (o : WaitObj) : List ProcId → Kernel → Except Fault Kernel
  | [], k => .ok k
  | p :: l, k => do
      let k ← wakeProc k o p
      wakeupAll o l k

/-! ## Expiry -/

/-- The object whose wait list an expired event takes its process off. -/
def TimeEventType.obj (k : Kernel) : TimeEventType → Option WaitObj
  | .bufferBlockTimeout _ b => some (.buffer b)
  | .blackboardBlockTimeout _ b => some (.blackboard b)
  | .queuingPortBlockTimeout _ port => some (.channel (k.ports port).qpChannel)
  | _ => none

/-- The body of the loop of `time_event_action` for an expired event of a process. -/
def expireProc (k : Kernel) (te : TimeEvent) (p : ProcId) : Kernel :=
  let k := k.updProc p fun pr => { pr with prState := .ready, prAssoTimer := none }
  match te.teType.obj k with
  | none => k
  | some o => delWaitingProc k o p

/-- The two flags of `time_event_action`. -/
structure Resched where
  part : Bool
  proc : Bool
  deriving DecidableEq, Repr

/-- The loop of `time_event_action` over the event queue: `clk i` is what the `i`-th reading of the
clock returns. -/
def timeEventLoop (clk : Nat → Int) : List TimeEvent → Nat → Resched → Kernel → Resched × Kernel
  | [], _, r, k => (r, { k with teq := [] })
  | te :: es, i, r, k =>
      if te.teTime ≤ clk i then
        match te.teType.proc with
        | none => timeEventLoop clk es (i + 1) { r with part := true } { k with teq := es }
        | some p =>
            let r := if (k.procs p).prPartId = k.curPart then { r with proc := true } else r
            timeEventLoop clk es (i + 1) r { expireProc k te p with teq := es }
      else
        (r, { k with teq := te :: es })

end Jrinx
