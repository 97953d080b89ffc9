import Jrinx.Steps
import Mathlib.Data.List.Nodup

/-! # Wait lists, process states and timers

The three kinds of wait lists, the state and reason of every process and the event queue hold one
relation between them. It is stated process by process, so that an effect on one process has to be
checked for that process only.

* **`Blocked`** — a process is blocked on an object, by its state, its reason and its call.
* **`ProcWait`**, **`WaitInv`** — the relation for one process, and the invariant.
* **`WaitInv.eff`** — every effect keeps it, a `STOP` of a linked process excepted. -/

namespace Jrinx

/-! ## The relation -/

/-- The process is blocked on the object: it waits, for the reason of that kind of object, in a call
on that object. -/
structure Blocked (k : Kernel) (p : ProcId) (o : WaitObj) : Prop where
  waits : (k.procs p).prState = .waiting
  reason : (k.procs p).prWaitingReason = blockedReason o ∨
    (k.procs p).prWaitingReason = blockedWithTimeoutReason o
  call : ∃ c w a, k.conts p = some (.comm c w a) ∧ c.obj k = o

/-- What a process waits for while an event of this type is queued for it. -/
inductive TimerKind (k : Kernel) (p : ProcId) (type : TimeEventType) : Prop
  | sleep (kind : SleepKind p (k.procs p).prWaitingReason type)
  | comm (c : CommCall) (w a : Int) (call : k.conts p = some (.comm c w a))
      (type_eq : type = c.teType p)
      (reason : (k.procs p).prWaitingReason = blockedWithTimeoutReason (c.obj k))

/-- The reasons with which a wake-up or `RESUME` follows `pr_asso_timer`. -/
def WaitingReason.isTimed : WaitingReason → Bool
  | .suspendedWithTimeout => true
  | .bufferBlockedWithTimeout => true
  | .blackboardBlockedWithTimeout => true
  | .queuingPortBlockedWithTimeout => true
  | _ => false

/-- **The relation for one process**: the lists it is linked in, and the events queued for it. -/
structure ProcWait (k : Kernel) (p : ProcId) : Prop where
  linked : ∀ o, p ∈ k.waitingProcs o ↔ Blocked k p o
  owner : ∀ te ∈ k.teq, te.teType.proc = some p → p ∈ k.procIds ∧
    (k.procs p).prAssoTimer = some te.teId ∧ (k.procs p).prState = .waiting ∧
    TimerKind k p te.teType
  queued : ∀ t, (k.procs p).prAssoTimer = some t →
    ∃ te ∈ k.teq, te.teId = t ∧ te.teType.proc = some p
  timed : (k.procs p).prState = .waiting → (k.procs p).prWaitingReason.isTimed = true →
    (k.procs p).prAssoTimer ≠ none

/-- **The invariant of the wait lists.** -/
structure WaitInv (k : Kernel) : Prop where
  procs : ∀ p, ProcWait k p
  nodup : ∀ o, (k.waitingProcs o).Nodup
  ids : (k.teq.map TimeEvent.teId).Nodup
  fresh : ∀ te ∈ k.teq, te.teId < k.nxtTe

/-! ## Reasons and event types -/

@[simp] theorem isBlocked_blockedReason (o : WaitObj) : (blockedReason o).isBlocked = true := by
  cases o <;> rfl

@[simp] theorem isBlocked_blockedWithTimeoutReason (o : WaitObj) :
    (blockedWithTimeoutReason o).isBlocked = true := by cases o <;> rfl

@[simp] theorem isTimed_blockedReason (o : WaitObj) : (blockedReason o).isTimed = false := by
  cases o <;> rfl

@[simp] theorem isTimed_blockedWithTimeoutReason (o : WaitObj) :
    (blockedWithTimeoutReason o).isTimed = true := by cases o <;> rfl

@[simp] theorem proc_teType (p : ProcId) (c : CommCall) : (c.teType p).proc = some p := by
  cases c <;> rfl

@[simp] theorem obj_teType (k : Kernel) (p : ProcId) (c : CommCall) :
    (c.teType p).obj k = some (c.obj k) := by
  cases c <;> rfl

theorem SleepKind.proc {p : ProcId} {r : WaitingReason} {type : TimeEventType}
    (h : SleepKind p r type) : type.proc = some p := by cases h <;> rfl

theorem SleepKind.obj {p : ProcId} {r : WaitingReason} {type : TimeEventType}
    (h : SleepKind p r type) (k : Kernel) : type.obj k = none := by cases h <;> rfl

theorem Blocked.isBlocked {k : Kernel} {p : ProcId} {o : WaitObj} (h : Blocked k p o) :
    isBlocked k p := by
  refine ⟨h.waits, ?_⟩
  rcases h.reason with hr | hr <;> simp [hr]

/-- A process is blocked on one object at most. -/
theorem Blocked.unique {k : Kernel} {p : ProcId} {o o' : WaitObj} (h : Blocked k p o)
    (h' : Blocked k p o') : o = o' := by
  obtain ⟨c, w, a, hc, rfl⟩ := h.call
  obtain ⟨c', w', a', hc', rfl⟩ := h'.call
  rw [hc, Option.some.injEq, Cont.comm.injEq] at hc'
  rw [hc'.1]

/-! ## A process that nothing holds -/

/-- No list links the process and no event is queued for it. -/
structure Unheld (k : Kernel) (p : ProcId) : Prop where
  lists : ∀ o, p ∉ k.waitingProcs o
  events : ∀ te ∈ k.teq, te.teType.proc ≠ some p
  timer : (k.procs p).prAssoTimer = none

/-- A process that does not wait, or waits for another process only, is held by nothing. -/
theorem ProcWait.unheld {k : Kernel} {p : ProcId} (h : ProcWait k p)
    (hw : (k.procs p).prState = .waiting →
      (k.procs p).prWaitingReason = .suspended ∨ (k.procs p).prWaitingReason = .previousStarted) :
    Unheld k p := by
  have hevents : ∀ te ∈ k.teq, te.teType.proc ≠ some p := by
    intro te hte hp
    obtain ⟨-, -, hwait, hkind⟩ := h.owner te hte hp
    rcases hw hwait with hr | hr <;> cases hkind with
      | sleep kind => rw [hr] at kind; cases kind
      | comm c w a call type_eq reason =>
          have hb := isBlocked_blockedWithTimeoutReason (c.obj k)
          rw [← reason, hr] at hb
          exact absurd hb (by decide)
  refine ⟨fun o ho => ?_, hevents, ?_⟩
  · have hb := (h.linked o).mp ho
    have hblocked := hb.isBlocked.2
    rcases hw hb.waits with hr | hr <;> rw [hr] at hblocked <;> exact absurd hblocked (by decide)
  · cases ht : (k.procs p).prAssoTimer with
    | none => rfl
    | some t =>
        obtain ⟨te, hte, -, hp⟩ := h.queued t ht
        exact absurd hp (hevents te hte)

/-- A process that may run, or is dormant, is held by nothing. -/
theorem ProcWait.unheld_of_not_waiting {k : Kernel} {p : ProcId} (h : ProcWait k p)
    (hw : (k.procs p).prState ≠ .waiting) : Unheld k p :=
  h.unheld fun hwait => absurd hwait hw

theorem not_waiting_of_free {k : Kernel} {p : ProcId}
    (h : eligible k p = true ∨ (k.procs p).prState = .dormant) : (k.procs p).prState ≠ .waiting := by
  rcases h with hrun | hd
  · rcases eligible_iff.mp hrun with hs | hs <;> rw [hs] <;> decide
  · rw [hd]
    decide

/-- A process that is held by nothing and does not wait for an object or a timer. -/
theorem ProcWait.of_unheld {k : Kernel} {p : ProcId} (h : Unheld k p)
    (hw : (k.procs p).prState = .waiting →
      (k.procs p).prWaitingReason.isBlocked = false ∧ (k.procs p).prWaitingReason.isTimed = false) :
    ProcWait k p where
  linked o := by
    refine ⟨fun ho => absurd ho (h.lists o), fun hb => ?_⟩
    have hblocked := hb.isBlocked.2
    rw [(hw hb.waits).1] at hblocked
    exact absurd hblocked (by decide)
  owner te hte hp := absurd hp (h.events te hte)
  queued t ht := by
    rw [h.timer] at ht
    exact absurd ht (by simp)
  timed hwait ht := by
    rw [(hw hwait).2] at ht
    exact absurd ht (by decide)

/-! ## A process that an effect does not concern -/

/-- Nothing that the relation says of the process `q` differs between the two states. -/
structure SameView (k k' : Kernel) (q : ProcId) : Prop where
  waits : (k'.procs q).prState = .waiting ↔ (k.procs q).prState = .waiting
  reason : (k.procs q).prState = .waiting →
    (k'.procs q).prWaitingReason = (k.procs q).prWaitingReason
  timer : (k'.procs q).prAssoTimer = (k.procs q).prAssoTimer
  conts : isBlocked k q → k'.conts q = k.conts q
  obj : ∀ c w a, k.conts q = some (.comm c w a) → c.obj k' = c.obj k
  lists : ∀ o, q ∈ k'.waitingProcs o ↔ q ∈ k.waitingProcs o
  events : ∀ te, te.teType.proc = some q → (te ∈ k'.teq ↔ te ∈ k.teq)
  known : q ∈ k.procIds → q ∈ k'.procIds

theorem SameView.blocked {k k' : Kernel} {q : ProcId} (h : SameView k k' q) (o : WaitObj) :
    Blocked k' q o ↔ Blocked k q o := by
  constructor
  · intro hb
    have hw := h.waits.mp hb.waits
    have hreason := h.reason hw
    have hblocked : isBlocked k q := ⟨hw, by rw [← hreason]; exact hb.isBlocked.2⟩
    obtain ⟨c, w, a, hc, ho⟩ := hb.call
    rw [h.conts hblocked] at hc
    exact ⟨hw, hreason ▸ hb.reason, c, w, a, hc, by rw [← h.obj c w a hc, ho]⟩
  · intro hb
    obtain ⟨c, w, a, hc, ho⟩ := hb.call
    refine ⟨h.waits.mpr hb.waits, ?_, c, w, a, ?_, (h.obj c w a hc).trans ho⟩
    · rw [h.reason hb.waits]
      exact hb.reason
    · rw [h.conts hb.isBlocked]
      exact hc

theorem ProcWait.of_sameView {k k' : Kernel} {q : ProcId} (h : ProcWait k q)
    (hv : SameView k k' q) : ProcWait k' q where
  linked o := (hv.lists o).trans ((h.linked o).trans (hv.blocked o).symm)
  owner te hte hp := by
    obtain ⟨hknown, htimer, hwait, hkind⟩ := h.owner te ((hv.events te hp).mp hte) hp
    refine ⟨hv.known hknown, hv.timer.trans htimer, hv.waits.mpr hwait, ?_⟩
    cases hkind with
    | sleep kind => exact .sleep (by rw [hv.reason hwait]; exact kind)
    | comm c w a call type_eq reason =>
        have hblocked : isBlocked k q := ⟨hwait, by simp [reason]⟩
        refine .comm c w a ((hv.conts hblocked).trans call) type_eq ?_
        rw [hv.reason hwait, hv.obj c w a call]
        exact reason
  queued t ht := by
    rw [hv.timer] at ht
    obtain ⟨te, hte, hid, hp⟩ := h.queued t ht
    exact ⟨te, (hv.events te hp).mpr hte, hid, hp⟩
  timed hw ht := by
    have hwait := hv.waits.mp hw
    rw [hv.reason hwait] at ht
    rw [hv.timer]
    exact h.timed hwait ht

/-- **An effect on one process**: the relation has to be shown again for that process only. -/
theorem WaitInv.update {k k' : Kernel} (h : WaitInv k) (p : ProcId)
    (hother : ∀ q, q ≠ p → SameView k k' q) (hp : ProcWait k' p)
    (hnodup : ∀ o, (k'.waitingProcs o).Nodup) (hids : (k'.teq.map TimeEvent.teId).Nodup)
    (hfresh : ∀ te ∈ k'.teq, te.teId < k'.nxtTe) : WaitInv k' where
  procs q := by
    by_cases hq : q = p
    · rw [hq]
      exact hp
    · exact (h.procs q).of_sameView (hother q hq)
  nodup := hnodup
  ids := hids
  fresh := hfresh

/-- An effect that concerns no process. -/
theorem WaitInv.of_sameView {k k' : Kernel} (h : WaitInv k) (hv : ∀ q, SameView k k' q)
    (hnodup : ∀ o, (k'.waitingProcs o).Nodup) (hids : (k'.teq.map TimeEvent.teId).Nodup)
    (hfresh : ∀ te ∈ k'.teq, te.teId < k'.nxtTe) : WaitInv k' :=
  h.update 0 (fun q _ => hv q) ((h.procs 0).of_sameView (hv 0)) hnodup hids hfresh

/-! ## Freeing a timer -/

/-- An identity names one event of the queue. -/
theorem WaitInv.eq_of_teId {k : Kernel} (h : WaitInv k) {te te' : TimeEvent} (hte : te ∈ k.teq)
    (hte' : te' ∈ k.teq) (hid : te.teId = te'.teId) : te = te' :=
  List.inj_on_of_nodup_map h.ids hte hte' hid

/-- A process has one queued event at most, the one its `pr_asso_timer` points to. -/
theorem WaitInv.event_unique {k : Kernel} (h : WaitInv k) {p : ProcId} {te te' : TimeEvent}
    (hte : te ∈ k.teq) (hp : te.teType.proc = some p) (hte' : te' ∈ k.teq)
    (hp' : te'.teType.proc = some p) : te = te' := by
  obtain ⟨-, hid, -, -⟩ := (h.procs p).owner te hte hp
  obtain ⟨-, hid', -, -⟩ := (h.procs p).owner te' hte' hp'
  rw [hid, Option.some.injEq] at hid'
  exact h.eq_of_teId hte hte' hid'

/-- Freeing the timer of a process takes its only event off the queue. -/
theorem WaitInv.freed {k k₁ : Kernel} (h : WaitInv k) (k₀ : Kernel) (hteq : k₀.teq = k.teq)
    {p : ProcId}
    (hfree : timeEventFree k₀ (k.procs p).prAssoTimer = .ok k₁) :
    ∃ i ∈ k.teq, i.teType.proc = some p ∧ freeEvent k₀ i = k₁ := by
  obtain ⟨i, hi, hid, hk⟩ := mem_of_timeEventFree hfree
  rw [hteq] at hi
  obtain ⟨te, hte, hteid, hp⟩ := (h.procs p).queued _ hid
  rw [← h.eq_of_teId hte hi hteid] at hk
  exact ⟨te, hte, hp, hk⟩

/-- The timer of a process is in the queue, so that freeing it succeeds. -/
theorem WaitInv.free_ok {k : Kernel} (h : WaitInv k) (k₀ : Kernel) (hteq : k₀.teq = k.teq)
    {p : ProcId}
    (ht : (k.procs p).prAssoTimer ≠ none) :
    ∃ k₁, timeEventFree k₀ (k.procs p).prAssoTimer = .ok k₁ := by
  obtain ⟨t, ht⟩ := Option.ne_none_iff_exists'.mp ht
  obtain ⟨te, hte, hid, -⟩ := (h.procs p).queued t ht
  cases hf : k₀.teq.find? (fun i => (k.procs p).prAssoTimer = some i.teId) with
  | none =>
      rw [List.find?_eq_none] at hf
      exact absurd (by simp [ht, hid]) (hf te (hteq ▸ hte))
  | some i => exact ⟨freeEvent k₀ i, timeEventFree_eq_ok.mpr ⟨i, hf, rfl⟩⟩

@[simp] theorem waitingProcs_freeEvent (k : Kernel) (i : TimeEvent) (o : WaitObj) :
    (freeEvent k i).waitingProcs o = k.waitingProcs o := by cases o <;> rfl

theorem procs_freeEvent (k : Kernel) {i : TimeEvent} {p : ProcId} (hp : i.teType.proc = some p) :
    (freeEvent k i).procs = Function.update k.procs p { k.procs p with prAssoTimer := none } := by
  simp [freeEvent, hp]

/-! ## A process is released -/

/-- The process `p` leaves the wait lists and the event queue and waits no longer; nothing else of
the relation changes. -/
structure Released (k k' : Kernel) (p : ProcId) : Prop where
  other : ∀ q, q ≠ p → k'.procs q = k.procs q
  conts : k'.conts = k.conts
  state : (k'.procs p).prState ≠ .waiting
  timer : (k'.procs p).prAssoTimer = none
  events : ∀ te, te ∈ k'.teq ↔ te ∈ k.teq ∧ te.teType.proc ≠ some p
  sublist : k'.teq.Sublist k.teq
  nxtTe : k'.nxtTe = k.nxtTe
  lists : ∀ o, k'.waitingProcs o = (k.waitingProcs o).erase p
  procIds : k'.procIds = k.procIds

/-- A released process keeps the invariant. -/
theorem WaitInv.released {k k' : Kernel} (h : WaitInv k) {p : ProcId} (hr : Released k k' p)
    (hobj : ∀ q c w a, k.conts q = some (.comm c w a) → c.obj k' = c.obj k) : WaitInv k' := by
  refine h.update p ?_ ?_ ?_ ?_ ?_
  · intro q hq
    have hprocs := hr.other q hq
    -- for the others nothing changes
    constructor
    · rw [hprocs]
    · exact fun _ => by rw [hprocs]
    · rw [hprocs]
    · exact fun _ => by rw [hr.conts]
    · exact hobj q
    · intro o
      rw [hr.lists, List.mem_erase_of_ne hq]
    · intro te hte
      rw [hr.events, hte]
      simp [hq]
    · rw [hr.procIds]
      exact id
  · -- and the process itself is held by nothing any more
    refine .of_unheld ⟨?_, ?_, hr.timer⟩ fun hw => absurd hw hr.state
    · intro o
      rw [hr.lists]
      exact (h.nodup o).not_mem_erase
    · exact fun te hte => ((hr.events te).mp hte).2
  · intro o
    rw [hr.lists]
    exact (h.nodup o).erase p
  · exact h.ids.sublist (hr.sublist.map _)
  · intro te hte
    rw [hr.nxtTe]
    exact h.fresh te ((hr.events te).mp hte).1

/-- A process without an event is released by a change of its state, once it left its list. -/
theorem Released.of_untimed {k k₀ : Kernel} {p : ProcId} (h : ProcWait k p)
    (hevents : ∀ te ∈ k.teq, te.teType.proc ≠ some p) {s : ProcState} (hs : s ≠ .waiting)
    (hprocs : k₀.procs = k.procs) (hconts : k₀.conts = k.conts)
    (hteq : k₀.teq = k.teq) (hnxt : k₀.nxtTe = k.nxtTe) (hids : k₀.procIds = k.procIds)
    (hlists : ∀ o, k₀.waitingProcs o = (k.waitingProcs o).erase p) :
    Released k (k₀.setState p s) p where
  other q hq := by simp [Kernel.setState, Kernel.updProc, hq, hprocs]
  conts := hconts
  state := by simpa using hs
  timer := by
    rw [Kernel.prAssoTimer_setState, hprocs]
    cases ht : (k.procs p).prAssoTimer with
    | none => rfl
    | some t =>
        obtain ⟨te, hte, -, hp⟩ := h.queued t ht
        exact absurd hp (hevents te hte)
  events te := by
    show te ∈ k₀.teq ↔ _
    rw [hteq]
    exact ⟨fun hte => ⟨hte, hevents te hte⟩, fun hte => hte.1⟩
  sublist := by
    show k₀.teq.Sublist k.teq
    rw [hteq]
  nxtTe := hnxt
  lists o := by
    rw [Kernel.waitingProcs_setState]
    exact hlists o
  procIds := hids

/-- A process that nothing holds is released by a change of its state. -/
theorem Released.of_unheld {k : Kernel} {p : ProcId} (hp : ProcWait k p) (h : Unheld k p)
    {s : ProcState} (hs : s ≠ .waiting) : Released k (k.setState p s) p :=
  .of_untimed hp h.events hs rfl rfl rfl rfl rfl fun o => (List.erase_of_not_mem (h.lists o)).symm

/-- A process is released when its event is freed, in a state where it already left its list. -/
theorem Released.of_freed {k : Kernel} (k₀ : Kernel) (h : WaitInv k) {p : ProcId} {i : TimeEvent}
    (hi : i ∈ k.teq) (hp : i.teType.proc = some p) {s : ProcState} (hs : s ≠ .waiting)
    (hother : ∀ q, q ≠ p → k₀.procs q = k.procs q) (hconts : k₀.conts = k.conts)
    (hteq : k₀.teq = k.teq) (hnxt : k₀.nxtTe = k.nxtTe) (hids : k₀.procIds = k.procIds)
    (hlists : ∀ o, k₀.waitingProcs o = (k.waitingProcs o).erase p) :
    Released k ((freeEvent k₀ i).setState p s) p where
  other q hq := by
    simp only [Kernel.setState, Kernel.updProc, Function.update_of_ne hq, procs_freeEvent k₀ hp]
    exact hother q hq
  conts := hconts
  state := by simpa using hs
  timer := by
    rw [Kernel.prAssoTimer_setState, procs_freeEvent k₀ hp, Function.update_self]
  events te := by
    show te ∈ k₀.teq.filter (fun j => j.teId ≠ i.teId) ↔ _
    rw [List.mem_filter, hteq, decide_eq_true_eq]
    -- the event of a process is the only one with its identifier, and the process has only this one
    refine and_congr_right fun hte => ?_
    constructor
    · rintro hne hp'
      exact hne (by rw [h.event_unique hte hp' hi hp])
    · rintro hne hid
      rw [h.eq_of_teId hte hi hid] at hne
      exact hne hp
  sublist := by
    show (k₀.teq.filter (fun j => j.teId ≠ i.teId)).Sublist k.teq
    rw [hteq]
    exact List.filter_sublist
  nxtTe := hnxt
  lists o := by
    rw [Kernel.waitingProcs_setState, waitingProcs_freeEvent]
    exact hlists o
  procIds := hids

theorem Released.setWoken {k k' : Kernel} {p : ProcId} (h : Released k k' p) (q : ProcId)
    (b : Bool) : Released k (k'.setWoken q b) p where
  other := h.other
  conts := h.conts
  state := h.state
  timer := h.timer
  events := h.events
  sublist := h.sublist
  nxtTe := h.nxtTe
  lists o := by
    rw [Kernel.waitingProcs_setWoken]
    exact h.lists o
  procIds := h.procIds

/-- Taking a process off the list it is linked in takes it off every list. -/
theorem WaitInv.lists_delWaitingProc {k : Kernel} (h : WaitInv k) {p : ProcId} {o : WaitObj}
    (hl : p ∈ k.waitingProcs o) (o' : WaitObj) :
    (delWaitingProc k o p).waitingProcs o' = (k.waitingProcs o').erase p := by
  rw [delWaitingProc, Kernel.waitingProcs_setWaitingProcs]
  split
  · rename_i ho
    rw [ho]
  · rename_i ho
    refine (List.erase_of_not_mem fun hl' => ho ?_).symm
    exact (((h.procs p).linked o').mp hl').unique (((h.procs p).linked o).mp hl)

/-- A process that is linked without a time-out has no event. -/
theorem ProcWait.no_event {k : Kernel} {p : ProcId} (h : ProcWait k p) {o : WaitObj}
    (hb : Blocked k p o) (hr : (k.procs p).prWaitingReason ≠ blockedWithTimeoutReason o) :
    ∀ te ∈ k.teq, te.teType.proc ≠ some p := by
  intro te hte hp
  obtain ⟨-, -, -, hkind⟩ := h.owner te hte hp
  cases hkind with
  | sleep kind =>
      have hblocked := hb.isBlocked.2
      rw [kind.not_isBlocked] at hblocked
      exact absurd hblocked (by decide)
  | comm c w a call type_eq reason =>
      refine hr ?_
      have hb' : Blocked k p (c.obj k) := ⟨hb.waits, Or.inr reason, c, w, a, call, rfl⟩
      rw [hb.unique hb']
      exact reason

/-- **A wake-up releases the process it takes.** -/
theorem WaitInv.released_wakeProc {k k' : Kernel} (h : WaitInv k) {p : ProcId} {o : WaitObj}
    (hl : p ∈ k.waitingProcs o) (hw : wakeProc k o p = .ok k') : Released k k' p := by
  obtain ⟨k₁, hk₁, rfl⟩ := wakeProc_eq_ok hw
  apply Released.setWoken
  have hlists := h.lists_delWaitingProc hl
  rcases hk₁ with ⟨-, hfree⟩ | ⟨hr, rfl⟩
  · obtain ⟨i, hi, hp, rfl⟩ := h.freed (delWaitingProc k o p) (by simp [delWaitingProc]) hfree
    exact .of_freed _ h hi hp (by decide) (by simp [delWaitingProc]) (by simp [delWaitingProc])
      (by simp [delWaitingProc]) (by simp [delWaitingProc]) (by simp [delWaitingProc]) hlists
  · have hb := ((h.procs p).linked o).mp hl
    exact .of_untimed (h.procs p) ((h.procs p).no_event hb hr) (by decide)
      (by simp [delWaitingProc]) (by simp [delWaitingProc]) (by simp [delWaitingProc])
      (by simp [delWaitingProc]) (by simp [delWaitingProc]) hlists

/-- `STOP` releases a process that is linked in no list. -/
theorem WaitInv.released_stop {k k' : Kernel} (h : WaitInv k) {p : ProcId}
    (hfree : ∀ o, p ∉ k.waitingProcs o)
    (hstop : (if (k.procs p).prAssoTimer ≠ none then
        timeEventFree (k.setState p .dormant) (k.procs p).prAssoTimer
      else .ok (k.setState p .dormant)) = .ok k') : Released k k' p := by
  have hlists : ∀ o, (k.setState p .dormant).waitingProcs o = (k.waitingProcs o).erase p := by
    intro o
    rw [Kernel.waitingProcs_setState]
    exact (List.erase_of_not_mem (hfree o)).symm
  split at hstop
  · obtain ⟨i, hi, hp, rfl⟩ := h.freed (k.setState p .dormant) rfl hstop
    have hrel := Released.of_freed (k.setState p .dormant) (s := .dormant) h hi hp (by decide)
      (fun q hq => by simp [Kernel.setState, Kernel.updProc, hq]) rfl rfl rfl rfl hlists
    -- the state was set before the event was freed
    have hcomm : (freeEvent (k.setState p .dormant) i).setState p .dormant
        = freeEvent (k.setState p .dormant) i := by
      simp [Kernel.setState, Kernel.updProc, freeEvent, hp]
    rwa [hcomm] at hrel
  · rename_i ht
    rw [← Except.ok.inj hstop]
    refine .of_untimed (h.procs p) ?_ (by decide) rfl rfl rfl rfl rfl fun o =>
      (List.erase_of_not_mem (hfree o)).symm
    intro te hte hp
    exact ht (by rw [((h.procs p).owner te hte hp).2.1]; simp)

/-- The expiry of its timer releases a process. -/
theorem WaitInv.released_expire {k : Kernel} (h : WaitInv k) {te : TimeEvent}
    {es : List TimeEvent} {p : ProcId} (hhead : k.teq = te :: es)
    (hp : te.teType.proc = some p) : Released k { expireProc k te p with teq := es } p := by
  have hte : te ∈ k.teq := by
    rw [hhead]
    exact List.mem_cons_self
  obtain ⟨-, -, hwait, hkind⟩ := (h.procs p).owner te hte hp
  have hes : te ∉ es := by
    intro hmem
    have hnd := h.ids
    rw [hhead, List.map_cons, List.nodup_cons] at hnd
    exact hnd.1 (List.mem_map_of_mem hmem)
  have hprocs := procs_expireProc k te p
  have hlists : ∀ o, (expireProc k te p).waitingProcs o = (k.waitingProcs o).erase p := by
    intro o
    -- the event of a call names the object whose list its process is linked in
    have hupd : ∀ o', te.teType.obj k = some o' → Blocked k p o' := by
      intro o' ho'
      cases hkind with
      | sleep kind =>
          rw [kind.obj k] at ho'
          exact absurd ho' (by simp)
      | comm c w a call type_eq reason =>
          rw [type_eq, obj_teType, Option.some.injEq] at ho'
          rw [← ho']
          exact ⟨hwait, Or.inr reason, c, w, a, call, rfl⟩
    unfold expireProc
    dsimp only
    have hobj : te.teType.obj (k.updProc p fun pr =>
        { pr with prState := .ready, prAssoTimer := none }) = te.teType.obj k := by
      cases te.teType <;> rfl
    rw [hobj]
    cases ho : te.teType.obj k with
    | none =>
        rw [Kernel.waitingProcs_updProc]
        refine (List.erase_of_not_mem fun hl => ?_).symm
        -- a process that only sleeps is on no list
        have hb := ((h.procs p).linked o).mp hl
        cases hkind with
        | sleep kind =>
            have hblocked := hb.isBlocked.2
            rw [kind.not_isBlocked] at hblocked
            exact absurd hblocked (by decide)
        | comm c w a call type_eq reason =>
            rw [type_eq, obj_teType] at ho
            exact absurd ho (by simp)
    | some o' =>
        have hl := ((h.procs p).linked o').mpr (hupd o' ho)
        rw [← h.lists_delWaitingProc hl o]
        simp [delWaitingProc]
  constructor
  · intro q hq
    show (expireProc k te p).procs q = _
    rw [hprocs, Function.update_of_ne hq]
  · exact conts_expireProc k te p
  · show ((expireProc k te p).procs p).prState ≠ _
    rw [hprocs, Function.update_self]
    simp
  · show ((expireProc k te p).procs p).prAssoTimer = none
    rw [hprocs, Function.update_self]
  · intro te'
    show te' ∈ es ↔ _
    rw [hhead, List.mem_cons]
    constructor
    · intro hmem
      refine ⟨Or.inr hmem, fun hp' => hes ?_⟩
      rwa [← h.event_unique (by rw [hhead]; exact List.mem_cons_of_mem te hmem) hp' hte hp]
    · rintro ⟨heq | hmem, hp'⟩
      · exact absurd (heq ▸ hp) hp'
      · exact hmem
  · rw [hhead]
    exact List.sublist_cons_self te es
  · show (expireProc k te p).nxtTe = k.nxtTe
    unfold expireProc
    dsimp only
    split
    · rfl
    · simp [delWaitingProc, Kernel.updProc]
  · intro o
    rw [← hlists o]
    cases o <;> rfl
  · exact (Same.expireProc te p).procIds

/-! ## A process begins to wait -/

theorem WaitInv.ids_insertEvent {k : Kernel} (h : WaitInv k) (time : Int) (type : TimeEventType) :
    ((insertEvent ⟨k.nxtTe, time, type⟩ k.teq).map TimeEvent.teId).Nodup := by
  rw [((insertEvent_perm ⟨k.nxtTe, time, type⟩ k.teq).map TimeEvent.teId).nodup_iff,
    List.map_cons, List.nodup_cons]
  refine ⟨fun hmem => ?_, h.ids⟩
  obtain ⟨te, hte, hid⟩ := List.mem_map.mp hmem
  exact (h.fresh te hte).ne hid

theorem WaitInv.fresh_insertEvent {k : Kernel} (h : WaitInv k) (time : Int)
    (type : TimeEventType) :
    ∀ te ∈ insertEvent ⟨k.nxtTe, time, type⟩ k.teq, te.teId < k.nxtTe + 1 := by
  intro te hte
  rcases mem_insertEvent.mp hte with heq | hmem
  · rw [heq]
    exact Nat.lt_succ_self _
  · exact (h.fresh te hmem).trans (Nat.lt_succ_self _)

/-- A process that nothing holds waits without a timer and without an object. -/
theorem WaitInv.doze {k : Kernel} (h : WaitInv k) {p : ProcId} (hu : Unheld k p)
    {reason : WaitingReason} (hb : reason.isBlocked = false) (ht : reason.isTimed = false) :
    WaitInv (waitFor k p reason) := by
  refine h.update p ?_ (.of_unheld ⟨?_, hu.events, ?_⟩ fun _ => ?_) ?_ h.ids h.fresh
  · intro q hq
    have hprocs : (waitFor k p reason).procs q = k.procs q := by
      simp [waitFor, Kernel.setState, Kernel.setReason, Kernel.updProc, hq]
    constructor
    · rw [hprocs]
    · exact fun _ => by rw [hprocs]
    · rw [hprocs]
    · exact fun _ => rfl
    · exact fun c _ _ _ => by cases c <;> rfl
    · exact fun o => by simp [waitFor]
    · exact fun _ _ => Iff.rfl
    · exact id
  · exact fun o => by simpa [waitFor] using hu.lists o
  · simpa [waitFor] using hu.timer
  · simp [waitFor, hb, ht]
  · exact fun o => by simpa [waitFor] using h.nodup o

/-- A process that nothing holds waits for a timer of its own. -/
theorem WaitInv.sleep {k : Kernel} (h : WaitInv k) {p : ProcId} (hu : Unheld k p)
    (hknown : p ∈ k.procIds) {reason : WaitingReason} {type : TimeEventType}
    (kind : SleepKind p reason type) (time : Int) : WaitInv (sleepUntil k p reason time type) := by
  rw [sleepUntil, timeEventAlloc_of_proc _ _ kind.proc]
  have hother : ∀ q, q ≠ p → (waitFor k p reason).procs q = k.procs q := by
    intro q hq
    simp [waitFor, Kernel.setState, Kernel.setReason, Kernel.updProc, hq]
  have hlists : ∀ o, (waitFor k p reason).waitingProcs o = k.waitingProcs o := by simp [waitFor]
  refine h.update p ?_ ?_ ?_ (h.ids_insertEvent time type) (h.fresh_insertEvent time type)
  · intro q hq
    have hprocs := hother q hq
    constructor
    · simp [hq, hprocs]
    · exact fun _ => by simp [hq, hprocs]
    · simp [hq, hprocs]
    · exact fun _ => rfl
    · exact fun c _ _ _ => by cases c <;> rfl
    · intro o
      rw [← hlists o]
      cases o <;> exact Iff.rfl
    · intro te hte
      refine mem_insertEvent.trans (or_iff_right ?_)
      rintro rfl
      rw [show type.proc = some p from kind.proc, Option.some.injEq] at hte
      exact hq hte.symm
    · exact id
  · constructor
    · intro o
      have hno : p ∉ k.waitingProcs o := hu.lists o
      rw [← hlists o] at hno
      refine iff_of_false (by cases o <;> exact hno) fun hb => ?_
      -- the reason for which it waits is none of those of a list
      have hblocked := hb.isBlocked.2
      simp [waitFor, kind.not_isBlocked] at hblocked
    · intro te hte hp
      rcases mem_insertEvent.mp hte with rfl | hmem
      · refine ⟨hknown, by simp [waitFor], by simp [waitFor], .sleep ?_⟩
        simpa [waitFor] using kind
      · exact absurd hp (hu.events te hmem)
    · intro t ht
      simp only [Function.update_self, Option.some.injEq] at ht
      exact ⟨_, mem_insertEvent.mpr (Or.inl rfl), ht, kind.proc⟩
    · exact fun _ _ => by simp
  · intro o
    have hnd := h.nodup o
    rw [← hlists o] at hnd
    cases o <;> exact hnd

/-- The state after `commWait`, with its call recorded, field by field. -/
theorem block_fields (k : Kernel) (p : ProcId) (c : CommCall) (w armed : Int) :
    let k' := (commWait k p c armed).setCont p (some (.comm c w armed))
    (∀ q, q ≠ p → k'.procs q = k.procs q ∧ k'.conts q = k.conts q) ∧
      k'.conts p = some (.comm c w armed) ∧ (k'.procs p).prState = .waiting ∧
      (∀ o, k'.waitingProcs o
        = if o = c.obj k then k.waitingProcs o ++ [p] else k.waitingProcs o) ∧
      k'.ports = k.ports ∧ k'.procIds = k.procIds ∧
      if c.timeOut ≠ systemTimeInfiniteVal then
        (k'.procs p).prWaitingReason = blockedWithTimeoutReason (c.obj k) ∧
          (k'.procs p).prAssoTimer = some k.nxtTe ∧ k'.nxtTe = k.nxtTe + 1 ∧
          k'.teq = insertEvent ⟨k.nxtTe, armed, c.teType p⟩ k.teq
      else
        (k'.procs p).prWaitingReason = blockedReason (c.obj k) ∧
          (k'.procs p).prAssoTimer = (k.procs p).prAssoTimer ∧ k'.nxtTe = k.nxtTe ∧
          k'.teq = k.teq := by
  dsimp only
  have hlists : ∀ k₁ : Kernel, k₁.waitingProcs = (addWaitingProc (k.setState p .waiting) (c.obj k)
      p).waitingProcs → ∀ o, k₁.waitingProcs o
        = if o = c.obj k then k.waitingProcs o ++ [p] else k.waitingProcs o := by
    intro k₁ hk₁ o
    rw [hk₁, addWaitingProc, Kernel.waitingProcs_setWaitingProcs, Kernel.waitingProcs_setState]
    split
    · rename_i ho
      rw [ho]
    · rw [Kernel.waitingProcs_setState]
  unfold commWait
  dsimp only
  -- with a deadline an event enters the queue, and the reason says so
  by_cases ht : c.timeOut ≠ systemTimeInfiniteVal
  · rw [if_pos ht, if_pos ht, timeEventAlloc_of_proc _ _ (proc_teType p c)]
    refine ⟨?_, ?_, ?_, ?_, ?_, ?_, ?_, ?_, ?_, ?_⟩
    · intro q hq
      simp [Kernel.setCont, Kernel.setReason, Kernel.setState, Kernel.updProc, addWaitingProc, hq]
    · simp [Kernel.setCont]
    · simp [Kernel.setCont, addWaitingProc]
    · exact hlists _ (by funext o; cases o <;> rfl)
    · simp [Kernel.setCont, Kernel.setReason, Kernel.setState, Kernel.updProc, addWaitingProc]
    · simp [Kernel.setCont, Kernel.setReason, Kernel.setState, Kernel.updProc, addWaitingProc]
    · simp [Kernel.setCont]
    · simp [Kernel.setCont, Kernel.setReason, Kernel.setState, Kernel.updProc, addWaitingProc]
    · simp [Kernel.setCont, Kernel.setReason, Kernel.setState, Kernel.updProc, addWaitingProc]
    · simp [Kernel.setCont, Kernel.setReason, Kernel.setState, Kernel.updProc, addWaitingProc]
  · rw [if_neg ht, if_neg ht]
    refine ⟨?_, ?_, ?_, ?_, ?_, ?_, ?_, ?_, ?_, ?_⟩
    · intro q hq
      simp [Kernel.setCont, Kernel.setReason, Kernel.setState, Kernel.updProc, addWaitingProc, hq]
    · simp [Kernel.setCont]
    · simp [Kernel.setCont, addWaitingProc]
    · exact hlists _ (by funext o; cases o <;> rfl)
    · simp [Kernel.setCont, Kernel.setReason, Kernel.setState, Kernel.updProc, addWaitingProc]
    · simp [Kernel.setCont, Kernel.setReason, Kernel.setState, Kernel.updProc, addWaitingProc]
    · simp [Kernel.setCont]
    · simp [Kernel.setCont, addWaitingProc]
    · simp [Kernel.setCont, Kernel.setReason, Kernel.setState, Kernel.updProc, addWaitingProc]
    · simp [Kernel.setCont, Kernel.setReason, Kernel.setState, Kernel.updProc, addWaitingProc]

theorem CommCall.obj_congr {k k' : Kernel} (h : k'.ports = k.ports) (c : CommCall) :
    c.obj k' = c.obj k := by
  cases c <;> simp [CommCall.obj, h]

/-- **A process that nothing holds blocks on the object of its call.** -/
theorem WaitInv.block {k : Kernel} (h : WaitInv k) {p : ProcId} (hu : Unheld k p)
    (hknown : p ∈ k.procIds) (c : CommCall) (w armed : Int) :
    WaitInv ((commWait k p c armed).setCont p (some (.comm c w armed))) := by
  obtain ⟨hother, hcont, hwait, hlists, hports, hids, htimed⟩ := block_fields k p c w armed
  generalize (commWait k p c armed).setCont p (some (.comm c w armed)) = k' at *
  have hobj : ∀ c : CommCall, c.obj k' = c.obj k := CommCall.obj_congr hports
  -- the process is linked in the list of its object and in no other
  have hmem : ∀ o, p ∈ k'.waitingProcs o ↔ o = c.obj k := by
    intro o
    rw [hlists]
    split
    · rename_i ho
      simp [ho]
    · rename_i ho
      simp [ho, hu.lists o]
  have hreason : (k'.procs p).prWaitingReason = blockedReason (c.obj k) ∨
      (k'.procs p).prWaitingReason = blockedWithTimeoutReason (c.obj k) := by
    split at htimed
    exacts [Or.inr htimed.1, Or.inl htimed.1]
  have hblocked : Blocked k' p (c.obj k) :=
    ⟨hwait, hreason, c, w, armed, hcont, hobj c⟩
  have hlinked : ∀ o, p ∈ k'.waitingProcs o ↔ Blocked k' p o := by
    intro o
    rw [hmem]
    exact ⟨fun ho => ho ▸ hblocked, fun hb => hb.unique hblocked⟩
  have hqueue : (k'.teq.map TimeEvent.teId).Nodup ∧ ∀ te ∈ k'.teq, te.teId < k'.nxtTe := by
    split at htimed
    · rw [htimed.2.2.1, htimed.2.2.2]
      exact ⟨h.ids_insertEvent armed _, h.fresh_insertEvent armed _⟩
    · rw [htimed.2.2.1, htimed.2.2.2]
      exact ⟨h.ids, h.fresh⟩
  refine h.update p ?_ ?_ ?_ hqueue.1 hqueue.2
  · intro q hq
    obtain ⟨hprocs, hconts⟩ := hother q hq
    constructor
    · rw [hprocs]
    · exact fun _ => by rw [hprocs]
    · rw [hprocs]
    · exact fun _ => hconts
    · exact fun c _ _ _ => hobj c
    · intro o
      rw [hlists]
      split <;> simp [hq]
    · intro te hte
      split at htimed
      · rw [htimed.2.2.2, mem_insertEvent]
        refine or_iff_right ?_
        rintro rfl
        rw [proc_teType, Option.some.injEq] at hte
        exact hq hte.symm
      · rw [htimed.2.2.2]
    · rw [hids]
      exact id
  · refine ⟨hlinked, ?_, ?_, ?_⟩
    · intro te hte hp
      split at htimed
      · rw [htimed.2.2.2, mem_insertEvent] at hte
        rcases hte with rfl | hold
        · exact ⟨hids ▸ hknown, htimed.2.1, hwait,
            .comm c w armed hcont rfl (by rw [hobj]; exact htimed.1)⟩
        · exact absurd hp (hu.events te hold)
      · rw [htimed.2.2.2] at hte
        exact absurd hp (hu.events te hte)
    · intro t ht
      split at htimed
      · rw [htimed.2.1, Option.some.injEq] at ht
        rw [htimed.2.2.2]
        exact ⟨_, mem_insertEvent.mpr (Or.inl rfl), ht, proc_teType p c⟩
      · rw [htimed.2.1, hu.timer] at ht
        exact absurd ht (by simp)
    · intro _ hr
      split at htimed
      · rw [htimed.2.1]
        simp
      · rw [htimed.1, isTimed_blockedReason] at hr
        exact absurd hr (by decide)
  · intro o
    rw [hlists]
    split
    · rw [List.nodup_append]
      refine ⟨h.nodup o, List.nodup_singleton p, ?_⟩
      rintro x hx y hy rfl
      rw [List.mem_singleton.mp hy] at hx
      exact hu.lists o hx
    · exact h.nodup o

/-! ## Effects that concern no process -/

/-- Only fields that the relation does not read were changed. -/
theorem WaitInv.congr {k k' : Kernel} (h : WaitInv k) (hprocs : k'.procs = k.procs)
    (hconts : ∀ q, isBlocked k q → k'.conts q = k.conts q)
    (hobj : ∀ q c w a, k.conts q = some (.comm c w a) → c.obj k' = c.obj k)
    (hlists : ∀ o, k'.waitingProcs o = k.waitingProcs o) (hteq : k'.teq = k.teq)
    (hnxt : k'.nxtTe = k.nxtTe) (hids : k'.procIds = k.procIds) : WaitInv k' := by
  refine h.of_sameView (fun q => ?_) (fun o => ?_) ?_ ?_
  · constructor
    · rw [hprocs]
    · exact fun _ => by rw [hprocs]
    · rw [hprocs]
    · exact hconts q
    · exact hobj q
    · exact fun o => by rw [hlists]
    · exact fun te _ => by rw [hteq]
    · rw [hids]
      exact id
  · rw [hlists]
    exact h.nodup o
  · rw [hteq]
    exact h.ids
  · rw [hteq, hnxt]
    exact h.fresh

/-- A state of a process that does not wait may become another such state. -/
theorem WaitInv.setState {k : Kernel} (h : WaitInv k) {p : ProcId} {s : ProcState}
    (hp : (k.procs p).prState ≠ .waiting) (hs : s ≠ .waiting) : WaitInv (k.setState p s) :=
  h.released (.of_unheld (h.procs p) ((h.procs p).unheld_of_not_waiting hp) hs)
    fun _ c _ _ _ => CommCall.obj_congr (by rfl) c

/-- A dispatch exchanges the states of two processes that do not wait. -/
theorem WaitInv.dispatch {k k' : Kernel} (h : WaitInv k) {p : ProcId}
    (hd : dispatch k p = .ok k') : WaitInv k' := by
  obtain ⟨hp, rfl⟩ := dispatch_eq_ok hd
  have hst : WaitInv (schedProcSt k) := by
    rcases schedProcSt_cases k with hst | ⟨cur, -, hrun, hst⟩ <;> rw [hst]
    · exact h
    · exact h.setState (by rw [hrun]; decide) (by decide)
  have hcur : WaitInv { schedProcSt k with curProc := some p } :=
    hst.congr rfl (fun _ _ => rfl) (fun _ c _ _ _ => CommCall.obj_congr (by rfl) c)
      (fun o => by cases o <;> rfl) rfl rfl rfl
  exact hcur.setState (not_waiting_of_free (Or.inl hp.2)) (by decide)

/-- An event of no process enters the queue. -/
theorem WaitInv.partitionEvent {k : Kernel} (h : WaitInv k) (time : Int) :
    WaitInv (timeEventAlloc k time .partitionActivate) := by
  rw [timeEventAlloc_partition]
  refine h.of_sameView (fun q => ?_) (fun o => ?_) (h.ids_insertEvent time _)
    (h.fresh_insertEvent time _)
  · constructor
    · rfl
    · exact fun _ => rfl
    · rfl
    · exact fun _ => rfl
    · exact fun c _ _ _ => CommCall.obj_congr (by rfl) c
    · intro o
      cases o <;> rfl
    · intro te hte
      refine mem_insertEvent.trans (or_iff_right ?_)
      rintro rfl
      exact absurd hte (by simp [TimeEventType.proc])
    · exact id
  · have hnd := h.nodup o
    cases o <;> exact hnd

/-- An event of no process leaves the queue. -/
theorem WaitInv.partitionExpiry {k : Kernel} (h : WaitInv k) {te : TimeEvent}
    {es : List TimeEvent} (hhead : k.teq = te :: es) (hp : te.teType.proc = none) :
    WaitInv { k with teq := es } := by
  have hsub : es.Sublist k.teq := by
    rw [hhead]
    exact List.sublist_cons_self te es
  refine h.of_sameView (fun q => ?_) (fun o => ?_) (h.ids.sublist (hsub.map _))
    fun i hi => h.fresh i (hsub.subset hi)
  · constructor
    · rfl
    · exact fun _ => rfl
    · rfl
    · exact fun _ => rfl
    · exact fun c _ _ _ => CommCall.obj_congr (by rfl) c
    · intro o
      cases o <;> rfl
    · intro i hi
      show i ∈ es ↔ i ∈ k.teq
      rw [hhead, List.mem_cons]
      refine (or_iff_right ?_).symm
      rintro rfl
      rw [hp] at hi
      exact absurd hi (by simp)
    · exact id
  · have hnd := h.nodup o
    cases o <;> exact hnd

/-! ## Creations -/

/-- Nobody waits on an object that is not registered. -/
theorem WaitInv.waitingProcs_eq_nil {k : Kernel} (h : WaitInv k) (hr : Registered k) {o : WaitObj}
    (ho : ∀ pt, ¬ ObjOf k pt o) : k.waitingProcs o = [] := by
  rw [List.eq_nil_iff_forall_not_mem]
  intro p hp
  obtain ⟨c, w, a, hc, rfl⟩ := (((h.procs p).linked o).mp hp).call
  exact ho _ (hr.calls p c w a hc).2.objOf

/-- A new process is held by nothing. -/
theorem WaitInv.newProc {k : Kernel} (h : WaitInv k) (hr : Registered k) {mem : Mem} {pr : Proc}
    (hstate : pr.prState = .dormant) (htimer : pr.prAssoTimer = none) :
    WaitInv (procReset (registerProc k mem k.curPart pr) k.nxtProcId) := by
  -- the identifier is new, and so no list and no event names it
  have hnew : k.nxtProcId ∉ k.procIds := fun hmem => (hr.procs_lt _ hmem).false
  have hlists : ∀ o, (procReset (registerProc k mem k.curPart pr) k.nxtProcId).waitingProcs o
      = k.waitingProcs o := by
    intro o
    cases o <;> rfl
  refine h.update k.nxtProcId ?_ (.of_unheld ⟨?_, ?_, ?_⟩ ?_) ?_ h.ids h.fresh
  · intro q hq
    have hprocs : (procReset (registerProc k mem k.curPart pr) k.nxtProcId).procs q = k.procs q := by
      simp [procReset, Kernel.setWoken, Kernel.setCont, registerProc, hq]
    constructor
    · rw [hprocs]
    · exact fun _ => by rw [hprocs]
    · rw [hprocs]
    · intro _
      simp [procReset, Kernel.setWoken, Kernel.setCont, registerProc, hq]
    · exact fun c _ _ _ => CommCall.obj_congr (by rfl) c
    · exact fun o => by rw [hlists]
    · exact fun _ _ => Iff.rfl
    · exact List.mem_append_left _
  · intro o hl
    rw [hlists] at hl
    obtain ⟨c, w, a, hc, -⟩ := (((h.procs k.nxtProcId).linked o).mp hl).call
    exact hnew (hr.calls _ c w a hc).1
  · exact fun te hte hp => hnew ((h.procs k.nxtProcId).owner te hte hp).1
  · simp [procReset, Kernel.setWoken, Kernel.setCont, registerProc, htimer]
  · simp [procReset, Kernel.setWoken, Kernel.setCont, registerProc, hstate]
  · intro o
    rw [hlists]
    exact h.nodup o

theorem waitingProcs_registerBuffer {k : Kernel} (h : WaitInv k) (hr : Registered k) {mem : Mem}
    {buf : Buffer} (hbuf : buf.bufWaitingProcs = []) (o : WaitObj) :
    (registerBuffer k mem k.curPart buf).waitingProcs o = k.waitingProcs o := by
  cases o with
  | buffer b =>
      by_cases hb : b = k.nxtBufId
      · have hnil := h.waitingProcs_eq_nil hr (o := .buffer b) fun pt ho => by
          exact (hr.bufs_lt b ho.1).ne hb
        rw [hnil, hb]
        simp [registerBuffer, Kernel.waitingProcs, hbuf]
      · simp [registerBuffer, Kernel.waitingProcs, hb]
  | blackboard b => rfl
  | channel c => rfl

theorem waitingProcs_registerBlackboard {k : Kernel} (h : WaitInv k) (hr : Registered k) {mem : Mem}
    {bb : Blackboard} (hbb : bb.bbWaitingProcs = []) (o : WaitObj) :
    (registerBlackboard k mem k.curPart bb).waitingProcs o = k.waitingProcs o := by
  cases o with
  | buffer b => rfl
  | blackboard b =>
      by_cases hb : b = k.nxtBbId
      · have hnil := h.waitingProcs_eq_nil hr (o := .blackboard b) fun pt ho => by
          exact (hr.bbs_lt b ho.1).ne hb
        rw [hnil, hb]
        simp [registerBlackboard, Kernel.waitingProcs, hbb]
      · simp [registerBlackboard, Kernel.waitingProcs, hb]
  | channel c => rfl

/-! ## The invariant of all runs -/

/-- The effect stops no process that a wait list links. -/
def Act.Unlinked (k : Kernel) (a : Act) : Prop := ∀ p, a = .stop p → ∀ o, p ∉ k.waitingProcs o

/-- **Every effect keeps the wait lists in agreement**, a `STOP` of a linked process excepted. -/
theorem WaitInv.eff {k k' : Kernel} {a : Act} (h : WaitInv k) (hr : Registered k)
    (hstop : a.Unlinked k) (he : Eff k a k') : WaitInv k' := by
  have hext := (hr.eff he).2
  have hobj : ∀ q c w d, k.conts q = some (.comm c w d) → c.obj k' = c.obj k :=
    fun q c w d hc => hext.obj_eq (hr.calls q c w d hc).2
  cases he with
  | mode m => exact h.congr rfl (fun _ _ => rfl) hobj (fun o => by cases o <;> rfl) rfl rfl rfl
  | @attr p f own other =>
      refine h.of_sameView (fun q => ?_) (fun o => ?_) h.ids h.fresh
      · have hpr : ((k.updProc p f).procs q).prState = (k.procs q).prState ∧
            ((k.updProc p f).procs q).prWaitingReason = (k.procs q).prWaitingReason ∧
            ((k.updProc p f).procs q).prAssoTimer = (k.procs q).prAssoTimer := by
          by_cases hq : q = p
          · subst hq
            simp only [Kernel.updProc, Function.update_self]
            rw [other]
            exact ⟨rfl, rfl, rfl⟩
          · simp [Kernel.updProc, hq]
        exact ⟨by rw [hpr.1], fun _ => hpr.2.1, hpr.2.2, fun _ => rfl, hobj q, fun o => by simp,
          fun _ _ => Iff.rfl, id⟩
      · simpa using h.nodup o
  | @ready p own held =>
      refine h.released (.of_unheld (h.procs p) ((h.procs p).unheld fun hw => ?_) (by decide)) hobj
      -- a process that is made ready waits for nothing, or for `RESUME` alone
      rcases held with hd | hf | ⟨-, hr⟩
      · rw [hd] at hw
        exact absurd hw (by decide)
      · rw [hf] at hw
        exact absurd hw (by decide)
      · exact hr
  | @doze p reason own free kind =>
      have hu := (h.procs p).unheld_of_not_waiting (not_waiting_of_free free)
      rcases kind with rfl | rfl | ⟨rfl, -⟩ <;> exact h.doze hu rfl rfl
  | @sleep p reason type time known own free kind =>
      exact h.sleep ((h.procs p).unheld_of_not_waiting (not_waiting_of_free free)) known kind time
  | @rouse p k₁ own waits reason freed =>
      -- `RESUME` frees the timer of a suspended process, which is on no list
      obtain ⟨i, hi, hp, rfl⟩ := h.freed _ rfl freed
      refine h.released (.of_freed _ h hi hp (by decide) (fun _ _ => rfl) rfl rfl rfl rfl
        fun o => (List.erase_of_not_mem fun hl => ?_).symm) hobj
      have hblocked := (((h.procs p).linked o).mp hl).isBlocked.2
      rw [reason] at hblocked
      exact absurd hblocked (by decide)
  | halt cur own runs => exact h.setState (not_waiting_of_free (Or.inl runs)) (by decide)
  | @stop p _ own alive freed => exact h.released (h.released_stop (hstop p rfl) freed) hobj
  | @reset p own dormant =>
      refine h.congr rfl (fun q hb => ?_) hobj (fun o => by cases o <;> rfl) rfl rfl rfl
      have hq : q ≠ p := fun hq => not_isBlocked_of_dormant dormant (hq ▸ hb)
      simp [procReset, Kernel.setWoken, Kernel.setCont, hq]
  | @block p c wakeup armed cur own runs call fits full =>
      exact h.block ((h.procs p).unheld_of_not_waiting (not_waiting_of_free (Or.inl runs)))
        (hr.cur p cur) c wakeup armed
  | wake linked obj done => exact h.released (h.released_wakeProc linked done) hobj
  | queue cc obj =>
      exact h.congr (by simp) (fun _ _ => by simp) hobj (by simp) (by simp)
        (by cases ‹Que› <;> rfl) (Same.setBody _ cc).procIds
  | @board b f obj part list =>
      refine h.congr rfl (fun _ _ => rfl) hobj (fun o => ?_) rfl rfl rfl
      cases o with
      | buffer b' => rfl
      | blackboard b' =>
          by_cases hb : b' = b
          · subst hb
            simp [Kernel.updBb, Kernel.waitingProcs, list]
          · simp [Kernel.updBb, Kernel.waitingProcs, hb]
      | channel c => rfl
  | newProc mem pr own dormant timer frame => exact h.newProc hr dormant timer
  | newBuffer mem buf own empty body frame =>
      exact h.congr rfl (fun _ _ => rfl) hobj (waitingProcs_registerBuffer h hr empty) rfl rfl rfl
  | newBoard mem bb own empty blank frame =>
      exact h.congr rfl (fun _ _ => rfl) hobj (waitingProcs_registerBlackboard h hr empty) rfl rfl
        rfl
  | newPort qp own =>
      exact h.congr rfl (fun _ _ => rfl) hobj (fun o => by cases o <;> rfl) rfl rfl rfl
  | spend mem nb nbb hb hbb frame =>
      exact h.congr rfl (fun _ _ => rfl) hobj (fun o => by cases o <;> rfl) rfl rfl rfl
  | @cont p c cur own free plain =>
      refine h.congr rfl (fun q hb => ?_) hobj (fun o => by cases o <;> rfl) rfl rfl rfl
      have hq : q ≠ p := fun hq => free (hq ▸ hb)
      simp [Kernel.setCont, hq]
  | resumed cur own runs =>
      exact h.congr rfl (fun _ _ => rfl) hobj (fun o => by cases o <;> rfl) rfl rfl rfl
  | dispatch done => exact h.dispatch done
  | expire head proc => exact h.released (h.released_expire head proc) hobj
  | partition head proc => exact h.partitionExpiry head proc
  | global done =>
      obtain ⟨pt, rfl⟩ | ⟨time, mods, pt, rfl⟩ := schedGlobal_eq_ok done
      · exact h.congr rfl (fun _ _ => rfl) (fun _ c _ _ _ => CommCall.obj_congr (by rfl) c)
          (fun o => by cases o <;> rfl) rfl rfl rfl
      · have hcur : WaitInv { k with schedCurMod := some (nextMod k) } :=
          h.congr rfl (fun _ _ => rfl) (fun _ c _ _ _ => CommCall.obj_congr (by rfl) c)
            (fun o => by cases o <;> rfl) rfl rfl rfl
        exact (hcur.partitionEvent _).congr rfl (fun _ _ => rfl)
          (fun _ c _ _ _ => CommCall.obj_congr (by rfl) c) (fun o => by cases o <;> rfl) rfl rfl rfl

end Jrinx
