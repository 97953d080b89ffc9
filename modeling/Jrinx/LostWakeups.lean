import Jrinx.Delivery

/-! # Lost wake-ups

Senders and receivers of a queue share its wait list, and a successful call wakes one process of it. The
process that was woken up goes on when it is dispatched again; it may find its deadline past, or the
queue changed.

* **`Settled`**, **`NoLostWakeup`** — no process that was woken up is still to run, and then receivers
  wait on empty queues and senders on full ones only.
* **`Turn`** — what a segment of a sending, receiving or clearing service does to the wait lists.
* **`LosesWakeup`** — the last process that was woken up runs again for nothing, while the queue could
  serve another one.
* **`no_lost_wakeup_iff`** — over all runs of these services. -/

namespace Jrinx

variable {k k' : Kernel} {p : ProcId} {q : Que} {c : CommCall}

/-! ## The law -/

/-- `SEND`, `RECEIVE` and `CLEAR_QUEUING_PORT`. -/
def Service.transfers : Service → Bool
  | .sendBuffer .. => true
  | .receiveBuffer .. => true
  | .sendQueuingMessage .. => true
  | .receiveQueuingMessage .. => true
  | .clearQueuingPort _ => true
  | _ => false

/-- Calls are those of `Service.transfers`; dispatches, timer interrupts and the rests of calls are any. -/
def Event.Transfers : Event → Prop
  | .call _ s => s.transfers = true
  | _ => True

/-- The call is a `RECEIVE`. -/
def CommCall.receives : CommCall → Bool
  | .receiveBuffer .. => true
  | .receiveQueuingMessage .. => true
  | _ => false

/-- A wake-up took the process off the wait list of the queue, and it has not run since. -/
def TakenOff (k : Kernel) (q : Que) (p : ProcId) : Prop :=
  k.woken p = true ∧ ∃ c w a, k.conts p = some (.comm c w a) ∧ c.obj k = q.obj

/-- Every process that a wake-up took off the wait list has run again. -/
def Settled (k : Kernel) (q : Que) : Prop := ∀ p, ¬ TakenOff k q p

/-- The process is blocked on the queue in the call. -/
def BlockedIn (k : Kernel) (q : Que) (p : ProcId) (c : CommCall) : Prop :=
  Blocked k p q.obj ∧ ∃ w a, k.conts p = some (.comm c w a)

/-- **No lost wake-up**: on a settled queue, processes are blocked in a `RECEIVE` only while it is empty,
and in a `SEND` only while it is full. -/
def NoLostWakeup (k : Kernel) : Prop :=
  ∀ q, Settled k q → ∀ p c, BlockedIn k q p c →
    if c.receives = true then circbufIsEmpty (k.body q) = true else circbufIsFull (k.body q) = true

/-- The queue could serve a process that is linked in its wait list. -/
def Servable (k : Kernel) (q : Que) : Prop :=
  ∃ p ∈ k.waitingProcs q.obj, ∃ c w a, k.conts p = some (.comm c w a) ∧ c.obj k = q.obj ∧
    mustWait k c = false

/-- Whenever the queue could serve a linked process, a process that was woken up is still to run. -/
def Covered (k : Kernel) (q : Que) : Prop := Servable k q → ∃ p, TakenOff k q p

/-- What a call on a queue has to wait for. -/
theorem mustWait_eq (h : c.obj k = q.obj) : mustWait k c =
    if c.receives = true then circbufIsEmpty (k.body q) else circbufIsFull (k.body q) := by
  cases c <;> cases q <;> simp_all [CommCall.obj, Que.obj, mustWait, CommCall.receives, Kernel.body]

theorem CommCall.que_eq_some : c.que k = some q ↔ c.obj k = q.obj := by
  cases c <;> cases q <;> simp [CommCall.que, CommCall.obj, Que.obj]

/-- Under the invariant of the wait lists the law is about the lists. -/
theorem WaitInv.noLostWakeup_iff (hi : WaitInv k) : NoLostWakeup k ↔ ∀ q, Covered k q := by
  constructor
  · rintro h q ⟨p, hl, c, w, a, hc, ho, hfree⟩
    -- the process that could be served would be blocked on a settled queue, and so it would have to wait
    by_contra hnone
    have hblocked : BlockedIn k q p c := ⟨((hi.procs p).linked _).mp hl, w, a, hc⟩
    have hwait := h q (not_exists.mp hnone) p c hblocked
    rw [mustWait_eq ho] at hfree
    split at hwait
    · rename_i hr
      rw [if_pos hr, hwait] at hfree
      exact absurd hfree (by decide)
    · rename_i hr
      rw [if_neg hr, hwait] at hfree
      exact absurd hfree (by decide)
  · intro h q hsettled p c hb
    obtain ⟨hblocked, w, a, hc⟩ := hb
    have ho : c.obj k = q.obj := by
      obtain ⟨c', w', a', hc', ho⟩ := hblocked.call
      rw [hc, Option.some.injEq, Cont.comm.injEq] at hc'
      rw [hc'.1, ho]
    have hmust : mustWait k c = true := by
      by_contra hfree
      -- a process that need not wait could be served, and the queue is settled
      have hserv : Servable k q := ⟨p, ((hi.procs p).linked _).mpr hblocked, c, w, a, hc, ho, by
        simpa using hfree⟩
      obtain ⟨p', hp'⟩ := h q hserv
      exact hsettled p' hp'
    rw [mustWait_eq ho] at hmust
    split
    · rename_i hr
      rwa [if_pos hr] at hmust
    · rename_i hr
      rwa [if_neg hr] at hmust

/-! ## Changes that take no wake-up away -/

/-- Nothing that the law says of the queue differs between the two states, apart from processes that leave
the wait list. -/
structure Eased (q : Que) (k k' : Kernel) : Prop where
  ports : k'.ports = k.ports
  body : k'.body q = k.body q
  conts : k'.conts = k.conts
  woken : k'.woken = k.woken
  lists : k'.waitingProcs q.obj ⊆ k.waitingProcs q.obj

theorem CommCall.obj_of_ports (h : k'.ports = k.ports) (c : CommCall) : c.obj k' = c.obj k :=
  CommCall.obj_congr h c

/-- Whether a call on the queue waits depends on its messages only. -/
theorem mustWait_congr (hports : k'.ports = k.ports) (hbody : k'.body q = k.body q)
    (ho : c.obj k = q.obj) : mustWait k' c = mustWait k c := by
  rw [mustWait_eq ho, mustWait_eq ((CommCall.obj_of_ports hports c).trans ho), hbody]

theorem Eased.covered (h : Eased q k k') (hc : Covered k q) : Covered k' q := by
  rintro ⟨p, hl, c, w, a, hcont, ho, hfree⟩
  rw [h.conts] at hcont
  rw [CommCall.obj_of_ports h.ports] at ho
  rw [mustWait_congr h.ports h.body ho] at hfree
  obtain ⟨x, hw, c', w', a', hx, hox⟩ := hc ⟨p, h.lists hl, c, w, a, hcont, ho, hfree⟩
  exact ⟨x, by rw [h.woken, hw], c', w', a', by rw [h.conts, hx],
    (CommCall.obj_of_ports h.ports c').trans hox⟩

/-! ## The turns of the services -/

/-- The process `p` took its turn without a change of the queue; if it is linked now, it has to wait. -/
structure Passed (q : Que) (p : ProcId) (k k' : Kernel) : Prop where
  ports : k'.ports = k.ports
  body : k'.body q = k.body q
  conts : ∀ p', p' ≠ p → k'.conts p' = k.conts p'
  woken : k'.woken = k.woken
  lists : ∀ p', p' ≠ p → (p' ∈ k'.waitingProcs q.obj ↔ p' ∈ k.waitingProcs q.obj)
  must : p ∈ k'.waitingProcs q.obj → ∀ c w a, k'.conts p = some (.comm c w a) → c.obj k' = q.obj →
    mustWait k' c = true

/-- The queue served the process `p`, which is then at the end of its call: a process of the wait list was
woken up, if there was one. -/
structure Served (k : Kernel) (p : ProcId) (q : Que) (k' : Kernel) : Prop where
  ports : k'.ports = k.ports
  body : ∀ q', q' ≠ q → k'.body q' = k.body q'
  conts : ∀ p', p' ≠ p → k'.conts p' = k.conts p'
  lists : ∀ o, k'.waitingProcs o ⊆ k.waitingProcs o
  wakes : k.waitingProcs q.obj = [] ∧ k'.woken = k.woken ∨
    ∃ x ∈ k.waitingProcs q.obj, k'.woken = Function.update k.woken x true

/-- **A turn** of the process `p` in one of the services. -/
inductive Turn (k : Kernel) (p : ProcId) (k' : Kernel) : Prop
  /-- The call returns, or it blocks. -/
  | pass (passed : ∀ q, Passed q p k k')
  /-- The queue serves the call. -/
  | serve (q : Que) (served : Served k p q k')
  /-- A queue that is not full is cleared. -/
  | clear (q : Que) (room : circbufIsFull (k.body q) = false)
      (cleared : k' = (k.setBody q (circbufReset (k.body q))).setCont p none)

/-- A process that was woken up stays so while another one takes its turn. -/
theorem TakenOff.of_other {x : ProcId} (h : TakenOff k q x) (hports : k'.ports = k.ports)
    (hconts : k'.conts x = k.conts x) (hwoken : k'.woken x = true) : TakenOff k' q x := by
  obtain ⟨-, c, w, a, hc, ho⟩ := h
  exact ⟨hwoken, c, w, a, hconts.trans hc, (CommCall.obj_of_ports hports c).trans ho⟩

theorem Passed.servable (h : Passed q p k k') (hs : Servable k' q) : Servable k q := by
  obtain ⟨x, hl, c, w, a, hc, ho, hfree⟩ := hs
  have hx : x ≠ p := by
    rintro rfl
    exact absurd (h.must hl c w a hc ho) (by simp [hfree])
  rw [h.conts x hx] at hc
  rw [CommCall.obj_of_ports h.ports] at ho
  exact ⟨x, (h.lists x hx).mp hl, c, w, a, hc, ho, mustWait_congr h.ports h.body ho ▸ hfree⟩

theorem Passed.covered (h : Passed q p k k') (hoff : ¬ TakenOff k q p) (hc : Covered k q) :
    Covered k' q := by
  intro hs
  obtain ⟨x, hx⟩ := hc (h.servable hs)
  have hne : x ≠ p := fun heq => hoff (heq ▸ hx)
  exact ⟨x, hx.of_other h.ports (h.conts x hne) (h.woken ▸ hx.1)⟩

/-- A turn without a change of the queue brings no wake-up back. -/
theorem Passed.not_covered (h : Passed q p k k') (hlink : p ∉ k.waitingProcs q.obj)
    (hwoken : k.woken p = false) (hc : ¬ Covered k q) : ¬ Covered k' q := by
  simp only [Covered, Classical.not_imp, not_exists] at hc ⊢
  obtain ⟨⟨x, hl, c, w, a, hcont, ho, hfree⟩, hnone⟩ := hc
  have hx : x ≠ p := fun heq => hlink (heq ▸ hl)
  refine ⟨⟨x, (h.lists x hx).mpr hl, c, w, a, (h.conts x hx).trans hcont,
    (CommCall.obj_of_ports h.ports c).trans ho, (mustWait_congr h.ports h.body ho).trans hfree⟩, ?_⟩
  intro y hy
  have hyp : y ≠ p := by
    rintro rfl
    exact absurd hy.1 (by simp [h.woken, hwoken])
  exact hnone y (hy.of_other h.ports.symm (h.conts y hyp).symm (h.woken ▸ hy.1))

/-- **A served turn** passes the wake-up on. -/
theorem Served.covered (h : Served k p q k') (hi : WaitInv k) (hlink : ∀ o, p ∉ k.waitingProcs o)
    (hoff : ∀ q, ¬ TakenOff k q p) (hc : ∀ q', q' ≠ q → Covered k q') (q' : Que) : Covered k' q' := by
  rintro ⟨y, hl, c, w, a, hcont, ho, hfree⟩
  have hl' := h.lists _ hl
  by_cases hq : q' = q
  · subst hq
    rcases h.wakes with ⟨hnil, -⟩ | ⟨x, hx, hwoken⟩
    · rw [hnil] at hl'
      exact absurd hl' List.not_mem_nil
    · obtain ⟨c', w', a', hc', ho'⟩ := (((hi.procs x).linked _).mp hx).call
      have hne : x ≠ p := fun heq => hlink _ (heq ▸ hx)
      exact ⟨x, by simp [hwoken], c', w', a', (h.conts x hne).trans hc',
        (CommCall.obj_of_ports h.ports c').trans ho'⟩
  · have hy : y ≠ p := fun heq => hlink _ (heq ▸ hl')
    rw [h.conts y hy] at hcont
    rw [CommCall.obj_of_ports h.ports] at ho
    rw [mustWait_congr h.ports (h.body q' hq) ho] at hfree
    obtain ⟨z, hz⟩ := hc q' hq ⟨y, hl', c, w, a, hcont, ho, hfree⟩
    have hne : z ≠ p := fun heq => hoff q' (heq ▸ hz)
    refine ⟨z, hz.of_other h.ports (h.conts z hne) ?_⟩
    rcases h.wakes with ⟨-, hwoken⟩ | ⟨x, -, hwoken⟩
    · rw [hwoken, hz.1]
    · rw [hwoken, Function.update_apply, hz.1]
      simp

/-- A queue with free slots is cleared: it can serve the processes that it could serve before. -/
theorem covered_clear (room : circbufIsFull (k.body q) = false) (hlink : ∀ o, p ∉ k.waitingProcs o)
    (hoff : ∀ q, ¬ TakenOff k q p) (hc : ∀ q, Covered k q) (q' : Que) :
    Covered ((k.setBody q (circbufReset (k.body q))).setCont p none) q' := by
  have hports : ((k.setBody q (circbufReset (k.body q))).setCont p none).ports = k.ports := by
    cases q <;> rfl
  have hconts : ∀ x, x ≠ p →
      ((k.setBody q (circbufReset (k.body q))).setCont p none).conts x = k.conts x := by
    intro x hx
    simp [Kernel.setCont, hx]
  rintro ⟨y, hl, c, w, a, hcont, ho, hfree⟩
  simp only [Kernel.waitingProcs_setCont, Kernel.waitingProcs_setBody] at hl
  have hy : y ≠ p := fun heq => hlink _ (heq ▸ hl)
  rw [hconts y hy] at hcont
  rw [CommCall.obj_of_ports hports] at ho
  -- who can be served after the reset is a sender, and the free slots were there before
  have hserv : Servable k q' := by
    refine ⟨y, hl, c, w, a, hcont, ho, ?_⟩
    rw [mustWait_eq ((CommCall.obj_of_ports hports c).trans ho)] at hfree
    rw [mustWait_eq ho]
    have hbody : ((k.setBody q (circbufReset (k.body q))).setCont p none).body q' =
        if q' = q then circbufReset (k.body q) else k.body q' := by
      rw [← Kernel.body_setBody]
      cases q' <;> rfl
    rw [hbody] at hfree
    by_cases hq : q' = q
    · subst hq
      rw [if_pos rfl] at hfree
      split at hfree
      · exact absurd hfree (by simp [circbufIsEmpty, circbufReset])
      · rename_i hr
        rw [if_neg hr, room]
    · rwa [if_neg hq] at hfree
  obtain ⟨x, hx⟩ := hc q' hserv
  -- the process that is to come is another one than the caller
  have hne : x ≠ p := fun heq => hoff q' (heq ▸ hx)
  refine ⟨x, hx.of_other hports (hconts x hne) ?_⟩
  have hwoken : ((k.setBody q (circbufReset (k.body q))).setCont p none).woken = k.woken := by
    cases q <;> rfl
  rw [hwoken, hx.1]

/-! ## The segments are turns -/

/-- The end of a segment records the call in progress. -/
theorem settle_eq (p : ProcId) (n : Next) (k : Kernel) : ∃ c, settle p (n, k) = k.setCont p c := by
  cases n with
  | ret code out => exact ⟨none, rfl⟩
  | giveUp rr c => exact ⟨some c, rfl⟩

theorem body_setCont (k : Kernel) (p : ProcId) (c : Option Cont) (q : Que) :
    (k.setCont p c).body q = k.body q := by
  cases q <;> rfl

/-- A segment that changes nothing. -/
theorem passed_settle (hlink : ∀ o, p ∉ k.waitingProcs o) (n : Next) (q : Que) :
    Passed q p k (settle p (n, k)) := by
  obtain ⟨c, hc⟩ := settle_eq p n k
  rw [hc]
  constructor
  · rfl
  · exact body_setCont k p c q
  · intro x hx
    simp [Kernel.setCont, hx]
  · rfl
  · intro x _
    rw [Kernel.waitingProcs_setCont]
  · intro hl
    rw [Kernel.waitingProcs_setCont] at hl
    exact absurd hl (hlink _)

theorem woken_commWait (k : Kernel) (p : ProcId) (c : CommCall) (armed : Int) :
    (commWait k p c armed).woken = k.woken := by
  unfold commWait
  dsimp only
  split
  · rw [timeEventAlloc_of_proc _ _ (proc_teType p c)]
    simp [addWaitingProc, Kernel.setReason, Kernel.setState, Kernel.updProc]
  · simp [addWaitingProc, Kernel.setReason, Kernel.setState, Kernel.updProc]

/-- A segment that blocks the process. -/
theorem passed_block (hmust : mustWait k c = true) (w armed : Int) (q : Que) :
    Passed q p k ((commWait k p c armed).setCont p (some (.comm c w armed))) := by
  obtain ⟨hother, hcont, -, hlists, hports, -⟩ := block_fields k p c w armed
  have hbody : ((commWait k p c armed).setCont p (some (.comm c w armed))).body q = k.body q :=
    (body_setCont _ p _ q).trans (SameQue.commWait p c armed).body
  refine ⟨hports, hbody, fun x hx => (hother x hx).2, woken_commWait k p c armed, ?_, ?_⟩
  · intro x hx
    rw [hlists]
    split
    · simp [hx]
    · rfl
  · intro _ c' w' a' hc' ho'
    rw [hcont, Option.some.injEq, Cont.comm.injEq] at hc'
    rw [← hc'.1] at ho' ⊢
    rw [CommCall.obj_of_ports hports] at ho'
    rw [mustWait_congr hports hbody ho', hmust]

/-! ### Wake-ups -/

theorem woken_of_wakeProc {o : WaitObj} {x : ProcId} (h : wakeProc k o x = .ok k') :
    k'.woken = Function.update k.woken x true := by
  obtain ⟨k₁, hk₁, rfl⟩ := wakeProc_eq_ok h
  have hwoken : k₁.woken = k.woken := by
    rcases hk₁ with ⟨-, hfree⟩ | ⟨-, rfl⟩
    · obtain ⟨i, -, -, rfl⟩ := mem_of_timeEventFree hfree
      simp [freeEvent, delWaitingProc]
    · simp [delWaitingProc]
  simp [Kernel.setWoken, Kernel.setState, Kernel.updProc, hwoken]

/-- A wake-up takes a process off the wait list, if there is one. -/
theorem served_wakeup {disc : QueDisc} {woke : Option ProcId}
    (h : wakeup k disc q.obj = .ok (woke, k')) : Served k p q k' := by
  have hsame : ∀ q', k'.body q' = k.body q' := fun q' => (SameQue.wakeup h).body
  rcases wakeup_eq_ok h with ⟨-, hnil, rfl⟩ | ⟨x, -, hpick, hwake⟩
  · exact ⟨rfl, fun _ _ => rfl, fun _ _ => rfl, fun _ => List.Subset.refl _, Or.inl ⟨hnil, rfl⟩⟩
  · refine ⟨(Same.wakeProc hwake).ports, fun q' _ => hsame q', ?_, fun o => ?_, Or.inr ?_⟩
    · rw [(conts_of_wakeProc hwake).1]
      exact fun _ _ => rfl
    · rw [waitingProcs_wakeProc hwake]
      split
      · rename_i ho
        rw [ho]
        exact List.erase_subset
      · exact List.Subset.refl _
    · exact ⟨x, mem_of_pickWaiting hpick, woken_of_wakeProc hwake⟩

theorem Served.of_setBody {cc : Circbuf} (h : Served (k.setBody q cc) p q k') : Served k p q k' where
  ports := h.ports.trans (Same.setBody q cc).ports
  body q' hq := by
    rw [h.body q' hq, Kernel.body_setBody, if_neg hq]
  conts x hx := (h.conts x hx).trans (by simp)
  lists o := by
    rw [← Kernel.waitingProcs_setBody k q cc]
    exact h.lists o
  wakes := by
    have hwakes := h.wakes
    rwa [Kernel.waitingProcs_setBody, Kernel.woken_setBody] at hwakes

theorem Served.setBody (h : Served k p q k') (cc : Circbuf) : Served k p q (k'.setBody q cc) where
  ports := (Same.setBody q cc).ports.trans h.ports
  body q' hq := by
    rw [Kernel.body_setBody, if_neg hq]
    exact h.body q' hq
  conts x hx := (congrFun (Kernel.conts_setBody k' q cc) x).trans (h.conts x hx)
  lists o := by
    rw [Kernel.waitingProcs_setBody]
    exact h.lists o
  wakes := by
    rw [Kernel.woken_setBody]
    exact h.wakes

theorem Served.settle (h : Served k p q k') (n : Next) : Served k p q (settle p (n, k')) := by
  obtain ⟨c, hc⟩ := settle_eq p n k'
  rw [hc]
  refine ⟨h.ports, fun q' hq => (body_setCont k' p c q').trans (h.body q' hq), ?_, fun o => ?_, h.wakes⟩
  · intro x hx
    simp [Kernel.setCont, hx, h.conts x hx]
  · rw [Kernel.waitingProcs_setCont]
    exact h.lists o

/-! ### The services -/

variable {env : Env} {n : Next}

theorem served_bufferWakeup {b : BufId} {cc : Circbuf} {out : Out}
    (h : bufferWakeup (k.setBody (.buffer b) cc) b out = .ok (n, k')) : Served k p (.buffer b) k' := by
  unfold bufferWakeup at h
  cases hw : wakeup (k.setBody (.buffer b) cc) ((k.setBody (.buffer b) cc).bufs b).bufQueDisc
      (.buffer b) with
  | error f => simp [hw, bind, Except.bind] at h
  | ok x =>
      have hserved : Served k p (.buffer b) x.2 := Served.of_setBody (served_wakeup (q := .buffer b) hw)
      cases hx : x.1 with
      | none =>
          simp only [hw, hx, bind, Except.bind, Except.ok.injEq, Prod.mk.injEq] at h
          exact h.2 ▸ hserved
      | some y =>
          simp only [hw, hx, bind, Except.bind, Except.ok.injEq, Prod.mk.injEq] at h
          exact h.2 ▸ hserved

theorem served_queuingPortWakeup {port : PortId} {cc : Circbuf} {out : Out}
    (h : queuingPortWakeup (k.setBody (.channel (k.ports port).qpChannel) cc) port out = .ok (n, k')) :
    Served k p (.channel (k.ports port).qpChannel) k' := by
  unfold queuingPortWakeup at h
  have hports : (k.setBody (.channel (k.ports port).qpChannel) cc).ports = k.ports := rfl
  rw [hports] at h
  cases hw : wakeup (k.setBody (.channel (k.ports port).qpChannel) cc) (k.ports port).qpDisc
      (.channel (k.ports port).qpChannel) with
  | error f => simp [hw, bind, Except.bind] at h
  | ok x =>
      have hserved : Served k p (.channel (k.ports port).qpChannel) x.2 :=
        Served.of_setBody (served_wakeup (q := .channel (k.ports port).qpChannel) hw)
      simp only [hw, bind, Except.bind, Except.ok.injEq, Prod.mk.injEq] at h
      exact h.2 ▸ hserved

/-- What follows the loop serves the call. -/
theorem served_commFinish (ho : c.que k = some q) (h : commFinish k env c = .ok (n, k')) :
    Served k p q k' := by
  cases c with
  | sendBuffer b msgAddr length timeOut =>
      obtain rfl : Que.buffer b = q := by simpa [CommCall.que] using ho
      exact served_bufferWakeup h
  | receiveBuffer b timeOut msgAddr =>
      obtain rfl : Que.buffer b = q := by simpa [CommCall.que] using ho
      exact served_bufferWakeup h
  | sendQueuingMessage port msgAddr length timeOut =>
      obtain rfl : Que.channel (k.ports port).qpChannel = q := by simpa [CommCall.que] using ho
      exact served_queuingPortWakeup h
  | receiveQueuingMessage port timeOut msgAddr =>
      obtain rfl : Que.channel (k.ports port).qpChannel = q := by simpa [CommCall.que] using ho
      exact served_queuingPortWakeup h
  | readBlackboard b timeOut msgAddr => exact absurd ho (by simp [CommCall.que])

/-- A round of the loop leaves the queues alone. -/
theorem passed_commBlock {w : Int} {i : Nat} (hlink : ∀ o, p ∉ k.waitingProcs o)
    (hmust : mustWait k c = true) (h : commBlock k env p c w i = .ok (n, k')) (q : Que) :
    Passed q p k (settle p (n, k')) := by
  unfold commBlock at h
  split at h
  · simp only [Except.ok.injEq, Prod.mk.injEq] at h
    rw [← h.2]
    exact passed_settle hlink n q
  · simp only [Except.ok.injEq, Prod.mk.injEq] at h
    rw [← h.1, ← h.2]
    exact passed_block hmust w _ q

theorem turn_commEnter (hlink : ∀ o, p ∉ k.waitingProcs o) (ho : c.que k = some q)
    (h : commEnter k env p c = .ok (n, k')) : Turn k p (settle p (n, k')) := by
  unfold commEnter at h
  split at h
  · rename_i hmust
    split at h
    · simp only [Except.ok.injEq, Prod.mk.injEq] at h
      rw [← h.2]
      exact .pass (passed_settle hlink n)
    · exact .pass (passed_commBlock hlink hmust h)
  · exact .serve q ((served_commFinish ho h).settle n)

/-- The process that runs again finds its deadline past, or it has to wait. -/
def runsForNothing (k : Kernel) (env : Env) (c : CommCall) (armed : Int) : Prop :=
  c.timeOut ≠ systemTimeInfiniteVal ∧ armed ≤ env.clk 0 ∨ mustWait k c = true

/-- Back in the loop: the process ran for nothing, or the queue serves it. -/
theorem turn_commResume {w a : Int} (hlink : ∀ o, p ∉ k.waitingProcs o) (ho : c.que k = some q)
    (h : commResume k env p c w a = .ok (n, k')) :
    (runsForNothing k env c a ∧ ∀ q, Passed q p k (settle p (n, k'))) ∨
      ¬ runsForNothing k env c a ∧ Served k p q (settle p (n, k')) := by
  unfold commResume at h
  split at h
  · rename_i hpast
    simp only [Except.ok.injEq, Prod.mk.injEq] at h
    rw [← h.2]
    exact Or.inl ⟨Or.inl hpast, passed_settle hlink n⟩
  · rename_i hpast
    split at h
    · rename_i hmust
      exact Or.inl ⟨Or.inr hmust, passed_commBlock hlink hmust h⟩
    · rename_i hmust
      exact Or.inr ⟨fun hr => hr.elim hpast hmust, (served_commFinish ho h).settle n⟩

theorem turn_retCode {code : RetCode} (hlink : ∀ o, p ∉ k.waitingProcs o)
    (h : retCode k code = .ok (n, k')) : Turn k p (settle p (n, k')) := by
  simp only [retCode, Except.ok.injEq, Prod.mk.injEq] at h
  rw [← h.2]
  exact .pass (passed_settle hlink n)

theorem turn_doClearQueuingPort {port : PortId} (hlink : ∀ o, p ∉ k.waitingProcs o)
    (h : doClearQueuingPort k port = .ok (n, k')) : Turn k p (settle p (n, k')) := by
  unfold doClearQueuingPort at h
  split at h
  · exact turn_retCode hlink h
  rename_i qp _
  split at h
  · exact turn_retCode hlink h
  dsimp only at h
  split at h
  · cases hw : wakeup k qp.qpDisc (Que.channel qp.qpChannel).obj with
    | error f => simp [hw, bind, Except.bind] at h
    | ok x =>
        simp only [hw, bind, Except.bind, retCode, Except.ok.injEq, Prod.mk.injEq] at h
        rw [← h.1, ← h.2]
        exact .serve _ (((served_wakeup hw).setBody _).settle _)
  · rename_i hroom
    simp only [bind, Except.bind, retCode, Except.ok.injEq, Prod.mk.injEq] at h
    rw [← h.1, ← h.2]
    exact .clear _ (by simpa using hroom) rfl

/-- **Every call of the services is a turn.** -/
theorem turn_doSyscall {s : Service} (hs : s.transfers = true) (hlink : ∀ o, p ∉ k.waitingProcs o)
    (h : doSyscall k env p s = .ok (n, k')) : Turn k p (settle p (n, k')) := by
  cases s with
  | sendBuffer b msgAddr length timeOut =>
      simp only [doSyscall, doSendBuffer] at h
      repeat' split at h
      all_goals first | exact turn_retCode hlink h | exact turn_commEnter hlink rfl h
  | receiveBuffer b timeOut msgAddr =>
      simp only [doSyscall, doReceiveBuffer] at h
      repeat' split at h
      all_goals first | exact turn_retCode hlink h | exact turn_commEnter hlink rfl h
  | sendQueuingMessage port msgAddr length timeOut =>
      simp only [doSyscall, doSendQueuingMessage] at h
      repeat' split at h
      all_goals first | exact turn_retCode hlink h | exact turn_commEnter hlink rfl h
  | receiveQueuingMessage port timeOut msgAddr =>
      simp only [doSyscall, doReceiveQueuingMessage] at h
      repeat' split at h
      all_goals first | exact turn_retCode hlink h | exact turn_commEnter hlink rfl h
  | clearQueuingPort port => exact turn_doClearQueuingPort hlink h
  | _ => exact absurd hs (by simp [Service.transfers])

/-! ## Dispatches and timer interrupts -/

namespace Eased

variable {m : Kernel}

theorem refl (k : Kernel) : Eased q k k := ⟨rfl, rfl, rfl, rfl, List.Subset.refl _⟩

theorem trans (h : Eased q k m) (h' : Eased q m k') : Eased q k k' :=
  ⟨h'.ports.trans h.ports, h'.body.trans h.body, h'.conts.trans h.conts, h'.woken.trans h.woken,
    List.Subset.trans h'.lists h.lists⟩

theorem of_eq (hports : k'.ports = k.ports) (hconts : k'.conts = k.conts) (hwoken : k'.woken = k.woken)
    (hbufs : k'.bufs = k.bufs) (hchans : k'.chans = k.chans) : Eased q k k' := by
  refine ⟨hports, ?_, hconts, hwoken, ?_⟩
  · exact (SameQue.of_eq hbufs hchans).body
  · cases q <;> simp [Que.obj, Kernel.waitingProcs, hbufs, hchans]

/-- An expiry takes its process off the list that it waits in. -/
theorem expireProc (te : TimeEvent) (p : ProcId) : Eased q k (expireProc k te p) := by
  have hproc : Eased q k (k.updProc p fun pr => { pr with prState := .ready, prAssoTimer := none }) :=
    .of_eq rfl rfl rfl rfl rfl
  unfold Jrinx.expireProc
  dsimp only
  split
  · exact hproc
  · rename_i o _
    refine hproc.trans ⟨?_, ?_, ?_, ?_, ?_⟩
    · exact Kernel.ports_setWaitingProcs _ o _
    · exact Kernel.body_setWaitingProcs _ o _ q
    · exact Kernel.conts_setWaitingProcs _ o _
    · exact Kernel.woken_setWaitingProcs _ o _
    · rw [delWaitingProc, Kernel.waitingProcs_setWaitingProcs]
      split
      · rename_i ho
        rw [ho]
        exact List.erase_subset
      · exact List.Subset.refl _

end Eased

/-- An effect of the hart only takes processes off wait lists. -/
theorem Eff.eased {a : Act} (he : Eff k a k') (ha : a.ofHart = true) (q : Que) : Eased q k k' := by
  cases he with
  | @dispatch p _ done =>
      rw [(dispatch_eq_ok done).2]
      rcases schedProcSt_cases k with hst | ⟨cur, -, -, hst⟩ <;> rw [hst] <;> exact .of_eq rfl rfl rfl rfl rfl
  | @expire te es p head proc => exact (Eased.expireProc te p).trans (.of_eq rfl rfl rfl rfl rfl)
  | partition head proc => exact .of_eq rfl rfl rfl rfl rfl
  | global done =>
      obtain ⟨pt, rfl⟩ | ⟨time, mods, pt, rfl⟩ := schedGlobal_eq_ok done <;> exact .of_eq rfl rfl rfl rfl rfl
  | _ => exact absurd ha (by simp [Act.ofHart])

theorem eased_of_path (h : Path (fun _ a => a.ofHart = true) k k') (q : Que) : Eased q k k' := by
  induction h with
  | refl k => exact .refl k
  | cons he ha _ ih => exact (he.eased ha q).trans ih

/-! ## The characterization -/

/-- **A wake-up is lost**: the last process that was woken up for the queue runs again for nothing, while
the queue could serve a process that is still linked. -/
def LosesWakeup (k : Kernel) (e : Event) : Prop :=
  ∃ env p c w a q, e = .resume env ∧ live k = some p ∧ k.conts p = some (.comm c w a) ∧
    c.obj k = q.obj ∧ k.woken p = true ∧ (∀ x, TakenOff k q x → x = p) ∧
    runsForNothing k env c a ∧ Servable k q

/-- Only the rest of a call loses a wake-up. -/
theorem not_losesWakeup {e : Event} (he : ∀ env, e ≠ .resume env) : ¬ LosesWakeup k e := by
  rintro ⟨env, -, -, -, -, -, rfl, -⟩
  exact he env rfl

theorem servable_setWoken : Servable (k.setWoken p false) q ↔ Servable k q := by
  cases q <;> rfl

theorem takenOff_setWoken (x : ProcId) :
    TakenOff (k.setWoken p false) q x ↔ x ≠ p ∧ TakenOff k q x := by
  by_cases hx : x = p
  · simp [TakenOff, Kernel.setWoken, hx]
  · simp only [TakenOff, Kernel.setWoken, Function.update_of_ne hx, hx, ne_eq, not_false_eq_true,
      true_and]
    rfl

/-- Another process that was woken up is still to run. -/
theorem covered_setWoken (hoff : ¬ TakenOff k q p) (hc : Covered k q) :
    Covered (k.setWoken p false) q := by
  intro hs
  obtain ⟨x, hx⟩ := hc (servable_setWoken.mp hs)
  have hne : x ≠ p := fun heq => hoff (heq ▸ hx)
  exact ⟨x, (takenOff_setWoken x).mpr ⟨hne, hx⟩⟩

theorem not_takenOff_setWoken : ¬ TakenOff (k.setWoken p false) q p :=
  fun h => ((takenOff_setWoken p).mp h).1 rfl

theorem WaitInv.setWoken (hi : WaitInv k) (p : ProcId) : WaitInv (k.setWoken p false) :=
  hi.congr rfl (fun _ _ => rfl) (fun _ _ _ _ _ => rfl) (fun o => by cases o <;> rfl) rfl rfl rfl

theorem runsForNothing_setWoken {env : Env} {a : Int} :
    runsForNothing (k.setWoken p false) env c a ↔ runsForNothing k env c a := by
  rw [runsForNothing, runsForNothing, mustWait_setWoken]

/-- A turn keeps the queues covered, when the process on the hart is not one that was woken up. -/
theorem Turn.covered (h : Turn k p k') (hi : WaitInv k) (hlink : ∀ o, p ∉ k.waitingProcs o)
    (hoff : ∀ q, ¬ TakenOff k q p) (hc : ∀ q, Covered k q) (q : Que) : Covered k' q := by
  cases h with
  | pass passed => exact (passed q).covered (hoff q) (hc q)
  | serve q' served => exact served.covered hi hlink hoff (fun q _ => hc q) q
  | clear q' room cleared =>
      rw [cleared]
      exact covered_clear room hlink hoff hc q

/-- The process on the hart is linked nowhere. -/
theorem WaitInv.not_linked (hi : WaitInv k) (hl : live k = some p) (o : WaitObj) :
    p ∉ k.waitingProcs o :=
  ((hi.procs p).unheld_of_not_waiting (not_waiting_of_free (Or.inl (live_eq_some.mp hl).runs))).lists o

theorem WaitInv.not_linked_setWoken (hi : WaitInv k) (hl : live k = some p) (o : WaitObj) :
    p ∉ (k.setWoken p false).waitingProcs o := by
  rw [Kernel.waitingProcs_setWoken]
  exact hi.not_linked hl o

theorem commResume_readBlackboard {b : BbId} {t : Int} {m : Nat} {w a : Int} {env : Env} {n : Next}
    (hlink : ∀ o, p ∉ k.waitingProcs o)
    (h : commResume k env p (.readBlackboard b t m) w a = .ok (n, k')) (q : Que) :
    Passed q p k (settle p (n, k')) := by
  unfold commResume at h
  split at h
  · simp only [Except.ok.injEq, Prod.mk.injEq] at h
    rw [← h.2]
    exact passed_settle hlink n q
  · split at h
    · rename_i hmust
      exact passed_commBlock hlink hmust h q
    · simp only [commFinish, Except.ok.injEq, Prod.mk.injEq] at h
      rw [← h.2]
      exact passed_settle hlink n q

/-- What it means for the process on the hart to lose a wake-up. -/
theorem losesWakeup_iff {env : Env} {w a : Int} (hl : live k = some p)
    (hcont : k.conts p = some (.comm c w a)) (ho : c.obj k = q.obj) :
    LosesWakeup k (.resume env) ↔ k.woken p = true ∧ (∀ x, TakenOff k q x → x = p) ∧
      runsForNothing k env c a ∧ Servable k q := by
  constructor
  · rintro ⟨env', p', c', w', a', q', he, hl', hcont', ho', hlost⟩
    obtain rfl := Event.resume.inj he
    obtain rfl := Option.some.inj (hl.symm.trans hl')
    obtain ⟨rfl, -, rfl⟩ := Cont.comm.inj (Option.some.inj (hcont.symm.trans hcont'))
    obtain rfl := Que.obj_inj.mp (ho.symm.trans ho')
    exact hlost
  · intro hlost
    exact ⟨env, p, c, w, a, q, rfl, hl, hcont, ho, hlost⟩

/-- **The rest of a call on a queue** keeps the queues covered iff it loses no wake-up. -/
theorem resume_covered_iff {env : Env} {w a : Int} {n : Next} (hi : WaitInv k) (hcov : ∀ q, Covered k q)
    (hl : live k = some p) (hcont : k.conts p = some (.comm c w a)) (ho : c.obj k = q.obj)
    (h : commResume (k.setWoken p false) env p c w a = .ok (n, k')) :
    (∀ q, Covered (settle p (n, k')) q) ↔ ¬ LosesWakeup k (.resume env) := by
  have hlink := hi.not_linked_setWoken hl
  -- the caller was taken off the list of its own queue only
  have hothers : ∀ q', q' ≠ q → ¬ TakenOff k q' p := by
    rintro q' hne ⟨-, c', w', a', hc', ho'⟩
    rw [hcont, Option.some.injEq, Cont.comm.injEq] at hc'
    rw [← hc'.1, ho] at ho'
    exact hne (Que.obj_inj.mp ho').symm
  have hque : c.que (k.setWoken p false) = some q := CommCall.que_eq_some.mpr ho
  rw [losesWakeup_iff hl hcont ho]
  rcases turn_commResume hlink hque h with ⟨hvain, hpassed⟩ | ⟨hserves, hserved⟩
  · rw [runsForNothing_setWoken] at hvain
    -- the call ends without serving anybody: it matters whether another process is still to come
    by_cases hlost : k.woken p = true ∧ (∀ x, TakenOff k q x → x = p) ∧ Servable k q
    · obtain ⟨hwoken, hlast, hservable⟩ := hlost
      -- nobody else is to come, and the process that waits stays on the list
      have hbase : ¬ Covered (k.setWoken p false) q := by
        intro hc
        obtain ⟨x, hx⟩ := hc (servable_setWoken.mpr hservable)
        obtain ⟨hne, hx⟩ := (takenOff_setWoken x).mp hx
        exact hne (hlast x hx)
      have hnot : ¬ Covered (settle p (n, k')) q :=
        (hpassed q).not_covered (hlink _) (by simp [Kernel.setWoken]) hbase
      exact ⟨fun hall => absurd (hall q) hnot, fun hno => absurd ⟨hwoken, hlast, hvain, hservable⟩ hno⟩
    · refine ⟨fun _ hl => hlost ⟨hl.1, hl.2.1, hl.2.2.2⟩, fun _ q' => ?_⟩
      refine (hpassed q').covered not_takenOff_setWoken ?_
      by_cases hq : q' = q
      · subst hq
        intro hs
        rw [servable_setWoken] at hs
        obtain ⟨x, hx⟩ := hcov q' hs
        -- another process is still to come, and covers the queue
        have hother : ∃ y, y ≠ p ∧ TakenOff k q' y := by
          by_contra hnone
          have hlast : ∀ y, TakenOff k q' y → y = p := fun y hy => by
            by_contra hy'
            exact hnone ⟨y, hy', hy⟩
          exact hlost ⟨hlast x hx ▸ hx.1, hlast, hs⟩
        obtain ⟨y, hy⟩ := hother
        exact ⟨y, (takenOff_setWoken y).mpr hy⟩
      · exact covered_setWoken (hothers q' hq) (hcov q')
  · refine ⟨fun _ hl => hserves (runsForNothing_setWoken.mpr hl.2.2.1), fun _ => ?_⟩
    exact hserved.covered (hi.setWoken p) hlink (fun _ => not_takenOff_setWoken)
      fun q' hq => covered_setWoken (hothers q' hq) (hcov q')

/-- The rest of a call that holds no wake-up. -/
theorem resume_covered {env : Env} (hcov : ∀ q, Covered k q) (hl : live k = some p)
    (hoff : ∀ (q : Que) c w a, k.conts p = some (.comm c w a) → c.obj k ≠ q.obj)
    (hpassed : ∀ q, Passed q p (k.setWoken p false) k') :
    (∀ q, Covered k' q) ↔ ¬ LosesWakeup k (.resume env) := by
  constructor
  · rintro - ⟨env', p', c', w', a', q', -, hl', hcont', ho', -⟩
    obtain rfl := Option.some.inj (hl.symm.trans hl')
    exact hoff q' c' w' a' hcont' ho'
  · intro _ q
    refine (hpassed q).covered not_takenOff_setWoken (covered_setWoken ?_ (hcov q))
    rintro ⟨-, c, w, a, hcont, ho⟩
    exact hoff q c w a hcont ho

/-- **A step** keeps the queues covered iff it loses no wake-up. -/
theorem step_covered_iff {e : Event} (hi : WaitInv k) (hcov : ∀ q, Covered k q) (he : e.Transfers)
    (h : step k e = .ok k') : (∀ q, Covered k' q) ↔ ¬ LosesWakeup k e := by
  rcases step_eq_ok h with ⟨p, rfl, hd⟩ | ⟨clk, r, rfl, ht⟩ | ⟨p, ⟨n, k₁⟩, hs, rfl⟩
  · exact ⟨fun _ => not_losesWakeup (by simp), fun _ q => ((Eff.dispatch hd).eased rfl q).covered (hcov q)⟩
  · have hpath : Path (fun _ a => a.ofHart = true) k k' := path_timeEventAction (fun _ _ ha => ha) ht
    exact ⟨fun _ => not_losesWakeup (by simp), fun _ q => (eased_of_path hpath q).covered (hcov q)⟩
  obtain ⟨hl, ⟨env, s, rfl, hfree, hout⟩ | ⟨env, cont, rfl, hcont, hout⟩⟩ := segment_eq_some hs
  · -- the first segment of a call
    have hturn : Turn k p (settle p (n, k₁)) := turn_doSyscall he (hi.not_linked hl) hout.symm
    have hoff : ∀ q, ¬ TakenOff k q p := by
      rintro q ⟨-, c, w, a, hcont, -⟩
      rw [hfree] at hcont
      exact absurd hcont (by simp)
    exact ⟨fun _ => not_losesWakeup (by simp), fun _ => hturn.covered hi (hi.not_linked hl) hoff hcov⟩
  have hlink := hi.not_linked_setWoken hl
  -- the rest of a call: on a queue, on a blackboard, or without an object
  cases cont with
  | comm c w a =>
      simp only [resumeCont] at hout
      cases hq : c.que k with
      | some q => exact resume_covered_iff hi hcov hl hcont (CommCall.que_eq_some.mp hq) hout.symm
      | none =>
          cases c with
          | readBlackboard b t m =>
              refine resume_covered hcov hl ?_ (commResume_readBlackboard hlink hout.symm)
              intro q c' w' a' hc' ho'
              rw [hcont, Option.some.injEq, Cont.comm.injEq] at hc'
              rw [← hc'.1, ← CommCall.que_eq_some, hq] at ho'
              exact absurd ho' (by simp)
          | _ => exact absurd hq (by simp [CommCall.que])
  | suspendSelf w =>
      simp only [resumeCont, retCode, Except.ok.injEq, Prod.mk.injEq] at hout
      rw [hout.2]
      refine resume_covered hcov hl ?_ (passed_settle hlink n)
      rintro q c' w' a' hc' -
      exact absurd (hcont.symm.trans hc') (by simp)
  | done code out =>
      simp only [resumeCont, Except.ok.injEq, Prod.mk.injEq] at hout
      rw [hout.2]
      refine resume_covered hcov hl ?_ (passed_settle hlink n)
      rintro q c' w' a' hc' -
      exact absurd (hcont.symm.trans hc') (by simp)

/-- Nobody waits in a quiet state. -/
theorem Quiet.covered (hq : Quiet k) (q : Que) : Covered k q := by
  rintro ⟨p, hl, -⟩
  rw [hq.lists] at hl
  exact absurd hl List.not_mem_nil

/-- The events of the services stop no process. -/
theorem Event.Transfers.stopsUnlinked {e : Event} (he : e.Transfers) : StopsUnlinked k e := by
  rintro env id rfl
  exact absurd he (by simp [Event.Transfers, Service.transfers])

/-- **No wake-up is lost throughout a run** iff no step of the run loses one. -/
theorem no_lost_wakeup_iff {tr : List (Kernel × Event)} (hq : Quiet k) (hrun : Run k tr k')
    (hdom : AllSteps (fun _ e => e.Transfers) tr) :
    Throughout NoLostWakeup tr k' ↔ AllSteps (fun k e => ¬ LosesWakeup k e) tr := by
  refine hrun.forall_iff_within (I := fun k => (WaitInv k ∧ Registered k) ∧ ∀ q, Covered k q)
    ⟨⟨hq.waitInv, hq.registered⟩, hq.covered⟩ hdom ?_ ?_ ?_
  · rintro a ⟨⟨hi, -⟩, hcov⟩
    exact hi.noLostWakeup_iff.mpr hcov
  · rintro a e b ⟨⟨hi, hr⟩, hcov⟩ he hok h
    exact ⟨⟨hi.step hr he.stopsUnlinked h, (hr.step h).1⟩, (step_covered_iff hi hcov he h).mpr hok⟩
  · rintro a e b ⟨⟨hi, hr⟩, hcov⟩ he hbad h hlaw
    have hi' : WaitInv b := hi.step hr he.stopsUnlinked h
    exact hbad ((step_covered_iff hi hcov he h).mp (hi'.noLostWakeup_iff.mp hlaw))

/-- Two receivers block on the empty buffer, then a sender blocks on the full one. The first receiver
takes the message and wakes up the second one, which finds nothing. -/
def receiverWakesReceiver : List Event :=
  let env : Env := ⟨fun _ => 0, fun _ => 0⟩
  let receive := Service.receiveBuffer 1 systemTimeInfiniteVal 0
  let send := Service.sendBuffer 1 0 1 systemTimeInfiniteVal
  [.call env receive, .dispatch 2, .call env receive, .dispatch 3, .call env send, .resume env,
    .call env send, .dispatch 1, .resume env, .resume env, .dispatch 2, .resume env]

/-- A wake-up can be lost: although every process has finished its call or is blocked, a sender waits on a
buffer that is not full. -/
theorem wakeup_lost : ¬ ∀ (k k' : Kernel) (tr : List (Kernel × Event)), Quiet k → Run k tr k' →
    AllSteps (fun _ e => e.Transfers) tr →
    (∀ p ∈ k'.procIds, ∀ c, k'.conts p = some c → ∃ o, Blocked k' p o) → NoLostWakeup k' := by
  intro hall
  have hq := quiet_smallSystem 1 .fifo [1, 2, 3]
  obtain ⟨k', hrun, hcheck⟩ := Exec.of_checkRun step (smallSystem 1 .fifo [1, 2, 3]) receiverWakesReceiver
    (fun k => decide (k.procIds = [1, 2, 3] ∧ k.waitingProcs (.buffer 1) = [3, 2] ∧ k.conts 1 = none ∧
      k.conts 3 = some (.comm (.sendBuffer 1 0 1 systemTimeInfiniteVal) systemTimeInfiniteVal
        systemTimeInfiniteVal) ∧
      (k.woken 1 = false ∧ k.woken 2 = false ∧ k.woken 3 = false) ∧
      circbufIsFull (k.body (.buffer 1)) = false)) (by decide +kernel)
  obtain ⟨hids, hlists, hfree, hsend, ⟨hwoken₁, hwoken₂, hwoken₃⟩, hroom⟩ := of_decide_eq_true hcheck
  have hdom : AllSteps (fun _ e => e.Transfers)
      (traceEvents step (smallSystem 1 .fifo [1, 2, 3]) receiverWakesReceiver) :=
    allSteps_traceEvents (by simp [receiverWakesReceiver, Event.Transfers, Service.transfers])
  have hinv : WaitInv k' ∧ Registered k' := by
    refine hrun.invariant_of_forall (I := fun k => WaitInv k ∧ Registered k) ⟨hq.waitInv, hq.registered⟩
      hdom ?_
    rintro a e b ⟨hi, hr⟩ he h
    exact ⟨hi.step hr he.stopsUnlinked h, (hr.step h).1⟩
  -- both processes on the list are blocked there
  have hblocked : ∀ p ∈ [3, 2], Blocked k' p (.buffer 1) := fun p hp =>
    ((hinv.1.procs p).linked _).mp (hlists ▸ hp)
  -- and so nobody is between two segments
  have hfinished : ∀ p ∈ k'.procIds, ∀ c, k'.conts p = some c → ∃ o, Blocked k' p o := by
    intro p hp c hc
    rw [hids] at hp
    simp only [List.mem_cons, List.not_mem_nil, or_false] at hp
    rcases hp with rfl | rfl | rfl
    · exact absurd (hfree.symm.trans hc) (by simp)
    · exact ⟨_, hblocked 2 (by simp)⟩
    · exact ⟨_, hblocked 3 (by simp)⟩
  -- nobody that was taken off the list is still to come
  have hsettled : Settled k' (.buffer 1) := by
    rintro p ⟨hw, c, w, a, hc, -⟩
    have hp := (hinv.2.calls p c w a hc).1
    rw [hids] at hp
    simp only [List.mem_cons, List.not_mem_nil, or_false] at hp
    rcases hp with rfl | rfl | rfl
    · exact absurd (hwoken₁.symm.trans hw) (by decide)
    · exact absurd (hwoken₂.symm.trans hw) (by decide)
    · exact absurd (hwoken₃.symm.trans hw) (by decide)
  have hfull := hall _ _ _ hq hrun hdom hfinished (.buffer 1) hsettled 3 _ ⟨hblocked 3 (by simp), _, _, hsend⟩
  exact absurd (hroom.symm.trans hfull) (by decide)

/-- A run without a loss: the process that was woken up receives the message. -/
def sendWakesReceiver : List Event :=
  let env : Env := ⟨fun _ => 0, fun _ => 0⟩
  [.call env (.receiveBuffer 1 systemTimeInfiniteVal 0), .dispatch 2,
    .call env (.sendBuffer 1 0 1 systemTimeInfiniteVal), .dispatch 1, .resume env]

theorem no_lost_wakeup_sendWakesReceiver : ∃ k' tr, Run (smallSystem 1 .fifo [1, 2]) tr k' ∧
    (Throughout NoLostWakeup tr k' ↔ AllSteps (fun k e => ¬ LosesWakeup k e) tr) := by
  obtain ⟨k', hrun, -⟩ := Exec.of_checkRun step (smallSystem 1 .fifo [1, 2]) sendWakesReceiver
    (fun _ => true) (by decide +kernel)
  refine ⟨k', _, hrun, no_lost_wakeup_iff (quiet_smallSystem 1 .fifo [1, 2]) hrun ?_⟩
  exact allSteps_traceEvents (by simp [sendWakesReceiver, Event.Transfers, Service.transfers])

end Jrinx
