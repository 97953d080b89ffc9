import Jrinx.Lib.Lines
import Jrinx.LostWakeups
import Jrinx.Timeouts

/-! # Overtaking on a first-in first-out queue

Senders and receivers of a queue wait in one list. A successful call takes the first process off the list,
whichever side it is on, and that process looks at the queue again when it is dispatched: meanwhile another
call may have been served, and then it goes to the end of the list.

* **`Arrivals`**, **`arrive`** — the order of the calls and of the wake-ups, counted along a run.
* **`NoOvertaking`** — a step serves no call before an older one of the same side.
* **`lineOf`** — those who were woken up, then those who wait.
* **`InTurn`**, **`KeepsPlace`** — the first of the line is served; who waits again was the last.
* **`no_overtaking_iff`** — over all runs without time-outs. -/

namespace Jrinx

variable {k k' : Kernel} {q : Que} {x p : ProcId} {c : CommCall}

/-! ## The order of the calls -/

/-- The side of the queue on which the process is in a call: `true` for a `RECEIVE`. -/
def sideOf (k : Kernel) (q : Que) (p : ProcId) : Option Bool :=
  match k.conts p with
  | some (.comm c _ _) => if c.obj k = q.obj then some c.receives else none
  | _ => none

/-- What is counted along a run, for one queue. -/
structure Arrivals where
  /-- The number of steps so far. -/
  steps : Nat
  /-- The step in which a process issued the call it is in. -/
  issued : ProcId → Nat
  /-- The processes that wake-ups took off the wait list and that have not run since, in the order of
  the wake-ups. -/
  called : List ProcId

namespace Arrivals

/-- Before the first step. -/
def start : Arrivals := ⟨0, fun _ => 0, []⟩

/-- The step in which the process issued its call; a process without a call would issue it now. -/
def issuedBy (m : Arrivals) (k : Kernel) (p : ProcId) : Nat :=
  if k.conts p = none then m.steps else m.issued p

/-- What is counted after a step from `k` to `k'`. -/
def after (q : Que) (m : Arrivals) (k k' : Kernel) : Arrivals where
  steps := m.steps + 1
  issued := m.issuedBy k
  -- a wake-up takes its process off the list, and the process loses the mark when it runs
  called := (m.called ++ k.waitingProcs q.obj).filter fun p => k'.woken p

end Arrivals

/-- A step of the kernel, with the count for the queue. -/
def arrive (q : Que) (s : Kernel × Arrivals) (e : Event) : Except Fault (Kernel × Arrivals) :=
  (step s.1 e).map fun k' => (k', s.2.after q s.1 k')

/-- The side of an operation: `CLEAR_QUEUING_PORT` is on none. -/
def QueueOp.side : QueueOp Msg → Option Bool
  | .enq _ => some false
  | .deq _ => some true
  | .clear => none

/-- **No overtaking** in the step: where it enqueues or delivers a message, no process is blocked on the
queue in a call of the same side that was issued before. -/
def NoOvertaking (q : Que) (s : Kernel × Arrivals) (e : Event) : Prop :=
  ∀ x op r, live s.1 = some x → queueOp s.1 e q = some op → op.side = some r →
    ∀ p, sideOf s.1 q p = some r → ¬ s.2.issuedBy s.1 p < s.2.issuedBy s.1 x

/-! ## The domain -/

/-- The calls are `SEND`, `RECEIVE` and `CLEAR_QUEUING_PORT`, and they wait for ever or not at all. -/
def Event.Untimed (e : Event) : Prop :=
  e.Transfers ∧ ∀ env s c, e = .call env s → s.commCall = some c →
    c.timeOut = 0 ∨ c.timeOut = systemTimeInfiniteVal

/-- The queuing discipline of the queue is first-in first-out; that of a channel is given at its ports. -/
def FifoQue (k : Kernel) : Que → Prop
  | .buffer b => (k.bufs b).bufQueDisc = .fifo
  | .channel ch => ∀ port ∈ k.portIds, (k.ports port).qpChannel = ch → (k.ports port).qpDisc = .fifo

/-! ## The condition -/

/-- The service of the call passes its own checks. -/
def CommCall.admitted (k : Kernel) : CommCall → Bool
  | .sendBuffer b _ length _ =>
      (curBuffer k b).any fun buf => decide (length ≤ buf.bufMaxMsgSize) && decide (length ≠ 0)
  | .receiveBuffer b _ _ => (curBuffer k b).isSome
  | .sendQueuingMessage port _ length _ =>
      (curQueuingPort k port).any fun qp =>
        decide (length ≤ (k.chans qp.qpChannel).chMaxMsgSize) && decide (length ≠ 0) &&
          decide (qp.qpDir = .source)
  | .receiveQueuingMessage port _ _ =>
      (curQueuingPort k port).any fun qp => decide (qp.qpDir = .destination)
  | .readBlackboard b _ _ => (curBlackboard k b).isSome

/-- The step takes a call on the queue to the condition of its loop, on entry or once more. -/
structure Reaches (q : Que) (k : Kernel) (e : Event) (x : ProcId) (c : CommCall) : Prop where
  call : inCall k e = some (x, c)
  obj : c.obj k = q.obj
  passes : k.conts x = none → c.admitted k = true

/-- The line on one side of the queue: those who were woken up, then those who wait. -/
def lineOf (q : Que) (s : Kernel × Arrivals) (r : Bool) : List ProcId :=
  (s.2.called ++ s.1.waitingProcs q.obj).filter fun p => sideOf s.1 q p = some r

/-- **In turn**: the queue serves the first of the line, or a newcomer when there is no line. -/
def InTurn (q : Que) (s : Kernel × Arrivals) (e : Event) : Prop :=
  ∀ x c, Reaches q s.1 e x c → mustWait s.1 c = false → ∀ p ∈ (lineOf q s c.receives).head?, p = x

/-- **Nobody loses its place**: a process that was woken up and has to wait again was the last of its
line. -/
def KeepsPlace (q : Que) (s : Kernel × Arrivals) (e : Event) : Prop :=
  ∀ x c, Reaches q s.1 e x c → s.1.conts x ≠ none → mustWait s.1 c = true →
    (lineOf q s c.receives).getLast? = some x

theorem sideOf_eq_some {r : Bool} :
    sideOf k q p = some r ↔ ∃ c w a, k.conts p = some (.comm c w a) ∧ c.obj k = q.obj ∧ c.receives = r := by
  unfold sideOf
  split
  · rename_i c w a hc
    simp only [hc, Option.some.injEq, Cont.comm.injEq]
    constructor
    · intro h
      split at h
      · rename_i ho
        exact ⟨c, w, a, ⟨rfl, rfl, rfl⟩, ho, Option.some.inj h⟩
      · exact absurd h (by simp)
    · rintro ⟨c', w', a', ⟨rfl, rfl, rfl⟩, ho, hr⟩
      rw [if_pos ho, hr]
  · rename_i hno
    simp only [reduceCtorEq, false_iff]
    rintro ⟨c, w, a, hc, -⟩
    exact hno c w a hc

theorem sideOf_congr (hports : k'.ports = k.ports) (hconts : k'.conts p = k.conts p) :
    sideOf k' q p = sideOf k q p := by
  have hobj : ∀ c : CommCall, c.obj k' = c.obj k := CommCall.obj_of_ports hports
  simp only [sideOf, hconts, hobj]

/-- A process on a side of the queue is in a call. -/
theorem conts_of_sideOf (h : sideOf k q p ≠ none) : k.conts p ≠ none := by
  intro hnone
  simp [sideOf, hnone] at h

/-- A process that is linked in another list is in no call on the queue. -/
theorem WaitInv.sideOf_eq_none (hi : WaitInv k) {o : WaitObj} (hl : p ∈ k.waitingProcs o) (ho : o ≠ q.obj) :
    sideOf k q p = none := by
  by_contra hside
  obtain ⟨r, hr⟩ := Option.ne_none_iff_exists'.mp hside
  obtain ⟨c, w, a, hc, hobj, -⟩ := sideOf_eq_some.mp hr
  obtain ⟨c', w', a', hc', ho'⟩ := (((hi.procs p).linked o).mp hl).call
  rw [hc, Option.some.injEq, Cont.comm.injEq] at hc'
  rw [← hc'.1, hobj] at ho'
  exact ho ho'.symm

/-! ## What a segment leaves alone -/

/-- Nothing that decides about the order changed: the ports, the disciplines, the calls in progress, and no
event of a process was queued. -/
structure Framed (k k' : Kernel) : Prop where
  ports : k'.ports = k.ports
  portIds : k'.portIds = k.portIds
  disc : ∀ b, (k'.bufs b).bufQueDisc = (k.bufs b).bufQueDisc
  conts : k'.conts = k.conts
  events : ∀ te ∈ k'.teq, te ∈ k.teq ∨ te.teType.proc = none

namespace Framed

variable {m : Kernel}

theorem refl (k : Kernel) : Framed k k := ⟨rfl, rfl, fun _ => rfl, rfl, fun _ h => Or.inl h⟩

theorem trans (h : Framed k m) (h' : Framed m k') : Framed k k' where
  ports := h'.ports.trans h.ports
  portIds := h'.portIds.trans h.portIds
  disc b := (h'.disc b).trans (h.disc b)
  conts := h'.conts.trans h.conts
  events te hte := (h'.events te hte).elim (h.events te) Or.inr

theorem setWaitingProcs (o : WaitObj) (l : List ProcId) : Framed k (k.setWaitingProcs o l) := by
  refine ⟨by simp, ?_, fun b => ?_, by simp, fun te hte => Or.inl (by simpa using hte)⟩
  · cases o <;> rfl
  · cases o with
    | buffer b' =>
        simp only [Kernel.setWaitingProcs, Function.update_apply]
        split
        · rename_i hb
          rw [hb]
        · rfl
    | blackboard b' => rfl
    | channel ch => rfl

theorem setBody (q : Que) (cc : Circbuf) : Framed k (k.setBody q cc) := by
  refine ⟨(Same.setBody q cc).ports, ?_, fun b => ?_, by simp, fun te hte => Or.inl (by simpa using hte)⟩
  · cases q <;> rfl
  · cases q with
    | buffer b' =>
        simp only [Kernel.setBody, Function.update_apply]
        split
        · rename_i hb
          rw [hb]
        · rfl
    | channel ch => rfl

/-- An update of the processes and of the marks. -/
theorem of_eq (hports : k'.ports = k.ports) (hids : k'.portIds = k.portIds) (hbufs : k'.bufs = k.bufs)
    (hconts : k'.conts = k.conts) (hteq : k'.teq = k.teq) : Framed k k' :=
  ⟨hports, hids, fun b => by rw [hbufs], hconts, fun te hte => Or.inl (hteq ▸ hte)⟩

theorem timeEventFree {te : Option Nat} (h : Jrinx.timeEventFree k te = .ok k') : Framed k k' := by
  obtain ⟨i, -, -, rfl⟩ := mem_of_timeEventFree h
  exact ⟨rfl, rfl, fun _ => rfl, rfl, fun te hte => Or.inl (List.mem_filter.mp hte).1⟩

theorem wakeProc {o : WaitObj} (h : Jrinx.wakeProc k o p = .ok k') : Framed k k' := by
  obtain ⟨k₁, hk₁, rfl⟩ := wakeProc_eq_ok h
  have hdel : Framed k k₁ := by
    rcases hk₁ with ⟨-, hfree⟩ | ⟨-, rfl⟩
    · exact (setWaitingProcs o _).trans (timeEventFree hfree)
    · exact setWaitingProcs o _
  exact hdel.trans (of_eq rfl rfl rfl rfl rfl)

theorem sideOf_eq (h : Framed k k') (q : Que) (p : ProcId) : sideOf k' q p = sideOf k q p :=
  sideOf_congr h.ports (congrFun h.conts p)

theorem fifoQue (h : Framed k k') (hf : FifoQue k q) : FifoQue k' q := by
  cases q with
  | buffer b =>
      show (k'.bufs b).bufQueDisc = .fifo
      rw [h.disc]
      exact hf
  | channel ch =>
      intro port hport hch
      rw [h.portIds] at hport
      rw [h.ports] at hch ⊢
      exact hf port hport hch

end Framed

/-- What a wake-up makes of the list and of the marks of those in calls on the queue: nothing, or the first
process of the list is taken off and marked. -/
def Shifts (q : Que) (k k' : Kernel) : Prop :=
  (k'.waitingProcs q.obj = k.waitingProcs q.obj ∧ ∀ p, sideOf k q p ≠ none → k'.woken p = k.woken p) ∨
    ∃ y l, k.waitingProcs q.obj = y :: l ∧ k'.waitingProcs q.obj = l ∧
      ∀ p, sideOf k q p ≠ none → k'.woken p = if p = y then true else k.woken p

/-- What a segment does to the queue as long as it links no process: only linked processes are marked. -/
structure Stirs (q : Que) (k k' : Kernel) : Prop extends Framed k k' where
  moved : Shifts q k k'
  marks : ∀ p, (∀ o, p ∉ k.waitingProcs o) → k'.woken p = true → k.woken p = true

namespace Stirs

variable {m : Kernel} {env : Env} {n : Next}

/-- Nothing happened to the list. -/
theorem still (h : Framed k k') (hlists : k'.waitingProcs q.obj = k.waitingProcs q.obj)
    (hwoken : k'.woken = k.woken) : Stirs q k k' :=
  ⟨h, Or.inl ⟨hlists, fun p _ => by rw [hwoken]⟩, fun p _ hp => hwoken ▸ hp⟩

/-- A change of messages, then a wake-up. -/
theorem of_setBody {q' : Que} {cc : Circbuf} (h : Stirs q (k.setBody q' cc) k') : Stirs q k k' := by
  have hside : ∀ p, sideOf (k.setBody q' cc) q p = sideOf k q p := (Framed.setBody q' cc).sideOf_eq q
  refine ⟨(Framed.setBody q' cc).trans h.toFramed, ?_, ?_⟩
  · have hmoved := h.moved
    simpa only [Shifts, Kernel.waitingProcs_setBody, Kernel.woken_setBody, hside] using hmoved
  · have hmarks := h.marks
    simpa only [Kernel.waitingProcs_setBody, Kernel.woken_setBody] using hmarks

/-- A wake-up, then a change of messages. -/
theorem setBody (h : Stirs q k k') (q' : Que) (cc : Circbuf) : Stirs q k (k'.setBody q' cc) := by
  refine ⟨h.toFramed.trans (Framed.setBody q' cc), ?_, ?_⟩
  · simpa only [Shifts, Kernel.waitingProcs_setBody, Kernel.woken_setBody] using h.moved
  · simpa only [Kernel.woken_setBody] using h.marks

/-- **A wake-up** takes the first of the list of the queue, or a process that is in no call on it. -/
theorem wakeup {disc : QueDisc} {o : WaitObj} {woke : Option ProcId} (hi : WaitInv k)
    (hdisc : o = q.obj → disc = .fifo) (h : Jrinx.wakeup k disc o = .ok (woke, k')) : Stirs q k k' := by
  rcases wakeup_eq_ok h with ⟨-, -, rfl⟩ | ⟨y, -, hpick, hwake⟩
  · exact still (.refl _) rfl rfl
  have hlists := waitingProcs_wakeProc hwake q.obj
  have hwoken := woken_of_wakeProc hwake
  refine ⟨Framed.wakeProc hwake, ?_, fun p hp hmark => ?_⟩
  swap
  · have hne : p ≠ y := by
      rintro rfl
      exact hp o (mem_of_pickWaiting hpick)
    rwa [hwoken, Function.update_of_ne hne] at hmark
  by_cases ho : o = q.obj
  · subst ho
    rw [hdisc rfl] at hpick
    obtain ⟨l, hl⟩ := List.head?_eq_some_iff.mp hpick
    rw [if_pos rfl, hl, List.erase_cons_head] at hlists
    exact Or.inr ⟨y, l, hl, hlists, fun p _ => by rw [hwoken, Function.update_apply]⟩
  · rw [if_neg (Ne.symm ho)] at hlists
    refine Or.inl ⟨hlists, fun p hp => ?_⟩
    have hne : p ≠ y := by
      rintro rfl
      exact hp (hi.sideOf_eq_none (mem_of_pickWaiting hpick) ho)
    rw [hwoken, Function.update_of_ne hne]

/-- The end of a service on a buffer. -/
theorem bufferWakeup {b : BufId} {q' : Que} {cc : Circbuf} {out : Out} (hi : WaitInv k) (hf : FifoQue k q)
    (h : Jrinx.bufferWakeup (k.setBody q' cc) b out = .ok (n, k')) : Stirs q k k' := by
  unfold Jrinx.bufferWakeup at h
  generalize hw : Jrinx.wakeup _ _ _ = y at h
  rcases y with f | ⟨woke, k₁⟩
  · exact absurd h (by simp [bind, Except.bind])
  have hdisc : WaitObj.buffer b = q.obj → ((k.setBody q' cc).bufs b).bufQueDisc = .fifo := by
    intro ho
    obtain rfl : Que.buffer b = q := Que.obj_inj.mp ho
    rw [(Framed.setBody q' cc).disc]
    exact hf
  have hstirs := of_setBody (wakeup (hi.setBody q' cc) hdisc hw)
  cases woke <;> simp only [bind, Except.bind, Except.ok.injEq, Prod.mk.injEq] at h
  all_goals exact h.2 ▸ hstirs

/-- The end of a service on a port. -/
theorem queuingPortWakeup {port : PortId} {q' : Que} {cc : Circbuf} {out : Out} (hi : WaitInv k)
    (hf : FifoQue k q) (hport : port ∈ k.portIds)
    (h : Jrinx.queuingPortWakeup (k.setBody q' cc) port out = .ok (n, k')) : Stirs q k k' := by
  unfold Jrinx.queuingPortWakeup at h
  generalize hw : Jrinx.wakeup _ _ _ = y at h
  rcases y with f | ⟨woke, k₁⟩
  · exact absurd h (by simp [bind, Except.bind])
  have hports : (k.setBody q' cc).ports = k.ports := (Framed.setBody q' cc).ports
  rw [hports] at hw
  have hdisc : WaitObj.channel (k.ports port).qpChannel = q.obj → (k.ports port).qpDisc = .fifo := by
    intro ho
    obtain rfl : Que.channel (k.ports port).qpChannel = q := Que.obj_inj.mp ho
    exact hf port hport rfl
  have hstirs := of_setBody (wakeup (hi.setBody q' cc) hdisc hw)
  simp only [bind, Except.bind, Except.ok.injEq, Prod.mk.injEq] at h
  exact h.2 ▸ hstirs

/-- **What follows the loop.** -/
theorem commFinish {pt : PartId} (hi : WaitInv k) (hf : FifoQue k q) (hc : c.OfPart k pt)
    (h : Jrinx.commFinish k env c = .ok (n, k')) : Stirs q k k' := by
  cases c with
  | sendBuffer b msgAddr length timeOut => exact bufferWakeup hi hf h
  | receiveBuffer b timeOut msgAddr => exact bufferWakeup hi hf h
  | sendQueuingMessage port msgAddr length timeOut => exact queuingPortWakeup hi hf hc.1 h
  | receiveQueuingMessage port timeOut msgAddr => exact queuingPortWakeup hi hf hc.1 h
  | readBlackboard b timeOut msgAddr =>
      simp only [Jrinx.commFinish, Except.ok.injEq, Prod.mk.injEq] at h
      exact h.2 ▸ still (.refl _) rfl rfl

/-- `CLEAR_QUEUING_PORT`. -/
theorem doClearQueuingPort {port : PortId} (hi : WaitInv k) (hf : FifoQue k q)
    (h : Jrinx.doClearQueuingPort k port = .ok (n, k')) : Stirs q k k' := by
  have hret : ∀ {code : RetCode}, retCode k code = .ok (n, k') → Stirs q k k' := by
    intro code h
    obtain ⟨rfl, rfl⟩ := Prod.mk.inj (Except.ok.inj h)
    exact still (.refl _) rfl rfl
  unfold Jrinx.doClearQueuingPort at h
  split at h
  · exact hret h
  rename_i qp hqp
  obtain ⟨hport, -, rfl⟩ := of_curQueuingPort hqp
  split at h
  · exact hret h
  dsimp only at h
  split at h
  · generalize hw : Jrinx.wakeup _ _ _ = y at h
    rcases y with f | ⟨woke, k₁⟩
    · exact absurd h (by simp [bind, Except.bind])
    -- a port of a channel in question has the discipline of its queue
    have hdisc : (Que.channel (k.ports port).qpChannel).obj = q.obj → (k.ports port).qpDisc = .fifo := by
      intro ho
      obtain rfl := Que.obj_inj.mp ho
      exact hf port hport rfl
    simp only [bind, Except.bind, retCode, Except.ok.injEq, Prod.mk.injEq] at h
    obtain ⟨rfl, rfl⟩ := h
    exact (wakeup hi hdisc hw).setBody _ _
  · simp only [bind, Except.bind, retCode, Except.ok.injEq, Prod.mk.injEq] at h
    obtain ⟨rfl, rfl⟩ := h
    exact (still (.refl k) rfl rfl).setBody _ _

end Stirs

/-- The process that blocks is linked at the end of the list of its object. -/
theorem Framed.commWait (hc : c.timeOut = systemTimeInfiniteVal) (a : Int) : Framed k (commWait k x c a) := by
  unfold Jrinx.commWait
  dsimp only
  rw [if_neg (by simp [hc])]
  have hadd : Framed k (addWaitingProc (k.setState x .waiting) (c.obj k) x) :=
    Framed.trans (m := k.setState x .waiting) (of_eq rfl rfl rfl rfl rfl) (setWaitingProcs _ _)
  exact hadd.trans (of_eq rfl rfl rfl rfl rfl)

theorem waitingProcs_commWait (k : Kernel) (x : ProcId) (c : CommCall) (a : Int) (o : WaitObj) :
    (commWait k x c a).waitingProcs o =
      if o = c.obj k then k.waitingProcs o ++ [x] else k.waitingProcs o := by
  obtain ⟨-, -, -, hlists, -⟩ := block_fields k x c 0 a
  rw [← hlists o, Kernel.waitingProcs_setCont]

/-! ## The segments -/

/-- A call that waits for ever or not at all comes to the condition of its loop. -/
inductive Ran (k : Kernel) (env : Env) (x : ProcId) (c : CommCall) (n : Next) (k' : Kernel) : Prop
  | polls (must : mustWait k c = true) (zero : c.timeOut = 0) (next : n = .ret .notAvailable c.failOut)
      (same : k' = k)
  | waits (must : mustWait k c = true) (forever : c.timeOut = systemTimeInfiniteVal) (w a : Int)
      (next : n = .giveUp false (.comm c w a)) (blocks : k' = commWait k x c a)
  | served (free : mustWait k c = false) (finish : commFinish k env c = .ok (n, k'))

section Segments

variable {env : Env} {n : Next}

theorem ran_commBlock {w : Int} {i : Nat} (hc : c.timeOut = systemTimeInfiniteVal)
    (hmust : mustWait k c = true) (h : commBlock k env x c w i = .ok (n, k')) : Ran k env x c n k' := by
  rcases commBlock_eq_ok h with ⟨⟨hfin, -⟩, -⟩ | ⟨-, hn, hk⟩
  · exact absurd hc hfin
  · exact .waits hmust hc _ _ hn hk

theorem ran_commEnter (hc : c.timeOut = 0 ∨ c.timeOut = systemTimeInfiniteVal)
    (h : commEnter k env x c = .ok (n, k')) : Ran k env x c n k' := by
  unfold commEnter at h
  split at h
  · rename_i hmust
    split at h
    · rename_i hzero
      obtain ⟨hn, hk⟩ := Prod.mk.inj (Except.ok.inj h)
      exact .polls hmust hzero hn.symm hk.symm
    · rename_i hzero
      exact ran_commBlock (hc.resolve_left hzero) hmust h
  · rename_i hfree
    exact .served (by simpa using hfree) h

theorem ran_commResume {w a : Int} (hc : c.timeOut = systemTimeInfiniteVal)
    (h : commResume k env x c w a = .ok (n, k')) : Ran k env x c n k' := by
  unfold commResume at h
  rw [if_neg (fun hlate => hlate.1 hc)] at h
  split at h
  · rename_i hmust
    exact ran_commBlock hc hmust h
  · rename_i hfree
    exact .served (by simpa using hfree) h

/-- A service that passes its checks goes on to its loop, the others return an error. -/
theorem doSyscall_of_admitted (k : Kernel) (env : Env) (x : ProcId) {s : Service} (hs : s.commCall = some c) :
    (c.admitted k = true ∧ doSyscall k env x s = commEnter k env x c) ∨
      (c.admitted k = false ∧ ∃ code, code ≠ .noError ∧ doSyscall k env x s = retCode k code) := by
  cases s <;> simp only [Service.commCall, Option.some.injEq, reduceCtorEq] at hs
  -- `admitted` is the conjunction of the checks of the service
  all_goals
    subst hs
    simp only [doSyscall, CommCall.admitted]
  case receiveBuffer b t m =>
    rw [doReceiveBuffer]
    cases curBuffer k b with
    | none => exact Or.inr ⟨rfl, .invalidParam, by decide, rfl⟩
    | some buf => exact Or.inl ⟨rfl, rfl⟩
  case readBlackboard b t m =>
    rw [doReadBlackboard]
    cases curBlackboard k b with
    | none => exact Or.inr ⟨rfl, .invalidParam, by decide, rfl⟩
    | some bb => exact Or.inl ⟨rfl, rfl⟩
  case receiveQueuingMessage port t m =>
    rw [doReceiveQueuingMessage]
    cases curQueuingPort k port with
    | none => exact Or.inr ⟨rfl, .invalidParam, by decide, rfl⟩
    | some qp =>
        by_cases hdir : qp.qpDir = .destination
        · exact Or.inl ⟨by simp [hdir], by simp [hdir]⟩
        · exact Or.inr ⟨by simp [hdir], .invalidMode, by decide, by simp [hdir]⟩
  case sendBuffer b m len t =>
    rw [doSendBuffer]
    cases curBuffer k b with
    | none => exact Or.inr ⟨rfl, .invalidParam, by decide, rfl⟩
    | some buf =>
        by_cases hlen : buf.bufMaxMsgSize < len
        · exact Or.inr ⟨by simp [hlen], .invalidParam, by decide, by simp [hlen]⟩
        by_cases hzero : len = 0
        · exact Or.inr ⟨by simp [hzero], .invalidParam, by decide, by simp [hzero]⟩
        exact Or.inl ⟨by simp [hzero, not_lt.mp hlen], by simp [hlen, hzero]⟩
  case sendQueuingMessage port m len t =>
    rw [doSendQueuingMessage]
    cases curQueuingPort k port with
    | none => exact Or.inr ⟨rfl, .invalidParam, by decide, rfl⟩
    | some qp =>
        by_cases hlen : (k.chans qp.qpChannel).chMaxMsgSize < len
        · exact Or.inr ⟨by simp [hlen], .invalidConfig, by decide, by simp [hlen]⟩
        by_cases hzero : len = 0
        · exact Or.inr ⟨by simp [hzero], .invalidParam, by decide, by simp [hzero]⟩
        by_cases hdir : qp.qpDir = .source
        · exact Or.inl ⟨by simp [hzero, not_lt.mp hlen, hdir], by simp [hlen, hzero, hdir]⟩
        · exact Or.inr ⟨by simp [hdir], .invalidMode, by decide, by simp [hlen, hzero, hdir]⟩

/-- A call that passes its checks names an object of its partition. -/
theorem CommCall.ofPart_of_admitted (h : c.admitted k = true) : c.OfPart k k.curPart := by
  cases c with
  | sendBuffer b m len t =>
      obtain ⟨buf, hbuf, -⟩ := (Option.any_eq_true _ _).mp h
      exact ⟨(of_curBuffer hbuf).1, (of_curBuffer hbuf).2.1⟩
  | receiveBuffer b t m =>
      obtain ⟨buf, hbuf⟩ := Option.isSome_iff_exists.mp h
      exact ⟨(of_curBuffer hbuf).1, (of_curBuffer hbuf).2.1⟩
  | sendQueuingMessage port m len t =>
      obtain ⟨qp, hqp, -⟩ := (Option.any_eq_true _ _).mp h
      exact ⟨(of_curQueuingPort hqp).1, (of_curQueuingPort hqp).2.1⟩
  | receiveQueuingMessage port t m =>
      obtain ⟨qp, hqp, -⟩ := (Option.any_eq_true _ _).mp h
      exact ⟨(of_curQueuingPort hqp).1, (of_curQueuingPort hqp).2.1⟩
  | readBlackboard b t m =>
      obtain ⟨bb, hbb⟩ := Option.isSome_iff_exists.mp h
      exact ⟨(of_curBlackboard hbb).1, (of_curBlackboard hbb).2.1⟩

/-- The operation of a call that is served is on its side. -/
theorem side_of_commFinish (hq : c.que k = some q) (h : commFinish k env c = .ok (n, k')) :
    ∃ op, (n.noErrorOut.bind fun out => c.queueOp env out) = some op ∧ op.side = some c.receives := by
  cases c with
  | sendBuffer b m len t =>
      rw [(of_bufferWakeup h).1]
      exact ⟨_, rfl, rfl⟩
  | receiveBuffer b t m =>
      rw [(of_bufferWakeup h).1]
      exact ⟨_, rfl, rfl⟩
  | sendQueuingMessage port m len t =>
      rw [(of_queuingPortWakeup (q := q) h).1]
      exact ⟨_, rfl, rfl⟩
  | receiveQueuingMessage port t m =>
      rw [(of_queuingPortWakeup (q := q) h).1]
      exact ⟨_, rfl, rfl⟩
  | readBlackboard b t m => exact absurd hq (by simp [CommCall.que])

end Segments

/-! ## Steps -/

/-- Calls in progress wait for ever, no event of a process is queued, and a process without a call has no
mark. -/
structure Patient (k : Kernel) : Prop where
  forever : ∀ p c w a, k.conts p = some (.comm c w a) → c.timeOut = systemTimeInfiniteVal
  events : ∀ te ∈ k.teq, te.teType.proc = none
  idle : ∀ p, k.conts p = none → k.woken p = false

/-- **A step** of a run without time-outs: the hart does something, or the process on it executes a segment,
which begins by taking its mark away. -/
inductive Taken (k : Kernel) (e : Event) (k' : Kernel) : Prop
  /-- A dispatch or a timer interrupt. -/
  | hart (out : segment k e = none) (noCall : inCall k e = none) (path : Path (fun _ a => a.ofHart = true) k k')
  /-- A segment that comes to no loop. -/
  | aside (x : ProcId) (n : Next) (k₁ : Kernel) (exec : live k = some x)
      (plain : ∀ c w a, k.conts x ≠ some (.comm c w a))
      (refused : ∀ c, inCall k e = some (x, c) → k.conts x = none ∧ c.admitted k = false)
      (stirs : ∀ q, FifoQue k q → Stirs q (k.setWoken x false) k₁)
      (ops : ∀ q op, queueOp k e q = some op → op.side = none)
      (returns : ∃ code out, n = .ret code out) (ends : settle x (n, k₁) = k')
  /-- A segment that comes to the condition of a loop. -/
  | call (x : ProcId) (c : CommCall) (env : Env) (n : Next) (k₁ : Kernel) (exec : live k = some x)
      (run : segment k e = some (x, .ok (n, k₁))) (call : inCall k e = some (x, c))
      (passes : k.conts x = none → c.admitted k = true) (part : ∃ pt, c.OfPart k pt)
      (onQue : e.que k = c.que k) (ops : ∀ out, e.queueOp k out = c.queueOp env out)
      (ran : Ran (k.setWoken x false) env x c n k₁) (ends : settle x (n, k₁) = k')

theorem woken_setWoken (k : Kernel) (x p : ProcId) :
    (k.setWoken x false).woken p = if p = x then false else k.woken p := by
  simp [Kernel.setWoken, Function.update_apply]

theorem setWoken_eq_self (h : k.woken x = false) : k.setWoken x false = k := by
  rw [Kernel.setWoken, ← h, Function.update_eq_self]

/-- A service that returns at once performs no operation of a side. -/
theorem queueOp_of_refused {e : Event} {code : RetCode} {out : Out} {k₁ : Kernel}
    (hs : segment k e = some (x, .ok (.ret code out, k₁))) (hcode : code ≠ .noError) (q : Que) :
    queueOp k e q = none := by
  simp only [queueOp, hs]
  split
  · cases code <;> first | rfl | exact absurd rfl hcode
  · rfl

/-- `CLEAR_QUEUING_PORT` does not give the processor up. -/
theorem returns_of_doClearQueuingPort {port : PortId} {n : Next}
    (h : doClearQueuingPort k port = .ok (n, k')) : ∃ code out, n = .ret code out := by
  have hret : ∀ {m : Kernel} {code : RetCode}, retCode m code = .ok (n, k') → ∃ code out, n = .ret code out :=
    fun h => ⟨_, _, (Prod.mk.inj (Except.ok.inj h)).1.symm⟩
  unfold doClearQueuingPort at h
  split at h
  · exact hret h
  split at h
  · exact hret h
  dsimp only at h
  split at h
  · generalize wakeup _ _ _ = y at h
    rcases y with f | ⟨woke, k₁⟩
    · exact absurd h (by simp [bind, Except.bind])
    · exact hret h
  · exact hret h

/-- **Every step without time-outs is taken apart.** -/
theorem Patient.taken (hp : Patient k) (hi : WaitInv k) (hr : Registered k) {e : Event} (he : e.Untimed)
    (h : step k e = .ok k') : Taken k e k' := by
  rcases step_eq_ok h with ⟨y, rfl, hd⟩ | ⟨clk, r, rfl, ht⟩ | ⟨x, ⟨n, k₁⟩, hs, hend⟩
  · exact .hart rfl rfl (.one (.dispatch hd) rfl)
  · exact .hart rfl rfl (path_timeEventAction (fun _ _ ha => ha) ht)
  obtain ⟨hl, ⟨env, srv, rfl, hfree, hout⟩ | ⟨env, cont, rfl, hcont, hout⟩⟩ := segment_eq_some hs
  · have hself : k.setWoken x false = k := setWoken_eq_self (hp.idle x hfree)
    have hplain : ∀ c w a, k.conts x ≠ some (.comm c w a) := by simp [hfree]
    cases hcall : srv.commCall with
    | some c =>
        have hin : inCall k (.call env srv) = some (x, c) := by simp [inCall, hl, hfree, hcall]
        rcases doSyscall_of_admitted k env x hcall with ⟨hadm, henter⟩ | ⟨hadm, code, hcode, hret⟩
        · have hran := ran_commEnter (he.2 env srv c rfl hcall) (henter ▸ hout.symm)
          have hque : srv.que k = c.que k := by
            cases srv <;> simp only [Service.commCall, Option.some.injEq, reduceCtorEq] at hcall <;>
              subst hcall <;> rfl
          have hops : ∀ out, srv.queueOp env out = c.queueOp env out := by
            intro out
            cases srv <;> simp only [Service.commCall, Option.some.injEq, reduceCtorEq] at hcall <;>
              subst hcall <;> rfl
          refine .call x c env n k₁ hl hs hin (fun _ => hadm) ⟨_, CommCall.ofPart_of_admitted hadm⟩ hque hops
            ?_ hend
          rwa [hself]
        · -- refused by its checks
          obtain ⟨rfl, hk⟩ := Prod.mk.inj (Except.ok.inj (hout.trans hret))
          refine .aside x _ k₁ hl hplain ?_ (fun q hf => ?_) (fun q op hop => ?_) ⟨code, .none, rfl⟩ hend
          · intro c' hin'
            obtain ⟨-, rfl⟩ := Prod.mk.inj (Option.some.inj (hin.symm.trans hin'))
            exact ⟨hfree, hadm⟩
          · rw [hself, hk]
            exact .still (.refl k) rfl rfl
          · rw [queueOp_of_refused hs hcode] at hop
            exact absurd hop (by simp)
    | none =>
        -- the only other service of the domain
        obtain ⟨port, rfl⟩ : ∃ port, srv = .clearQueuingPort port := by
          have hsrv := he.1
          simp only [Event.Transfers] at hsrv
          cases srv with
          | clearQueuingPort port => exact ⟨port, rfl⟩
          | sendBuffer | receiveBuffer | sendQueuingMessage | receiveQueuingMessage =>
              exact absurd hcall (by simp [Service.commCall])
          | _ => exact absurd hsrv (by simp [Service.transfers])
        refine .aside x n k₁ hl hplain ?_ (fun q hf => ?_) (fun q op hop => ?_) ?_ hend
        · intro c hin
          simp [inCall, hl, hfree, hcall] at hin
        · rw [hself]
          exact Stirs.doClearQueuingPort hi hf hout.symm
        · simp only [queueOp, hs] at hop
          split at hop
          · obtain ⟨out, -, hout'⟩ := Option.bind_eq_some_iff.mp hop
            simp only [Event.queueOp, Service.queueOp, Option.some.injEq] at hout'
            rw [← hout']
            rfl
          · exact absurd hop (by simp)
        · exact returns_of_doClearQueuingPort hout.symm
  · cases cont with
    | comm c w a =>
        have hin : inCall k (.resume env) = some (x, c) := by simp [inCall, hl, hcont]
        have hran := ran_commResume (hp.forever x c w a hcont) hout.symm
        refine .call x c env n k₁ hl hs hin (fun hnone => ?_) ⟨_, (hr.calls x c w a hcont).2⟩ ?_ (fun out => ?_)
          hran hend
        · exact absurd (hcont.symm.trans hnone) (by simp)
        · simp [Event.que, hl, hcont, Cont.que]
        · simp [Event.queueOp, hl, hcont]
    | suspendSelf w =>
        simp only [resumeCont, retCode, Except.ok.injEq, Prod.mk.injEq] at hout
        refine .aside x n k₁ hl (by simp [hcont]) ?_ (fun q hf => ?_) (fun q op hop => ?_) ⟨_, _, hout.1⟩ hend
        · intro c hin
          simp [inCall, hl, hcont] at hin
        · rw [hout.2]
          exact .still (.refl _) rfl rfl
        · simp [queueOp, hs, Event.que, hl, hcont, Cont.que] at hop
    | done code out =>
        simp only [resumeCont, Except.ok.injEq, Prod.mk.injEq] at hout
        refine .aside x n k₁ hl (by simp [hcont]) ?_ (fun q hf => ?_) (fun q op hop => ?_) ⟨_, _, hout.1⟩ hend
        · intro c hin
          simp [inCall, hl, hcont] at hin
        · rw [hout.2]
          exact .still (.refl _) rfl rfl
        · simp [queueOp, hs, Event.que, hl, hcont, Cont.que] at hop

/-! ## The line -/

/-- **The line is kept**: it holds exactly those who are in a call on the queue, those with a mark first, and
on either side the calls stand in the order in which they were issued. -/
structure LineInv (q : Que) (s : Kernel × Arrivals) : Prop where
  waits : WaitInv s.1
  registered : Registered s.1
  fifo : FifoQue s.1 q
  patient : Patient s.1
  nodup : (s.2.called ++ s.1.waitingProcs q.obj).Nodup
  mem : ∀ p, p ∈ s.2.called ++ s.1.waitingProcs q.obj ↔ sideOf s.1 q p ≠ none
  called : ∀ p ∈ s.2.called, s.1.woken p = true
  unmarked : ∀ p ∈ s.1.waitingProcs q.obj, s.1.woken p = false
  past : ∀ p, s.1.conts p ≠ none → s.2.issued p < s.2.steps
  order : ∀ r, InOrder s.2.issued (lineOf q s r)

/-- Who is woken up moves from the head of the list to the end of those called, and the line stays. -/
theorem Shifts.line_eq (h : Shifts q k k') (called : List ProcId)
    (hnd : (called ++ k.waitingProcs q.obj).Nodup)
    (hside : ∀ p ∈ called ++ k.waitingProcs q.obj, sideOf k q p ≠ none)
    (hun : ∀ p ∈ k.waitingProcs q.obj, k.woken p = false) :
    ((called ++ k.waitingProcs q.obj).filter fun p => k'.woken p) ++ k'.waitingProcs q.obj =
      (called.filter fun p => k.woken p) ++ k.waitingProcs q.obj := by
  rcases h with ⟨hlists, hwoken⟩ | ⟨y, l, hl, hlists, hwoken⟩
  · have hfilter : (called ++ k.waitingProcs q.obj).filter (fun p => k'.woken p) =
        (called ++ k.waitingProcs q.obj).filter fun p => k.woken p :=
      List.filter_congr fun p hp => hwoken p (hside p hp)
    have hnone : (k.waitingProcs q.obj).filter (fun p => k.woken p) = [] :=
      List.filter_eq_nil_iff.mpr fun p hp => by simp [hun p hp]
    rw [hfilter, List.filter_append, hnone, List.append_nil, hlists]
  · rw [hl] at hnd hside hun ⊢
    obtain ⟨-, hcons, hdisj⟩ := List.nodup_append.mp hnd
    have hcalled : called.filter (fun p => k'.woken p) = called.filter fun p => k.woken p := by
      refine List.filter_congr fun p hp => ?_
      have hne : p ≠ y := hdisj p hp y List.mem_cons_self
      rw [hwoken p (hside p (List.mem_append_left _ hp)), if_neg hne]
    have hhead : k'.woken y = true := by
      rw [hwoken y (hside y (by simp)), if_pos rfl]
    have hrest : l.filter (fun p => k'.woken p) = [] := by
      refine List.filter_eq_nil_iff.mpr fun p hp => ?_
      have hne : p ≠ y := by
        rintro rfl
        exact (List.nodup_cons.mp hcons).1 hp
      rw [hwoken p (hside p (by simp [hp])), if_neg hne, hun p (List.mem_cons_of_mem _ hp)]
      decide
    rw [List.filter_append, List.filter_cons, hhead, if_pos rfl, hrest, hcalled, hlists, List.append_assoc,
      List.singleton_append]

/-- Those who stay in the list have no mark. -/
theorem Shifts.unmarked (h : Shifts q k k') (hnd : (k.waitingProcs q.obj).Nodup)
    (hside : ∀ p ∈ k.waitingProcs q.obj, sideOf k q p ≠ none)
    (hun : ∀ p ∈ k.waitingProcs q.obj, k.woken p = false) : ∀ p ∈ k'.waitingProcs q.obj, k'.woken p = false := by
  intro p hp
  rcases h with ⟨hlists, hwoken⟩ | ⟨y, l, hl, hlists, hwoken⟩
  · rw [hlists] at hp
    rw [hwoken p (hside p hp), hun p hp]
  · rw [hlists] at hp
    rw [hl] at hnd hside hun
    have hne : p ≠ y := by
      rintro rfl
      exact (List.nodup_cons.mp hnd).1 hp
    have hmem : p ∈ y :: l := List.mem_cons_of_mem _ hp
    rw [hwoken p (hside p hmem), if_neg hne, hun p hmem]

namespace LineInv

variable {s : Kernel × Arrivals} {k₁ : Kernel}

/-- Who is in a call on the queue issued it before. -/
theorem issuedBy_eq (p : ProcId) (h : sideOf s.1 q p ≠ none) : s.2.issuedBy s.1 p = s.2.issued p :=
  if_neg (conts_of_sideOf h)

theorem side_of_mem_line {r : Bool} (h : p ∈ lineOf q s r) : sideOf s.1 q p = some r := by
  simpa using (List.mem_filter.mp h).2

/-- The line on a side holds exactly those who are in a call on that side. -/
theorem mem_line (hi : LineInv q s) {r : Bool} : p ∈ lineOf q s r ↔ sideOf s.1 q p = some r := by
  refine ⟨side_of_mem_line, fun h => List.mem_filter.mpr ⟨(hi.mem p).mpr ?_, by simp [h]⟩⟩
  rw [h]
  simp

theorem order_issuedBy (hi : LineInv q s) (r : Bool) : InOrder (s.2.issuedBy s.1) (lineOf q s r) := by
  refine (hi.order r).congr fun p hp => issuedBy_eq (q := q) p ?_
  rw [side_of_mem_line hp]
  simp

/-- A newcomer comes after all others. -/
theorem lt_newcomer (hi : LineInv q s) (hx : s.1.conts x = none) {r : Bool} :
    ∀ p ∈ lineOf q s r, s.2.issuedBy s.1 p < s.2.issuedBy s.1 x := by
  intro p hp
  have hside : sideOf s.1 q p ≠ none := by
    rw [side_of_mem_line hp]
    simp
  rw [issuedBy_eq p hside, Arrivals.issuedBy, if_pos hx]
  exact hi.past p (conts_of_sideOf hside)

/-- The invariant after a step, from what became of the line. -/
theorem of_after (hi : LineInv q s) (hw : WaitInv k') (hr : Registered k') (hf : FifoQue k' q)
    (hp : Patient k')
    (hnd : ((s.2.after q s.1 k').called ++ k'.waitingProcs q.obj).Nodup)
    (hmem : ∀ p, p ∈ (s.2.after q s.1 k').called ++ k'.waitingProcs q.obj ↔ sideOf k' q p ≠ none)
    (hun : ∀ p ∈ k'.waitingProcs q.obj, k'.woken p = false)
    (horder : ∀ r, InOrder (s.2.issuedBy s.1) (lineOf q (k', s.2.after q s.1 k') r)) :
    LineInv q (k', s.2.after q s.1 k') where
  waits := hw
  registered := hr
  fifo := hf
  patient := hp
  nodup := hnd
  mem := hmem
  called p hp := (List.mem_filter.mp hp).2
  unmarked := hun
  past p _ := by
    show s.2.issuedBy s.1 p < s.2.steps + 1
    unfold Arrivals.issuedBy
    split
    · exact Nat.lt_succ_self _
    · rename_i hc
      exact Nat.lt_succ_of_lt (hi.past p hc)
  order := horder

/-- The process on the hart is not in the list, and the others keep their marks while it takes its turn. -/
theorem filter_called (hi : LineInv q s) (x : ProcId) :
    (s.2.called.filter fun p => (s.1.setWoken x false).woken p) = s.2.called.filter fun p => p ≠ x := by
  refine List.filter_congr fun p hp => ?_
  by_cases hpx : p = x
  · simp [hpx, Kernel.setWoken]
  · simp [hpx, Kernel.setWoken, hi.called p hp]

/-- **The process on the hart leaves the line**, or was not in it. -/
theorem leaves (hi : LineInv q s) (hl : live s.1 = some x) (hs : Stirs q (s.1.setWoken x false) k₁)
    {cx : Option Cont}
    (hcx : ∀ c w a, cx = some (.comm c w a) → c.timeOut = systemTimeInfiniteVal ∧ c.obj s.1 ≠ q.obj)
    (hw : WaitInv (k₁.setCont x cx)) (hr : Registered (k₁.setCont x cx)) :
    LineInv q (k₁.setCont x cx, s.2.after q s.1 (k₁.setCont x cx)) := by
  have hlists₀ : ∀ o, (s.1.setWoken x false).waitingProcs o = s.1.waitingProcs o := fun o => by
    cases o <;> rfl
  have hside₀ : ∀ p, sideOf (s.1.setWoken x false) q p = sideOf s.1 q p := fun p => rfl
  have hlink := hi.waits.not_linked hl
  have hports : (k₁.setCont x cx).ports = s.1.ports := hs.ports
  have hconts : ∀ p, p ≠ x → (k₁.setCont x cx).conts p = s.1.conts p := fun p hp => by
    simp [Kernel.setCont, hp, congrFun hs.conts p, Kernel.setWoken]
  have hside : ∀ p, p ≠ x → sideOf (k₁.setCont x cx) q p = sideOf s.1 q p := fun p hp =>
    sideOf_congr hports (hconts p hp)
  have hself : sideOf (k₁.setCont x cx) q x = none := by
    by_contra hne
    obtain ⟨r, hr⟩ := Option.ne_none_iff_exists'.mp hne
    obtain ⟨c, w, a, hc, ho, -⟩ := sideOf_eq_some.mp hr
    rw [CommCall.obj_of_ports hports] at ho
    exact (hcx c w a (by simpa [Kernel.setCont] using hc)).2 ho
  have hun₀ : ∀ p ∈ s.1.waitingProcs q.obj, (s.1.setWoken x false).woken p = false := by
    intro p hp
    have hne : p ≠ x := fun heq => hlink _ (heq ▸ hp)
    simpa [Kernel.setWoken, hne] using hi.unmarked p hp
  have hside₁ : ∀ p ∈ s.2.called ++ s.1.waitingProcs q.obj, sideOf s.1 q p ≠ none := fun p => (hi.mem p).mp
  -- the line without `x`
  have hline : (s.2.after q s.1 (k₁.setCont x cx)).called ++ (k₁.setCont x cx).waitingProcs q.obj =
      (s.2.called ++ s.1.waitingProcs q.obj).filter fun p => p ≠ x := by
    have hshift := hs.moved.line_eq s.2.called
    rw [hlists₀, hi.filter_called x] at hshift
    have hstay : (s.1.waitingProcs q.obj).filter (fun p => p ≠ x) = s.1.waitingProcs q.obj :=
      List.filter_eq_self.mpr fun p hp => by
        have hne : p ≠ x := fun heq => hlink _ (heq ▸ hp)
        simp [hne]
    rw [List.filter_append, hstay, Kernel.waitingProcs_setCont]
    exact hshift hi.nodup hside₁ hun₀
  refine hi.of_after hw hr ?_ ⟨?_, ?_, ?_⟩ ?_ ?_ ?_ ?_
  · exact hs.toFramed.fifoQue (k := s.1.setWoken x false) (by cases q <;> exact hi.fifo)
  · intro p c w a hc
    by_cases hpx : p = x
    · rw [hpx] at hc
      exact (hcx c w a (by simpa [Kernel.setCont] using hc)).1
    · rw [hconts p hpx] at hc
      exact hi.patient.forever p c w a hc
  · intro te hte
    rcases hs.events te hte with hold | hnew
    · exact hi.patient.events te hold
    · exact hnew
  · intro p hc
    by_contra hmark
    have hunlinked : ∀ o, p ∉ s.1.waitingProcs o := by
      intro o ho
      by_cases hpx : p = x
      · exact hlink o (hpx ▸ ho)
      · obtain ⟨c, w, a, hcall, -⟩ := (((hi.waits.procs p).linked o).mp ho).call
        rw [← hconts p hpx, hc] at hcall
        exact absurd hcall (by simp)
    have hmark₁ : k₁.woken p = true := by
      have hwoken : (k₁.setCont x cx).woken p = k₁.woken p := rfl
      simpa [hwoken] using hmark
    have hmark₀ := hs.marks p (fun o => by rw [hlists₀]; exact hunlinked o) hmark₁
    rw [woken_setWoken] at hmark₀
    split at hmark₀
    · exact absurd hmark₀ (by decide)
    · rename_i hpx
      rw [hconts p hpx] at hc
      rw [hi.patient.idle p hc] at hmark₀
      exact absurd hmark₀ (by decide)
  · rw [hline]
    exact hi.nodup.filter _
  · intro p
    rw [hline, List.mem_filter, hi.mem p]
    by_cases hpx : p = x
    · simp [hpx, hself]
    · simp [hpx, hside p hpx]
  · have hnd : (s.1.waitingProcs q.obj).Nodup := hi.waits.nodup _
    have hunm := hs.moved.unmarked
    rw [hlists₀] at hunm
    rw [Kernel.waitingProcs_setCont]
    exact hunm hnd (fun p hp => hside₁ p (List.mem_append_right _ hp)) hun₀
  · intro r
    refine (hi.order_issuedBy r).sublist ?_
    show List.Sublist (List.filter _ ((s.2.after q s.1 (k₁.setCont x cx)).called ++
      (k₁.setCont x cx).waitingProcs q.obj)) _
    have hfilter : List.filter (fun p => decide (sideOf (k₁.setCont x cx) q p = some r))
        ((s.2.called ++ s.1.waitingProcs q.obj).filter fun p => p ≠ x) =
        (lineOf q s r).filter fun p => p ≠ x := by
      rw [lineOf, List.filter_filter, List.filter_filter]
      refine List.filter_congr fun p _ => ?_
      by_cases hpx : p = x
      · simp [hpx, hself]
      · simp [hpx, hside p hpx]
    rw [hline, hfilter]
    exact List.filter_sublist

/-- **The process on the hart blocks**: it comes, or comes again, at the end of its line. -/
theorem joins (hi : LineInv q s) (hl : live s.1 = some x) (ho : c.obj s.1 = q.obj)
    (hc : c.timeOut = systemTimeInfiniteVal) {w a : Int} {s' : Kernel}
    (hs' : s' = (commWait (s.1.setWoken x false) x c a).setCont x (some (.comm c w a)))
    (hlast : s.1.conts x = none ∨ (lineOf q s c.receives).getLast? = some x)
    (hw : WaitInv s') (hr : Registered s') : LineInv q (s', s.2.after q s.1 s') := by
  have hframed : Framed (s.1.setWoken x false) (commWait (s.1.setWoken x false) x c a) := .commWait hc a
  have hlink := hi.waits.not_linked hl
  have hlists : s'.waitingProcs q.obj = s.1.waitingProcs q.obj ++ [x] := by
    rw [hs', Kernel.waitingProcs_setCont, waitingProcs_commWait, if_pos (show q.obj = c.obj (s.1.setWoken x false) from ho.symm)]
    congr 1
  have hwoken : ∀ p, s'.woken p = if p = x then false else s.1.woken p := by
    intro p
    rw [← woken_setWoken, ← congrFun (woken_commWait (s.1.setWoken x false) x c a), hs']
    rfl
  have hports : s'.ports = s.1.ports := by
    rw [hs']
    exact hframed.ports
  have hconts : ∀ p, s'.conts p = if p = x then some (.comm c w a) else s.1.conts p := by
    intro p
    have hsame : (commWait (s.1.setWoken x false) x c a).conts p = s.1.conts p := congrFun hframed.conts p
    rw [hs', ← hsame]
    simp [Kernel.setCont, Function.update_apply]
  have hself : sideOf s' q x = some c.receives :=
    sideOf_eq_some.mpr ⟨c, w, a, by rw [hconts, if_pos rfl], (CommCall.obj_of_ports hports c).trans ho, rfl⟩
  have hother : ∀ p, p ≠ x → sideOf s' q p = sideOf s.1 q p := fun p hp =>
    sideOf_congr hports (by rw [hconts, if_neg hp])
  have hstay : (s.1.waitingProcs q.obj).filter (fun p => p ≠ x) = s.1.waitingProcs q.obj :=
    List.filter_eq_self.mpr fun p hp => by
      have hne : p ≠ x := fun heq => hlink _ (heq ▸ hp)
      simp [hne]
  have hnone : (s.1.waitingProcs q.obj).filter (fun p => s'.woken p) = [] :=
    List.filter_eq_nil_iff.mpr fun p hp => by simp [hwoken p, hi.unmarked p hp]
  have hcalled : s.2.called.filter (fun p => s'.woken p) = s.2.called.filter fun p => p ≠ x := by
    refine List.filter_congr fun p hp => ?_
    by_cases hpx : p = x
    · simp [hpx, hwoken x]
    · simp [hwoken p, hpx, hi.called p hp]
  -- the line without `x`, then `x`
  have hline : (s.2.after q s.1 s').called ++ s'.waitingProcs q.obj =
      (s.2.called ++ s.1.waitingProcs q.obj).filter (fun p => p ≠ x) ++ [x] := by
    rw [List.filter_append, hstay, hlists, ← List.append_assoc]
    show (List.filter _ (s.2.called ++ s.1.waitingProcs q.obj) ++ _) ++ [x] = _
    rw [List.filter_append, hnone, List.append_nil, hcalled]
  refine hi.of_after hw hr ?_ ⟨?_, ?_, ?_⟩ ?_ ?_ ?_ ?_
  · rw [hs']
    exact hframed.fifoQue (k := s.1.setWoken x false) (by cases q <;> exact hi.fifo)
  · intro p c' w' a' hc'
    rw [hconts] at hc'
    split at hc'
    · rw [Option.some.injEq, Cont.comm.injEq] at hc'
      rw [← hc'.1, hc]
    · exact hi.patient.forever p c' w' a' hc'
  · intro te hte
    rw [hs'] at hte
    rcases hframed.events te hte with hold | hnew
    · exact hi.patient.events te hold
    · exact hnew
  · intro p hp
    rw [hconts] at hp
    split at hp
    · exact absurd hp (by simp)
    · rename_i hpx
      rw [hwoken, if_neg hpx]
      exact hi.patient.idle p hp
  · rw [hline]
    refine List.nodup_append.mpr ⟨hi.nodup.filter _, List.nodup_singleton x, ?_⟩
    rintro p hp y hy rfl
    have hne := (List.mem_filter.mp hp).2
    rw [List.mem_singleton.mp hy] at hne
    simp at hne
  · intro p
    rw [hline, List.mem_append, List.mem_filter, List.mem_singleton, hi.mem p]
    by_cases hpx : p = x
    · simp [hpx, hself]
    · simp [hpx, hother p hpx]
  · intro p hp
    rw [hlists, List.mem_append, List.mem_singleton] at hp
    rw [hwoken]
    split
    · rfl
    · rename_i hpx
      exact hi.unmarked p (hp.resolve_right hpx)
  · intro r
    have hfilter : (lineOf q (s', s.2.after q s.1 s') r) =
        (lineOf q s r).filter (fun p => p ≠ x) ++ [x].filter fun p => sideOf s' q p = some r := by
      show List.filter _ ((s.2.after q s.1 s').called ++ s'.waitingProcs q.obj) = _
      rw [hline, List.filter_append, lineOf, List.filter_filter, List.filter_filter]
      congr 1
      refine List.filter_congr fun p _ => ?_
      by_cases hpx : p = x
      · simp [hpx]
      · simp [hpx, hother p hpx]
    rw [hfilter]
    by_cases hrc : r = c.receives
    · subst hrc
      rw [List.filter_cons, if_pos (by simp [hself]), List.filter_nil]
      refine (hi.order_issuedBy _).filter_append ?_
      rcases hlast with hnew | hlast
      · exact Or.inl fun p hp _ => hi.lt_newcomer hnew p hp
      · exact Or.inr hlast
    · rw [List.filter_cons, if_neg (by simp [hself, Ne.symm hrc]), List.filter_nil, List.append_nil]
      exact (hi.order_issuedBy r).sublist List.filter_sublist

end LineInv

/-! ## The hart -/

/-- A dispatch or a timer interrupt leaves the queue alone, as long as no event of a process is queued. -/
theorem Eff.still {a : Act} (he : Eff k a k') (ha : a.ofHart = true)
    (hev : ∀ te ∈ k.teq, te.teType.proc = none) :
    Framed k k' ∧ k'.waitingProcs = k.waitingProcs ∧ k'.woken = k.woken := by
  have hof : ∀ {m : Kernel}, m.ports = k.ports → m.portIds = k.portIds → m.bufs = k.bufs → m.bbs = k.bbs →
      m.chans = k.chans → m.conts = k.conts → m.woken = k.woken →
      (∀ te ∈ m.teq, te ∈ k.teq ∨ te.teType.proc = none) →
      Framed k m ∧ m.waitingProcs = k.waitingProcs ∧ m.woken = k.woken := by
    intro m hports hids hbufs hbbs hchans hconts hwoken hteq
    refine ⟨⟨hports, hids, fun b => by rw [hbufs], hconts, hteq⟩, ?_, hwoken⟩
    funext o
    cases o <;> simp only [Kernel.waitingProcs, hbufs, hbbs, hchans]
  cases he with
  | @dispatch p _ done =>
      rw [(dispatch_eq_ok done).2]
      rcases schedProcSt_cases k with hst | ⟨cur, -, -, hst⟩ <;> rw [hst]
      all_goals exact hof rfl rfl rfl rfl rfl rfl rfl fun te hte => Or.inl hte
  | @expire te es p head proc =>
      have hnone := hev te (by rw [head]; exact List.mem_cons_self)
      exact absurd (proc.symm.trans hnone) (by simp)
  | @partition te es head proc =>
      exact hof rfl rfl rfl rfl rfl rfl rfl fun te hte => Or.inl (by rw [head]; exact List.mem_cons_of_mem _ hte)
  | global done =>
      obtain ⟨pt, rfl⟩ | ⟨time, mods, pt, rfl⟩ := schedGlobal_eq_ok done
      · exact hof rfl rfl rfl rfl rfl rfl rfl fun te hte => Or.inl hte
      · refine hof rfl rfl rfl rfl rfl rfl rfl fun te hte => ?_
        rcases mem_insertEvent.mp hte with rfl | hold
        · exact Or.inr rfl
        · exact Or.inl hold
  | _ => exact absurd ha (by simp [Act.ofHart])

theorem still_of_path (h : Path (fun _ a => a.ofHart = true) k k')
    (hev : ∀ te ∈ k.teq, te.teType.proc = none) :
    Framed k k' ∧ k'.waitingProcs = k.waitingProcs ∧ k'.woken = k.woken := by
  induction h with
  | refl k => exact ⟨.refl k, rfl, rfl⟩
  | cons he ha _ ih =>
      obtain ⟨hframed, hlists, hwoken⟩ := he.still ha hev
      have hev' := fun te hte => (hframed.events te hte).elim (hev te) id
      obtain ⟨hframed', hlists', hwoken'⟩ := ih hev'
      exact ⟨hframed.trans hframed', hlists'.trans hlists, hwoken'.trans hwoken⟩

/-- **The hart leaves the line alone.** -/
theorem LineInv.stays {s : Kernel × Arrivals} (hi : LineInv q s)
    (h : Path (fun _ a => a.ofHart = true) s.1 k') (hw : WaitInv k') (hr : Registered k') :
    LineInv q (k', s.2.after q s.1 k') := by
  obtain ⟨hframed, hlists, hwoken⟩ := still_of_path h hi.patient.events
  have hside := hframed.sideOf_eq q
  have hshift : Shifts q s.1 k' := Or.inl ⟨congrFun hlists _, fun p _ => congrFun hwoken p⟩
  have hside₁ : ∀ p ∈ s.2.called ++ s.1.waitingProcs q.obj, sideOf s.1 q p ≠ none := fun p => (hi.mem p).mp
  -- nobody joins or leaves, and those who were called keep their places
  have hline : (s.2.after q s.1 k').called ++ k'.waitingProcs q.obj =
      s.2.called ++ s.1.waitingProcs q.obj := by
    refine (hshift.line_eq s.2.called hi.nodup hside₁ hi.unmarked).trans ?_
    rw [List.filter_eq_self.mpr hi.called]
  refine hi.of_after hw hr (hframed.fifoQue hi.fifo) ⟨?_, ?_, ?_⟩ ?_ ?_ ?_ ?_
  · intro p c w a hc
    exact hi.patient.forever p c w a (congrFun hframed.conts p ▸ hc)
  · exact fun te hte => (hframed.events te hte).elim (hi.patient.events te) id
  · intro p hc
    rw [hwoken]
    exact hi.patient.idle p (congrFun hframed.conts p ▸ hc)
  · rw [hline]
    exact hi.nodup
  · intro p
    rw [hline, hside, hi.mem p]
  · rw [hlists, hwoken]
    exact hi.unmarked
  · intro r
    have hsame : lineOf q (k', s.2.after q s.1 k') r = lineOf q s r := by
      show List.filter _ ((s.2.after q s.1 k').called ++ k'.waitingProcs q.obj) = _
      rw [hline, lineOf]
      exact List.filter_congr fun p _ => by rw [hside]
    rw [hsame]
    exact hi.order_issuedBy r

/-! ## The characterization -/

/-- A call that is served ends, at once or after a last `sched_proc_give_up`. -/
theorem settle_of_commFinish {env : Env} {n : Next} (h : commFinish k env c = .ok (n, k')) :
    ∃ cx : Option Cont, (∀ c' w a, cx ≠ some (.comm c' w a)) ∧ settle x (n, k') = k'.setCont x cx := by
  have hends : Ends k .getTime n k' := ends_commFinish h
  cases hends.next with
  | ret code out => exact ⟨none, by simp, rfl⟩
  | done rr out => exact ⟨some (.done .noError out), by simp, rfl⟩
  | sleep rr w t hs => exact absurd hs (by simp)
  | comm rr c' w a hs => exact absurd hs (by simp [Service.commCall])

theorem arrive_eq_ok {s s' : Kernel × Arrivals} {e : Event} (h : arrive q s e = .ok s') :
    ∃ k', step s.1 e = .ok k' ∧ s' = (k', s.2.after q s.1 k') := by
  unfold arrive at h
  cases hs : step s.1 e with
  | error f => simp [hs, Except.map] at h
  | ok k' =>
      rw [hs] at h
      exact ⟨k', rfl, (Except.ok.inj h).symm⟩

/-- **The line is kept** by every step in which nobody loses its place. -/
theorem LineInv.step {s s' : Kernel × Arrivals} {e : Event} (hi : LineInv q s) (he : e.Untimed)
    (hkeep : KeepsPlace q s e) (h : arrive q s e = .ok s') : LineInv q s' := by
  obtain ⟨k', hstep, rfl⟩ := arrive_eq_ok h
  have hw : WaitInv k' := hi.waits.step hi.registered he.1.stopsUnlinked hstep
  have hr : Registered k' := (hi.registered.step hstep).1
  -- the hart, a service that does not wait, or a segment of a blocking call
  cases hi.patient.taken hi.waits hi.registered he hstep with
  | hart out noCall path => exact hi.stays path hw hr
  | aside x n k₁ exec plain refused stirs ops returns ends =>
      obtain ⟨code, out, rfl⟩ := returns
      subst ends
      exact hi.leaves exec (stirs q hi.fifo) (by simp) hw hr
  | call x c env n k₁ exec run call passes part onQue ops ran ends =>
      cases ran with
      | polls must zero next same =>
          subst next same ends
          exact hi.leaves exec (.still (.refl _) rfl rfl) (by simp) hw hr
      | waits must forever w a next blocks =>
          subst next blocks ends
          -- the caller joins the line at its end, if it waits for this queue
          by_cases ho : c.obj s.1 = q.obj
          · refine hi.joins exec ho forever rfl ?_ hw hr
            by_cases hx : s.1.conts x = none
            · exact Or.inl hx
            · exact Or.inr (hkeep x c ⟨call, ho, passes⟩ hx (mustWait_setWoken s.1 x false c ▸ must))
          · -- blocked on another object
            refine hi.leaves exec (.still (.commWait forever a) ?_ (woken_commWait _ x c a)) ?_ hw hr
            · rw [waitingProcs_commWait, if_neg (Ne.symm (show c.obj (s.1.setWoken x false) ≠ q.obj from ho))]
            · rintro c' w' a' hc'
              obtain ⟨rfl, -, -⟩ := Cont.comm.inj (Option.some.inj hc')
              exact ⟨forever, ho⟩
      | served free finish =>
          obtain ⟨cx, hcx, hset⟩ := settle_of_commFinish (x := x) finish
          obtain ⟨pt, hpart⟩ := part
          have hf : FifoQue (s.1.setWoken x false) q := by cases q <;> exact hi.fifo
          have hpart' : c.OfPart (s.1.setWoken x false) pt := by cases c <;> exact hpart
          -- the call ends, and wakes up the first of the other side
          have hstirs := Stirs.commFinish (hi.waits.setWoken x) hf hpart' finish
          rw [hset] at ends
          subst ends
          exact hi.leaves exec hstirs (fun c' w a hc' => absurd hc' (hcx c' w a)) hw hr

theorem live_of_inCall {e : Event} (h : inCall k e = some (x, c)) : live k = some x := by
  cases e with
  | call env srv =>
      cases hl : live k with
      | none => simp [inCall, hl] at h
      | some y =>
          simp only [inCall, hl, Option.ite_none_right_eq_some, Option.map_eq_some_iff, Prod.mk.injEq] at h
          obtain ⟨-, -, -, rfl, -⟩ := h
          rfl
  | resume env =>
      cases hl : live k with
      | none => simp [inCall, hl] at h
      | some y =>
          simp only [inCall, hl] at h
          split at h
          · rw [← (Prod.mk.inj (Option.some.inj h)).1]
          · exact absurd h (by simp)
  | dispatch y => simp [inCall] at h
  | timer clk => simp [inCall] at h

/-- The operation of a segment of a call: that of the call, when it is served and on the queue. -/
theorem queueOp_of_ran {e : Event} {env : Env} {n : Next} {k₁ : Kernel} (run : segment k e = some (x, .ok (n, k₁)))
    (onQue : e.que k = c.que k) (ops : ∀ out, e.queueOp k out = c.queueOp env out)
    (ran : Ran (k.setWoken x false) env x c n k₁) :
    if c.obj k = q.obj ∧ mustWait k c = false then
      ∃ op, queueOp k e q = some op ∧ op.side = some c.receives
    else queueOp k e q = none := by
  have hop : queueOp k e q = if c.que k = some q then n.noErrorOut.bind fun out => c.queueOp env out else none := by
    simp only [queueOp, run, onQue, ops]
  rw [hop]
  by_cases ho : c.obj k = q.obj
  · have hque : c.que k = some q := CommCall.que_eq_some.mpr ho
    rw [if_pos hque]
    cases ran with
    | polls must zero next same =>
        rw [mustWait_setWoken] at must
        rw [if_neg (by simp [must]), next]
        rfl
    | waits must forever w a next blocks =>
        rw [mustWait_setWoken] at must
        rw [if_neg (by simp [must]), next]
        rfl
    | served free finish =>
        rw [mustWait_setWoken] at free
        rw [if_pos ⟨ho, free⟩]
        exact side_of_commFinish (k := k.setWoken x false) hque finish
  · rw [if_neg (fun hq => ho (CommCall.que_eq_some.mp hq)), if_neg (fun hq => ho hq.1)]

/-- **One step**: while the line is kept, a step serves no call before an older one iff it serves the first of
the line. -/
theorem LineInv.noOvertaking_iff {s s' : Kernel × Arrivals} {e : Event} (hi : LineInv q s) (he : e.Untimed)
    (h : arrive q s e = .ok s') : NoOvertaking q s e ↔ InTurn q s e := by
  obtain ⟨k', hstep, rfl⟩ := arrive_eq_ok h
  cases hi.patient.taken hi.waits hi.registered he hstep with
  | hart out noCall path =>
      constructor
      · rintro - x c ⟨hcall, -, -⟩
        exact absurd (hcall.symm.trans noCall) (by simp)
      · intro _ x op r _ hop
        simp [queueOp, out] at hop
  | aside x n k₁ exec plain refused stirs ops returns ends =>
      constructor
      · rintro - y c ⟨hcall, -, hpasses⟩
        have hxy : y = x := by
          have hlive : live s.1 = some y := live_of_inCall hcall
          exact Option.some.inj (hlive.symm.trans exec)
        subst hxy
        obtain ⟨hfree, hrefused⟩ := refused c hcall
        exact absurd (hpasses hfree) (by simp [hrefused])
      · intro _ y op r _ hop hside
        exact absurd (hside.symm.trans (ops q op hop)) (by simp)
  | call x c env n k₁ exec run call passes part onQue ops ran ends =>
      have hop := queueOp_of_ran (q := q) run onQue ops ran
      by_cases hserved : c.obj s.1 = q.obj ∧ mustWait s.1 c = false
      · rw [if_pos hserved] at hop
        obtain ⟨op, hop, hside⟩ := hop
        -- either the process is in the line, or it comes after all who are
        have hplace : x ∈ lineOf q s c.receives ∨
            ∀ p ∈ lineOf q s c.receives, s.2.issuedBy s.1 p < s.2.issuedBy s.1 x := by
          cases hx : s.1.conts x with
          | none => exact Or.inr (hi.lt_newcomer hx)
          | some cont =>
              cases e with
              | dispatch y => simp [segment] at run
              | timer clk => simp [segment] at run
              | call env' srv => simp [inCall, exec, hx] at call
              | resume env' =>
                  simp only [inCall, exec, hx] at call
                  split at call
                  · rename_i c' w a hc'
                    obtain ⟨-, rfl⟩ := Prod.mk.inj (Option.some.inj call)
                    rw [Option.some.injEq] at hc'
                    exact Or.inl (hi.mem_line.mpr (sideOf_eq_some.mpr ⟨c', w, a, hc' ▸ hx, hserved.1, rfl⟩))
                  · exact absurd call (by simp)
        have hfirst := (hi.order_issuedBy c.receives).first_iff hplace
        constructor
        · rintro hno y c' ⟨hcall, -, -⟩ -
          obtain ⟨rfl, rfl⟩ := Prod.mk.inj (Option.some.inj (call.symm.trans hcall))
          exact hfirst.mp fun p hp => hno x op c.receives exec hop hside p (LineInv.side_of_mem_line hp)
        · intro hturn y op' r hlive hop' hside' p hp
          obtain rfl := Option.some.inj (exec.symm.trans hlive)
          obtain rfl := Option.some.inj (hop.symm.trans hop')
          obtain rfl := Option.some.inj (hside.symm.trans hside')
          exact hfirst.mpr (hturn x c ⟨call, hserved.1, passes⟩ hserved.2) p (hi.mem_line.mpr hp)
      · rw [if_neg hserved] at hop
        constructor
        · rintro - y c' ⟨hcall, ho, -⟩ hfree
          obtain ⟨rfl, rfl⟩ := Prod.mk.inj (Option.some.inj (call.symm.trans hcall))
          exact absurd ⟨ho, hfree⟩ hserved
        · intro _ y op' r _ hop'
          exact absurd (hop.symm.trans hop') (by simp)

/-- In a quiet state there is no line. -/
theorem Quiet.lineInv (hq : Quiet k) (hf : FifoQue k q) : LineInv q (k, .start) where
  waits := hq.waitInv
  registered := hq.registered
  fifo := hf
  patient := ⟨fun p c w a hc => absurd ((hq.conts p).symm.trans hc) (by simp), hq.events, fun p _ => hq.woken p⟩
  nodup := by
    rw [hq.lists]
    exact List.nodup_nil
  mem p := by
    have hside : sideOf k q p = none := by simp [sideOf, hq.conts p]
    simp [Arrivals.start, hq.lists, hside]
  called p hp := absurd hp List.not_mem_nil
  unmarked p hp := by
    rw [hq.lists] at hp
    exact absurd hp List.not_mem_nil
  past p hp := absurd (hq.conts p) hp
  order r := by
    simp [lineOf, Arrivals.start, hq.lists, InOrder]

/-- **No call is overtaken throughout a run** in which nobody loses its place iff every step serves the first
of the line. -/
theorem no_overtaking_iff {tr : List ((Kernel × Arrivals) × Event)} {s : Kernel × Arrivals} (hq : Quiet k)
    (hf : FifoQue k q) (hrun : Exec (arrive q) (k, .start) tr s) (hdom : AllSteps (fun _ e => e.Untimed) tr)
    (hkeep : AllSteps (KeepsPlace q) tr) : AllSteps (NoOvertaking q) tr ↔ AllSteps (InTurn q) tr := by
  have hboth : AllSteps (fun s e => e.Untimed ∧ KeepsPlace q s e) tr := fun x hx => ⟨hdom x hx, hkeep x hx⟩
  refine hrun.allSteps_iff_within (I := LineInv q) (hq.lineInv hf) hboth ?_ ?_
  · rintro a e b hi ⟨he, hk⟩ - h
    exact hi.step he hk h
  · rintro a e b hi ⟨he, -⟩ h
    exact hi.noOvertaking_iff he h

/-! ### Runs to look at -/

instance (q : Que) (s : Kernel × Arrivals) (e : Event) : Decidable (KeepsPlace q s e) :=
  decidable_of_iff (∀ y ∈ inCall s.1 e, y.2.obj s.1 = q.obj →
      (s.1.conts y.1 = none → y.2.admitted s.1 = true) → s.1.conts y.1 ≠ none → mustWait s.1 y.2 = true →
      (lineOf q s y.2.receives).getLast? = some y.1)
    ⟨fun h x c hr => h (x, c) hr.call hr.obj hr.passes, fun h y hy ho hp => h y.1 y.2 ⟨hy, ho, hp⟩⟩

instance (q : Que) (s : Kernel × Arrivals) (e : Event) : Decidable (InTurn q s e) :=
  decidable_of_iff (∀ y ∈ inCall s.1 e, y.2.obj s.1 = q.obj →
      (s.1.conts y.1 = none → y.2.admitted s.1 = true) → mustWait s.1 y.2 = false →
      ∀ p ∈ (lineOf q s y.2.receives).head?, p = y.1)
    ⟨fun h x c hr => h (x, c) hr.call hr.obj hr.passes, fun h y hy ho hp => h y.1 y.2 ⟨hy, ho, hp⟩⟩

/-- A call of the runs below, by a process that waits for ever. -/
def patientCall (s : Service) : Event := .call ⟨fun _ => 0, fun _ => 0⟩ s

/-- `SEND_BUFFER` of one byte. -/
def sendOne : Event := patientCall (.sendBuffer 1 0 1 systemTimeInfiniteVal)

/-- `RECEIVE_BUFFER`. -/
def receiveOne : Event := patientCall (.receiveBuffer 1 systemTimeInfiniteVal 0)

theorem untimed_patientCall {s : Service} (hs : s.transfers = true)
    (hc : ∀ c, s.commCall = some c → c.timeOut = systemTimeInfiniteVal) : (patientCall s).Untimed :=
  ⟨hs, fun env s' c he hcall => by
    obtain ⟨-, rfl⟩ := Event.call.inj he
    exact Or.inr (hc c hcall)⟩

theorem untimed_sendOne : sendOne.Untimed :=
  untimed_patientCall rfl fun c hc => by
    rw [← Option.some.inj hc]
    rfl

theorem untimed_receiveOne : receiveOne.Untimed :=
  untimed_patientCall rfl fun c hc => by
    rw [← Option.some.inj hc]
    rfl

theorem untimed_dispatch (p : ProcId) : (Event.dispatch p).Untimed :=
  ⟨trivial, fun _ _ _ he => absurd he (by simp)⟩

theorem untimed_resume (env : Env) : (Event.resume env).Untimed :=
  ⟨trivial, fun _ _ _ he => absurd he (by simp)⟩

/-- The process `2` blocks on the full buffer, and the process `1` takes the message, which wakes `2` up. -/
def receiverReturns : List Event :=
  [sendOne, .dispatch 2, sendOne, .dispatch 1, receiveOne, .dispatch 1, .resume ⟨fun _ => 0, fun _ => 0⟩]

theorem untimed_receiverReturns : ∀ e ∈ receiverReturns, e.Untimed := by
  simp [receiverReturns, untimed_sendOne, untimed_receiveOne, untimed_dispatch, untimed_resume]

/-- A blocked sender can be overtaken: the process `1` sends before `2` is dispatched again. -/
theorem sender_overtaken : ¬ ∀ (k : Kernel) (q : Que) (s : Kernel × Arrivals)
    (tr : List ((Kernel × Arrivals) × Event)), Quiet k → FifoQue k q → Exec (arrive q) (k, .start) tr s →
    AllSteps (fun _ e => e.Untimed) tr → AllSteps (NoOvertaking q) tr := by
  intro hall
  obtain ⟨s, hrun, hcheck⟩ := Exec.of_checkRun (arrive (.buffer 1)) (smallSystem 1 .fifo [1, 2], .start)
    receiverReturns
    (fun s => decide ((live s.1 = some 1 ∧ sideOf s.1 (.buffer 1) 2 = some false ∧
      s.2.issuedBy s.1 2 < s.2.issuedBy s.1 1) ∧ queueOp s.1 sendOne (.buffer 1) = some (.enq (1, [0])) ∧
      checkRun (arrive (.buffer 1)) s [sendOne] (fun _ => true) = true)) (by decide +kernel)
  obtain ⟨⟨hlive, hside, hold⟩, hop, hlast⟩ := of_decide_eq_true hcheck
  obtain ⟨s', hone, -⟩ := Exec.of_checkRun _ _ _ _ hlast
  have hdom : ∀ (m : Kernel × Arrivals) (es : List Event), (∀ e ∈ es, e.Untimed) →
      AllSteps (fun _ e => e.Untimed) (traceEvents (arrive (.buffer 1)) m es) :=
    fun m es hes => allSteps_traceEvents hes
  have hsend : ∀ e ∈ [sendOne], e.Untimed := by simp [untimed_sendOne]
  have hno := hall _ (.buffer 1) _ _ (quiet_smallSystem 1 .fifo [1, 2]) rfl (hrun.trans hone) fun x hx =>
    (List.mem_append.mp hx).elim (hdom _ _ untimed_receiverReturns x) (hdom _ _ hsend x)
  have hmem : (s, sendOne) ∈ traceEvents (arrive (.buffer 1)) s [sendOne] := by
    cases hs : arrive (.buffer 1) s sendOne with
    | error f => simp [checkRun, runEvents, hs] at hlast
    | ok t => simp [traceEvents, hs]
  exact hno _ (List.mem_append_right _ hmem) 1 _ false hlive hop rfl 2 hside hold

/-- In a run in which the sender that was woken up goes on at once, nobody is overtaken. -/
theorem no_overtaking_senderResumes : ∃ s tr, Exec (arrive (.buffer 1)) (smallSystem 1 .fifo [1, 2], .start) tr s ∧
    tr.length = 7 ∧ AllSteps (NoOvertaking (.buffer 1)) tr := by
  obtain ⟨s, hrun, -⟩ := Exec.of_checkRun (arrive (.buffer 1)) (smallSystem 1 .fifo [1, 2], .start)
    [sendOne, .dispatch 2, sendOne, .dispatch 1, receiveOne, .dispatch 2, .resume ⟨fun _ => 0, fun _ => 0⟩]
    (fun _ => true) (by decide +kernel)
  refine ⟨s, _, hrun, by decide +kernel,
    (no_overtaking_iff (q := .buffer 1) (quiet_smallSystem 1 .fifo [1, 2]) rfl hrun ?_ ?_).mpr ?_⟩
  · exact allSteps_traceEvents (by
      simp [untimed_sendOne, untimed_receiveOne, untimed_dispatch, untimed_resume])
  · unfold AllSteps
    decide +kernel
  · unfold AllSteps
    decide +kernel

end Jrinx
