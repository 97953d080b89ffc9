import Jrinx.Mm.Charges
import Jrinx.Registry

/-! # Every step is a sequence of effects

The services and the machine events, taken apart into the effects of `Eff`.

* **`Allowed`** — which effects an event can have: `STOP` alone stops a process, only the queuing
  services touch a channel, `DISPLAY` and `CLEAR` alone write a blackboard, and services neither dispatch
  nor handle timers.
* **`path_doSyscall`**, **`path_resumeCont`** — the segments of the services.
* **`step_path`** — the steps of the machine. -/

namespace Jrinx

/-! ## Which effects an event can have -/

/-- The channel that the effect changes, itself or its wait list. -/
def Act.chan : Act → Option ChanId
  | .block _ (.channel ch) => some ch
  | .wake _ (.channel ch) => some ch
  | .queue (.channel ch) => some ch
  | _ => none

/-- The effect is one of `sched_proc`, or of a timer interrupt. -/
def Act.ofHart : Act → Bool
  | .dispatch _ => true
  | .expire _ => true
  | .partition => true
  | .global => true
  | _ => false

/-- The queue that a call works on. -/
def Service.que (k : Kernel) : Service → Option Que
  | .sendBuffer b _ _ _ => some (.buffer b)
  | .receiveBuffer b _ _ => some (.buffer b)
  | .sendQueuingMessage port _ _ _ => some (.channel (k.ports port).qpChannel)
  | .receiveQueuingMessage port _ _ => some (.channel (k.ports port).qpChannel)
  | .clearQueuingPort port => some (.channel (k.ports port).qpChannel)
  | _ => none

/-- The queue that a blocking call works on. -/
def CommCall.que (k : Kernel) : CommCall → Option Que
  | .sendBuffer b _ _ _ => some (.buffer b)
  | .receiveBuffer b _ _ => some (.buffer b)
  | .sendQueuingMessage port _ _ _ => some (.channel (k.ports port).qpChannel)
  | .receiveQueuingMessage port _ _ => some (.channel (k.ports port).qpChannel)
  | .readBlackboard _ _ _ => none

/-- The queue that the rest of a call works on. -/
def Cont.que (k : Kernel) : Cont → Option Que
  | .comm c _ _ => c.que k
  | _ => none

/-- The queue that the event works on. -/
def Event.que (k : Kernel) : Event → Option Que
  | .call _ s => s.que k
  | .resume _ => (live k).bind fun p => (k.conts p).bind (Cont.que k)
  | _ => none

/-- The channel, for a queue that is one. -/
def Que.chan : Que → Option ChanId
  | .buffer _ => none
  | .channel ch => some ch

theorem Que.chan_eq_some {q : Que} {ch : ChanId} : q.chan = some ch ↔ q = .channel ch := by
  cases q <;> simp [Que.chan]

/-- The channel that the event works on. -/
def Event.chan (k : Kernel) (e : Event) : Option ChanId := (e.que k).bind Que.chan

theorem Event.chan_eq_some {k : Kernel} {e : Event} {ch : ChanId} :
    e.chan k = some ch ↔ e.que k = some (.channel ch) := by
  rw [Event.chan, Option.bind_eq_some_iff]
  simp [Que.chan_eq_some]

/-- The blackboard that the event writes or clears. -/
def Event.board : Event → Option BbId
  | .call _ (.displayBlackboard b _ _) => some b
  | .call _ (.clearBlackboard b) => some b
  | _ => none

/-- The event is a segment of a service. -/
def Event.ofService : Event → Bool
  | .call _ _ => true
  | .resume _ => true
  | _ => false

/-- The effects that the event `e` can have when it happens in the state `k₀`. -/
structure Allowed (k₀ : Kernel) (e : Event) (k : Kernel) (a : Act) : Prop where
  stop : ∀ p, a = .stop p → k = k₀ ∧ ∃ env, e = .call env (.stop p)
  channel : ∀ ch, a.chan = some ch → e.chan k₀ = some ch
  queue : ∀ q, a = .queue q → e.que k₀ = some q
  board : ∀ b, a = .board b → e.board = some b
  hart : a.ofHart = true → e.ofService = false

/-- The effects every service may have. -/
def Act.plain : Act → Bool
  | .stop _ => false
  | .queue _ => false
  | .board _ => false
  | a => a.chan.isNone && !a.ofHart

theorem Allowed.of_plain {k₀ k : Kernel} {e : Event} {a : Act} (h : a.plain = true) :
    Allowed k₀ e k a := by
  constructor
  · rintro p rfl
    simp [Act.plain] at h
  · intro ch hc
    cases a <;> simp_all [Act.plain]
  · rintro q rfl
    simp [Act.plain] at h
  · rintro b rfl
    simp [Act.plain] at h
  · intro hc
    cases a <;> simp_all [Act.plain]

/-! ## The executing process -/

/-- The process `p` executes on the hart. -/
structure Live (k : Kernel) (p : ProcId) : Prop where
  cur : k.curProc = some p
  runs : eligible k p = true
  own : OwnProc k p

theorem live_eq_some {k : Kernel} {p : ProcId} : live k = some p ↔ Live k p := by
  rw [live, Option.filter_eq_some_iff]
  simp only [Bool.and_eq_true, decide_eq_true_eq]
  constructor
  · rintro ⟨hcur, hruns, hown⟩
    exact ⟨hcur, hruns, hown⟩
  · rintro ⟨hcur, hruns, hown⟩
    exact ⟨hcur, hruns, hown⟩

theorem eligible_iff {k : Kernel} {p : ProcId} :
    eligible k p = true ↔ (k.procs p).prState = .ready ∨ (k.procs p).prState = .running := by
  simp [eligible]

theorem not_isBlocked_of_eligible {k : Kernel} {p : ProcId} (h : eligible k p = true) :
    ¬ isBlocked k p := by
  rintro ⟨hw, -⟩
  rcases eligible_iff.mp h with hs | hs <;> rw [hs] at hw <;> exact absurd hw (by decide)

theorem not_isBlocked_of_dormant {k : Kernel} {p : ProcId} (h : (k.procs p).prState = .dormant) :
    ¬ isBlocked k p := by
  rintro ⟨hw, -⟩
  rw [h] at hw
  exact absurd hw (by decide)

theorem not_isBlocked_of_reason {k : Kernel} {p : ProcId}
    (h : (k.procs p).prWaitingReason.isBlocked = false) : ¬ isBlocked k p := by
  rintro ⟨-, hb⟩
  rw [h] at hb
  exact absurd hb (by decide)

/-- The end of a segment is an effect, unless it leaves the process blocked in a communication
call. -/
theorem path_settle {A : Kernel → Act → Prop} {k k₁ : Kernel} {p : ProcId} {n : Next}
    (h : Path A k k₁) (hcur : k₁.curProc = some p) (hown : OwnProc k₁ p) (hfree : ¬ isBlocked k₁ p)
    (hA : A k₁ (.cont p)) (hn : ∀ rr c w a, n ≠ .giveUp rr (.comm c w a)) :
    Path A k (settle p (n, k₁)) := by
  refine h.trans ?_
  cases n with
  | ret code out => exact .one (.cont none hcur hown hfree (by simp)) hA
  | giveUp rr c =>
      refine .one (.cont (some c) hcur hown hfree ?_) hA
      rintro c' w a heq
      rw [Option.some.injEq] at heq
      exact hn rr c' w a (by rw [heq])

/-- A segment that changes nothing. -/
theorem path_ret {k₀ k : Kernel} {e : Event} {p : ProcId} (hl : Live k p) (code : RetCode)
    (out : Out) : Path (Allowed k₀ e) k (settle p (.ret code out, k)) :=
  path_settle (.refl k) hl.cur hl.own (not_isBlocked_of_eligible hl.runs) (.of_plain rfl) (by simp)

/-! ## Wake-ups -/

@[simp] theorem prState_freeEvent (k : Kernel) (i : TimeEvent) (p : ProcId) :
    ((freeEvent k i).procs p).prState = (k.procs p).prState := by
  unfold freeEvent
  cases i.teType.proc with
  | none => rfl
  | some q =>
      by_cases hp : p = q
      · rw [hp]
        simp
      · simp [hp]

/-- A wake-up leaves every other process in its state. -/
theorem prState_wakeProc {k k' : Kernel} {o : WaitObj} {p : ProcId}
    (h : wakeProc k o p = .ok k') (q : ProcId) :
    (k'.procs q).prState = if q = p then .ready else (k.procs q).prState := by
  obtain ⟨k₁, hk₁, rfl⟩ := wakeProc_eq_ok h
  have hstate : (k₁.procs q).prState = (k.procs q).prState := by
    rcases hk₁ with ⟨-, hfree⟩ | ⟨-, rfl⟩
    · obtain ⟨i, -, -, rfl⟩ := mem_of_timeEventFree hfree
      simp [delWaitingProc]
    · simp [delWaitingProc]
  by_cases hq : q = p
  · rw [hq]
    simp [Kernel.setWoken]
  · simp [Kernel.setWoken, hq, hstate]

/-- A wake-up shortens the wait list of its object, and no other. -/
theorem waitingProcs_wakeProc {k k' : Kernel} {o : WaitObj} {p : ProcId}
    (h : wakeProc k o p = .ok k') (o' : WaitObj) :
    k'.waitingProcs o' = if o' = o then (k.waitingProcs o).erase p else k.waitingProcs o' := by
  have hdel : (delWaitingProc k o p).waitingProcs o'
      = if o' = o then (k.waitingProcs o).erase p else k.waitingProcs o' := by
    simp [delWaitingProc]
  obtain ⟨k₁, hk₁, rfl⟩ := wakeProc_eq_ok h
  rcases hk₁ with ⟨-, hfree⟩ | ⟨-, rfl⟩
  · obtain ⟨i, -, -, rfl⟩ := mem_of_timeEventFree hfree
    rw [← hdel]
    cases o' <;> rfl
  · rw [← hdel]
    cases o' <;> rfl

theorem curPart_of_wakeProc {k k' : Kernel} {o : WaitObj} {p : ProcId}
    (h : wakeProc k o p = .ok k') : k'.curPart = k.curPart := by
  obtain ⟨k₁, hk₁, rfl⟩ := wakeProc_eq_ok h
  rcases hk₁ with ⟨-, hfree⟩ | ⟨-, rfl⟩
  · obtain ⟨i, -, -, rfl⟩ := mem_of_timeEventFree hfree
    show (delWaitingProc k o p).curPart = k.curPart
    simp [delWaitingProc]
  · show (delWaitingProc k o p).curPart = k.curPart
    simp [delWaitingProc]

/-- The executing process goes on executing after a wake-up. -/
theorem Live.wakeProc {k k' : Kernel} {o : WaitObj} {p q : ProcId} (hl : Live k p)
    (h : wakeProc k o q = .ok k') : Live k' p where
  cur := by
    rw [(conts_of_wakeProc h).2]
    exact hl.cur
  runs := by
    rw [eligible_iff, prState_wakeProc h]
    split
    · exact Or.inl rfl
    · exact eligible_iff.mp hl.runs
  own := by
    rw [OwnProc, (Same.wakeProc h).prPartId, curPart_of_wakeProc h]
    exact hl.own

/-- A wake-up of at most one process. -/
theorem path_wakeup {A : Kernel → Act → Prop} {k k' : Kernel} {p : ProcId} {disc : QueDisc}
    {o : WaitObj} {woke : Option ProcId} (hl : Live k p) (hobj : ObjOf k k.curPart o)
    (hA : ∀ k q, A k (.wake q o)) (h : wakeup k disc o = .ok (woke, k')) :
    Path A k k' ∧ Live k' p ∧ Same k k' := by
  rcases wakeup_eq_ok h with ⟨-, -, rfl⟩ | ⟨q, -, hpick, hwake⟩
  · exact ⟨.refl k', hl, .refl k'⟩
  · exact ⟨.one (.wake (mem_of_pickWaiting hpick) hobj hwake) (hA k q), hl.wakeProc hwake,
      .wakeProc hwake⟩

/-- The current partition is that of the executing process. -/
theorem Live.curPart_eq {k k' : Kernel} {p : ProcId} (hl : Live k p) (hl' : Live k' p)
    (hs : Same k k') : k'.curPart = k.curPart := by
  rw [← hl.own, ← hl'.own, hs.prPartId]

/-- A queue operation keeps the executing process. -/
theorem Live.setBody {k : Kernel} {p : ProcId} (hl : Live k p) (q : Que) (cc : Circbuf) :
    Live (k.setBody q cc) p := by
  cases q <;> exact ⟨hl.cur, hl.runs, hl.own⟩

theorem curPart_setBody (k : Kernel) (q : Que) (cc : Circbuf) :
    (k.setBody q cc).curPart = k.curPart := by
  cases q <;> rfl

/-- A queue operation followed by a wake-up on the same object. -/
theorem path_queue_wakeup {A : Kernel → Act → Prop} {k k' : Kernel} {p : ProcId} {disc : QueDisc}
    {q : Que} {cc : Circbuf} {woke : Option ProcId} (hl : Live k p)
    (hobj : ObjOf k k.curPart q.obj) (hA : ∀ k x, A k (.wake x q.obj)) (hAq : A k (.queue q))
    (h : wakeup (k.setBody q cc) disc q.obj = .ok (woke, k')) :
    Path A k k' ∧ Live k' p := by
  have hobj' : ObjOf (k.setBody q cc) (k.setBody q cc).curPart q.obj := by
    rw [curPart_setBody]
    exact (Same.setBody q cc).extends.objOf hobj
  have hw := path_wakeup (hl.setBody q cc) hobj' hA h
  exact ⟨.cons (.queue cc hobj) hAq hw.1, hw.2.1⟩

/-! ## The communication services -/

/-- The end of a buffer service. -/
theorem path_bufferWakeup {A : Kernel → Act → Prop} {k : Kernel} {p : ProcId} {b : BufId}
    {cc : Circbuf} {out : Out} {r : Next × Kernel} (hl : Live k p)
    (hobj : ObjOf k k.curPart (.buffer b)) (hA : ∀ k a, a.plain = true → A k a)
    (hAq : A k (.queue (.buffer b))) (h : bufferWakeup (k.setBody (.buffer b) cc) b out = .ok r) : Path A k (settle p r) := by
  unfold bufferWakeup at h
  cases hw : wakeup (k.setBody (.buffer b) cc) ((k.setBody (.buffer b) cc).bufs b).bufQueDisc
      (.buffer b) with
  | error e => simp [hw, bind, Except.bind] at h
  | ok x =>
      obtain ⟨woke, k'⟩ := x
      obtain ⟨hpath, hl'⟩ := path_queue_wakeup (q := .buffer b) hl hobj (fun k x => hA k _ rfl)
        hAq hw
      have hend : ∀ n : Next, (∀ rr c w a, n ≠ .giveUp rr (.comm c w a)) →
          Path A k (settle p (n, k')) := fun n hn =>
        path_settle hpath hl'.cur hl'.own (not_isBlocked_of_eligible hl'.runs) (hA k' _ rfl) hn
      cases woke with
      | none =>
          simp only [hw, bind, Except.bind, Except.ok.injEq] at h
          rw [← h]
          exact hend _ (by simp)
      | some q =>
          simp only [hw, bind, Except.bind, Except.ok.injEq] at h
          rw [← h]
          exact hend _ (by simp)

/-- The end of a service on a queuing port. -/
theorem path_queuingPortWakeup {A : Kernel → Act → Prop} {k : Kernel} {p : ProcId} {port : PortId}
    {cc : Circbuf} {out : Out} {r : Next × Kernel} (hl : Live k p)
    (hobj : ObjOf k k.curPart (.channel (k.ports port).qpChannel))
    (hA : ∀ k₁ a, a.plain = true ∨ a.chan = some (k.ports port).qpChannel → A k₁ a)
    (h : queuingPortWakeup (k.setBody (.channel (k.ports port).qpChannel) cc) port out = .ok r) :
    Path A k (settle p r) := by
  unfold queuingPortWakeup at h
  have hports : (k.setBody (.channel (k.ports port).qpChannel) cc).ports = k.ports := rfl
  rw [hports] at h
  cases hw : wakeup (k.setBody (.channel (k.ports port).qpChannel) cc) (k.ports port).qpDisc
      (.channel (k.ports port).qpChannel) with
  | error e => simp [hw, bind, Except.bind] at h
  | ok x =>
      obtain ⟨woke, k'⟩ := x
      obtain ⟨hpath, hl'⟩ := path_queue_wakeup (q := .channel (k.ports port).qpChannel) hl hobj
        (fun k x => hA k _ (Or.inr rfl)) (hA k _ (Or.inr rfl)) hw
      simp only [hw, bind, Except.bind, Except.ok.injEq] at h
      rw [← h]
      exact path_settle hpath hl'.cur hl'.own (not_isBlocked_of_eligible hl'.runs)
        (hA k' _ (Or.inl rfl)) (by simp)

/-- What the effects of a call must be allowed to be. -/
def AllowsCall (A : Kernel → Act → Prop) (k : Kernel) (c : CommCall) : Prop :=
  (∀ k₁ a, a.plain = true → A k₁ a) ∧
    (∀ b, c.que k = some (.buffer b) → ∀ k₁, A k₁ (.queue (.buffer b))) ∧
    ∀ ch, c.que k = some (.channel ch) → ∀ k₁ a, a.chan = some ch → A k₁ a

/-- What follows the loop. -/
theorem path_commFinish {A : Kernel → Act → Prop} {k : Kernel} {env : Env} {p : ProcId}
    {c : CommCall} {r : Next × Kernel} (hl : Live k p) (hc : c.OfPart k k.curPart)
    (hA : AllowsCall A k c) (h : commFinish k env c = .ok r) : Path A k (settle p r) := by
  have hobj := hc.objOf
  have hAc : ∀ ch, c.que k = some (.channel ch) →
      ∀ k₁ a, a.plain = true ∨ a.chan = some ch → A k₁ a := by
    rintro ch hch k₁ a (hp | ho)
    exacts [hA.1 k₁ a hp, hA.2.2 ch hch k₁ a ho]
  cases c with
  | sendBuffer b msgAddr length timeOut => exact path_bufferWakeup hl hobj hA.1 (hA.2.1 b rfl k) h
  | receiveBuffer b timeOut msgAddr => exact path_bufferWakeup hl hobj hA.1 (hA.2.1 b rfl k) h
  | sendQueuingMessage port msgAddr length timeOut =>
      exact path_queuingPortWakeup hl hobj (hAc _ rfl) h
  | receiveQueuingMessage port timeOut msgAddr =>
      exact path_queuingPortWakeup hl hobj (hAc _ rfl) h
  | readBlackboard b timeOut msgAddr =>
      simp only [commFinish, Except.ok.injEq] at h
      rw [← h]
      exact path_settle (.refl k) hl.cur hl.own (not_isBlocked_of_eligible hl.runs)
        (hA.1 k _ rfl) (by simp)

/-- One round of the loop. -/
theorem path_commBlock {A : Kernel → Act → Prop} {k : Kernel} {env : Env} {p : ProcId}
    {c : CommCall} {wakeup : Int} {i : Nat} {r : Next × Kernel} (hl : Live k p)
    (hc : c.OfPart k k.curPart) (hf : c.Fits k) (hA : AllowsCall A k c) (hfull : mustWait k c = true)
    (h : commBlock k env p c wakeup i = .ok r) : Path A k (settle p r) := by
  unfold commBlock at h
  split at h
  · rw [← Except.ok.inj h]
    exact path_settle (.refl k) hl.cur hl.own (not_isBlocked_of_eligible hl.runs)
      (hA.1 k _ rfl) (by simp)
  · rw [← Except.ok.inj h]
    refine .one (.block c wakeup _ hl.cur hl.own hl.runs hc hf hfull) ?_
    cases c with
    | sendBuffer => exact hA.1 k _ rfl
    | receiveBuffer => exact hA.1 k _ rfl
    | sendQueuingMessage => exact hA.2.2 _ rfl k _ rfl
    | receiveQueuingMessage => exact hA.2.2 _ rfl k _ rfl
    | readBlackboard => exact hA.1 k _ rfl

/-- A blocking service from its locks on. -/
theorem path_commEnter {A : Kernel → Act → Prop} {k : Kernel} {env : Env} {p : ProcId}
    {c : CommCall} {r : Next × Kernel} (hl : Live k p) (hc : c.OfPart k k.curPart)
    (hf : c.Fits k) (hA : AllowsCall A k c) (h : commEnter k env p c = .ok r) : Path A k (settle p r) := by
  unfold commEnter at h
  split at h
  · rename_i hfull
    split at h
    · rw [← Except.ok.inj h]
      exact path_settle (.refl k) hl.cur hl.own (not_isBlocked_of_eligible hl.runs)
        (hA.1 k _ rfl) (by simp)
    · exact path_commBlock hl hc hf hA hfull h
  · exact path_commFinish hl hc hA h

/-- A blocking service back from `sched_proc_give_up`. -/
theorem path_commResume {A : Kernel → Act → Prop} {k : Kernel} {env : Env} {p : ProcId}
    {c : CommCall} {wakeup armed : Int} {r : Next × Kernel} (hl : Live k p)
    (hc : c.OfPart k k.curPart) (hf : c.Fits k) (hA : AllowsCall A k c)
    (h : commResume k env p c wakeup armed = .ok r) : Path A k (settle p r) := by
  unfold commResume at h
  split at h
  · rw [← Except.ok.inj h]
    exact path_settle (.refl k) hl.cur hl.own (not_isBlocked_of_eligible hl.runs)
      (hA.1 k _ rfl) (by simp)
  · split at h
    · rename_i hfull
      exact path_commBlock hl hc hf hA hfull h
    · exact path_commFinish hl hc hA h

/-! ## The other services -/

theorem Allowed.of_chan {k₀ k : Kernel} {e : Event} {a : Act} {ch : ChanId}
    (he : e.que k₀ = some (.channel ch)) (ha : a.chan = some ch) : Allowed k₀ e k a := by
  constructor
  · rintro p rfl
    simp [Act.chan] at ha
  · intro ch' ha'
    rw [Event.chan_eq_some, he, Option.some.inj (ha.symm.trans ha')]
  · rintro q rfl
    cases q with
    | buffer b => simp [Act.chan] at ha
    | channel c =>
        rw [he, show c = ch from Option.some.inj ha]
  · rintro b rfl
    simp [Act.chan] at ha
  · intro hh
    cases a <;> simp_all [Act.chan, Act.ofHart]

theorem Allowed.of_board {k₀ k : Kernel} {e : Event} {b : BbId} (he : e.board = some b) :
    Allowed k₀ e k (.board b) := by
  constructor
  · rintro p hp
    cases hp
  · intro ch hch
    simp [Act.chan] at hch
  · rintro q hq
    cases hq
  · rintro b' hb
    cases hb
    exact he
  · intro hh
    simp [Act.ofHart] at hh

theorem Allowed.of_buffer {k₀ k : Kernel} {e : Event} {b : BufId}
    (he : e.que k₀ = some (.buffer b)) : Allowed k₀ e k (.queue (.buffer b)) := by
  constructor
  · rintro p hp
    cases hp
  · intro ch hch
    simp [Act.chan] at hch
  · rintro q hq
    cases hq
    exact he
  · rintro b' hb
    cases hb
  · intro hh
    simp [Act.ofHart] at hh

/-- A service that only returns, with the state as it was. -/
def Silent (k : Kernel) (o : Outcome) : Prop := ∃ code out, o = .ok (.ret code out, k)

theorem Silent.path {k₀ k : Kernel} {e : Event} {p : ProcId} {o : Outcome} {r : Next × Kernel}
    (hs : Silent k o) (hl : Live k p) (h : o = .ok r) : Path (Allowed k₀ e) k (settle p r) := by
  obtain ⟨code, out, rfl⟩ := hs
  rw [← Except.ok.inj h]
  exact path_ret hl code out

theorem silent_retCode (k : Kernel) (code : RetCode) : Silent k (retCode k code) :=
  ⟨code, .none, rfl⟩

theorem silent_ret (k : Kernel) (code : RetCode) (out : Out) :
    Silent k (.ok (.ret code out, k)) := ⟨code, out, rfl⟩

/-- The services that only answer. -/
def Service.asks : Service → Bool
  | .getPartitionStatus | .getProcessId _ | .getProcessStatus _ | .getMyId | .getMyIndex | .getTime
  | .getQueuingPortId _ | .getQueuingPortStatus _ | .getBufferId _ | .getBufferStatus _
  | .getBlackboardId _ | .getBlackboardStatus _ | .todo _ => true
  | _ => false

/-- **A service that only answers** leaves the state as it was. -/
theorem silent_doSyscall {k : Kernel} {s : Service} (hs : s.asks = true) (env : Env) (p : ProcId) :
    Silent k (doSyscall k env p s) := by
  cases s with
  | getPartitionStatus | getMyId | getTime => exact silent_ret k _ _
  | todo t => exact silent_retCode k _
  | getProcessId name =>
      simp only [doSyscall, doGetProcessId]
      split
      exacts [silent_retCode k _, silent_ret k _ _]
  | getProcessStatus id =>
      simp only [doSyscall, doGetProcessStatus]
      split
      exacts [silent_retCode k _, silent_ret k _ _]
  | getMyIndex =>
      simp only [doSyscall, doGetMyIndex]
      split
      exacts [silent_retCode k _, silent_ret k _ _]
  | getQueuingPortId name =>
      -- the name is looked up twice, among the ports of the partition and in the table
      simp only [doSyscall, doGetQueuingPortId]
      split
      · exact silent_retCode k _
      · split
        exacts [silent_retCode k _, silent_ret k _ _]
  | getQueuingPortStatus port =>
      simp only [doSyscall, doGetQueuingPortStatus]
      split
      exacts [silent_retCode k _, silent_ret k _ _]
  | getBufferId name =>
      simp only [doSyscall, doGetBufferId]
      split
      exacts [silent_retCode k _, silent_ret k _ _]
  | getBufferStatus b =>
      simp only [doSyscall, doGetBufferStatus]
      split
      exacts [silent_retCode k _, silent_ret k _ _]
  | getBlackboardId name =>
      simp only [doSyscall, doGetBlackboardId]
      split
      exacts [silent_retCode k _, silent_ret k _ _]
  | getBlackboardStatus b =>
      simp only [doSyscall, doGetBlackboardStatus]
      split
      exacts [silent_retCode k _, silent_ret k _ _]
  | _ => exact absurd hs Bool.false_ne_true

section Services

variable {k : Kernel} {env : Env} {p : ProcId} {r : Next × Kernel} {e : Event}

theorem of_curBuffer {b : BufId} {buf : Buffer} (h : curBuffer k b = some buf) :
    b ∈ k.bufIds ∧ (k.bufs b).bufPartId = k.curPart ∧ buf = k.bufs b := by
  rw [curBuffer, Option.filter_eq_some_iff, bufferFromId] at h
  obtain ⟨hb, hpt⟩ := h
  split at hb
  · rename_i hmem
    rw [Option.some.injEq] at hb
    exact ⟨hmem, by rw [hb]; simpa using hpt, hb.symm⟩
  · exact absurd hb (by simp)

theorem of_curBlackboard {b : BbId} {bb : Blackboard} (h : curBlackboard k b = some bb) :
    b ∈ k.bbIds ∧ (k.bbs b).bbPartId = k.curPart ∧ bb = k.bbs b := by
  rw [curBlackboard, Option.filter_eq_some_iff, blackboardFromId] at h
  obtain ⟨hb, hpt⟩ := h
  split at hb
  · rename_i hmem
    rw [Option.some.injEq] at hb
    exact ⟨hmem, by rw [hb]; simpa using hpt, hb.symm⟩
  · exact absurd hb (by simp)

theorem of_curQueuingPort {port : PortId} {qp : QueuingPort}
    (h : curQueuingPort k port = some qp) :
    port ∈ k.portIds ∧ (k.ports port).qpPartId = k.curPart ∧ qp = k.ports port := by
  rw [curQueuingPort, Option.filter_eq_some_iff, queuingPortFromId] at h
  obtain ⟨hb, hpt⟩ := h
  split at hb
  · rename_i hmem
    rw [Option.some.injEq] at hb
    exact ⟨hmem, by rw [hb]; simpa using hpt, hb.symm⟩
  · exact absurd hb (by simp)

theorem of_curPartProc {id : ProcId} {pr : Proc} (h : curPartProc k id = some pr) :
    id ∈ k.procIds ∧ OwnProc k id ∧ pr = k.procs id := by
  rw [curPartProc, Option.filter_eq_some_iff, procFromId] at h
  obtain ⟨hb, hpt⟩ := h
  split at hb
  · rename_i hmem
    rw [Option.some.injEq] at hb
    exact ⟨hmem, by rw [OwnProc, hb]; simpa using hpt, hb.symm⟩
  · exact absurd hb (by simp)

/-- A call may have any plain effect, and may touch its queue if the event works on it. -/
theorem allowsCall {k₀ : Kernel} {c : CommCall} (he : ∀ q, c.que k = some q → e.que k₀ = some q) :
    AllowsCall (Allowed k₀ e) k c :=
  ⟨fun _ _ ha => .of_plain ha, fun _ hb _ => .of_buffer (he _ hb),
    fun _ hch _ _ ha => .of_chan (he _ hch) ha⟩

theorem path_doSendBuffer {b : BufId} {a len : Nat} {t : Int} (hl : Live k p)
    (he : e.que k = some (.buffer b)) (h : doSendBuffer k env p b a len t = .ok r) : Path (Allowed k e) k (settle p r) := by
  unfold doSendBuffer at h
  split at h
  · exact (silent_retCode k _).path hl h
  · rename_i buf hbuf
    obtain ⟨hmem, hpt, rfl⟩ := of_curBuffer hbuf
    split at h
    · exact (silent_retCode k _).path hl h
    · rename_i hlen
      split at h
      · exact (silent_retCode k _).path hl h
      · exact path_commEnter (c := .sendBuffer b a len t) hl ⟨hmem, hpt⟩
          (not_lt.mp hlen) (allowsCall (by simpa [CommCall.que] using he)) h

theorem path_doReceiveBuffer {b : BufId} {a : Nat} {t : Int} (hl : Live k p)
    (he : e.que k = some (.buffer b)) (h : doReceiveBuffer k env p b t a = .ok r) : Path (Allowed k e) k (settle p r) := by
  unfold doReceiveBuffer at h
  split at h
  · exact (silent_retCode k _).path hl h
  · rename_i buf hbuf
    obtain ⟨hmem, hpt, -⟩ := of_curBuffer hbuf
    exact path_commEnter (c := .receiveBuffer b t a) hl ⟨hmem, hpt⟩ trivial
      (allowsCall (by simpa [CommCall.que] using he)) h

theorem path_doReadBlackboard {b : BbId} {a : Nat} {t : Int} (hl : Live k p)
    (h : doReadBlackboard k env p b t a = .ok r) : Path (Allowed k e) k (settle p r) := by
  unfold doReadBlackboard at h
  split at h
  · exact (silent_retCode k _).path hl h
  · rename_i bb hbb
    obtain ⟨hmem, hpt, -⟩ := of_curBlackboard hbb
    exact path_commEnter (c := .readBlackboard b t a) hl ⟨hmem, hpt⟩ trivial
      (allowsCall (by simp [CommCall.que])) h

theorem path_doSendQueuingMessage {port : PortId} {a len : Nat} {t : Int} (hl : Live k p)
    (he : e.que k = some (.channel (k.ports port).qpChannel))
    (h : doSendQueuingMessage k env p port a len t = .ok r) :
    Path (Allowed k e) k (settle p r) := by
  unfold doSendQueuingMessage at h
  split at h
  · exact (silent_retCode k _).path hl h
  · rename_i qp hqp
    obtain ⟨hmem, hpt, rfl⟩ := of_curQueuingPort hqp
    split at h
    · exact (silent_retCode k _).path hl h
    · rename_i hlen
      split at h
      · exact (silent_retCode k _).path hl h
      · split at h
        · exact (silent_retCode k _).path hl h
        · exact path_commEnter (c := .sendQueuingMessage port a len t) hl ⟨hmem, hpt⟩
            (not_lt.mp hlen) (allowsCall (by simpa [CommCall.que] using he)) h

theorem path_doReceiveQueuingMessage {port : PortId} {a : Nat} {t : Int} (hl : Live k p)
    (he : e.que k = some (.channel (k.ports port).qpChannel))
    (h : doReceiveQueuingMessage k env p port t a = .ok r) :
    Path (Allowed k e) k (settle p r) := by
  unfold doReceiveQueuingMessage at h
  split at h
  · exact (silent_retCode k _).path hl h
  · rename_i qp hqp
    obtain ⟨hmem, hpt, -⟩ := of_curQueuingPort hqp
    split at h
    · exact (silent_retCode k _).path hl h
    · exact path_commEnter (c := .receiveQueuingMessage port t a) hl ⟨hmem, hpt⟩
        trivial (allowsCall (by simpa [CommCall.que] using he)) h

theorem path_doClearQueuingPort {port : PortId} (hl : Live k p)
    (he : e.que k = some (.channel (k.ports port).qpChannel))
    (h : doClearQueuingPort k port = .ok r) : Path (Allowed k e) k (settle p r) := by
  unfold doClearQueuingPort at h
  split at h
  · exact (silent_retCode k _).path hl h
  rename_i qp hqp
  obtain ⟨hmem, hpt, rfl⟩ := of_curQueuingPort hqp
  split at h
  · exact (silent_retCode k _).path hl h
  have hobj : ObjOf k k.curPart (.channel (k.ports port).qpChannel) := ⟨port, hmem, hpt, rfl⟩
  -- the wake-up of a full channel comes first, then the channel is emptied
  have hend : ∀ {k₁ : Kernel}, Path (Allowed k e) k k₁ → Live k₁ p → Same k k₁ → ∀ cc,
      Path (Allowed k e) k (settle p (.ret .noError .none,
        k₁.setBody (.channel (k.ports port).qpChannel) cc)) := by
    intro k₁ hpath hl₁ hsame cc
    have hobj₁ : ObjOf k₁ k₁.curPart (.channel (k.ports port).qpChannel) := by
      rw [hl.curPart_eq hl₁ hsame]
      exact hsame.extends.objOf hobj
    have hq := hpath.trans (.one (.queue (q := .channel (k.ports port).qpChannel) cc hobj₁)
      (.of_chan he rfl))
    have hl₂ := hl₁.setBody (.channel (k.ports port).qpChannel) cc
    exact path_settle hq hl₂.cur hl₂.own (not_isBlocked_of_eligible hl₂.runs) (.of_plain rfl)
      (by simp)
  simp only [Que.obj] at h
  split at h
  · cases hw : wakeup k (k.ports port).qpDisc (.channel (k.ports port).qpChannel) with
    | error f => simp [hw, bind, Except.bind] at h
    | ok x =>
        obtain ⟨woke, k₁⟩ := x
        obtain ⟨hpath, hl₁, hsame⟩ := path_wakeup hl hobj
          (fun _ _ => Allowed.of_chan he rfl) hw
        simp only [hw, bind, Except.bind, retCode, Except.ok.injEq] at h
        rw [← h]
        exact hend hpath hl₁ hsame _
  · simp only [bind, Except.bind, retCode, Except.ok.injEq] at h
    rw [← h]
    exact hend (.refl k) hl (.refl k) _

theorem path_doCreateBuffer {name : String} {sz nb : Nat} {disc : QueDisc} (hl : Live k p)
    (h : doCreateBuffer k name sz nb disc = .ok r) : Path (Allowed k e) k (settle p r) := by
  unfold doCreateBuffer at h
  split at h
  · exact (silent_retCode k _).path hl h
  split at h
  · exact (silent_retCode k _).path hl h
  split at h
  · exact (silent_retCode k _).path hl h
  unfold bufferAlloc at h
  cases hm : partCommAlloc k.curPart (nb * (sz + commMsgSize) % wordSize) k.mem with
  | ok base mem =>
      simp only [hm, Except.ok.injEq] at h
      rw [← h]
      exact path_settle (.one (.newBuffer mem _ rfl rfl rfl (partCommAlloc_ok hm).other) (.of_plain rfl)) hl.cur hl.own
        (not_isBlocked_of_eligible hl.runs) (.of_plain rfl) (by simp)
  | err mem =>
      simp only [hm, retCode, Except.ok.injEq] at h
      rw [← h]
      exact path_settle (.one (.spend k.mem _ _ (Nat.le_succ _) le_rfl fun _ _ => rfl) (.of_plain rfl)) hl.cur
        hl.own (not_isBlocked_of_eligible hl.runs) (.of_plain rfl) (by simp)
  | fatal =>
      simp only [hm, retCode, Except.ok.injEq] at h
      rw [← h]
      exact path_settle (.one (.spend k.mem _ _ (Nat.le_succ _) le_rfl fun _ _ => rfl) (.of_plain rfl)) hl.cur
        hl.own (not_isBlocked_of_eligible hl.runs) (.of_plain rfl) (by simp)

theorem path_doCreateBlackboard {name : String} {sz : Nat} (hl : Live k p)
    (h : doCreateBlackboard k name sz = .ok r) : Path (Allowed k e) k (settle p r) := by
  unfold doCreateBlackboard at h
  split at h
  · exact (silent_retCode k _).path hl h
  split at h
  · exact (silent_retCode k _).path hl h
  split at h
  · exact (silent_retCode k _).path hl h
  unfold blackboardAlloc at h
  cases hm : partCommAlloc k.curPart sz k.mem with
  | ok base mem =>
      simp only [hm, Except.ok.injEq] at h
      rw [← h]
      exact path_settle (.one (.newBoard mem _ rfl rfl ⟨rfl, rfl⟩ (partCommAlloc_ok hm).other) (.of_plain rfl))
        hl.cur hl.own (not_isBlocked_of_eligible hl.runs) (.of_plain rfl) (by simp)
  | err mem =>
      simp only [hm, retCode, Except.ok.injEq] at h
      rw [← h]
      exact path_settle (.one (.spend k.mem _ _ le_rfl (Nat.le_succ _) fun _ _ => rfl) (.of_plain rfl)) hl.cur
        hl.own (not_isBlocked_of_eligible hl.runs) (.of_plain rfl) (by simp)
  | fatal =>
      simp only [hm, retCode, Except.ok.injEq] at h
      rw [← h]
      exact path_settle (.one (.spend k.mem _ _ le_rfl (Nat.le_succ _) fun _ _ => rfl) (.of_plain rfl)) hl.cur
        hl.own (not_isBlocked_of_eligible hl.runs) (.of_plain rfl) (by simp)

theorem path_doCreateQueuingPort {name : String} {sz nb : Nat} {dir : Option PortDir}
    {disc : QueDisc} (hl : Live k p) (h : doCreateQueuingPort k name sz nb dir disc = .ok r) :
    Path (Allowed k e) k (settle p r) := by
  unfold doCreateQueuingPort at h
  split at h
  · exact (silent_retCode k _).path hl h
  split at h
  · exact (silent_retCode k _).path hl h
  split at h
  · exact (silent_retCode k _).path hl h
  cases dir with
  | none => exact (silent_retCode k _).path hl h
  | some d =>
      simp only [queuingPortAlloc] at h
      cases hc : (k.portConfs.find? (fun c => c.qpcName = name)).bind
          QueuingPortConf.qpcChannel with
      | none =>
          simp only [hc] at h
          exact (silent_retCode k _).path hl h
      | some chan =>
          simp only [hc, Except.ok.injEq] at h
          rw [← h]
          exact path_settle (.one (.newPort _ rfl) (.of_plain rfl)) hl.cur hl.own
            (not_isBlocked_of_eligible hl.runs) (.of_plain rfl) (by simp)

/-- The loop of `do_display_blackboard`. -/
theorem path_wakeupAll {A : Kernel → Act → Prop} {b : BbId} (l : List ProcId) {k₁ k' : Kernel}
    (hl : Live k₁ p) (hobj : ObjOf k₁ k₁.curPart (.blackboard b))
    (hA : ∀ k q, A k (.wake q (.blackboard b))) (hlist : k₁.waitingProcs (.blackboard b) = l)
    (h : wakeupAll (.blackboard b) l k₁ = .ok k') : Path A k₁ k' ∧ Live k' p := by
  induction l generalizing k₁ with
  | nil =>
      simp only [wakeupAll, Except.ok.injEq] at h
      rw [← h]
      exact ⟨.refl k₁, hl⟩
  | cons q l ih =>
      simp only [wakeupAll] at h
      cases hw : wakeProc k₁ (.blackboard b) q with
      | error f => simp [hw, bind, Except.bind] at h
      | ok k₂ =>
          simp only [hw, bind, Except.bind] at h
          have hl₂ := hl.wakeProc hw
          have hobj₂ : ObjOf k₂ k₂.curPart (.blackboard b) := by
            rw [curPart_of_wakeProc hw]
            exact (Same.wakeProc hw).extends.objOf hobj
          have hlist₂ : k₂.waitingProcs (.blackboard b) = l := by
            rw [waitingProcs_wakeProc hw, if_pos rfl, hlist, List.erase_cons_head]
          obtain ⟨hpath, hl'⟩ := ih hl₂ hobj₂ hlist₂ h
          have hmem : q ∈ k₁.waitingProcs (.blackboard b) := by
            rw [hlist]
            exact List.mem_cons_self
          exact ⟨.cons (.wake hmem hobj hw) (hA k₁ q) hpath, hl'⟩

theorem path_doDisplayBlackboard {b : BbId} {a len : Nat} (hl : Live k p) (he : e.board = some b)
    (h : doDisplayBlackboard k env b a len = .ok r) : Path (Allowed k e) k (settle p r) := by
  unfold doDisplayBlackboard at h
  split at h
  · exact (silent_retCode k _).path hl h
  rename_i bb hbb
  obtain ⟨hmem, hpt, -⟩ := of_curBlackboard hbb
  split at h
  · exact (silent_retCode k _).path hl h
  split at h
  · exact (silent_retCode k _).path hl h
  dsimp only at h
  have hobj : ObjOf k k.curPart (.blackboard b) := ⟨hmem, hpt⟩
  have hl₁ : Live (blackboardDisplay k b (loadBytes env.mem a len)) p := ⟨hl.cur, hl.runs, hl.own⟩
  have hobj₁ : ObjOf (blackboardDisplay k b (loadBytes env.mem a len))
      (blackboardDisplay k b (loadBytes env.mem a len)).curPart (.blackboard b) :=
    (Same.updBb : Same k _).extends.objOf hobj
  -- the message is one effect, and every wake-up another
  have hwrite : Path (Allowed k e) k (blackboardDisplay k b (loadBytes env.mem a len)) :=
    .one (.board _ hobj (fun _ => rfl) fun _ => rfl) (.of_board he)
  cases hw : wakeupAll (.blackboard b)
      ((blackboardDisplay k b (loadBytes env.mem a len)).waitingProcs (.blackboard b))
      (blackboardDisplay k b (loadBytes env.mem a len)) with
  | error f => simp [hw, bind, Except.bind] at h
  | ok k' =>
      simp only [hw, bind, Except.bind, Except.ok.injEq] at h
      obtain ⟨hpath, hl'⟩ := path_wakeupAll _ hl₁ hobj₁ (fun _ _ => Allowed.of_plain rfl) rfl hw
      rw [← h]
      exact path_settle (hwrite.trans hpath) hl'.cur hl'.own (not_isBlocked_of_eligible hl'.runs)
        (.of_plain rfl) (by simp)

theorem path_doClearBlackboard {b : BbId} (hl : Live k p) (he : e.board = some b)
    (h : doClearBlackboard k b = .ok r) : Path (Allowed k e) k (settle p r) := by
  unfold doClearBlackboard at h
  split at h
  · exact (silent_retCode k _).path hl h
  rename_i bb hbb
  obtain ⟨hmem, hpt, -⟩ := of_curBlackboard hbb
  simp only [retCode, Except.ok.injEq] at h
  rw [← h]
  exact path_settle (.one (.board _ ⟨hmem, hpt⟩ (fun _ => rfl) fun _ => rfl) (.of_board he))
    hl.cur hl.own (not_isBlocked_of_eligible hl.runs) (.of_plain rfl) (by simp)

@[simp] theorem eligible_setState {q : ProcId} {st : ProcState} :
    eligible (k.setState q st) p =
      if p = q then decide (st = .ready ∨ st = .running) else eligible k p := by
  by_cases hq : p = q <;> simp [eligible, hq]

/-- A process that is set to another state does not disturb the executing process. -/
theorem Live.setState {q : ProcId} {st : ProcState} (hl : Live k p)
    (hst : p = q → st = .ready ∨ st = .running) : Live (k.setState q st) p where
  cur := hl.cur
  runs := by
    rw [eligible_setState]
    split
    · rename_i hq
      exact decide_eq_true (hst hq)
    · exact hl.runs
  own := by
    rw [OwnProc, (Same.setState q st).prPartId]
    exact hl.own

/-- The loop of `do_set_partition_mode` makes processes ready. -/
theorem path_startPrevious {A : Kernel → Act → Prop} (hA : ∀ k a, a.plain = true → A k a)
    (l : List ProcId) {k₁ : Kernel} (hl : Live k₁ p) (hown : ∀ q ∈ l, OwnProc k₁ q) :
    Path A k₁ (startPrevious k₁ l) ∧ Live (startPrevious k₁ l) p := by
  induction l generalizing k₁ with
  | nil => exact ⟨.refl k₁, hl⟩
  | cons q l ih =>
      have hrest : ∀ x ∈ l, OwnProc k₁ x := fun x hx => hown x (List.mem_cons_of_mem q hx)
      rw [startPrevious]
      split
      · rename_i hq
        have hown₂ : ∀ x ∈ l, OwnProc (k₁.setState q .ready) x := by
          intro x hx
          rw [OwnProc, (Same.setState q .ready).prPartId]
          exact hrest x hx
        obtain ⟨hpath, hl'⟩ := ih (hl.setState fun _ => Or.inl rfl) hown₂
        exact ⟨.cons (.ready (hown q List.mem_cons_self) (Or.inr (Or.inr ⟨hq.1, Or.inr hq.2⟩)))
          (hA k₁ _ rfl) hpath, hl'⟩
      · exact ih hl hrest

theorem path_doSetPartitionMode {m : Nat} (hr : Registered k) (hl : Live k p)
    (h : doSetPartitionMode k p m = .ok r) : Path (Allowed k e) k (settle p r) := by
  unfold doSetPartitionMode at h
  dsimp only at h
  split at h
  · exact (silent_retCode k _).path hl h
  split at h
  · exact (silent_retCode k _).path hl h
  have hmode : Path (Allowed k e) k (setMode k (OpMode.ofWord m)) :=
    .one (.mode _) (.of_plain rfl)
  have hl₁ : Live (setMode k (OpMode.ofWord m)) p := ⟨hl.cur, hl.runs, hl.own⟩
  split at h
  · simp only [retCode, Except.ok.injEq] at h
    rw [← h]
    exact path_settle hmode hl₁.cur hl₁.own (not_isBlocked_of_eligible hl₁.runs) (.of_plain rfl)
      (by simp)
  split at h
  · rw [← Except.ok.inj h]
    -- the processes that are started are those of the current partition
    have hown : ∀ q ∈ ((setMode k (OpMode.ofWord m)).parts k.curPart).paProcList,
        OwnProc (setMode k (OpMode.ofWord m)) q := by
      intro q hq
      have hlist : ((setMode k (OpMode.ofWord m)).parts k.curPart).paProcList
          = (k.parts k.curPart).paProcList := by simp [setMode, Kernel.updPart]
      rw [hlist] at hq
      exact (hr.procList _ q hq).2
    obtain ⟨hloop, hl₂⟩ := path_startPrevious (A := Allowed k e)
      (fun _ _ ha => Allowed.of_plain ha) _ hl₁ hown
    refine path_settle (hmode.trans (hloop.trans (.one (.halt hl₂.cur hl₂.own hl₂.runs)
      (.of_plain rfl)))) hl₂.cur ?_ (not_isBlocked_of_dormant (by simp)) (.of_plain rfl) (by simp)
    rw [OwnProc, (Same.setState p .dormant).prPartId]
    exact hl₂.own
  · simp only [retCode, Except.ok.injEq] at h
    rw [← h]
    exact path_settle hmode hl₁.cur hl₁.own (not_isBlocked_of_eligible hl₁.runs) (.of_plain rfl)
      (by simp)

theorem path_doCreateProcess {a : ProcessAttribute} (hl : Live k p) (hr : Registered k)
    (h : doCreateProcess k a = .ok r) : Path (Allowed k e) k (settle p r) := by
  unfold doCreateProcess at h
  dsimp only at h
  split at h
  · exact (silent_retCode k _).path hl h
  split at h
  · exact (silent_retCode k _).path hl h
  split at h
  · exact (silent_retCode k _).path hl h
  split at h
  · exact (silent_retCode k _).path hl h
  split at h
  · exact (silent_retCode k _).path hl h
  unfold procAlloc at h
  cases hm : procAllocMem k.curPart a.stackSize k.mem with
  | ok stk mem =>
      simp only [hm, bind, Except.bind, Except.ok.injEq] at h
      rw [← h]
      -- the caller is another process than the new one
      have hne : p ≠ k.nxtProcId := (hr.procs_lt p (hr.cur p hl.cur)).ne
      refine path_settle (.one (.newProc mem _ rfl rfl rfl (procAllocMem_ok hm).2.other) (.of_plain rfl)) hl.cur ?_
        (not_isBlocked_of_eligible ?_) (.of_plain rfl) (by simp)
      · simpa [OwnProc, procReset, Kernel.setWoken, Kernel.setCont, registerProc, hne] using hl.own
      · simpa [eligible, procReset, Kernel.setWoken, Kernel.setCont, registerProc, hne] using hl.runs
  | err mem =>
      simp only [hm, bind, Except.bind, retCode, Except.ok.injEq] at h
      rw [← h]
      exact path_settle (.one (.spend mem _ _ le_rfl le_rfl fun _ _ => by
        rw [procAllocMem_err hm]) (.of_plain rfl)) hl.cur hl.own
        (not_isBlocked_of_eligible hl.runs) (.of_plain rfl) (by simp)
  | fatal => simp [hm, bind, Except.bind] at h

theorem path_doSetPriority {id : ProcId} {pri : Nat} (hl : Live k p)
    (h : doSetPriority k id pri = .ok r) : Path (Allowed k e) k (settle p r) := by
  unfold doSetPriority at h
  split at h
  · exact (silent_retCode k _).path hl h
  rename_i pr hpr
  split at h
  · exact (silent_retCode k _).path hl h
  rw [← Except.ok.inj h]
  refine path_settle (.one (.attr _ (of_curPartProc hpr).2.1 fun _ => rfl) (.of_plain rfl)) hl.cur
    ?_ (not_isBlocked_of_eligible ?_) (.of_plain rfl) (by simp)
  · rw [OwnProc, Same.prPartId (.updProc : Same k _)]
    exact hl.own
  · by_cases hid : p = id
    · rw [hid]
      simpa [eligible, Kernel.updProc, hid] using hl.runs
    · simpa [eligible, Kernel.updProc, hid] using hl.runs

theorem not_isBlocked_waitFor {q : ProcId} {reason : WaitingReason} (hl : Live k p)
    (hreason : reason.isBlocked = false) : ¬ isBlocked (waitFor k q reason) p := by
  by_cases hq : p = q
  · rw [hq]
    apply not_isBlocked_of_reason
    simpa [waitFor] using hreason
  · apply not_isBlocked_of_eligible
    simpa [eligible, waitFor, hq] using hl.runs

theorem ownProc_waitFor {q : ProcId} {reason : WaitingReason} (hl : Live k p) :
    OwnProc (waitFor k q reason) p := by
  rw [OwnProc, (Same.waitFor q reason).prPartId]
  exact hl.own

/-- A process is set to wait, and the call returns or gives the processor up. -/
theorem path_doze {k₀ : Kernel} {q : ProcId} {reason : WaitingReason} {n : Next} (hl : Live k p)
    (hown : OwnProc k q) (hfree : eligible k q = true ∨ (k.procs q).prState = .dormant)
    (hkind : reason = .suspended ∨ reason = .previousStarted ∨
      reason = .delayedStarted ∧ procIsPeriod (k.procs q) = true)
    (hn : ∀ rr c w a, n ≠ .giveUp rr (.comm c w a)) :
    Path (Allowed k₀ e) k (settle p (n, waitFor k q reason)) := by
  refine path_settle (.one (.doze reason hown hfree hkind) (.of_plain rfl)) hl.cur
    (ownProc_waitFor hl) (not_isBlocked_waitFor hl ?_) (.of_plain rfl) hn
  rcases hkind with rfl | rfl | ⟨rfl, -⟩ <;> rfl

/-- Arming the timer of a process changes no state and no reason. -/
theorem prState_timeEventAlloc (time : Int) (type : TimeEventType) (q : ProcId) :
    ((timeEventAlloc k time type).procs q).prState = (k.procs q).prState := by
  unfold timeEventAlloc
  cases type.proc with
  | none => rfl
  | some x =>
      by_cases hq : q = x
      · rw [hq]
        simp [Kernel.updProc]
      · simp [Kernel.updProc, hq]

theorem prWaitingReason_timeEventAlloc (time : Int) (type : TimeEventType) (q : ProcId) :
    ((timeEventAlloc k time type).procs q).prWaitingReason = (k.procs q).prWaitingReason := by
  unfold timeEventAlloc
  cases type.proc with
  | none => rfl
  | some x =>
      by_cases hq : q = x
      · rw [hq]
        simp [Kernel.updProc]
      · simp [Kernel.updProc, hq]

theorem curPart_timeEventAlloc (time : Int) (type : TimeEventType) :
    (timeEventAlloc k time type).curPart = k.curPart := by
  unfold timeEventAlloc
  cases type.proc <;> rfl

theorem not_isBlocked_sleepUntil {q : ProcId} {reason : WaitingReason} {time : Int}
    {type : TimeEventType} (hl : Live k p) (hreason : reason.isBlocked = false) :
    ¬ isBlocked (sleepUntil k q reason time type) p := by
  have hw := not_isBlocked_waitFor (q := q) hl hreason
  rw [isBlocked, sleepUntil, prState_timeEventAlloc, prWaitingReason_timeEventAlloc]
  exact hw

theorem ownProc_sleepUntil {q : ProcId} {reason : WaitingReason} {time : Int}
    {type : TimeEventType} (hl : Live k p) : OwnProc (sleepUntil k q reason time type) p := by
  rw [OwnProc, sleepUntil, curPart_timeEventAlloc, (Same.timeEventAlloc time type).prPartId]
  exact ownProc_waitFor hl

theorem SleepKind.not_isBlocked {q : ProcId} {reason : WaitingReason} {type : TimeEventType}
    (h : SleepKind q reason type) : reason.isBlocked = false := by
  cases h <;> rfl

/-- A process is put to sleep, and the processor is given up. -/
theorem path_sleep {q : ProcId} {reason : WaitingReason} {time : Int} {type : TimeEventType}
    {n : Next} (hl : Live k p) (hknown : q ∈ k.procIds) (hown : OwnProc k q)
    (hfree : eligible k q = true ∨ (k.procs q).prState = .dormant) (hkind : SleepKind q reason type)
    (hn : ∀ rr c w a, n ≠ .giveUp rr (.comm c w a)) :
    Path (Allowed k e) k (settle p (n, sleepUntil k q reason time type)) :=
  path_settle (.one (.sleep time hknown hown hfree hkind) (.of_plain rfl))
    (by rw [curProc_sleepUntil]; exact hl.cur)
    (ownProc_sleepUntil hl) (not_isBlocked_sleepUntil hl hkind.not_isBlocked) (.of_plain rfl) hn

theorem path_doSuspendSelf {t : Int} (hr : Registered k) (hl : Live k p)
    (h : doSuspendSelf k env p t = .ok r) :
    Path (Allowed k e) k (settle p r) := by
  unfold doSuspendSelf at h
  split at h
  · exact (silent_retCode k _).path hl h
  split at h
  · exact (silent_retCode k _).path hl h
  split at h
  · rw [← Except.ok.inj h]
    exact path_sleep hl (hr.cur p hl.cur) hl.own (Or.inl hl.runs) .suspended (by simp)
  · rw [← Except.ok.inj h]
    exact path_doze hl hl.own (Or.inl hl.runs) (Or.inl rfl) (by simp)

theorem path_doTimedWait {t : Int} (hr : Registered k) (hl : Live k p)
    (h : doTimedWait k env p t = .ok r) :
    Path (Allowed k e) k (settle p r) := by
  unfold doTimedWait at h
  split at h
  · exact (silent_retCode k _).path hl h
  split at h
  · rw [← Except.ok.inj h]
    exact path_settle (.refl k) hl.cur hl.own (not_isBlocked_of_eligible hl.runs) (.of_plain rfl)
      (by simp)
  · rw [← Except.ok.inj h]
    exact path_sleep hl (hr.cur p hl.cur) hl.own (Or.inl hl.runs) .timedWait (by simp)

theorem path_doSuspend {id : ProcId} (hl : Live k p) (h : doSuspend k id = .ok r) :
    Path (Allowed k e) k (settle p r) := by
  unfold doSuspend at h
  split at h
  · exact (silent_retCode k _).path hl h
  rename_i pr hpr
  obtain ⟨-, hown, rfl⟩ := of_curPartProc hpr
  split at h
  · exact (silent_retCode k _).path hl h
  rename_i hdf
  split at h
  · exact (silent_retCode k _).path hl h
  split at h
  · exact (silent_retCode k _).path hl h
  rename_i hwait
  rw [← Except.ok.inj h]
  refine path_doze hl hown (Or.inl ?_) (Or.inl rfl) (by simp)
  rw [eligible_iff]
  cases hst : (k.procs id).prState <;> simp_all

theorem path_doResume {id : ProcId} (hl : Live k p) (h : doResume k id = .ok r) :
    Path (Allowed k e) k (settle p r) := by
  unfold doResume at h
  split at h
  · exact (silent_retCode k _).path hl h
  rename_i pr hpr
  obtain ⟨-, hown, rfl⟩ := of_curPartProc hpr
  split at h
  · exact (silent_retCode k _).path hl h
  split at h
  · exact (silent_retCode k _).path hl h
  split at h
  · exact (silent_retCode k _).path hl h
  rename_i hheld
  split at h
  · rename_i hw
    cases hf : timeEventFree k (k.procs id).prAssoTimer with
    | error f => simp [hf, bind, Except.bind] at h
    | ok k₁ =>
        simp only [hf, bind, Except.bind, Except.ok.injEq] at h
        rw [← h]
        have hl₁ : Live k₁ p := by
          -- freeing the timer changes no state
          obtain ⟨i, -, -, rfl⟩ := mem_of_timeEventFree hf
          refine ⟨hl.cur, ?_, ?_⟩
          · rw [eligible_iff, prState_freeEvent]
            exact eligible_iff.mp hl.runs
          · rw [OwnProc, (Same.timeEventFree hf).prPartId]
            exact hl.own
        have hl₂ : Live (k₁.setState id .ready) p := hl₁.setState fun _ => Or.inl rfl
        exact path_settle (.one (.rouse hown hw.1 hw.2 hf) (.of_plain rfl)) hl₂.cur hl₂.own
          (not_isBlocked_of_eligible hl₂.runs) (.of_plain rfl) (by simp)
  · rename_i hw
    simp only [bind, Except.bind, Except.ok.injEq] at h
    rw [← h]
    have hl₂ : Live (k.setState id .ready) p := hl.setState fun _ => Or.inl rfl
    refine path_settle (.one (.ready hown ?_) (.of_plain rfl)) hl₂.cur hl₂.own
      (not_isBlocked_of_eligible hl₂.runs) (.of_plain rfl) (by simp)
    tauto

theorem path_doStopSelf (hl : Live k p) (h : doStopSelf k p = .ok r) :
    Path (Allowed k e) k (settle p r) := by
  unfold doStopSelf at h
  rw [← Except.ok.inj h]
  refine path_settle (.one (.halt hl.cur hl.own hl.runs) (.of_plain rfl)) hl.cur ?_
    (not_isBlocked_of_dormant (by simp)) (.of_plain rfl) (by simp)
  rw [OwnProc, (Same.setState p .dormant).prPartId]
  exact hl.own

theorem path_doStop {id : ProcId} (hl : Live k p) (h : doStop k id = .ok r) :
    Path (Allowed k (.call env (.stop id))) k (settle p r) := by
  unfold doStop at h
  split at h
  · exact (silent_retCode k _).path hl h
  rename_i pr hpr
  obtain ⟨-, hown, rfl⟩ := of_curPartProc hpr
  split at h
  · exact (silent_retCode k _).path hl h
  rename_i halive
  have hallowed : Allowed k (.call env (.stop id)) k (.stop id) := by
    refine ⟨?_, fun ch hc => ?_, fun q hq => ?_, fun b hb => ?_, fun hh => ?_⟩
    · rintro q hq
      cases hq
      exact ⟨rfl, env, rfl⟩
    · exact absurd hc (by simp [Act.chan])
    · cases hq
    · cases hb
    · exact absurd hh (by simp [Act.ofHart])
  -- the executing process either runs on or is the one that was stopped
  have hend : ∀ {k₁ : Kernel}, (if (k.procs id).prAssoTimer ≠ none then
      timeEventFree (k.setState id .dormant) (k.procs id).prAssoTimer
      else .ok (k.setState id .dormant)) = .ok k₁ →
      Path (Allowed k (.call env (.stop id))) k (settle p (.giveUp false (.done .noError .none), k₁)) := by
    intro k₁ hk₁
    have hfacts : k₁.curProc = some p ∧ OwnProc k₁ p ∧
        (k₁.procs p).prState = ((k.setState id .dormant).procs p).prState := by
      split at hk₁
      · have hsame := (Same.setState id .dormant).trans (.timeEventFree hk₁)
        obtain ⟨i, -, -, rfl⟩ := mem_of_timeEventFree hk₁
        refine ⟨hl.cur, ?_, prState_freeEvent _ i p⟩
        rw [OwnProc, hsame.prPartId]
        exact hl.own
      · rw [← Except.ok.inj hk₁]
        refine ⟨hl.cur, ?_, rfl⟩
        rw [OwnProc, (Same.setState id .dormant).prPartId]
        exact hl.own
    refine path_settle (.one (.stop hown halive hk₁) hallowed) hfacts.1 hfacts.2.1 ?_
      (.of_plain rfl) (by simp)
    by_cases hid : p = id
    · exact not_isBlocked_of_dormant (by rw [hfacts.2.2]; simp [hid])
    · apply not_isBlocked_of_eligible
      rw [eligible_iff, hfacts.2.2]
      simpa [hid] using eligible_iff.mp hl.runs
  split at h
  · rename_i htimer
    cases hf : timeEventFree (k.setState id .dormant) (k.procs id).prAssoTimer with
    | error f => simp [hf, bind, Except.bind] at h
    | ok k₁ =>
        simp only [hf, bind, Except.bind, Except.ok.injEq] at h
        rw [← h]
        exact hend (by rw [if_pos htimer, hf])
  · rename_i htimer
    simp only [bind, Except.bind, Except.ok.injEq] at h
    rw [← h]
    exact hend (by rw [if_neg htimer])

/-- A start resets the process first. -/
theorem path_startReset {id : ProcId} (hl : Live k p) (hown : OwnProc k id)
    (hdormant : (k.procs id).prState = .dormant) :
    Path (Allowed k e) k (startReset k id) ∧ Live (startReset k id) p ∧
      OwnProc (startReset k id) id ∧ ((startReset k id).procs id).prState = .dormant := by
  have hst : ∀ q, ((startReset k id).procs q).prState = (k.procs q).prState := by
    intro q
    by_cases hq : q = id
    · rw [hq]
      simp [startReset, procReset, Kernel.setWoken, Kernel.setCont, Kernel.updProc]
    · simp [startReset, procReset, Kernel.setWoken, Kernel.setCont, Kernel.updProc, hq]
  have hsame : Same k (startReset k id) := Same.trans .updProc (.procReset id)
  have howns : ∀ q, OwnProc k q → OwnProc (startReset k id) q := by
    intro q hq
    rw [OwnProc, hsame.prPartId]
    exact hq
  refine ⟨?_, ⟨hl.cur, ?_, howns p hl.own⟩, howns id hown, (hst id).trans hdormant⟩
  · have hattr : OwnProc (k.updProc id fun pr => { pr with prCurPri := pr.prBasePri }) id := by
      rw [OwnProc, Same.prPartId (.updProc : Same k _)]
      exact hown
    refine .cons (.attr _ hown fun _ => rfl) (.of_plain rfl) (.one (.reset hattr ?_) (.of_plain rfl))
    simpa [Kernel.updProc] using hdormant
  · rw [eligible_iff, hst]
    exact eligible_iff.mp hl.runs

/-- The deadline of a process is set at the end of a start. -/
theorem path_setDeadline {k₁ : Kernel} {id : ProcId} {n : Next} (f : Proc → Int)
    (hpath : Path (Allowed k e) k k₁) (hcur : k₁.curProc = some p) (hownp : OwnProc k₁ p)
    (hfree : ¬ isBlocked k₁ p) (hown : OwnProc k₁ id)
    (hn : ∀ rr c w a, n ≠ .giveUp rr (.comm c w a)) :
    Path (Allowed k e) k (settle p (n, k₁.updProc id fun pr =>
      { pr with prDeadlineTime := f pr })) := by
  refine path_settle (hpath.trans (.one (.attr _ hown fun _ => rfl) (.of_plain rfl))) hcur ?_ ?_
    (.of_plain rfl) hn
  · rw [OwnProc, Same.prPartId (.updProc : Same k₁ _)]
    exact hownp
  · by_cases hid : p = id
    · subst hid
      simpa [isBlocked, Kernel.updProc] using hfree
    · simpa [isBlocked, Kernel.updProc, hid] using hfree

theorem path_doDelayedStart {id : ProcId} {t : Int} (hl : Live k p)
    (h : doDelayedStart k env id t = .ok r) : Path (Allowed k e) k (settle p r) := by
  unfold doDelayedStart at h
  split at h
  · exact (silent_retCode k _).path hl h
  rename_i pr hpr
  obtain ⟨hknown, hown, rfl⟩ := of_curPartProc hpr
  split at h
  · exact (silent_retCode k _).path hl h
  rename_i hdormant
  split at h
  · exact (silent_retCode k _).path hl h
  split at h
  · exact (silent_retCode k _).path hl h
  obtain ⟨hreset, hl₁, hown₁, hst₁⟩ := path_startReset (e := e) hl hown (not_not.mp hdormant)
  have hperiod : procIsPeriod ((startReset k id).procs id) = procIsPeriod (k.procs id) := by
    simp [startReset, procReset, Kernel.setWoken, Kernel.setCont, Kernel.updProc, procIsPeriod]
  -- a start before the partition is in mode `NORMAL`, or at the next release point
  have hdoze : ∀ reason : WaitingReason, (reason = .previousStarted ∨
      reason = .delayedStarted ∧ procIsPeriod (k.procs id) = true) →
      Path (Allowed k e) k (settle p (.ret .noError .none, waitFor (startReset k id) id reason)) := by
    intro reason hkind
    rw [← hperiod] at hkind
    exact hreset.trans (path_doze hl₁ hown₁ (Or.inr hst₁) (Or.inr hkind) (by simp))
  dsimp only at h
  split at h
  · split at h
    · split at h
      · rw [← Except.ok.inj h]
        have hl₂ : Live ((startReset k id).setState id .ready) p := hl₁.setState fun _ => Or.inl rfl
        -- started at once
        refine path_setDeadline (fun pr => env.clk 0 + pr.prTimeCap)
          (hreset.trans (.one (.ready hown₁ (Or.inl hst₁)) (.of_plain rfl))) hl₂.cur hl₂.own
          (not_isBlocked_of_eligible hl₂.runs) ?_ (by simp)
        rw [OwnProc, (Same.setState id .ready).prPartId]
        exact hown₁
      · rw [← Except.ok.inj h]
        -- started after a delay: the clock is read twice
        refine path_setDeadline (fun pr => env.clk 1 + pr.prTimeCap + t)
          (hreset.trans (.one (.sleep (env.clk 0 + t) hknown hown₁ (Or.inr hst₁) .delayed) (.of_plain rfl)))
          (by rw [curProc_sleepUntil]; exact hl₁.cur) (ownProc_sleepUntil hl₁)
          (not_isBlocked_sleepUntil hl₁ rfl) ?_ (by simp)
        rw [OwnProc, sleepUntil, curPart_timeEventAlloc, (Same.timeEventAlloc _ _).prPartId,
          (Same.waitFor id .delayedStarted).prPartId]
        exact hown₁
    · simp only [retCode, Except.ok.injEq] at h
      rw [← h]
      exact hdoze _ (Or.inl rfl)
  · rename_i hper
    simp only [retCode, Except.ok.injEq] at h
    rw [← h]
    refine hdoze _ ?_
    split
    exacts [Or.inr ⟨rfl, by simpa using hper⟩, Or.inl rfl]

/-- **A service call is a sequence of effects**, up to its return or its first
`sched_proc_give_up`. -/
theorem path_doSyscall {s : Service} (hr : Registered k) (hl : Live k p)
    (h : doSyscall k env p s = .ok r) : Path (Allowed k (.call env s)) k (settle p r) := by
  cases hasks : s.asks with
  | true => exact (silent_doSyscall hasks env p).path hl h
  | false =>
      cases s with
      | setPartitionMode m => exact path_doSetPartitionMode hr hl h
      | createProcess a => exact path_doCreateProcess hl hr h
      | setPriority id pri => exact path_doSetPriority hl h
      | suspendSelf t => exact path_doSuspendSelf hr hl h
      | suspend id => exact path_doSuspend hl h
      | resume id => exact path_doResume hl h
      | stopSelf => exact path_doStopSelf hl h
      | stop id => exact path_doStop hl h
      | start id => exact path_doDelayedStart hl h
      | delayedStart id t => exact path_doDelayedStart hl h
      | timedWait t => exact path_doTimedWait hr hl h
      | createQueuingPort name sz nb dir disc => exact path_doCreateQueuingPort hl h
      | sendQueuingMessage port a len t => exact path_doSendQueuingMessage hl rfl h
      | receiveQueuingMessage port t a => exact path_doReceiveQueuingMessage hl rfl h
      | clearQueuingPort port => exact path_doClearQueuingPort hl rfl h
      | createBuffer name sz nb disc => exact path_doCreateBuffer hl h
      | sendBuffer b a len t => exact path_doSendBuffer hl rfl h
      | receiveBuffer b t a => exact path_doReceiveBuffer hl rfl h
      | createBlackboard name sz => exact path_doCreateBlackboard hl h
      | displayBlackboard b a len => exact path_doDisplayBlackboard hl rfl h
      | readBlackboard b t a => exact path_doReadBlackboard hl h
      | clearBlackboard b => exact path_doClearBlackboard hl rfl h
      | _ => cases hasks

end Services

/-! ## The machine -/

/-- **The rest of a call is a sequence of effects**, after the process has run again. -/
theorem path_resumeCont {k : Kernel} {env : Env} {p : ProcId} {c : Cont} {r : Next × Kernel}
    (hr : Registered k) (hl : Live k p) (hc : k.conts p = some c)
    (h : resumeCont (k.setWoken p false) env p c = .ok r) :
    Path (Allowed k (.resume env)) k (settle p r) := by
  have hl₁ : Live (k.setWoken p false) p := ⟨hl.cur, hl.runs, hl.own⟩
  refine .cons (.resumed hl.cur hl.own hl.runs) (.of_plain rfl) ?_
  have hdone : ∀ n : Next, (∀ rr c w a, n ≠ .giveUp rr (.comm c w a)) →
      Path (Allowed k (.resume env)) (k.setWoken p false) (settle p (n, k.setWoken p false)) :=
    fun n hn => path_settle (.refl _) hl₁.cur hl₁.own (not_isBlocked_of_eligible hl₁.runs)
      (.of_plain rfl) hn
  cases c with
  | comm c wakeup armed =>
      -- the call in progress is on an object of the current partition
      have hcall : c.OfPart k k.curPart := by
        have := (hr.calls p c wakeup armed hc).2
        rwa [show (k.procs p).prPartId = k.curPart from hl.own] at this
      have hA : AllowsCall (Allowed k (.resume env)) (k.setWoken p false) c := by
        refine allowsCall fun q hq => ?_
        have hq' : c.que k = some q := by cases c <;> exact hq
        simp [Event.que, live_eq_some.mpr hl, hc, Cont.que, hq']
      have hext := (Same.setWoken (k := k) p false).extends
      exact path_commResume hl₁ (hext.ofPart hcall) (hext.fits hcall (hr.fits p c wakeup armed hc)) hA h
  | suspendSelf wakeup =>
      simp only [resumeCont, retCode, Except.ok.injEq] at h
      rw [← h]
      exact hdone _ (by simp)
  | done code out =>
      simp only [resumeCont, Except.ok.injEq] at h
      rw [← h]
      exact hdone _ (by simp)

/-- The loop of `time_event_action` handles one expired event after the other. -/
theorem path_timeEventLoop {A : Kernel → Act → Prop} (hA : ∀ k a, a.ofHart = true → A k a)
    (clk : Nat → Int) (es : List TimeEvent) (i : Nat) (r : Resched) {k : Kernel}
    (hteq : k.teq = es) : Path A k (timeEventLoop clk es i r k).2 := by
  induction es generalizing i r k with
  | nil =>
      rw [timeEventLoop, ← hteq]
      exact .refl k
  | cons te es ih =>
      rw [timeEventLoop]
      split
      · cases hp : te.teType.proc with
        | none => exact .cons (.partition hteq hp) (hA k _ rfl) (ih _ _ rfl)
        | some p => exact .cons (.expire hteq hp) (hA k _ rfl) (ih _ _ rfl)
      · rw [← hteq]
        exact .refl k

/-- What a timer interrupt does is what its loop does, and a partition switch after it. -/
theorem timeEventAction_eq_ok {k k' : Kernel} {clk : Nat → Int} {r : Resched}
    (h : timeEventAction k clk = .ok (r, k')) :
    ∃ k₁, timeEventLoop clk k.teq 0 ⟨false, false⟩ k = (r, k₁) ∧
      (r.part = true ∧ schedGlobal k₁ = .ok k' ∨ r.part = false ∧ k' = k₁) := by
  unfold timeEventAction at h
  rcases hloop : timeEventLoop clk k.teq 0 ⟨false, false⟩ k with ⟨r₁, k₁⟩
  simp only [hloop] at h
  split at h
  · rename_i hpart
    obtain ⟨k₂, hg, h⟩ := except_bind_eq_ok.mp h
    cases h
    exact ⟨k₁, rfl, Or.inl ⟨hpart, hg⟩⟩
  · rename_i hpart
    cases h
    exact ⟨_, rfl, Or.inr ⟨by simpa using hpart, rfl⟩⟩

theorem path_timeEventAction {A : Kernel → Act → Prop} (hA : ∀ k a, a.ofHart = true → A k a)
    {k k' : Kernel} {clk : Nat → Int} {r : Resched} (h : timeEventAction k clk = .ok (r, k')) :
    Path A k k' := by
  obtain ⟨k₁, hloop, hk'⟩ := timeEventAction_eq_ok h
  have hpath : Path A k k₁ := by
    have hloop' := path_timeEventLoop hA clk k.teq 0 ⟨false, false⟩ (show k.teq = k.teq from rfl)
    rwa [hloop] at hloop'
  rcases hk' with ⟨-, hg⟩ | ⟨-, rfl⟩
  · exact hpath.trans (.one (.global hg) (hA k₁ _ rfl))
  · exact hpath

/-- **Every step of the machine is a sequence of effects** that its event is allowed. -/
theorem step_path {k k' : Kernel} {e : Event} (hr : Registered k) (h : step k e = .ok k') :
    Path (Allowed k e) k k' := by
  have hhart : e.ofService = false → ∀ k₁ a, a.ofHart = true → Allowed k e k₁ a := by
    intro he k₁ a ha
    refine ⟨?_, fun ch hc => ?_, ?_, ?_, fun _ => he⟩
    · rintro p rfl
      exact absurd ha (by simp [Act.ofHart])
    · cases a <;> simp_all [Act.ofHart, Act.chan]
    · rintro q rfl
      exact absurd ha (by simp [Act.ofHart])
    · rintro b rfl
      exact absurd ha (by simp [Act.ofHart])
  rcases step_eq_ok h with ⟨p, rfl, hd⟩ | ⟨clk, r, rfl, ht⟩ | ⟨p, r, hs, rfl⟩
  · exact .one (.dispatch hd) (hhart rfl k _ rfl)
  · exact path_timeEventAction (hhart rfl) ht
  · obtain ⟨hl, ⟨env, s, rfl, -, hout⟩ | ⟨env, c, rfl, hc, hout⟩⟩ := segment_eq_some hs
    · exact path_doSyscall hr (live_eq_some.mp hl) hout.symm
    · exact path_resumeCont hr (live_eq_some.mp hl) hc hout.symm

/-- Every step keeps the registry invariant, and nothing registered disappears. -/
theorem Registered.step {k k' : Kernel} {e : Event} (hr : Registered k) (h : step k e = .ok k') :
    Registered k' ∧ Extends k k' := hr.path (step_path hr h)

end Jrinx
