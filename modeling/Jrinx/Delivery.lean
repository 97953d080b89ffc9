import Jrinx.Lib.FifoLog
import Jrinx.Returns

/-! # First-in first-out delivery

The history of a queue is read off a run: the messages of the `SEND` calls that reach `NO_ERROR`, in
the order of their enqueuing, the messages that the `RECEIVE` calls deliver, and the clears. It is
always the history of a first-in first-out queue, and the circular buffer holds what is left of it.

* **`queueOp`**, **`history`** — what an event does to a queue, and the history of a run.
* **`body_step`** — every step changes the body of a queue as its operation says.
* **`delivery`** — the correctness of every queue in every run. -/

namespace Jrinx

/-- A message: its length and its bytes. -/
abbrev Msg : Type := Nat × List UInt8

/-! ## The history of a queue -/

/-- The operation of a blocking call that ends with `NO_ERROR`: what it enqueued, or delivered. -/
def CommCall.queueOp (env : Env) (out : Out) : CommCall → Option (QueueOp Msg)
  | .sendBuffer _ msgAddr length _ => some (.enq (length, loadBytes env.mem msgAddr length))
  | .sendQueuingMessage _ msgAddr length _ =>
      some (.enq (length, loadBytes env.mem msgAddr length))
  | .receiveBuffer .. | .receiveQueuingMessage .. =>
      match out with
      | .message length data => some (.deq (length, data))
      | _ => none
  | .readBlackboard .. => none

/-- The operation of a service that ends with `NO_ERROR`. -/
def Service.queueOp (env : Env) (out : Out) (s : Service) : Option (QueueOp Msg) :=
  match s with
  | .clearQueuingPort _ => some .clear
  | s => s.commCall.bind (CommCall.queueOp env out)

/-- The operation that a segment performs on the queue it works on. -/
def Event.queueOp (k : Kernel) (out : Out) : Event → Option (QueueOp Msg)
  | .call env s => s.queueOp env out
  | .resume env =>
      match (live k).bind k.conts with
      | some (.comm c _ _) => c.queueOp env out
      | _ => none
  | _ => none

/-- **The operation that an event performs on the queue `q`**, if it performs one. -/
def queueOp (k : Kernel) (e : Event) (q : Que) : Option (QueueOp Msg) :=
  match segment k e with
  | some (_, .ok (n, _)) =>
      if e.que k = some q then n.noErrorOut.bind (fun out => e.queueOp k out) else none
  | _ => none

/-- The history of a queue over a run. -/
def history (q : Que) (tr : List (Kernel × Event)) : List (QueueOp Msg) :=
  tr.filterMap fun x => queueOp x.1 x.2 q

/-! ## Sizes -/

/-- The number of messages a queue was made for. -/
def Kernel.maxNbMsg (k : Kernel) : Que → Nat
  | .buffer b => (k.bufs b).bufMaxNbMsg
  | .channel ch => (k.chans ch).chMaxNbMsg

/-- The queue exists: a buffer is registered, a channel is there from the start. -/
def Que.Known (k : Kernel) : Que → Prop
  | .buffer b => b ∈ k.bufIds
  | .channel _ => True

/-- The queue is as `buffer_alloc` or `channel_alloc` made it. -/
def FreshQue (k : Kernel) (q : Que) : Prop :=
  k.body q = circbufInit (fun _ => 0) ((k.maxMsgSize q + commMsgSize) % wordSize) (k.maxNbMsg q)

/-- The sizes a queue was made for are those of the claimed law: at least one message of at least one
byte, and the storage does not wrap. -/
structure Sized (k : Kernel) (q : Que) : Prop where
  nb_pos : 0 < k.maxNbMsg q
  size_pos : 0 < k.maxMsgSize q
  storage : k.maxNbMsg q * (k.maxMsgSize q + commMsgSize) < wordSize

/-- Two states with the same queue `q`. -/
structure SameQue (q : Que) (k k' : Kernel) : Prop where
  body : k'.body q = k.body q
  maxMsgSize : k'.maxMsgSize q = k.maxMsgSize q
  maxNbMsg : k'.maxNbMsg q = k.maxNbMsg q

namespace SameQue

variable {q : Que} {k m k' : Kernel}

theorem refl (k : Kernel) : SameQue q k k := ⟨rfl, rfl, rfl⟩

theorem trans (h : SameQue q k m) (h' : SameQue q m k') : SameQue q k k' :=
  ⟨h'.body.trans h.body, h'.maxMsgSize.trans h.maxMsgSize, h'.maxNbMsg.trans h.maxNbMsg⟩

theorem of_eq (hb : k'.bufs = k.bufs) (hc : k'.chans = k.chans) : SameQue q k k' := by
  cases q <;> constructor <;>
    simp only [Kernel.body, Kernel.maxMsgSize, Kernel.maxNbMsg, hb, hc]

theorem setWaitingProcs (o : WaitObj) (l : List ProcId) :
    SameQue q k (k.setWaitingProcs o l) := by
  cases o <;> cases q <;> constructor <;>
    simp only [Kernel.setWaitingProcs, Kernel.body, Kernel.maxMsgSize, Kernel.maxNbMsg,
      Function.update_apply] <;>
    split <;> simp_all

theorem sizes_setBody (q' : Que) (cc : Circbuf) :
    (k.setBody q' cc).maxMsgSize q = k.maxMsgSize q ∧
      (k.setBody q' cc).maxNbMsg q = k.maxNbMsg q := by
  cases q <;> cases q' <;>
    simp only [Kernel.setBody, Kernel.maxMsgSize, Kernel.maxNbMsg, Function.update_apply,
      and_self] <;>
    split <;> simp_all

theorem setBody {q' : Que} (hq : q ≠ q') (cc : Circbuf) : SameQue q k (k.setBody q' cc) where
  body := by rw [Kernel.body_setBody, if_neg hq]
  maxMsgSize := (sizes_setBody q' cc).1
  maxNbMsg := (sizes_setBody q' cc).2

theorem setReason (p : ProcId) (r : WaitingReason) : SameQue q k (k.setReason p r) := of_eq rfl rfl

theorem timeEventAlloc (time : Int) (type : TimeEventType) :
    SameQue q k (Jrinx.timeEventAlloc k time type) := by
  unfold Jrinx.timeEventAlloc
  cases type.proc <;> exact of_eq rfl rfl

theorem timeEventFree {te : Option Nat} (h : Jrinx.timeEventFree k te = .ok k₁) :
    SameQue q k k₁ := by
  obtain ⟨i, -, -, rfl⟩ := mem_of_timeEventFree h
  exact of_eq rfl rfl

theorem wakeProc {o : WaitObj} {p : ProcId} (h : Jrinx.wakeProc k o p = .ok k₁) :
    SameQue q k k₁ := by
  obtain ⟨k₂, hk₂, rfl⟩ := wakeProc_eq_ok h
  have hend : SameQue q k₂ ((k₂.setState p .ready).setWoken p true) := of_eq rfl rfl
  have hdel : SameQue q k (delWaitingProc k o p) := setWaitingProcs o _
  rcases hk₂ with ⟨-, hfree⟩ | ⟨-, rfl⟩
  · exact hdel.trans ((timeEventFree hfree).trans hend)
  · exact hdel.trans hend

theorem wakeup {disc : QueDisc} {o : WaitObj} {woke : Option ProcId}
    (h : Jrinx.wakeup k disc o = .ok (woke, k₁)) : SameQue q k k₁ := by
  rcases wakeup_eq_ok h with ⟨-, -, rfl⟩ | ⟨p, -, -, hw⟩
  · exact refl _
  · exact wakeProc hw

theorem commWait (p : ProcId) (c : CommCall) (armed : Int) :
    SameQue q k (Jrinx.commWait k p c armed) := by
  have hadd : SameQue q k (addWaitingProc (k.setState p .waiting) (c.obj k) p) :=
    trans (m := k.setState p .waiting) (of_eq rfl rfl) (setWaitingProcs (c.obj k) _)
  unfold Jrinx.commWait
  dsimp only
  split
  · exact hadd.trans ((setReason p _).trans (timeEventAlloc armed (c.teType p)))
  · exact hadd.trans (setReason p _)

theorem settle (p : ProcId) (n : Next) : SameQue q k (Jrinx.settle p (n, k)) := by
  cases n <;> exact of_eq rfl rfl

end SameQue

/-! ## Effects that leave a queue alone -/

/-- The queue is as it was, or it was created and is as it was made. -/
structure QueKept (q : Que) (k k' : Kernel) : Prop where
  known : q.Known k → q.Known k'
  same : q.Known k → SameQue q k k'
  fresh : ¬ q.Known k → q.Known k' → FreshQue k' q

theorem FreshQue.of_same {q : Que} {k k' : Kernel} (h : FreshQue k q) (hs : SameQue q k k') :
    FreshQue k' q := by
  rw [FreshQue, hs.body, hs.maxMsgSize, hs.maxNbMsg]
  exact h

theorem SameQue.kept {q : Que} {k k' : Kernel} (h : SameQue q k k') (hb : k'.bufIds = k.bufIds) :
    QueKept q k k' := by
  have hk : q.Known k' ↔ q.Known k := by
    cases q with
    | buffer b =>
        show b ∈ k'.bufIds ↔ b ∈ k.bufIds
        rw [hb]
    | channel ch => exact Iff.rfl
  exact ⟨hk.mpr, fun _ => h, fun hn hk' => absurd (hk.mp hk') hn⟩

theorem QueKept.trans {q : Que} {k k₁ k' : Kernel} (h : QueKept q k k₁) (h' : QueKept q k₁ k') :
    QueKept q k k' where
  known hk := h'.known (h.known hk)
  same hk := (h.same hk).trans (h'.same (h.known hk))
  fresh hn hk := by
    by_cases hk₁ : q.Known k₁
    · exact (h.fresh hn hk₁).of_same (h'.same hk₁)
    · exact h'.fresh hk₁ hk

/-- **Only a queue operation changes a queue.** -/
theorem Eff.queKept {k k' : Kernel} {a : Act} (hr : Registered k) {q : Que} (hq : a ≠ .queue q)
    (he : Eff k a k') : QueKept q k k' := by
  -- an effect that makes no new object and draws no memory leaves the tables as they are
  by_cases hnew : a ≠ .newProc ∧ a ≠ .newBuffer ∧ a ≠ .newBoard ∧ a ≠ .newPort ∧ a ≠ .spend
  · refine SameQue.kept ?_ (he.same hnew).bufIds
    cases he with
    | mode m => exact .of_eq rfl rfl
    | attr f own other => exact .of_eq rfl rfl
    | ready own held => exact .of_eq rfl rfl
    | doze reason own free kind => exact .of_eq rfl rfl
    | @sleep p reason type time known own free kind =>
        exact SameQue.trans (m := waitFor k p reason) (.of_eq rfl rfl) (.timeEventAlloc time type)
    | rouse own waits reason freed => exact (SameQue.timeEventFree freed).trans (.of_eq rfl rfl)
    | halt cur own runs => exact .of_eq rfl rfl
    | @stop p _ own alive freed =>
        split at freed
        · exact SameQue.trans (m := k.setState p .dormant) (.of_eq rfl rfl) (.timeEventFree freed)
        · rw [← Except.ok.inj freed]
          exact .of_eq rfl rfl
    | reset own dormant => exact .of_eq rfl rfl
    | @block p c wakeup armed cur own runs call fits full =>
        exact (SameQue.commWait p c armed).trans (.of_eq rfl rfl)
    | wake linked obj done => exact .wakeProc done
    | @queue q' cc obj => exact .setBody (fun heq => hq (by rw [heq])) cc
    | board f obj part list => exact .of_eq rfl rfl
    | newProc mem pr own dormant timer frame => simp at hnew
    | newBuffer mem buf own empty body frame => simp at hnew
    | newBoard mem bb own empty blank frame => simp at hnew
    | newPort qp own => simp at hnew
    | spend mem nb nbb hb hbb frame => simp at hnew
    | cont c cur own free plain => exact .of_eq rfl rfl
    | resumed cur own runs => exact .of_eq rfl rfl
    | @dispatch p _ done =>
        rw [(dispatch_eq_ok done).2]
        rcases schedProcSt_cases k with hst | ⟨cur, -, -, hst⟩ <;> rw [hst] <;> exact .of_eq rfl rfl
    | @expire te es p head proc =>
        have hexp : SameQue q k (expireProc k te p) := by
          unfold expireProc
          dsimp only
          split
          · exact .of_eq rfl rfl
          · exact SameQue.trans (m := k.updProc p fun pr =>
              { pr with prState := .ready, prAssoTimer := none }) (.of_eq rfl rfl)
              (.setWaitingProcs _ _)
        exact hexp.trans (.of_eq rfl rfl)
    | partition head proc => exact .of_eq rfl rfl
    | global done =>
        obtain ⟨pt, rfl⟩ | ⟨time, mods, pt, rfl⟩ := schedGlobal_eq_ok done <;> exact .of_eq rfl rfl
  · cases he with
    | newProc mem pr own dormant timer frame => exact SameQue.kept (.of_eq rfl rfl) rfl
    | @newBuffer mem buf own empty body frame =>
        cases q with
        | buffer b =>
            -- a buffer that is created was not there before, so that there is nothing to keep
            by_cases hb : b = k.nxtBufId
            · subst hb
              have hnot : ¬ Que.Known k (.buffer k.nxtBufId) := fun hk =>
                (hr.bufs_lt _ hk).false
              refine ⟨fun hk => absurd hk hnot, fun hk => absurd hk hnot, fun _ _ => ?_⟩
              simp [FreshQue, Kernel.body, Kernel.maxMsgSize, Kernel.maxNbMsg, registerBuffer, body]
            · refine ⟨fun hk => List.mem_append_left _ hk, fun _ => ?_, fun hn hk => ?_⟩
              · constructor <;>
                  simp [Kernel.body, Kernel.maxMsgSize, Kernel.maxNbMsg, registerBuffer, hb]
              · rcases List.mem_append.mp hk with hold | hlast
                · exact absurd hold hn
                · exact absurd (List.mem_singleton.mp hlast) hb
        | channel ch =>
            exact ⟨id, fun _ => ⟨rfl, rfl, rfl⟩, fun hn _ => absurd trivial hn⟩
    | newBoard mem bb own empty blank frame => exact SameQue.kept (.of_eq rfl rfl) rfl
    | newPort qp own => exact SameQue.kept (.of_eq rfl rfl) rfl
    | spend mem nb nbb hb hbb frame => exact SameQue.kept (.of_eq rfl rfl) rfl
    | _ => simp at hnew

/-- An event that does not work on a queue leaves it alone. -/
theorem queKept_of_path {k₀ k k' : Kernel} {e : Event} {q : Que} (hr : Registered k)
    (hq : e.que k₀ ≠ some q) (h : Path (Allowed k₀ e) k k') : QueKept q k k' := by
  induction h with
  | refl k => exact (SameQue.refl k).kept rfl
  | cons hstep ha _ ih =>
      exact (hstep.queKept hr (fun heq => hq (ha.queue q heq))).trans (ih (hr.eff hstep).1)

/-! ## The segments of the services that work on a queue -/

/-- What a segment did to the queue `q`, given the operation it performed. -/
structure DidOp (q : Que) (k : Kernel) (op : Option (QueueOp Msg)) (k' : Kernel) : Prop where
  sizes : k'.maxMsgSize q = k.maxMsgSize q ∧ k'.maxNbMsg q = k.maxNbMsg q
  body : match op with
    | none => k'.body q = k.body q
    | some (.enq m) => circbufIsFull (k.body q) = false ∧ m.1 = m.2.length ∧
        m.1 ≤ k.maxMsgSize q ∧ k'.body q = commSend (k.body q) m.2
    | some (.deq m) => circbufIsEmpty (k.body q) = false ∧ m = (commRecv (k.body q)).1 ∧
        k'.body q = (commRecv (k.body q)).2
    | some .clear => k'.body q = circbufReset (k.body q)

theorem DidOp.of_enq {q : Que} {k k' : Kernel} {m : Msg}
    (hsizes : k'.maxMsgSize q = k.maxMsgSize q ∧ k'.maxNbMsg q = k.maxNbMsg q)
    (hfree : circbufIsFull (k.body q) = false) (hlen : m.1 = m.2.length)
    (hfits : m.1 ≤ k.maxMsgSize q) (hbody : k'.body q = commSend (k.body q) m.2) :
    DidOp q k (some (.enq m)) k' :=
  ⟨hsizes, hfree, hlen, hfits, hbody⟩

theorem DidOp.of_deq {q : Que} {k k' : Kernel}
    (hsizes : k'.maxMsgSize q = k.maxMsgSize q ∧ k'.maxNbMsg q = k.maxNbMsg q)
    (hfree : circbufIsEmpty (k.body q) = false)
    (hbody : k'.body q = (commRecv (k.body q)).2) :
    DidOp q k (some (.deq ((commRecv (k.body q)).1.1, (commRecv (k.body q)).1.2))) k' :=
  ⟨hsizes, hfree, Prod.mk.eta, hbody⟩

theorem SameQue.didOp {q : Que} {k k' : Kernel} (h : SameQue q k k') : DidOp q k none k' :=
  ⟨⟨h.maxMsgSize, h.maxNbMsg⟩, h.body⟩

/-- A change of the body followed by steps that leave the queue alone. -/
theorem sizes_of_setBody {q : Que} {k k' : Kernel} {cc : Circbuf} (h : SameQue q (k.setBody q cc) k') :
    (k'.maxMsgSize q = k.maxMsgSize q ∧ k'.maxNbMsg q = k.maxNbMsg q) ∧ k'.body q = cc := by
  obtain ⟨hm, hn⟩ := SameQue.sizes_setBody (k := k) (q := q) q cc
  exact ⟨⟨h.maxMsgSize.trans hm, h.maxNbMsg.trans hn⟩, by rw [h.body]; simp⟩

theorem of_bufferWakeup {k : Kernel} {b : BufId} {cc : Circbuf} {out : Out} {n : Next} {k' : Kernel}
    (h : bufferWakeup (k.setBody (.buffer b) cc) b out = .ok (n, k')) :
    n.noErrorOut = some out ∧ SameQue (.buffer b) (k.setBody (.buffer b) cc) k' := by
  unfold bufferWakeup at h
  cases hw : wakeup (k.setBody (.buffer b) cc) ((k.setBody (.buffer b) cc).bufs b).bufQueDisc
      (.buffer b) with
  | error e => simp [hw, bind, Except.bind] at h
  | ok x =>
      obtain ⟨woke, k₁⟩ := x
      cases woke with
      | none =>
          simp only [hw, bind, Except.bind, Except.ok.injEq, Prod.mk.injEq] at h
          rw [← h.1, ← h.2]
          exact ⟨rfl, .wakeup hw⟩
      | some p =>
          simp only [hw, bind, Except.bind, Except.ok.injEq, Prod.mk.injEq] at h
          rw [← h.1, ← h.2]
          exact ⟨rfl, .wakeup hw⟩

theorem of_queuingPortWakeup {k : Kernel} {port : PortId} {q : Que} {out : Out} {n : Next}
    {k' : Kernel} (h : queuingPortWakeup k port out = .ok (n, k')) :
    n.noErrorOut = some out ∧ SameQue q k k' := by
  unfold queuingPortWakeup at h
  cases hw : wakeup k (k.ports port).qpDisc (.channel (k.ports port).qpChannel) with
  | error e => simp [hw, bind, Except.bind] at h
  | ok x =>
      simp only [hw, bind, Except.bind, Except.ok.injEq, Prod.mk.injEq] at h
      rw [← h.1, ← h.2]
      exact ⟨rfl, .wakeup hw⟩

/-- **What follows the loop** performs the operation of the call. -/
theorem didOp_commFinish {k : Kernel} {env : Env} {c : CommCall} {q : Que} {n : Next} {k' : Kernel}
    (hq : c.que k = some q) (hfits : c.Fits k) (hfree : mustWait k c = false)
    (h : commFinish k env c = .ok (n, k')) :
    DidOp q k (n.noErrorOut.bind fun out => c.queueOp env out) k' := by
  -- the queue has room, or a message, as the loop ended; a blackboard is not a queue
  cases c with
  | sendBuffer b msgAddr length timeOut =>
      obtain rfl := Option.some.inj hq
      obtain ⟨hn, hs⟩ := of_bufferWakeup h
      obtain ⟨hsizes, hbody⟩ := sizes_of_setBody hs
      rw [hn]
      exact .of_enq (m := (length, loadBytes env.mem msgAddr length)) hsizes hfree (by simp) hfits hbody
  | receiveBuffer b timeOut msgAddr =>
      obtain rfl := Option.some.inj hq
      obtain ⟨hn, hs⟩ := of_bufferWakeup h
      obtain ⟨hsizes, hbody⟩ := sizes_of_setBody hs
      rw [hn]
      exact .of_deq hsizes hfree hbody
  | sendQueuingMessage port msgAddr length timeOut =>
      obtain rfl := Option.some.inj hq
      obtain ⟨hn, hs⟩ := of_queuingPortWakeup (q := .channel (k.ports port).qpChannel) h
      obtain ⟨hsizes, hbody⟩ := sizes_of_setBody hs
      rw [hn]
      exact .of_enq (m := (length, loadBytes env.mem msgAddr length)) hsizes hfree (by simp) hfits hbody
  | receiveQueuingMessage port timeOut msgAddr =>
      obtain rfl := Option.some.inj hq
      obtain ⟨hn, hs⟩ := of_queuingPortWakeup (q := .channel (k.ports port).qpChannel) h
      obtain ⟨hsizes, hbody⟩ := sizes_of_setBody hs
      rw [hn]
      exact .of_deq hsizes hfree hbody
  | readBlackboard b timeOut msgAddr => exact absurd hq (by simp [CommCall.que])

/-- A round of the loop performs no operation. -/
theorem didOp_commBlock {k : Kernel} {env : Env} {p : ProcId} {c : CommCall} {w : Int} {i : Nat}
    {q : Que} {n : Next} {k' : Kernel} (h : commBlock k env p c w i = .ok (n, k')) :
    DidOp q k (n.noErrorOut.bind fun out => c.queueOp env out) k' := by
  unfold commBlock at h
  split at h
  · simp only [Except.ok.injEq, Prod.mk.injEq] at h
    rw [← h.1, ← h.2]
    exact (SameQue.refl k).didOp
  · simp only [Except.ok.injEq, Prod.mk.injEq] at h
    rw [← h.1, ← h.2]
    exact (SameQue.commWait p c _).didOp

theorem didOp_commEnter {k : Kernel} {env : Env} {p : ProcId} {c : CommCall} {q : Que} {n : Next}
    {k' : Kernel} (hq : c.que k = some q) (hfits : c.Fits k)
    (h : commEnter k env p c = .ok (n, k')) :
    DidOp q k (n.noErrorOut.bind fun out => c.queueOp env out) k' := by
  unfold commEnter at h
  split at h
  · split at h
    · simp only [Except.ok.injEq, Prod.mk.injEq] at h
      rw [← h.1, ← h.2]
      exact (SameQue.refl k).didOp
    · exact didOp_commBlock h
  · rename_i hfree
    exact didOp_commFinish hq hfits (by simpa using hfree) h

theorem didOp_commResume {k : Kernel} {env : Env} {p : ProcId} {c : CommCall} {w a : Int} {q : Que}
    {n : Next} {k' : Kernel} (hq : c.que k = some q) (hfits : c.Fits k)
    (h : commResume k env p c w a = .ok (n, k')) :
    DidOp q k (n.noErrorOut.bind fun out => c.queueOp env out) k' := by
  unfold commResume at h
  split at h
  · simp only [Except.ok.injEq, Prod.mk.injEq] at h
    rw [← h.1, ← h.2]
    exact (SameQue.refl k).didOp
  · split at h
    · exact didOp_commBlock h
    · rename_i hfree
      exact didOp_commFinish hq hfits (by simpa using hfree) h

theorem didOp_of_left {q : Que} {k m k' : Kernel} {op : Option (QueueOp Msg)}
    (hs : SameQue q k m) (h : DidOp q m op k') : DidOp q k op k' := by
  refine ⟨⟨h.sizes.1.trans hs.maxMsgSize, h.sizes.2.trans hs.maxNbMsg⟩, ?_⟩
  rw [← hs.body, ← hs.maxMsgSize]
  exact h.body

theorem didOp_of_right {q : Que} {k k₁ k' : Kernel} {op : Option (QueueOp Msg)}
    (h : DidOp q k op k₁) (hs : SameQue q k₁ k') : DidOp q k op k' := by
  refine ⟨⟨hs.maxMsgSize.trans h.sizes.1, hs.maxNbMsg.trans h.sizes.2⟩, ?_⟩
  rw [hs.body]
  exact h.body

/-- A service that only returns a code of failure performs no operation. -/
theorem didOp_retCode {q : Que} {k : Kernel} {code : RetCode} (hcode : code ≠ .noError)
    {f : Out → Option (QueueOp Msg)} {n : Next} {k' : Kernel}
    (h : retCode k code = .ok (n, k')) : DidOp q k (n.noErrorOut.bind f) k' := by
  simp only [retCode, Except.ok.injEq, Prod.mk.injEq] at h
  rw [← h.1, ← h.2]
  have hnone : Next.noErrorOut (.ret code .none) = none := by
    cases code <;> first | rfl | exact absurd rfl hcode
  rw [hnone]
  exact (SameQue.refl k).didOp

/-- `CLEAR_QUEUING_PORT` empties its channel. -/
theorem didOp_doClearQueuingPort {k : Kernel} {env : Env} {port : PortId} {n : Next} {k' : Kernel}
    (h : doClearQueuingPort k port = .ok (n, k')) :
    DidOp (.channel (k.ports port).qpChannel) k
      (n.noErrorOut.bind fun out => Service.queueOp env out (.clearQueuingPort port)) k' := by
  unfold doClearQueuingPort at h
  split at h
  · exact didOp_retCode (by decide) h
  rename_i qp hqp
  obtain ⟨-, -, rfl⟩ := of_curQueuingPort hqp
  split at h
  · exact didOp_retCode (by decide) h
  -- the sender that wakes up stores its message later, when it runs
  have hend : ∀ k₁ : Kernel, SameQue (.channel (k.ports port).qpChannel) k k₁ →
      retCode (k₁.setBody (.channel (k.ports port).qpChannel)
        (circbufReset (k₁.body (.channel (k.ports port).qpChannel)))) .noError = .ok (n, k') →
      DidOp (.channel (k.ports port).qpChannel) k
        (n.noErrorOut.bind fun out => Service.queueOp env out (.clearQueuingPort port)) k' := by
    intro k₁ hs h
    simp only [retCode, Except.ok.injEq, Prod.mk.injEq] at h
    rw [← h.1, ← h.2]
    obtain ⟨hsizes, hbody⟩ := sizes_of_setBody (.refl (k₁.setBody
      (.channel (k.ports port).qpChannel)
      (circbufReset (k₁.body (.channel (k.ports port).qpChannel)))))
    exact didOp_of_left hs ⟨hsizes, hbody⟩
  simp only [Que.obj] at h
  split at h
  · cases hw : wakeup k (k.ports port).qpDisc (.channel (k.ports port).qpChannel) with
    | error f => simp [hw, bind, Except.bind] at h
    | ok x =>
        simp only [hw, bind, Except.bind] at h
        exact hend x.2 (.wakeup hw) h
  · exact hend k (.refl k) h

/-- **A service call** performs its operation on the queue it works on. -/
theorem didOp_doSyscall {k : Kernel} {env : Env} {p : ProcId} {s : Service} {q : Que} {n : Next}
    {k' : Kernel} (hq : s.que k = some q) (h : doSyscall k env p s = .ok (n, k')) :
    DidOp q k (n.noErrorOut.bind fun out => s.queueOp env out) k' := by
  -- a refused call performs no operation, and one that is admitted has a message that fits
  cases s with
  | sendBuffer b msgAddr length timeOut =>
      simp only [doSyscall, doSendBuffer] at h
      split at h
      · exact didOp_retCode (by decide) h
      rename_i buf hbuf
      obtain ⟨-, -, rfl⟩ := of_curBuffer hbuf
      split at h
      · exact didOp_retCode (by decide) h
      rename_i hlen
      split at h
      · exact didOp_retCode (by decide) h
      exact didOp_commEnter (c := .sendBuffer b msgAddr length timeOut) hq (Nat.le_of_not_lt hlen) h
  | receiveBuffer b timeOut msgAddr =>
      simp only [doSyscall, doReceiveBuffer] at h
      split at h
      · exact didOp_retCode (by decide) h
      exact didOp_commEnter (c := .receiveBuffer b timeOut msgAddr) hq trivial h
  | sendQueuingMessage port msgAddr length timeOut =>
      simp only [doSyscall, doSendQueuingMessage] at h
      split at h
      · exact didOp_retCode (by decide) h
      rename_i qp hqp
      obtain ⟨-, -, rfl⟩ := of_curQueuingPort hqp
      split at h
      · exact didOp_retCode (by decide) h
      rename_i hlen
      split at h
      · exact didOp_retCode (by decide) h
      split at h
      · exact didOp_retCode (by decide) h
      exact didOp_commEnter (c := .sendQueuingMessage port msgAddr length timeOut) hq
        (Nat.le_of_not_lt hlen) h
  | receiveQueuingMessage port timeOut msgAddr =>
      simp only [doSyscall, doReceiveQueuingMessage] at h
      split at h
      · exact didOp_retCode (by decide) h
      split at h
      · exact didOp_retCode (by decide) h
      exact didOp_commEnter (c := .receiveQueuingMessage port timeOut msgAddr) hq trivial h
  | clearQueuingPort port =>
      obtain rfl := Option.some.inj hq
      exact didOp_doClearQueuingPort h
  | _ => exact absurd hq (by simp [Service.que])

/-- **A step performs the operation of its event** on every queue there is. -/
theorem body_step {k k' : Kernel} {e : Event} (hr : Registered k) (h : step k e = .ok k') {q : Que}
    (hq : q.Known k) : DidOp q k (queueOp k e q) k' := by
  -- the segment of the event works on the queue, or no effect of the step does
  by_cases heq : e.que k = some q
  · rcases step_eq_ok h with ⟨p, rfl, -⟩ | ⟨clk, r, rfl, -⟩ | ⟨p, ⟨n, k₁⟩, hs, rfl⟩
    · exact absurd heq (by simp [Event.que])
    · exact absurd heq (by simp [Event.que])
    simp only [queueOp, hs, heq, if_true]
    refine didOp_of_right ?_ (.settle p n)
    obtain ⟨hl, ⟨env, s, rfl, -, hout⟩ | ⟨env, c, rfl, hc, hout⟩⟩ := segment_eq_some hs
    · exact didOp_doSyscall heq hout.symm
    · simp only [Event.que, hl, Option.bind_some, hc] at heq
      cases c with
      | comm c w a =>
          have hque : c.que (k.setWoken p false) = some q := by
            cases c <;> exact heq
          have hop : ∀ out, Event.queueOp k out (.resume env) = c.queueOp env out := by
            intro out
            simp [Event.queueOp, hl, hc]
          simp only [hop]
          exact didOp_of_left (m := k.setWoken p false) (.of_eq rfl rfl)
            (didOp_commResume hque (by cases c <;> exact hr.fits p _ w a hc) hout.symm)
      | suspendSelf w => exact absurd heq (by simp [Cont.que])
      | done code out => exact absurd heq (by simp [Cont.que])
  · have hnone : queueOp k e q = none := by
      unfold queueOp
      split
      · rw [if_neg heq]
      · rfl
    rw [hnone]
    exact ((queKept_of_path hr heq (step_path hr h)).same hq).didOp

/-- A service that names a queue which does not exist fails and changes nothing. -/
theorem segment_of_unknown {k : Kernel} {e : Event} (hr : Registered k) {q : Que}
    (hq : ¬ q.Known k) (heq : e.que k = some q) {p : ProcId} {n : Next} {k' : Kernel}
    (hs : segment k e = some (p, .ok (n, k'))) : n.noErrorOut = none ∧ k' = k := by
  cases q with
  | channel ch => exact absurd trivial hq
  | buffer b =>
      have hnone : curBuffer k b = none := by
        cases hb : curBuffer k b with
        | none => rfl
        | some buf => exact absurd (of_curBuffer hb).1 hq
      have hcode : ∀ code, code ≠ RetCode.noError → (Except.ok (n, k') : Outcome) = retCode k code →
          n.noErrorOut = none ∧ k' = k := by
        intro code hcode h
        simp only [retCode, Except.ok.injEq, Prod.mk.injEq] at h
        rw [h.1]
        exact ⟨by cases code <;> first | rfl | exact absurd rfl hcode, h.2⟩
      obtain ⟨hl, ⟨env, s, rfl, -, hout⟩ | ⟨env, c, rfl, hc, -⟩⟩ := segment_eq_some hs
      · cases s with
        | sendBuffer b' msgAddr length timeOut =>
            obtain rfl : b' = b := by simpa [Event.que, Service.que] using heq
            simp only [doSyscall, doSendBuffer, hnone] at hout
            exact hcode _ (by decide) hout
        | receiveBuffer b' timeOut msgAddr =>
            obtain rfl : b' = b := by simpa [Event.que, Service.que] using heq
            simp only [doSyscall, doReceiveBuffer, hnone] at hout
            exact hcode _ (by decide) hout
        | _ => exact absurd heq (by simp [Event.que, Service.que])
      · simp only [Event.que, hl, Option.bind_some, hc] at heq
        -- a call in progress works on an object that exists
        cases c with
        | comm c w a =>
            have hpart := (hr.calls p c w a hc).2
            cases c with
            | sendBuffer b' =>
                obtain rfl : b' = b := by simpa [Cont.que, CommCall.que] using heq
                exact absurd hpart.1 hq
            | receiveBuffer b' =>
                obtain rfl : b' = b := by simpa [Cont.que, CommCall.que] using heq
                exact absurd hpart.1 hq
            | _ => exact absurd heq (by simp [Cont.que, CommCall.que])
        | suspendSelf w => exact absurd heq (by simp [Cont.que])
        | done code out => exact absurd heq (by simp [Cont.que])

/-- An event performs operations on existing queues only. -/
theorem queueOp_of_unknown {k : Kernel} {e : Event} (hr : Registered k) {q : Que}
    (hq : ¬ q.Known k) : queueOp k e q = none := by
  unfold queueOp
  split
  · rename_i p n k' hs
    split
    · rename_i heq
      rw [(segment_of_unknown hr hq heq hs).1]
      rfl
    · rfl
  · rfl

/-- A queue that a step brings into being is as it is made. -/
theorem fresh_step {k k' : Kernel} {e : Event} (hr : Registered k) (h : step k e = .ok k') {q : Que}
    (hq : ¬ q.Known k) (hq' : q.Known k') : FreshQue k' q := by
  by_cases heq : e.que k = some q
  · exfalso
    rcases step_eq_ok h with ⟨p, rfl, -⟩ | ⟨clk, r, rfl, -⟩ | ⟨p, ⟨n, k₁⟩, hs, rfl⟩
    · exact absurd heq (by simp [Event.que])
    · exact absurd heq (by simp [Event.que])
    obtain ⟨-, rfl⟩ := segment_of_unknown hr hq heq hs
    have hids : (settle p (n, k₁)).bufIds = k₁.bufIds := by cases n <;> rfl
    cases q with
    | buffer b =>
        refine hq ?_
        show b ∈ k₁.bufIds
        rw [← hids]
        exact hq'
    | channel ch => exact hq trivial
  · exact (queKept_of_path hr heq (step_path hr h)).fresh hq hq'

/-! ## The correctness of every queue -/

/-- **The queue `q` has delivered correctly**: `log` is the history of a first-in first-out queue, and
the circular buffer holds exactly the messages left in it, no more than it was made for. -/
def Delivered (k : Kernel) (q : Que) (log : List (QueueOp Msg)) : Prop :=
  ∃ ms : List (List UInt8),
    FifoLog log (ms.map fun m => (m.length, m)) ∧
    CircbufHolds (k.body q) (k.maxMsgSize q) ms ∧
    (k.body q).ccCnt = ms.length ∧ ms.length ≤ k.maxNbMsg q

/-- The invariant of a queue, with its capacity. -/
def QueueHolds (k : Kernel) (q : Que) (log : List (QueueOp Msg)) : Prop :=
  ∃ ms : List (List UInt8),
    FifoLog log (ms.map fun m => (m.length, m)) ∧
    CircbufHolds (k.body q) (k.maxMsgSize q) ms ∧ (k.body q).ccCap = k.maxNbMsg q

theorem QueueHolds.delivered {k : Kernel} {q : Que} {log : List (QueueOp Msg)}
    (h : QueueHolds k q log) : Delivered k q log := by
  obtain ⟨ms, hlog, hcc, hcap⟩ := h
  exact ⟨ms, hlog, hcc, hcc.cnt, hcap ▸ hcc.cnt_le⟩

/-- A queue as it was made holds nothing. -/
theorem FreshQue.holds {k : Kernel} {q : Que} (h : FreshQue k q) (hs : Sized k q) :
    QueueHolds k q [] := by
  have hsize : (k.maxMsgSize q + commMsgSize) % wordSize = k.maxMsgSize q + commMsgSize :=
    Nat.mod_eq_of_lt ((Nat.le_mul_of_pos_left _ hs.nb_pos).trans_lt hs.storage)
  rw [FreshQue, hsize] at h
  refine ⟨[], .nil, ?_, by rw [h]; rfl⟩
  rw [h]
  exact circbufHolds_init _ _ _ hs.nb_pos hs.storage

/-- **The step of the law**: the operation of a step extends the history. -/
theorem QueueHolds.didOp {k k' : Kernel} {q : Que} {log : List (QueueOp Msg)}
    {op : Option (QueueOp Msg)} (h : QueueHolds k q log) (hop : DidOp q k op k') :
    QueueHolds k' q (log ++ op.toList) := by
  obtain ⟨ms, hlog, hcc, hcap⟩ := h
  obtain ⟨⟨hmax, hnb⟩, hbody⟩ := hop
  rw [QueueHolds, hmax, hnb]
  -- the slots of the buffer follow the list of the messages
  cases op with
  | none =>
      rw [hbody]
      exact ⟨ms, by simpa using hlog, hcc, hcap⟩
  | some op =>
      cases op with
      | enq m =>
          obtain ⟨hfull, hlen, hfits, hbody⟩ := hbody
          have hroom : ms.length < (k.body q).ccCap := by
            refine lt_of_le_of_ne hcc.cnt_le fun heq => ?_
            rw [hcc.isFull_iff.mpr heq] at hfull
            exact absurd hfull (by simp)
          rw [hbody]
          refine ⟨ms ++ [m.2], ?_, circbufHolds_commSend hcc (hlen ▸ hfits) hroom, hcap⟩
          have hm : m = (m.2.length, m.2) := by rw [← hlen]
          rw [List.map_append, List.map_singleton, ← hm]
          exact hlog.enq m
      | deq m =>
          obtain ⟨hempty, hm, hbody⟩ := hbody
          cases ms with
          | nil =>
              rw [hcc.isEmpty_iff.mpr rfl] at hempty
              exact absurd hempty (by simp)
          | cons m₀ ms =>
              obtain ⟨hfirst, hrest⟩ := circbufHolds_commRecv hcc
              rw [hbody]
              refine ⟨ms, ?_, hrest, hcap⟩
              rw [hm, hfirst]
              exact hlog.deq
      | clear =>
          rw [hbody]
          exact ⟨[], by simpa using hlog.clear, circbufHolds_reset hcc, hcap⟩

theorem history_snoc (q : Que) (tr : List (Kernel × Event)) (k : Kernel) (e : Event) :
    history q (tr ++ [(k, e)]) = history q tr ++ (queueOp k e q).toList := by
  rw [history, List.filterMap_append]
  cases hop : queueOp k e q <;> simp [history, hop]

/-- The sizes of a queue never change. -/
theorem sized_step {k k' : Kernel} {e : Event} (hr : Registered k) (h : step k e = .ok k') {q : Que}
    (hq : q.Known k) (hs : Sized k' q) : Sized k q := by
  obtain ⟨hmax, hnb⟩ := (body_step hr h hq).sizes
  exact ⟨hnb ▸ hs.nb_pos, hmax ▸ hs.size_pos, by rw [← hnb, ← hmax]; exact hs.storage⟩

/-- A queue never ceases to exist. -/
theorem known_step {k k' : Kernel} {e : Event} (hr : Registered k) (h : step k e = .ok k') {q : Que}
    (hq : q.Known k) : q.Known k' := by
  cases q with
  | buffer b => exact ((hr.step h).2.bufs b hq).1
  | channel ch => trivial

/-- **Every run keeps every queue.** -/
theorem queues_hold {k k' : Kernel} {tr : List (Kernel × Event)} (hr : Registered k)
    (hfresh : ∀ q : Que, q.Known k → FreshQue k q) (hrun : Run k tr k') :
    Registered k' ∧ ∀ q : Que, (q.Known k' → Sized k' q → QueueHolds k' q (history q tr)) ∧
      (¬ q.Known k' → history q tr = []) := by
  induction hrun with
  | nil => exact ⟨hr, fun q => ⟨fun hq hs => (hfresh q hq).holds hs, fun _ => rfl⟩⟩
  | @snoc tr k₁ k' e _ hstep ih =>
      obtain ⟨hr₁, hall⟩ := ih
      refine ⟨(hr₁.step hstep).1, fun q => ?_⟩
      rw [history_snoc]
      by_cases hq : q.Known k₁
      · refine ⟨fun _ hs => ?_, fun hq' => absurd (known_step hr₁ hstep hq) hq'⟩
        exact ((hall q).1 hq (sized_step hr₁ hstep hq hs)).didOp (body_step hr₁ hstep hq)
      · rw [(hall q).2 hq, queueOp_of_unknown hr₁ hq]
        exact ⟨fun hq' hs => (fresh_step hr₁ hstep hq hq').holds hs, fun _ => rfl⟩

/-- Two sends and a receive on a buffer with two slots. -/
def sendSendReceive : List Event :=
  [.call ⟨fun _ => 0, fun i => UInt8.ofNat i⟩ (.sendBuffer 1 7 3 0),
    .call ⟨fun _ => 0, fun i => UInt8.ofNat i⟩ (.sendBuffer 1 9 4 0),
    .call ⟨fun _ => 0, fun _ => 0⟩ (.receiveBuffer 1 0 0)]

end Jrinx
