import Jrinx.Effects

/-! # What is registered, and whose it is

Almost every effect leaves alone which records exist and which partition each of them belongs to.

* **`Same`** — two states with the same records and owners.
* **`Registered`** — the invariant: identifiers in use are below the next free one, the process list
  of a partition holds processes of that partition, and a blocked call names an object of the
  partition of its process.
* **`Registered.eff`** — every effect keeps it. -/

namespace Jrinx

/-! ## Effects that create nothing -/

/-- The same records exist and belong to the same partitions. -/
structure Same (k k' : Kernel) : Prop where
  procLists : ∀ pt, (k'.parts pt).paProcList = (k.parts pt).paProcList
  procIds : k'.procIds = k.procIds
  nxtProcId : k'.nxtProcId = k.nxtProcId
  bufIds : k'.bufIds = k.bufIds
  nxtBufId : k'.nxtBufId = k.nxtBufId
  bbIds : k'.bbIds = k.bbIds
  nxtBbId : k'.nxtBbId = k.nxtBbId
  ports : k'.ports = k.ports
  portIds : k'.portIds = k.portIds
  nxtPortId : k'.nxtPortId = k.nxtPortId
  prPartId : ∀ p, (k'.procs p).prPartId = (k.procs p).prPartId
  bufPartId : ∀ b, (k'.bufs b).bufPartId = (k.bufs b).bufPartId
  bbPartId : ∀ b, (k'.bbs b).bbPartId = (k.bbs b).bbPartId
  bufMaxMsgSize : ∀ b, (k'.bufs b).bufMaxMsgSize = (k.bufs b).bufMaxMsgSize
  chMaxMsgSize : ∀ ch, (k'.chans ch).chMaxMsgSize = (k.chans ch).chMaxMsgSize

namespace Same

variable {k k₁ k₂ : Kernel}

theorem refl (k : Kernel) : Same k k := by constructor <;> simp

theorem trans (h₁ : Same k k₁) (h₂ : Same k₁ k₂) : Same k k₂ := by
  constructor
  · exact fun pt => (h₂.procLists pt).trans (h₁.procLists pt)
  · exact h₂.procIds.trans h₁.procIds
  · exact h₂.nxtProcId.trans h₁.nxtProcId
  · exact h₂.bufIds.trans h₁.bufIds
  · exact h₂.nxtBufId.trans h₁.nxtBufId
  · exact h₂.bbIds.trans h₁.bbIds
  · exact h₂.nxtBbId.trans h₁.nxtBbId
  · exact h₂.ports.trans h₁.ports
  · exact h₂.portIds.trans h₁.portIds
  · exact h₂.nxtPortId.trans h₁.nxtPortId
  · exact fun p => (h₂.prPartId p).trans (h₁.prPartId p)
  · exact fun b => (h₂.bufPartId b).trans (h₁.bufPartId b)
  · exact fun b => (h₂.bbPartId b).trans (h₁.bbPartId b)
  · exact fun b => (h₂.bufMaxMsgSize b).trans (h₁.bufMaxMsgSize b)
  · exact fun ch => (h₂.chMaxMsgSize ch).trans (h₁.chMaxMsgSize ch)

theorem updProc {p : ProcId} {f : Proc → Proc}
    (hf : ∀ pr, (f pr).prPartId = pr.prPartId := by intro _; rfl) :
    Same k (k.updProc p f) := by
  constructor <;> try (intros; rfl)
  intro q
  by_cases hq : q = p
  · rw [hq]
    simp [Kernel.updProc, hf]
  · simp [Kernel.updProc, hq]

theorem setState (p : ProcId) (s : ProcState) : Same k (k.setState p s) := updProc

theorem setReason (p : ProcId) (r : WaitingReason) : Same k (k.setReason p r) := updProc

theorem waitFor (p : ProcId) (r : WaitingReason) : Same k (Jrinx.waitFor k p r) :=
  trans (setState p .waiting) (setReason p r)

theorem setWaitingProcs (o : WaitObj) (l : List ProcId) : Same k (k.setWaitingProcs o l) := by
  cases o <;> constructor <;> intros <;>
    simp only [Kernel.setWaitingProcs, Function.update_apply]
  all_goals split <;> simp_all

theorem setBody (q : Que) (cc : Circbuf) : Same k (k.setBody q cc) := by
  cases q <;> constructor <;> intros <;>
    simp only [Kernel.setBody, Function.update_apply]
  all_goals split <;> simp_all

theorem updBb {b : BbId} {f : Blackboard → Blackboard}
    (hf : ∀ bb, (f bb).bbPartId = bb.bbPartId := by intro _; rfl) :
    Same k (k.updBb b f) := by
  constructor <;> try (intros; rfl)
  intro b'
  by_cases hb : b' = b
  · subst hb
    simp [Kernel.updBb, hf]
  · simp [Kernel.updBb, hb]

theorem setCont (p : ProcId) (c : Option Cont) : Same k (k.setCont p c) := by
  constructor <;> intros <;> rfl

theorem setWoken (p : ProcId) (b : Bool) : Same k (k.setWoken p b) := by
  constructor <;> intros <;> rfl

theorem procReset (p : ProcId) : Same k (Jrinx.procReset k p) :=
  (setCont p none).trans (setWoken p false)

theorem setTeq (es : List TimeEvent) (n : Nat) : Same k { k with teq := es, nxtTe := n } := by
  constructor <;> intros <;> rfl

theorem timeEventAlloc (time : Int) (type : TimeEventType) :
    Same k (Jrinx.timeEventAlloc k time type) := by
  have hteq : Same k { k with
      teq := insertEvent ⟨k.nxtTe, time, type⟩ k.teq, nxtTe := k.nxtTe + 1 } := setTeq _ _
  unfold Jrinx.timeEventAlloc
  cases type.proc with
  | none => exact hteq
  | some p => exact hteq.trans updProc

theorem timeEventFree {te : Option Nat} (h : Jrinx.timeEventFree k te = .ok k₁) : Same k k₁ := by
  unfold Jrinx.timeEventFree at h
  cases hf : k.teq.find? (fun i => te = some i.teId) with
  | none => simp [hf] at h
  | some i =>
      simp only [hf] at h
      have hteq : Same k { k with teq := k.teq.filter (fun j => j.teId ≠ i.teId) } := by
        constructor <;> intros <;> rfl
      cases hp : i.teType.proc with
      | none =>
          simp only [hp, Except.ok.injEq] at h
          rw [← h]
          exact hteq
      | some p =>
          simp only [hp, Except.ok.injEq] at h
          rw [← h]
          exact hteq.trans updProc

theorem sleepUntil (p : ProcId) (reason : WaitingReason) (time : Int) (type : TimeEventType) :
    Same k (Jrinx.sleepUntil k p reason time type) :=
  trans (waitFor p reason) (timeEventAlloc time type)

theorem addWaitingProc (o : WaitObj) (p : ProcId) : Same k (Jrinx.addWaitingProc k o p) :=
  setWaitingProcs o _

theorem delWaitingProc (o : WaitObj) (p : ProcId) : Same k (Jrinx.delWaitingProc k o p) :=
  setWaitingProcs o _

theorem commWait (p : ProcId) (c : CommCall) (armed : Int) :
    Same k (Jrinx.commWait k p c armed) := by
  unfold Jrinx.commWait
  dsimp only
  split
  · exact trans (setState p .waiting) <| trans (addWaitingProc _ p) <| trans (setReason p _)
      (timeEventAlloc armed (c.teType p))
  · exact trans (setState p .waiting) <| trans (addWaitingProc _ p) (setReason p _)

theorem wakeProc {o : WaitObj} {p : ProcId} (h : Jrinx.wakeProc k o p = .ok k₁) : Same k k₁ := by
  simp only [Jrinx.wakeProc] at h
  split at h
  · cases hf : Jrinx.timeEventFree (Jrinx.delWaitingProc k o p)
        ((Jrinx.delWaitingProc k o p).procs p).prAssoTimer with
    | error e => simp [hf, bind, Except.bind] at h
    | ok k₂ =>
        simp only [hf, bind, Except.bind, Except.ok.injEq] at h
        rw [← h]
        exact trans (delWaitingProc o p) <| trans (timeEventFree hf) <|
          trans (setState p .ready) (setWoken p true)
  · simp only [bind, Except.bind, Except.ok.injEq] at h
    rw [← h]
    exact trans (delWaitingProc o p) <| trans (setState p .ready) (setWoken p true)

theorem expireProc (te : TimeEvent) (p : ProcId) : Same k (Jrinx.expireProc k te p) := by
  unfold Jrinx.expireProc
  dsimp only
  split
  · exact updProc
  · exact trans updProc (delWaitingProc _ p)

theorem schedProcSt (k : Kernel) : Same k (Jrinx.schedProcSt k) := by
  rcases schedProcSt_cases k with h | ⟨cur, -, -, h⟩ <;> rw [h]
  · exact refl k
  · exact setState cur .ready

theorem schedProcEd (p : ProcId) : Same k (Jrinx.schedProcEd k p) := by
  have hcur : Same k { k with curProc := some p } := by constructor <;> intros <;> rfl
  exact hcur.trans (setState p .running)

theorem schedGlobal (h : Jrinx.schedGlobal k = .ok k₁) : Same k k₁ := by
  obtain ⟨pt, rfl⟩ | ⟨time, mods, pt, rfl⟩ := schedGlobal_eq_ok h
  · constructor <;> intros <;> rfl
  · have hcur : Same k { k with schedCurMod := some (nextMod k) } := by
      constructor <;> intros <;> rfl
    refine (hcur.trans (timeEventAlloc time .partitionActivate)).trans ?_
    constructor <;> intros <;> rfl

end Same

/-- **An effect that creates nothing** leaves the records and their owners alone. -/
theorem Eff.same {k k' : Kernel} {a : Act} (h : Eff k a k')
    (hnew : a ≠ .newProc ∧ a ≠ .newBuffer ∧ a ≠ .newBoard ∧ a ≠ .newPort ∧ a ≠ .spend) :
    Same k k' := by
  -- what an effect writes is no record of an owner; the effects that create something are excluded
  cases h with
  | mode m =>
      constructor <;> try (intros; rfl)
      intro pt
      by_cases hpt : pt = k.curPart
      · rw [hpt]
        simp [setMode, Kernel.updPart]
      · simp [setMode, Kernel.updPart, hpt]
  | attr f own other => exact .updProc fun pr => by rw [other]
  | ready own held => exact .updProc
  | doze reason own free kind => exact .waitFor _ reason
  | sleep time known own free kind => exact .sleepUntil _ _ time _
  | rouse own waits reason freed => exact .trans (.timeEventFree freed) .updProc
  | halt cur own runs => exact .updProc
  | @stop p _ own alive freed =>
      split at freed
      · exact .trans .updProc (.timeEventFree freed)
      · rw [← Except.ok.inj freed]
        exact .updProc
  | reset own dormant => exact .procReset _
  | block c wakeup armed cur own runs call fits full => exact .trans (.commWait _ c armed) (.setCont _ _)
  | wake linked obj done => exact .wakeProc done
  | queue cc obj => exact .setBody _ cc
  | board f obj part list => exact .updBb part
  | newProc mem pr own dormant timer frame => simp at hnew
  | newBuffer mem buf own empty body frame => simp at hnew
  | newBoard mem bb own empty blank frame => simp at hnew
  | newPort qp own => simp at hnew
  | spend mem nb nbb hb hbb frame => simp at hnew
  | cont c cur own free plain => exact .setCont _ c
  | resumed cur own runs => exact .setWoken _ false
  | @dispatch p _ done =>
      rw [(dispatch_eq_ok done).2]
      exact .trans (.schedProcSt k) (.schedProcEd p)
  | @expire te es p head proc =>
      exact .trans (.expireProc te p) (.setTeq es _)
  | partition head proc => exact .setTeq _ _
  | global done => exact .schedGlobal done

/-! ## The invariant -/

/-- Nothing registered disappears or changes its owner. -/
structure Extends (k k' : Kernel) : Prop where
  procs : ∀ p ∈ k.procIds, p ∈ k'.procIds ∧ (k'.procs p).prPartId = (k.procs p).prPartId
  bufs : ∀ b ∈ k.bufIds, b ∈ k'.bufIds ∧ (k'.bufs b).bufPartId = (k.bufs b).bufPartId
  bbs : ∀ b ∈ k.bbIds, b ∈ k'.bbIds ∧ (k'.bbs b).bbPartId = (k.bbs b).bbPartId
  ports : ∀ port ∈ k.portIds, port ∈ k'.portIds ∧ k'.ports port = k.ports port
  bufMax : ∀ b ∈ k.bufIds, (k'.bufs b).bufMaxMsgSize = (k.bufs b).bufMaxMsgSize
  chMax : ∀ ch, (k'.chans ch).chMaxMsgSize = (k.chans ch).chMaxMsgSize

theorem Same.extends {k k' : Kernel} (h : Same k k') : Extends k k' where
  procs p hp := ⟨h.procIds ▸ hp, h.prPartId p⟩
  bufs b hb := ⟨h.bufIds ▸ hb, h.bufPartId b⟩
  bbs b hb := ⟨h.bbIds ▸ hb, h.bbPartId b⟩
  ports port hp := ⟨h.portIds ▸ hp, by rw [h.ports]⟩
  bufMax b _ := h.bufMaxMsgSize b
  chMax := h.chMaxMsgSize

namespace Extends

variable {k k₁ k' : Kernel}

theorem refl (k : Kernel) : Extends k k := (Same.refl k).extends

theorem trans (h₁ : Extends k k₁) (h₂ : Extends k₁ k') : Extends k k' where
  procs p hp := ⟨(h₂.procs p (h₁.procs p hp).1).1,
    (h₂.procs p (h₁.procs p hp).1).2.trans (h₁.procs p hp).2⟩
  bufs b hb := ⟨(h₂.bufs b (h₁.bufs b hb).1).1,
    (h₂.bufs b (h₁.bufs b hb).1).2.trans (h₁.bufs b hb).2⟩
  bbs b hb := ⟨(h₂.bbs b (h₁.bbs b hb).1).1,
    (h₂.bbs b (h₁.bbs b hb).1).2.trans (h₁.bbs b hb).2⟩
  ports port hp := ⟨(h₂.ports port (h₁.ports port hp).1).1,
    (h₂.ports port (h₁.ports port hp).1).2.trans (h₁.ports port hp).2⟩
  bufMax b hb := (h₂.bufMax b (h₁.bufs b hb).1).trans (h₁.bufMax b hb)
  chMax ch := (h₂.chMax ch).trans (h₁.chMax ch)

/-- A message of a call of a partition goes on to fit. -/
theorem fits (h : Extends k k') {pt : PartId} {c : CommCall} (hc : c.OfPart k pt)
    (hf : c.Fits k) : c.Fits k' := by
  cases c with
  | sendBuffer b msgAddr length timeOut =>
      show length ≤ _
      rw [h.bufMax b hc.1]
      exact hf
  | receiveBuffer => trivial
  | sendQueuingMessage port msgAddr length timeOut =>
      show length ≤ _
      rw [(h.ports port hc.1).2, h.chMax]
      exact hf
  | receiveQueuingMessage => trivial
  | readBlackboard => trivial

/-- A call of a partition stays one. -/
theorem ofPart (h : Extends k k') {pt : PartId} {c : CommCall} (hc : c.OfPart k pt) :
    c.OfPart k' pt := by
  cases c with
  | sendBuffer b => exact ⟨(h.bufs b hc.1).1, (h.bufs b hc.1).2.trans hc.2⟩
  | receiveBuffer b => exact ⟨(h.bufs b hc.1).1, (h.bufs b hc.1).2.trans hc.2⟩
  | sendQueuingMessage port =>
      exact ⟨(h.ports port hc.1).1, by rw [(h.ports port hc.1).2]; exact hc.2⟩
  | receiveQueuingMessage port =>
      exact ⟨(h.ports port hc.1).1, by rw [(h.ports port hc.1).2]; exact hc.2⟩
  | readBlackboard b => exact ⟨(h.bbs b hc.1).1, (h.bbs b hc.1).2.trans hc.2⟩

/-- An object of a partition stays one. -/
theorem objOf (h : Extends k k') {pt : PartId} {o : WaitObj} (ho : ObjOf k pt o) :
    ObjOf k' pt o := by
  cases o with
  | buffer b => exact ⟨(h.bufs b ho.1).1, (h.bufs b ho.1).2.trans ho.2⟩
  | blackboard b => exact ⟨(h.bbs b ho.1).1, (h.bbs b ho.1).2.trans ho.2⟩
  | channel c =>
      obtain ⟨port, hp, hpt, hch⟩ := ho
      obtain ⟨hp', heq⟩ := h.ports port hp
      exact ⟨port, hp', by rw [heq]; exact hpt, by rw [heq]; exact hch⟩

/-- The object of a call of a partition stays the same. -/
theorem obj_eq (h : Extends k k') {pt : PartId} {c : CommCall} (hc : c.OfPart k pt) :
    c.obj k' = c.obj k := by
  cases c with
  | sendBuffer => rfl
  | receiveBuffer => rfl
  | sendQueuingMessage port => simp only [CommCall.obj, (h.ports port hc.1).2]
  | receiveQueuingMessage port => simp only [CommCall.obj, (h.ports port hc.1).2]
  | readBlackboard => rfl

end Extends

/-- **The registry invariant.** -/
structure Registered (k : Kernel) : Prop where
  procs_lt : ∀ p ∈ k.procIds, p < k.nxtProcId
  bufs_lt : ∀ b ∈ k.bufIds, b < k.nxtBufId
  bbs_lt : ∀ b ∈ k.bbIds, b < k.nxtBbId
  ports_lt : ∀ port ∈ k.portIds, port < k.nxtPortId
  procList : ∀ pt, ∀ p ∈ (k.parts pt).paProcList, p ∈ k.procIds ∧ (k.procs p).prPartId = pt
  calls : ∀ p c w a, k.conts p = some (.comm c w a) →
    p ∈ k.procIds ∧ c.OfPart k (k.procs p).prPartId
  fits : ∀ p c w a, k.conts p = some (.comm c w a) → c.Fits k
  cur : ∀ p, k.curProc = some p → p ∈ k.procIds

/-- The registry invariant, for a state with the same records whose calls in progress are known. -/
theorem Registered.of_same {k k' : Kernel} (hr : Registered k) (h : Same k k')
    (hcalls : ∀ p c w a, k'.conts p = some (.comm c w a) →
      k.conts p = some (.comm c w a) ∨
        p ∈ k.procIds ∧ c.OfPart k (k.procs p).prPartId ∧ c.Fits k)
    (hcur : ∀ p, k'.curProc = some p → k.curProc = some p ∨ p ∈ k.procIds) : Registered k' where
  procs_lt p hp := by
    rw [h.nxtProcId]
    exact hr.procs_lt p (h.procIds ▸ hp)
  bufs_lt b hb := by
    rw [h.nxtBufId]
    exact hr.bufs_lt b (h.bufIds ▸ hb)
  bbs_lt b hb := by
    rw [h.nxtBbId]
    exact hr.bbs_lt b (h.bbIds ▸ hb)
  ports_lt port hp := by
    rw [h.nxtPortId]
    exact hr.ports_lt port (h.portIds ▸ hp)
  procList pt p hp := by
    rw [h.procLists] at hp
    rw [h.procIds, h.prPartId]
    exact hr.procList pt p hp
  calls p c w a hc := by
    have hcall : p ∈ k.procIds ∧ c.OfPart k (k.procs p).prPartId := by
      rcases hcalls p c w a hc with hold | ⟨hp, hpart, -⟩
      · exact hr.calls p c w a hold
      · exact ⟨hp, hpart⟩
    rw [h.procIds, h.prPartId]
    exact ⟨hcall.1, h.extends.ofPart hcall.2⟩
  fits p c w a hc := by
    rcases hcalls p c w a hc with hold | ⟨-, hpart, hfits⟩
    · exact h.extends.fits (hr.calls p c w a hold).2 (hr.fits p c w a hold)
    · exact h.extends.fits hpart hfits
  cur p hp := by
    rw [h.procIds]
    rcases hcur p hp with hold | hnew
    · exact hr.cur p hold
    · exact hnew

/-! ## Calls in progress and the process on the hart -/

@[simp] theorem conts_timeEventAlloc (k : Kernel) (time : Int) (type : TimeEventType) :
    (timeEventAlloc k time type).conts = k.conts := by
  unfold timeEventAlloc
  cases type.proc <;> rfl

@[simp] theorem curProc_timeEventAlloc (k : Kernel) (time : Int) (type : TimeEventType) :
    (timeEventAlloc k time type).curProc = k.curProc := by
  unfold timeEventAlloc
  cases type.proc <;> rfl

@[simp] theorem conts_updProc (k : Kernel) (p : ProcId) (f : Proc → Proc) :
    (k.updProc p f).conts = k.conts := rfl

@[simp] theorem curProc_updProc (k : Kernel) (p : ProcId) (f : Proc → Proc) :
    (k.updProc p f).curProc = k.curProc := rfl

@[simp] theorem conts_setState (k : Kernel) (p : ProcId) (s : ProcState) :
    (k.setState p s).conts = k.conts := rfl

@[simp] theorem curProc_setState (k : Kernel) (p : ProcId) (s : ProcState) :
    (k.setState p s).curProc = k.curProc := rfl

@[simp] theorem conts_setReason (k : Kernel) (p : ProcId) (r : WaitingReason) :
    (k.setReason p r).conts = k.conts := rfl

@[simp] theorem curProc_setReason (k : Kernel) (p : ProcId) (r : WaitingReason) :
    (k.setReason p r).curProc = k.curProc := rfl

@[simp] theorem conts_waitFor (k : Kernel) (p : ProcId) (r : WaitingReason) :
    (waitFor k p r).conts = k.conts := rfl

@[simp] theorem curProc_waitFor (k : Kernel) (p : ProcId) (r : WaitingReason) :
    (waitFor k p r).curProc = k.curProc := rfl

@[simp] theorem conts_sleepUntil (k : Kernel) (p : ProcId) (r : WaitingReason) (t : Int)
    (ty : TimeEventType) : (sleepUntil k p r t ty).conts = k.conts := by
  simp [sleepUntil]

@[simp] theorem curProc_sleepUntil (k : Kernel) (p : ProcId) (r : WaitingReason) (t : Int)
    (ty : TimeEventType) : (sleepUntil k p r t ty).curProc = k.curProc := by
  simp [sleepUntil]

@[simp] theorem conts_commWait (k : Kernel) (p : ProcId) (c : CommCall) (armed : Int) :
    (commWait k p c armed).conts = k.conts := by
  unfold commWait
  dsimp only
  split <;> simp [addWaitingProc]

@[simp] theorem curProc_commWait (k : Kernel) (p : ProcId) (c : CommCall) (armed : Int) :
    (commWait k p c armed).curProc = k.curProc := by
  unfold commWait
  dsimp only
  split <;> simp [addWaitingProc]

theorem conts_of_timeEventFree {k k' : Kernel} {te : Option Nat}
    (h : timeEventFree k te = .ok k') : k'.conts = k.conts ∧ k'.curProc = k.curProc := by
  obtain ⟨i, -, -, rfl⟩ := mem_of_timeEventFree h
  exact ⟨rfl, rfl⟩

theorem conts_of_wakeProc {k k' : Kernel} {o : WaitObj} {p : ProcId}
    (h : wakeProc k o p = .ok k') : k'.conts = k.conts ∧ k'.curProc = k.curProc := by
  obtain ⟨k₁, hk₁, rfl⟩ := wakeProc_eq_ok h
  rcases hk₁ with ⟨-, hfree⟩ | ⟨-, rfl⟩
  · have hc := conts_of_timeEventFree hfree
    simp only [delWaitingProc, Kernel.conts_setWaitingProcs, Kernel.curProc_setWaitingProcs] at hc
    exact hc
  · exact ⟨by simp [delWaitingProc, Kernel.setWoken], by simp [delWaitingProc, Kernel.setWoken]⟩

@[simp] theorem conts_expireProc (k : Kernel) (te : TimeEvent) (p : ProcId) :
    (expireProc k te p).conts = k.conts := by
  unfold expireProc
  dsimp only
  split <;> simp [delWaitingProc]

@[simp] theorem curProc_expireProc (k : Kernel) (te : TimeEvent) (p : ProcId) :
    (expireProc k te p).curProc = k.curProc := by
  unfold expireProc
  dsimp only
  split <;> simp [delWaitingProc]

@[simp] theorem curPart_expireProc (k : Kernel) (te : TimeEvent) (p : ProcId) :
    (expireProc k te p).curPart = k.curPart := by
  unfold expireProc
  dsimp only
  split <;> simp [Kernel.updProc, delWaitingProc]

/-- The process of an expired event becomes ready, without a timer. -/
theorem procs_expireProc (k : Kernel) (te : TimeEvent) (p : ProcId) :
    (expireProc k te p).procs =
      Function.update k.procs p { k.procs p with prState := .ready, prAssoTimer := none } := by
  unfold expireProc
  dsimp only
  split <;> simp [Kernel.updProc, delWaitingProc]

theorem conts_of_schedGlobal {k k' : Kernel} (h : schedGlobal k = .ok k') :
    k'.conts = k.conts ∧ k'.curProc = k.curProc := by
  obtain ⟨pt, rfl⟩ | ⟨time, mods, pt, rfl⟩ := schedGlobal_eq_ok h <;> exact ⟨rfl, rfl⟩

theorem procs_of_schedGlobal {k k' : Kernel} (h : schedGlobal k = .ok k') : k'.procs = k.procs := by
  obtain ⟨pt, rfl⟩ | ⟨time, mods, pt, rfl⟩ := schedGlobal_eq_ok h <;> rfl

@[simp] theorem conts_schedProcSt (k : Kernel) : (schedProcSt k).conts = k.conts := by
  rcases schedProcSt_cases k with h | ⟨cur, -, -, h⟩ <;> rw [h]
  rfl

/-- An effect leaves the calls in progress alone, or ends one, or it blocks the process on the hart in
a call of the current partition. -/
theorem Eff.calls {k k' : Kernel} {a : Act} (h : Eff k a k') {p : ProcId} {c : CommCall}
    {w d : Int} (hc : k'.conts p = some (.comm c w d)) :
    k.conts p = some (.comm c w d) ∨
      k.curProc = some p ∧ OwnProc k p ∧ eligible k p = true ∧ c.OfPart k k.curPart ∧ c.Fits k := by
  -- a reset drops the call of its process, and starts none
  have hset : ∀ {q : ProcId}, (k.setCont q none).conts p = some (.comm c w d) →
      k.conts p = some (.comm c w d) := by
    intro q hq
    -- the process on the hart begins to wait, and the others keep their calls
    by_cases hpq : p = q
    · rw [hpq] at hq
      simp [Kernel.setCont] at hq
    · simpa [Kernel.setCont, hpq] using hq
  cases h with
  | mode m => exact Or.inl hc
  | attr f own other => exact Or.inl hc
  | ready own held => exact Or.inl hc
  | doze reason own free kind => exact Or.inl hc
  | sleep time known own free kind =>
      rw [conts_sleepUntil] at hc
      exact Or.inl hc
  | rouse own waits reason freed =>
      exact Or.inl ((conts_of_timeEventFree freed).1 ▸ hc)
  | halt cur own runs => exact Or.inl hc
  | stop own alive freed =>
      split at freed
      · rw [(conts_of_timeEventFree freed).1] at hc
        exact Or.inl hc
      · rw [← Except.ok.inj freed] at hc
        exact Or.inl hc
  | reset own dormant => exact Or.inl (hset hc)
  | @block q c' wakeup armed cur own runs call fits full =>
      by_cases hpq : p = q
      · subst hpq
        have heq : c' = c := by
          simp [Kernel.setCont] at hc
          exact hc.1
        exact Or.inr ⟨cur, own, runs, heq ▸ call, heq ▸ fits⟩
      · simp [Kernel.setCont, hpq] at hc
        exact Or.inl hc
  | wake linked obj done =>
      rw [(conts_of_wakeProc done).1] at hc
      exact Or.inl hc
  | queue cc obj =>
      rw [Kernel.conts_setBody] at hc
      exact Or.inl hc
  | board f obj part list => exact Or.inl hc
  | newProc mem pr own dormant timer frame => exact Or.inl (hset hc)
  | newBuffer mem buf own empty body frame => exact Or.inl hc
  | newBoard mem bb own empty blank frame => exact Or.inl hc
  | newPort qp own => exact Or.inl hc
  | spend mem nb nbb hb hbb frame => exact Or.inl hc
  | @cont q c' cur own free plain =>
      by_cases hpq : p = q
      · rw [hpq] at hc
        simp only [Kernel.setCont, Function.update_self] at hc
        exact absurd hc (plain c w d)
      · simp [Kernel.setCont, hpq] at hc
        exact Or.inl hc
  | resumed cur own runs => exact Or.inl hc
  | dispatch done =>
      rw [(dispatch_eq_ok done).2] at hc
      have hc' : (schedProcSt k).conts p = some (.comm c w d) := hc
      rw [conts_schedProcSt] at hc'
      exact Or.inl hc'
  | expire head proc =>
      have hc' : (expireProc k _ _).conts p = some (.comm c w d) := hc
      rw [conts_expireProc] at hc'
      exact Or.inl hc'
  | partition head proc => exact Or.inl hc
  | global done =>
      rw [(conts_of_schedGlobal done).1] at hc
      exact Or.inl hc

theorem curProc_schedProcSt (k : Kernel) : (schedProcSt k).curProc = k.curProc := by
  rcases schedProcSt_cases k with h | ⟨cur, -, -, h⟩ <;> rw [h]
  rfl

theorem curPart_schedProcSt (k : Kernel) : (schedProcSt k).curPart = k.curPart := by
  rcases schedProcSt_cases k with h | ⟨cur, -, -, h⟩ <;> rw [h]
  rfl

/-- Only a dispatch changes the process on the hart, to a process of the current partition. -/
theorem Eff.curProc {k k' : Kernel} {a : Act} (h : Eff k a k') :
    k'.curProc = k.curProc ∨
      ∃ p ∈ (k.parts k.curPart).paProcList, a = .dispatch p ∧ k'.curProc = some p := by
  cases h with
  | mode m => exact Or.inl rfl
  | attr f own other => exact Or.inl rfl
  | ready own held => exact Or.inl rfl
  | doze reason own free kind => exact Or.inl rfl
  | sleep time known own free kind => exact Or.inl (curProc_sleepUntil _ _ _ _ _)
  | rouse own waits reason freed => exact Or.inl (conts_of_timeEventFree freed).2
  | halt cur own runs => exact Or.inl rfl
  | stop own alive freed =>
      split at freed
      · exact Or.inl (conts_of_timeEventFree freed).2
      · rw [← Except.ok.inj freed]
        exact Or.inl rfl
  | reset own dormant => exact Or.inl rfl
  | block c wakeup armed cur own runs call fits full => exact Or.inl (curProc_commWait _ _ _ _)
  | wake linked obj done => exact Or.inl (conts_of_wakeProc done).2
  | @queue q cc obj => cases q <;> exact Or.inl rfl
  | board f obj part list => exact Or.inl rfl
  | newProc mem pr own dormant timer frame => exact Or.inl rfl
  | newBuffer mem buf own empty body frame => exact Or.inl rfl
  | newBoard mem bb own empty blank frame => exact Or.inl rfl
  | newPort qp own => exact Or.inl rfl
  | spend mem nb nbb hb hbb frame => exact Or.inl rfl
  | cont c cur own free plain => exact Or.inl rfl
  | resumed cur own runs => exact Or.inl rfl
  | @dispatch p _ done =>
      -- the elected process is on the list of the current partition
      obtain ⟨hp, rfl⟩ := dispatch_eq_ok done
      refine Or.inr ⟨p, ?_, rfl, rfl⟩
      rw [← (Same.schedProcSt k).procLists, ← curPart_schedProcSt]
      exact hp.1
  | expire head proc => exact Or.inl (curProc_expireProc _ _ _)
  | partition head proc => exact Or.inl rfl
  | global done => exact Or.inl (conts_of_schedGlobal done).2

/-- A new identifier is none of those in use. -/
private theorem ne_of_lt_fresh {l : List Nat} {n x : Nat} (h : ∀ y ∈ l, y < n) (hx : x ∈ l) :
    x ≠ n := (h x hx).ne

private theorem lt_of_append {l : List Nat} {n : Nat} (h : ∀ y ∈ l, y < n) :
    ∀ y ∈ l ++ [n], y < n + 1 := by
  intro y hy
  rcases List.mem_append.mp hy with hold | hnew
  · exact (h y hold).trans (Nat.lt_succ_self n)
  · rw [List.mem_singleton.mp hnew]
    exact Nat.lt_succ_self n

/-- The creations extend the registry. -/
theorem Extends.create {k k' : Kernel} {a : Act} (hr : Registered k) (h : Eff k a k')
    (hnew : ¬ (a ≠ .newProc ∧ a ≠ .newBuffer ∧ a ≠ .newBoard ∧ a ≠ .newPort ∧ a ≠ .spend)) :
    Extends k k' := by
  cases h with
  | newProc mem pr own dormant timer frame =>
      refine ⟨fun p hp => ⟨List.mem_append_left _ hp, ?_⟩, fun b hb => ⟨hb, rfl⟩,
        fun b hb => ⟨hb, rfl⟩, fun port hp => ⟨hp, rfl⟩, fun _ _ => rfl, fun _ => rfl⟩
      simp [procReset, Kernel.setWoken, Kernel.setCont, registerProc,
        ne_of_lt_fresh hr.procs_lt hp]
  | newBuffer mem buf own empty body frame =>
      refine ⟨fun p hp => ⟨hp, rfl⟩, fun b hb => ⟨List.mem_append_left _ hb, ?_⟩,
        fun b hb => ⟨hb, rfl⟩, fun port hp => ⟨hp, rfl⟩, fun b hb => ?_, fun _ => rfl⟩
      · simp [registerBuffer, ne_of_lt_fresh hr.bufs_lt hb]
      · simp [registerBuffer, ne_of_lt_fresh hr.bufs_lt hb]
  | newBoard mem bb own empty blank frame =>
      refine ⟨fun p hp => ⟨hp, rfl⟩, fun b hb => ⟨hb, rfl⟩,
        fun b hb => ⟨List.mem_append_left _ hb, ?_⟩, fun port hp => ⟨hp, rfl⟩, fun _ _ => rfl,
        fun _ => rfl⟩
      simp [registerBlackboard, ne_of_lt_fresh hr.bbs_lt hb]
  | newPort qp own =>
      refine ⟨fun p hp => ⟨hp, rfl⟩, fun b hb => ⟨hb, rfl⟩, fun b hb => ⟨hb, rfl⟩,
        fun port hp => ⟨List.mem_append_left _ hp, ?_⟩, fun _ _ => rfl, fun _ => rfl⟩
      simp [registerPort, ne_of_lt_fresh hr.ports_lt hp]
  | spend mem nb nbb hb hbb frame =>
      exact ⟨fun p hp => ⟨hp, rfl⟩, fun b hb => ⟨hb, rfl⟩, fun b hb => ⟨hb, rfl⟩,
        fun port hp => ⟨hp, rfl⟩, fun _ _ => rfl, fun _ => rfl⟩
  | _ => simp at hnew

/-- After a creation that made no process, the lists of processes are as before. -/
private theorem Registered.of_extends {k k' : Kernel} (hr : Registered k) (hext : Extends k k')
    (hpr : k'.procIds = k.procIds) (hnx : k'.nxtProcId = k.nxtProcId) (hprocs : k'.procs = k.procs)
    (hlist : ∀ pt, (k'.parts pt).paProcList = (k.parts pt).paProcList)
    (hb : ∀ b ∈ k'.bufIds, b < k'.nxtBufId) (hbb : ∀ b ∈ k'.bbIds, b < k'.nxtBbId)
    (hport : ∀ port ∈ k'.portIds, port < k'.nxtPortId) (hconts : k'.conts = k.conts)
    (hcur : k'.curProc = k.curProc) : Registered k' where
  procs_lt p hp := by
    rw [hnx]
    exact hr.procs_lt p (hpr ▸ hp)
  bufs_lt := hb
  bbs_lt := hbb
  ports_lt := hport
  procList pt p hp := by
    rw [hlist] at hp
    rw [hpr, hprocs]
    exact hr.procList pt p hp
  calls p c w a hc := by
    rw [hconts] at hc
    obtain ⟨hmem, hcall⟩ := hr.calls p c w a hc
    rw [hpr, hprocs]
    exact ⟨hmem, hext.ofPart hcall⟩
  fits p c w a hc := by
    rw [hconts] at hc
    exact hext.fits (hr.calls p c w a hc).2 (hr.fits p c w a hc)
  cur p hp := by
    rw [hcur] at hp
    rw [hpr]
    exact hr.cur p hp

/-- A new process has no call in progress. -/
private theorem conts_newProc {k : Kernel} {mem : Mem} {pr : Proc} {q : ProcId} {c : CommCall}
    {w d : Int} (hc : (procReset (registerProc k mem k.curPart pr) k.nxtProcId).conts q
      = some (.comm c w d)) : k.conts q = some (.comm c w d) := by
  have hne : q ≠ k.nxtProcId := by
    rintro rfl
    simp [procReset, Kernel.setWoken, Kernel.setCont] at hc
  simpa [procReset, Kernel.setWoken, Kernel.setCont, registerProc, hne] using hc

/-- The creation of a process keeps the registry invariant. -/
private theorem Registered.newProc {k : Kernel} (hr : Registered k) {mem : Mem} {pr : Proc}
    (own : pr.prPartId = k.curPart)
    (hext : Extends k (procReset (registerProc k mem k.curPart pr) k.nxtProcId)) :
    Registered (procReset (registerProc k mem k.curPart pr) k.nxtProcId) where
  procs_lt := lt_of_append hr.procs_lt
  bufs_lt := hr.bufs_lt
  bbs_lt := hr.bbs_lt
  ports_lt := hr.ports_lt
  procList pt q hq := by
    have hold : ∀ q ∈ (k.parts pt).paProcList,
        q ∈ (procReset (registerProc k mem k.curPart pr) k.nxtProcId).procIds ∧
        ((procReset (registerProc k mem k.curPart pr) k.nxtProcId).procs q).prPartId = pt := by
      intro q hq
      obtain ⟨hmem, hpt⟩ := hr.procList pt q hq
      exact ⟨(hext.procs q hmem).1, (hext.procs q hmem).2.trans hpt⟩
    by_cases hpt : pt = k.curPart
    · subst hpt
      simp only [procReset, Kernel.setWoken, Kernel.setCont, registerProc, Function.update_self]
        at hq
      -- the new process is the last one of the list of its partition
      rcases List.mem_append.mp hq with hmem | hnew
      · exact hold q hmem
      · rw [List.mem_singleton.mp hnew]
        refine ⟨List.mem_append_right _ (List.mem_singleton_self _), ?_⟩
        simp [procReset, Kernel.setWoken, Kernel.setCont, registerProc, own]
    · simp only [procReset, Kernel.setWoken, Kernel.setCont, registerProc,
        Function.update_of_ne hpt] at hq
      exact hold q hq
  calls q c w d hc := by
    have hc' := conts_newProc hc
    obtain ⟨hmem, hcall⟩ := hr.calls q c w d hc'
    refine ⟨(hext.procs q hmem).1, ?_⟩
    rw [(hext.procs q hmem).2]
    exact hext.ofPart hcall
  fits q c w d hc := by
    have hc' := conts_newProc hc
    exact hext.fits (hr.calls q c w d hc').2 (hr.fits q c w d hc')
  cur q hq := (hext.procs q (hr.cur q hq)).1

/-- **Every effect keeps the registry invariant**, and nothing registered disappears. -/
theorem Registered.eff {k k' : Kernel} {a : Act} (hr : Registered k) (h : Eff k a k') :
    Registered k' ∧ Extends k k' := by
  by_cases hnew : a ≠ .newProc ∧ a ≠ .newBuffer ∧ a ≠ .newBoard ∧ a ≠ .newPort ∧ a ≠ .spend
  · have hsame := h.same hnew
    refine ⟨hr.of_same hsame ?_ ?_, hsame.extends⟩
    · intro p c w d hc
      rcases h.calls hc with hold | ⟨hcur, hown, -, hcall⟩
      · exact Or.inl hold
      · refine Or.inr ⟨hr.cur p hcur, ?_⟩
        rw [show (k.procs p).prPartId = k.curPart from hown]
        exact hcall
    · intro p hp
      -- who comes to the hart is on the list of a partition, and so it is registered
      rcases h.curProc with heq | ⟨q, hq, -, hcur⟩
      · exact Or.inl (heq ▸ hp)
      · rw [hcur, Option.some.injEq] at hp
        exact Or.inr (hp ▸ (hr.procList _ q hq).1)
  · have hext := Extends.create hr h hnew
    refine ⟨?_, hext⟩
    cases h with
    | newProc mem pr own dormant timer frame => exact hr.newProc own hext
    | newBuffer mem buf own empty body frame =>
        refine hr.of_extends hext rfl rfl rfl ?_ (lt_of_append hr.bufs_lt) hr.bbs_lt hr.ports_lt
          rfl rfl
        intro pt
        by_cases hpt : pt = k.curPart <;> simp [registerBuffer, hpt]
    | newBoard mem bb own empty blank frame =>
        refine hr.of_extends hext rfl rfl rfl ?_ hr.bufs_lt (lt_of_append hr.bbs_lt) hr.ports_lt
          rfl rfl
        intro pt
        by_cases hpt : pt = k.curPart <;> simp [registerBlackboard, hpt]
    | newPort qp own =>
        exact hr.of_extends hext rfl rfl rfl (fun _ => rfl) hr.bufs_lt hr.bbs_lt
          (lt_of_append hr.ports_lt) rfl rfl
    | spend mem nb nbb hb hbb frame =>
        exact hr.of_extends hext rfl rfl rfl (fun _ => rfl)
          (fun b h => (hr.bufs_lt b h).trans_le hb) (fun b h => (hr.bbs_lt b h).trans_le hbb)
          hr.ports_lt rfl rfl
    | _ => simp at hnew

/-- A sequence of effects keeps the registry invariant, and nothing registered disappears. -/
theorem Registered.path {A : Kernel → Act → Prop} {k k' : Kernel} (hr : Registered k)
    (h : Path A k k') : Registered k' ∧ Extends k k' := by
  induction h with
  | refl k => exact ⟨hr, .refl k⟩
  | cons he _ _ ih =>
      have hstep := hr.eff he
      exact ⟨(ih hstep.1).1, hstep.2.trans (ih hstep.1).2⟩

end Jrinx
