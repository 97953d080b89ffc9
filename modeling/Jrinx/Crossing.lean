import Jrinx.WaitAgreement

/-! # Services stay inside their partition

What a service call can change outside the partition of its caller. The wait lists of buffers and
blackboards hold processes of the owner only, which follows from the agreement of the wait lists with
the process states, so that a wake-up stays inside as long as no linked process is stopped.

* **`ForeignSame`** — nothing of another partition changed, but for one channel and what the
  processes blocked on it lose when they are woken up.
* **`Eff.foreignSame`** — the effects of services, one by one.
* **`services_stay_inside`** — the service calls of all runs. -/

namespace Jrinx

/-! ## What belongs to other partitions -/

/-- The process is blocked on the channel `ex`. -/
def BlockedOn (k : Kernel) (ex : Option ChanId) (p : ProcId) : Prop :=
  ∃ ch, ex = some ch ∧ Blocked k p (.channel ch)

/-- **Nothing of the partitions other than `pt` changed**: not their records, processes, buffers,
blackboards, ports, wait-list links and timers, and no channel either. Excepted are the channel `ex`
and, of the processes blocked on it, the state, the timer and the link. -/
structure ForeignSame (pt : PartId) (ex : Option ChanId) (k k' : Kernel) : Prop where
  registry : Extends k k'
  parts : ∀ q, q ≠ pt → k'.parts q = k.parts q
  mem : ∀ q, q ≠ pt → k'.mem.parts q = k.mem.parts q
  procs : ∀ p ∈ k.procIds, (k.procs p).prPartId ≠ pt → k'.procs p = k.procs p ∨
    BlockedOn k ex p ∧ k'.procs p = { k.procs p with
      prState := (k'.procs p).prState, prAssoTimer := (k'.procs p).prAssoTimer }
  conts : ∀ p ∈ k.procIds, (k.procs p).prPartId ≠ pt → k'.conts p = k.conts p
  bufs : ∀ b ∈ k.bufIds, (k.bufs b).bufPartId ≠ pt → k'.bufs b = k.bufs b
  bbs : ∀ b ∈ k.bbIds, (k.bbs b).bbPartId ≠ pt → k'.bbs b = k.bbs b
  chans : ∀ ch, ex ≠ some ch → k'.chans ch = k.chans ch
  links : ∀ p ∈ k.procIds, (k.procs p).prPartId ≠ pt → ¬ BlockedOn k ex p →
    ∀ o, p ∈ k'.waitingProcs o ↔ p ∈ k.waitingProcs o
  events : ∀ p ∈ k.procIds, (k.procs p).prPartId ≠ pt → ¬ BlockedOn k ex p →
    ∀ te, te.teType.proc = some p → (te ∈ k'.teq ↔ te ∈ k.teq)

namespace ForeignSame

variable {pt : PartId} {ex : Option ChanId} {k k₁ k' : Kernel}

theorem refl (k : Kernel) : ForeignSame pt ex k k where
  registry := .refl k
  parts _ _ := rfl
  mem _ _ := rfl
  procs _ _ _ := Or.inl rfl
  conts _ _ _ := rfl
  bufs _ _ _ := rfl
  bbs _ _ _ := rfl
  chans _ _ := rfl
  links _ _ _ _ _ := Iff.rfl
  events _ _ _ _ _ _ := Iff.rfl

/-- A foreign process blocked on the channel afterwards was so before. -/
theorem blockedOn (h : ForeignSame pt ex k k₁) (hr : Registered k) {p : ProcId}
    (hp : p ∈ k.procIds) (hpt : (k.procs p).prPartId ≠ pt) (hb : BlockedOn k₁ ex p) :
    BlockedOn k ex p := by
  rcases h.procs p hp hpt with hsame | ⟨hb', -⟩
  · obtain ⟨ch, hex, hb⟩ := hb
    obtain ⟨c, w, a, hc, ho⟩ := hb.call
    rw [h.conts p hp hpt] at hc
    refine ⟨ch, hex, hsame ▸ hb.waits, hsame ▸ hb.reason, c, w, a, hc, ?_⟩
    rw [← h.registry.obj_eq (hr.calls p c w a hc).2]
    exact ho
  · exact hb'

theorem trans (h : ForeignSame pt ex k k₁) (h' : ForeignSame pt ex k₁ k') (hr : Registered k) :
    ForeignSame pt ex k k' := by
  -- a foreign process is foreign in the state in between, too
  have hforeign : ∀ p ∈ k.procIds, (k.procs p).prPartId ≠ pt →
      p ∈ k₁.procIds ∧ (k₁.procs p).prPartId ≠ pt := by
    intro p hp hpt
    obtain ⟨hp₁, hpt₁⟩ := h.registry.procs p hp
    exact ⟨hp₁, by rw [hpt₁]; exact hpt⟩
  constructor
  · exact h.registry.trans h'.registry
  · exact fun q hq => (h'.parts q hq).trans (h.parts q hq)
  · exact fun q hq => (h'.mem q hq).trans (h.mem q hq)
  · intro p hp hpt
    obtain ⟨hp₁, hpt₁⟩ := hforeign p hp hpt
    rcases h'.procs p hp₁ hpt₁ with hsame' | ⟨hb', hchg'⟩
    · rw [hsame']
      exact h.procs p hp hpt
    · refine Or.inr ⟨h.blockedOn hr hp hpt hb', ?_⟩
      rcases h.procs p hp hpt with hsame | ⟨-, hchg⟩
      · rw [← hsame]
        exact hchg'
      · rw [hchg', hchg]
  · intro p hp hpt
    obtain ⟨hp₁, hpt₁⟩ := hforeign p hp hpt
    exact (h'.conts p hp₁ hpt₁).trans (h.conts p hp hpt)
  · intro b hb hpt
    obtain ⟨hb₁, hpt₁⟩ := h.registry.bufs b hb
    exact (h'.bufs b hb₁ (by rw [hpt₁]; exact hpt)).trans (h.bufs b hb hpt)
  · intro b hb hpt
    obtain ⟨hb₁, hpt₁⟩ := h.registry.bbs b hb
    exact (h'.bbs b hb₁ (by rw [hpt₁]; exact hpt)).trans (h.bbs b hb hpt)
  · exact fun ch hch => (h'.chans ch hch).trans (h.chans ch hch)
  · intro p hp hpt hn o
    obtain ⟨hp₁, hpt₁⟩ := hforeign p hp hpt
    exact (h'.links p hp₁ hpt₁ (fun hb => hn (h.blockedOn hr hp hpt hb)) o).trans
      (h.links p hp hpt hn o)
  · intro p hp hpt hn te hte
    obtain ⟨hp₁, hpt₁⟩ := hforeign p hp hpt
    exact (h'.events p hp₁ hpt₁ (fun hb => hn (h.blockedOn hr hp hpt hb)) te hte).trans
      (h.events p hp hpt hn te hte)

end ForeignSame

/-! ## The stores -/

/-- The records of partitions and objects are the same, the object `o` excepted. -/
structure SameStores (o : Option WaitObj) (k k' : Kernel) : Prop where
  parts : k'.parts = k.parts
  mem : k'.mem = k.mem
  bufs : ∀ b, o ≠ some (.buffer b) → k'.bufs b = k.bufs b
  bbs : ∀ b, o ≠ some (.blackboard b) → k'.bbs b = k.bbs b
  chans : ∀ ch, o ≠ some (.channel ch) → k'.chans ch = k.chans ch

namespace SameStores

variable {o : Option WaitObj} {k k₁ k' : Kernel}

theorem of_eq (hparts : k'.parts = k.parts) (hmem : k'.mem = k.mem) (hbufs : k'.bufs = k.bufs)
    (hbbs : k'.bbs = k.bbs) (hchans : k'.chans = k.chans) : SameStores o k k' :=
  ⟨hparts, hmem, fun _ _ => by rw [hbufs], fun _ _ => by rw [hbbs], fun _ _ => by rw [hchans]⟩

theorem trans (h : SameStores o k k₁) (h' : SameStores o k₁ k') : SameStores o k k' where
  parts := h'.parts.trans h.parts
  mem := h'.mem.trans h.mem
  bufs b hb := (h'.bufs b hb).trans (h.bufs b hb)
  bbs b hb := (h'.bbs b hb).trans (h.bbs b hb)
  chans ch hch := (h'.chans ch hch).trans (h.chans ch hch)

theorem updProc (p : ProcId) (f : Proc → Proc) : SameStores o k (k.updProc p f) :=
  of_eq rfl rfl rfl rfl rfl

theorem setWaitingProcs (o : WaitObj) (l : List ProcId) :
    SameStores (some o) k (k.setWaitingProcs o l) := by
  cases o <;> constructor <;> intros <;> simp_all [Kernel.setWaitingProcs, Function.update_apply] <;>
    intros <;> simp_all

theorem timeEventAlloc (time : Int) (type : TimeEventType) :
    SameStores o k (Jrinx.timeEventAlloc k time type) := by
  unfold Jrinx.timeEventAlloc
  cases type.proc <;> exact of_eq rfl rfl rfl rfl rfl

theorem timeEventFree {te : Option Nat} (h : Jrinx.timeEventFree k te = .ok k₁) :
    SameStores o k k₁ := by
  obtain ⟨i, -, -, rfl⟩ := mem_of_timeEventFree h
  exact of_eq rfl rfl rfl rfl rfl

theorem wakeProc {o : WaitObj} {p : ProcId} (h : Jrinx.wakeProc k o p = .ok k₁) :
    SameStores (some o) k k₁ := by
  obtain ⟨k₂, hk₂, rfl⟩ := wakeProc_eq_ok h
  have hdel : SameStores (some o) k (delWaitingProc k o p) := setWaitingProcs o _
  have hend : ∀ k₂ : Kernel, SameStores (some o) k₂ ((k₂.setState p .ready).setWoken p true) :=
    fun _ => of_eq rfl rfl rfl rfl rfl
  rcases hk₂ with ⟨-, hfree⟩ | ⟨-, rfl⟩
  · exact hdel.trans ((timeEventFree hfree).trans (hend _))
  · exact hdel.trans (hend _)

theorem block (p : ProcId) (c : CommCall) (w armed : Int) :
    SameStores (some (c.obj k)) k ((commWait k p c armed).setCont p (some (.comm c w armed))) := by
  have hadd : SameStores (some (c.obj k)) k (addWaitingProc (k.setState p .waiting) (c.obj k) p) :=
    (updProc p _).trans (setWaitingProcs (c.obj k) _)
  have hcont : ∀ k₁ : Kernel, SameStores (some (c.obj k)) k₁ (k₁.setCont p (some (.comm c w armed))) :=
    fun _ => of_eq rfl rfl rfl rfl rfl
  unfold commWait
  dsimp only
  split
  · exact hadd.trans ((updProc p _).trans ((timeEventAlloc armed (c.teType p)).trans (hcont _)))
  · exact hadd.trans ((updProc p _).trans (hcont _))

end SameStores

/-! ## The effects of services -/

/-- **An effect on one process**, which is one of the partition or blocked on the channel. -/
theorem ForeignSame.of_local {k k' : Kernel} {pt : PartId} {ex : Option ChanId} {o : Option WaitObj}
    (p : ProcId) (hp : (k.procs p).prPartId = pt ∨ BlockedOn k ex p ∧ k'.procs p = { k.procs p with
      prState := (k'.procs p).prState, prAssoTimer := (k'.procs p).prAssoTimer } ∧
      k'.conts p = k.conts p)
    (hext : Extends k k') (hstores : SameStores o k k')
    (ho : ∀ o', o = some o' → match o' with
      | .buffer b => (k.bufs b).bufPartId = pt
      | .blackboard b => (k.bbs b).bbPartId = pt
      | .channel ch => ex = some ch)
    (hprocs : ∀ q, q ≠ p → k'.procs q = k.procs q) (hconts : ∀ q, q ≠ p → k'.conts q = k.conts q)
    (hlists : ∀ q, q ≠ p → ∀ o, q ∈ k'.waitingProcs o ↔ q ∈ k.waitingProcs o)
    (hevents : ∀ te, te.teType.proc ≠ some p → (te ∈ k'.teq ↔ te ∈ k.teq)) :
    ForeignSame pt ex k k' := by
  -- a process outside the partition that is not blocked on the channel is another one
  have hother : ∀ q, (k.procs q).prPartId ≠ pt → ¬ BlockedOn k ex q → q ≠ p := by
    rintro q hq hn rfl
    exact hp.elim hq fun hb => hn hb.1
  constructor
  · exact hext
  · exact fun q _ => by rw [hstores.parts]
  · exact fun q _ => by rw [hstores.mem]
  · intro q _ hq
    by_cases hqp : q = p
    · subst hqp
      exact Or.inr ⟨(hp.resolve_left hq).1, (hp.resolve_left hq).2.1⟩
    · exact Or.inl (hprocs q hqp)
  · intro q _ hq
    by_cases hqp : q = p
    · subst hqp
      exact (hp.resolve_left hq).2.2
    · exact hconts q hqp
  · exact fun b _ hb => hstores.bufs b fun heq => hb (ho _ heq)
  · exact fun b _ hb => hstores.bbs b fun heq => hb (ho _ heq)
  · exact fun ch hch => hstores.chans ch fun heq => hch (ho _ heq)
  · exact fun q _ hq hn o => hlists q (hother q hq hn) o
  · intro q _ hq hn te hte
    refine hevents te ?_
    rw [hte]
    exact fun heq => hother q hq hn (Option.some.inj heq)

/-- A released process of the partition, or one blocked on the channel. -/
theorem ForeignSame.of_released {k k' : Kernel} {pt : PartId} {ex : Option ChanId}
    {o : Option WaitObj} {p : ProcId} (hrel : Released k k' p) (hext : Extends k k')
    (hstores : SameStores o k k')
    (ho : ∀ o', o = some o' → match o' with
      | .buffer b => (k.bufs b).bufPartId = pt
      | .blackboard b => (k.bbs b).bbPartId = pt
      | .channel ch => ex = some ch)
    (hp : (k.procs p).prPartId = pt ∨ BlockedOn k ex p ∧ k'.procs p = { k.procs p with
      prState := (k'.procs p).prState, prAssoTimer := (k'.procs p).prAssoTimer }) :
    ForeignSame pt ex k k' := by
  refine .of_local p (hp.imp_right fun hb => ⟨hb.1, hb.2, by rw [hrel.conts]⟩) hext hstores ho
    hrel.other (fun q _ => by rw [hrel.conts]) (fun q hq o' => ?_) fun te hte => ?_
  · rw [hrel.lists, List.mem_erase_of_ne hq]
  · rw [hrel.events]
    exact and_iff_left hte

/-- **The wait list of a buffer or a blackboard holds processes of its owner only.** -/
theorem WaitInv.own_of_linked {k : Kernel} (h : WaitInv k) (hr : Registered k) {p : ProcId}
    {o : WaitObj} {pt : PartId} (hl : p ∈ k.waitingProcs o) (ho : ObjOf k pt o)
    (hn : ∀ ch, o ≠ .channel ch) : (k.procs p).prPartId = pt := by
  obtain ⟨c, w, a, hc, rfl⟩ := (((h.procs p).linked o).mp hl).call
  have hpart := (hr.calls p c w a hc).2
  cases c with
  | sendBuffer b => exact hpart.2.symm.trans ho.2
  | receiveBuffer b => exact hpart.2.symm.trans ho.2
  | sendQueuingMessage port => exact absurd rfl (hn _)
  | receiveQueuingMessage port => exact absurd rfl (hn _)
  | readBlackboard b => exact hpart.2.symm.trans ho.2

/-- Of the woken process only the state and the timer change. -/
theorem WaitInv.proc_wakeProc {k k' : Kernel} (h : WaitInv k) {p : ProcId} {o : WaitObj}
    (hw : wakeProc k o p = .ok k') : k'.procs p = { k.procs p with
      prState := (k'.procs p).prState, prAssoTimer := (k'.procs p).prAssoTimer } := by
  obtain ⟨k₁, hk₁, rfl⟩ := wakeProc_eq_ok hw
  rcases hk₁ with ⟨-, hfree⟩ | ⟨-, rfl⟩
  · obtain ⟨i, -, hp, rfl⟩ := h.freed (delWaitingProc k o p) (by simp [delWaitingProc]) hfree
    simp [Kernel.setWoken, Kernel.setState, Kernel.updProc, procs_freeEvent _ hp, delWaitingProc]
  · simp [Kernel.setWoken, Kernel.setState, Kernel.updProc, delWaitingProc]

/-- An effect on one process of the partition that touches no object. -/
theorem ForeignSame.of_own {k k' : Kernel} {ex : Option ChanId} (p : ProcId) (hp : OwnProc k p)
    (hext : Extends k k') (hstores : SameStores none k k')
    (hprocs : ∀ q, q ≠ p → k'.procs q = k.procs q) (hconts : ∀ q, q ≠ p → k'.conts q = k.conts q)
    (hlists : ∀ o, k'.waitingProcs o = k.waitingProcs o)
    (hevents : ∀ te, te.teType.proc ≠ some p → (te ∈ k'.teq ↔ te ∈ k.teq)) :
    ForeignSame k.curPart ex k k' :=
  .of_local p (Or.inl hp) hext hstores (fun _ h => absurd h (by simp)) hprocs hconts
    (fun q _ o => by rw [hlists]) hevents

/-- **The effects of services stay inside the current partition**, but for the channel they work on
and the processes blocked on it. -/
theorem Eff.foreignSame {k k' : Kernel} {a : Act} (hi : WaitInv k) (hr : Registered k)
    (hstop : a.Unlinked k) {ex : Option ChanId} (hex : ∀ ch, a.chan = some ch → ex = some ch)
    (hhart : a.ofHart = false) (he : Eff k a k') : ForeignSame k.curPart ex k k' := by
  have hext := (hr.eff he).2
  -- a process whose state changes and which is not linked is released
  have hrelease : ∀ p, OwnProc k p → Released k k' p → SameStores none k k' →
      ForeignSame k.curPart ex k k' := fun p hp hrel hstores =>
    .of_released hrel hext hstores (fun _ h => absurd h (by simp)) (Or.inl hp)
  cases he with
  | mode m =>
      constructor <;> try (intros; first | rfl | exact Iff.rfl | exact Or.inl rfl)
      · exact hext
      · intro q hq
        simp [setMode, Kernel.updPart, hq]
  | @attr p f own other =>
      exact .of_own p own hext (.updProc p f) (fun q hq => by simp [Kernel.updProc, hq])
        (fun _ _ => rfl) (fun o => by simp) fun _ _ => Iff.rfl
  | @ready p own held =>
      refine hrelease p own (.of_unheld (hi.procs p) ((hi.procs p).unheld fun hw => ?_) (by decide))
        (.updProc p _)
      rcases held with hd | hf | ⟨-, hr⟩
      · rw [hd] at hw
        exact absurd hw (by decide)
      · rw [hf] at hw
        exact absurd hw (by decide)
      · exact hr
  | @doze p reason own free kind =>
      exact .of_own p own hext (.of_eq rfl rfl rfl rfl rfl)
        (fun q hq => by simp [waitFor, Kernel.setState, Kernel.setReason, Kernel.updProc, hq])
        (fun _ _ => rfl) (fun o => by simp [waitFor]) fun _ _ => Iff.rfl
  | @sleep p reason type time known own free kind =>
      have hform : sleepUntil k p reason time type = timeEventAlloc (waitFor k p reason) time type := rfl
      rw [hform, timeEventAlloc_of_proc _ _ kind.proc]
      refine .of_own p own ?_ (.of_eq rfl rfl rfl rfl rfl) (fun q hq => ?_) (fun _ _ => rfl)
        (fun o => ?_) fun te hte => ?_
      · rw [← timeEventAlloc_of_proc _ _ kind.proc]
        exact hext
      · simp [waitFor, Kernel.setState, Kernel.setReason, Kernel.updProc, hq]
      · cases o <;> rfl
      · refine mem_insertEvent.trans (or_iff_right ?_)
        rintro rfl
        exact hte kind.proc
  | @rouse p k₁ own waits reason freed =>
      obtain ⟨i, hin, hp, rfl⟩ := hi.freed _ rfl freed
      refine hrelease p own (.of_freed _ hi hin hp (by decide) (fun _ _ => rfl) rfl rfl rfl rfl
        fun o => (List.erase_of_not_mem fun hl => ?_).symm) (.of_eq rfl rfl rfl rfl rfl)
      have hblocked := (((hi.procs p).linked o).mp hl).isBlocked.2
      rw [reason] at hblocked
      exact absurd hblocked (by decide)
  | @halt p cur own runs =>
      exact hrelease p own (.of_unheld (hi.procs p)
        ((hi.procs p).unheld_of_not_waiting (not_waiting_of_free (Or.inl runs))) (by decide))
        (.updProc p _)
  | @stop p _ own alive freed =>
      refine hrelease p own (hi.released_stop (hstop p rfl) freed) ?_
      split at freed
      · exact (SameStores.updProc p _).trans (.timeEventFree freed)
      · rw [← Except.ok.inj freed]
        exact .updProc p _
  | @reset p own dormant =>
      refine .of_own p own hext (.of_eq rfl rfl rfl rfl rfl) (fun _ _ => rfl) (fun q hq => ?_)
        (fun o => by cases o <;> rfl) fun _ _ => Iff.rfl
      simp [procReset, Kernel.setWoken, Kernel.setCont, hq]
  | @block p c wakeup armed cur own runs call fits full =>
      obtain ⟨hother, -, -, hlists, -, -, htimed⟩ := block_fields k p c wakeup armed
      refine .of_local p (Or.inl own) hext (.block p c wakeup armed) ?_
        (fun q hq => (hother q hq).1) (fun q hq => (hother q hq).2) ?_ ?_
      · rintro o ho
        rw [Option.some.injEq] at ho
        have hof := call.objOf
        rw [ho] at hof
        cases o with
        | buffer b => exact hof.2
        | blackboard b => exact hof.2
        | channel ch => exact hex ch (by rw [ho]; rfl)
      · intro q hq o
        rw [hlists]
        split <;> simp [hq]
      · intro te hte
        split at htimed
        · rw [htimed.2.2.2, mem_insertEvent]
          refine or_iff_right ?_
          rintro rfl
          exact hte (proc_teType p c)
        · rw [htimed.2.2.2]
  | @wake p o k' linked obj done =>
      have hrel := hi.released_wakeProc linked done
      have hproc := hi.proc_wakeProc done
      cases o with
      | buffer b =>
          exact .of_released hrel hext (.wakeProc done) (fun o' ho' => by cases ho'; exact obj.2)
            (Or.inl (hi.own_of_linked hr linked obj (by simp)))
      | blackboard b =>
          exact .of_released hrel hext (.wakeProc done) (fun o' ho' => by cases ho'; exact obj.2)
            (Or.inl (hi.own_of_linked hr linked obj (by simp)))
      | channel ch =>
          have hch := hex ch rfl
          exact .of_released hrel hext (.wakeProc done) (fun o' ho' => by cases ho'; exact hch)
            (Or.inr ⟨⟨ch, hch, ((hi.procs p).linked _).mp linked⟩, hproc⟩)
  | @queue q cc obj =>
      constructor <;> try (intros; first | exact Or.inl (by simp) | simp)
      · exact hext
      · cases q <;> intros <;> rfl
      · cases q <;> intros <;> rfl
      · cases q with
        | buffer b =>
            intro b' _ hb'
            have hne : b' ≠ b := by
              rintro rfl
              exact hb' obj.2
            simp [Kernel.setBody, hne]
        | channel ch => exact fun _ _ _ => rfl
      · cases q <;> intros <;> rfl
      · cases q with
        | buffer b => exact fun _ _ => rfl
        | channel ch =>
            intro ch' hch'
            have hne : ch' ≠ ch := by
              rintro rfl
              exact hch' (hex ch' rfl)
            simp [Kernel.setBody, hne]
  | @board b f obj part list =>
      have hlists : ∀ o, (k.updBb b f).waitingProcs o = k.waitingProcs o := by
        intro o
        cases o with
        | buffer b' => rfl
        | blackboard b' =>
            by_cases hb : b' = b
            · subst hb
              simp [Kernel.updBb, Kernel.waitingProcs, list]
            · simp [Kernel.updBb, Kernel.waitingProcs, hb]
        | channel c => rfl
      constructor <;> try (intros; first | rfl | exact Iff.rfl | exact Or.inl rfl)
      · exact hext
      · intro b' _ hb'
        have hne : b' ≠ b := by
          rintro rfl
          exact hb' obj.2
        simp [Kernel.updBb, hne]
      · intro p _ _ _ o
        rw [hlists]
  | newProc mem pr own dormant timer frame =>
      have hne : ∀ p ∈ k.procIds, p ≠ k.nxtProcId := fun p hp => (hr.procs_lt p hp).ne
      constructor <;> try (intros; first | rfl | exact Iff.rfl)
      · exact hext
      · intro q hq
        simp [procReset, Kernel.setWoken, Kernel.setCont, registerProc, hq]
      · exact frame
      · intro p hp _
        left
        simp [procReset, Kernel.setWoken, Kernel.setCont, registerProc, hne p hp]
      · intro p hp _
        simp [procReset, Kernel.setWoken, Kernel.setCont, registerProc, hne p hp]
  | newBuffer mem buf own empty body frame =>
      constructor <;> try (intros; first | rfl | exact Iff.rfl | exact Or.inl rfl)
      · exact hext
      · intro q hq
        simp [registerBuffer, hq]
      · exact frame
      · intro b hb _
        simp [registerBuffer, (hr.bufs_lt b hb).ne]
      · intro p _ _ _ o
        rw [waitingProcs_registerBuffer hi hr empty]
  | newBoard mem bb own empty blank frame =>
      constructor <;> try (intros; first | rfl | exact Iff.rfl | exact Or.inl rfl)
      · exact hext
      · intro q hq
        simp [registerBlackboard, hq]
      · exact frame
      · intro b hb _
        simp [registerBlackboard, (hr.bbs_lt b hb).ne]
      · intro p _ _ _ o
        rw [waitingProcs_registerBlackboard hi hr empty]
  | newPort qp own =>
      constructor <;> try (intros; first | rfl | exact Iff.rfl | exact Or.inl rfl)
      · exact hext
  | spend mem nb nbb hb hbb frame =>
      constructor <;> try (intros; first | rfl | exact Iff.rfl | exact Or.inl rfl)
      · exact hext
      · exact frame
  | @cont p c cur own free plain =>
      exact .of_own p own hext (.of_eq rfl rfl rfl rfl rfl) (fun _ _ => rfl)
        (fun q hq => by simp [Kernel.setCont, hq]) (fun o => by simp) fun _ _ => Iff.rfl
  | @resumed p cur own runs =>
      exact .of_own p own hext (.of_eq rfl rfl rfl rfl rfl) (fun _ _ => rfl) (fun _ _ => rfl)
        (fun o => by simp) fun _ _ => Iff.rfl
  | dispatch done => exact absurd hhart (by simp [Act.ofHart])
  | expire head proc => exact absurd hhart (by simp [Act.ofHart])
  | partition head proc => exact absurd hhart (by simp [Act.ofHart])
  | global done => exact absurd hhart (by simp [Act.ofHart])

/-! ## Service calls and elections -/

theorem curPart_block (k : Kernel) (p : ProcId) (c : CommCall) (w armed : Int) :
    ((commWait k p c armed).setCont p (some (.comm c w armed))).curPart = k.curPart := by
  have hadd : (addWaitingProc (k.setState p .waiting) (c.obj k) p).curPart = k.curPart := by
    simp [addWaitingProc, Kernel.setState, Kernel.updProc]
  unfold commWait
  dsimp only [Kernel.setCont]
  split
  · rw [curPart_timeEventAlloc]
    exact hadd
  · exact hadd

/-- The effects of services leave the current partition and the process on the hart as they are. -/
theorem Eff.hart_eq {k k' : Kernel} {a : Act} (he : Eff k a k') (hhart : a.ofHart = false) :
    k'.curPart = k.curPart ∧ k'.curProc = k.curProc := by
  constructor
  · cases he with
    | sleep time known own free kind => exact curPart_timeEventAlloc time _
    | rouse own waits reason freed =>
        obtain ⟨i, -, -, rfl⟩ := mem_of_timeEventFree freed
        rfl
    | stop own alive freed =>
        split at freed
        · obtain ⟨i, -, -, rfl⟩ := mem_of_timeEventFree freed
          rfl
        · rw [← Except.ok.inj freed]
          rfl
    | block c wakeup armed cur own runs call fits full => exact curPart_block k _ c wakeup armed
    | wake linked obj done => exact curPart_of_wakeProc done
    | queue cc obj => exact curPart_setBody k _ cc
    | dispatch done => exact absurd hhart (by simp [Act.ofHart])
    | expire head proc => exact absurd hhart (by simp [Act.ofHart])
    | partition head proc => exact absurd hhart (by simp [Act.ofHart])
    | global done => exact absurd hhart (by simp [Act.ofHart])
    | _ => rfl
  · rcases he.curProc with heq | ⟨p, -, rfl, -⟩
    · exact heq
    · exact absurd hhart (by simp [Act.ofHart])

/-- What a service call may do outside the partition of its caller: nothing, but for the channel it
works on; and the election after it picks a process of that partition. -/
structure StaysInside (k : Kernel) (e : Event) : Prop where
  segment : ∀ p k', live k = some p → e.ofService = true → step k e = .ok k' →
    ForeignSame (k.procs p).prPartId (e.chan k) k k'
  election : ∀ p q k' k'', live k = some p → e.ofService = true → step k e = .ok k' →
    step k' (.dispatch q) = .ok k'' → ForeignSame (k.procs p).prPartId none k' k''

/-- A sequence of effects of a service stays inside. -/
theorem foreignSame_of_path {k₀ k k' : Kernel} {e : Event} (he : e.ofService = true)
    (hok : StopsUnlinked k₀ e) (hi : WaitInv k) (hr : Registered k) (h : Path (Allowed k₀ e) k k') :
    ForeignSame k.curPart (e.chan k₀) k k' ∧ k'.curPart = k.curPart ∧ k'.curProc = k.curProc := by
  induction h with
  | refl k => exact ⟨.refl k, rfl, rfl⟩
  | @cons k k₁ k' a hstep ha _ ih =>
      have hhart : a.ofHart = false := by
        by_contra hh
        rw [ha.hart (by simpa using hh)] at he
        exact absurd he (by decide)
      have hun := ha.unlinked hi hr hok hstep
      have hone := hstep.foreignSame hi hr hun ha.channel hhart
      obtain ⟨hpart, hproc⟩ := hstep.hart_eq hhart
      obtain ⟨hrest, hpart', hproc'⟩ := ih (hi.eff hr hun hstep) (hr.eff hstep).1
      rw [hpart] at hrest
      exact ⟨hone.trans hrest hr, hpart'.trans hpart, hproc'.trans hproc⟩

theorem foreignSame_setState {k : Kernel} {pt : PartId} {ex : Option ChanId} {p : ProcId}
    (hp : (k.procs p).prPartId = pt) (s : ProcState) : ForeignSame pt ex k (k.setState p s) :=
  .of_local (o := none) p (Or.inl hp) (Same.setState p s).extends (.updProc p _)
    (fun _ h => absurd h (by simp))
    (fun q hq => by simp [Kernel.setState, Kernel.updProc, hq]) (fun _ _ => rfl)
    (fun q _ o => by simp) fun _ _ => Iff.rfl

/-- An election in the partition of the process on the hart stays inside that partition. -/
theorem foreignSame_dispatch {k k' : Kernel} {p q : ProcId} (hr : Registered k)
    (hcur : k.curProc = some p) (hown : OwnProc k p) (hd : dispatch k q = .ok k') :
    ForeignSame k.curPart none k k' := by
  -- the process that leaves the hart is of the current partition
  have hst : ForeignSame k.curPart none k (schedProcSt k) := by
    rcases schedProcSt_cases k with hst | ⟨cur, hcur', -, hst⟩ <;> rw [hst]
    · exact .refl k
    · obtain rfl : p = cur := Option.some.inj (hcur.symm.trans hcur')
      exact foreignSame_setState hown _
  obtain ⟨hq, rfl⟩ := dispatch_eq_ok hd
  rw [curPart_schedProcSt, (Same.schedProcSt k).procLists] at hq
  -- and so is the one that was elected, as it is on the list of that partition
  have hqown : ((schedProcSt k).procs q).prPartId = k.curPart := by
    rw [(Same.schedProcSt k).prPartId]
    exact (hr.procList _ q hq.1).2
  refine hst.trans ?_ hr
  have hcurp : ForeignSame k.curPart none (schedProcSt k) { schedProcSt k with curProc := some q } := by
    constructor <;> (intros; first | rfl | exact Iff.rfl | exact Or.inl rfl | skip)
    exact ⟨fun _ h => ⟨h, rfl⟩, fun _ h => ⟨h, rfl⟩, fun _ h => ⟨h, rfl⟩, fun _ h => ⟨h, rfl⟩,
      fun _ _ => rfl, fun _ => rfl⟩
  have hr₁ : Registered (schedProcSt k) :=
    hr.of_same (.schedProcSt k) (fun r c w a hc => Or.inl (by rw [← conts_schedProcSt k]; exact hc))
      fun r hc => Or.inl (by rw [← hc, curProc_schedProcSt])
  exact hcurp.trans (foreignSame_setState (k := { schedProcSt k with curProc := some q }) hqown _) hr₁

/-- Two partitions with a window each. The processes `1` and `2` belong to the partition `1`, the
process `3` to the partition `2`; the port `1` receives from the channel `0`, the port `2` sends to
it. -/
def twoPartitions : Kernel :=
  { smallSystem 1 .fifo [1, 2, 3] with
    parts := fun pt =>
      { paName := "part", paPeriod := 100, paDuration := 50, paLockLevel := 0, paOpMode := .normal,
        paStartCond := .normalStart, paNumCores := 1,
        paProcList := if pt = 1 then [1, 2] else if pt = 2 then [3] else [], paBufs := [],
        paBbs := [] }
    procs := fun p =>
      { Proc.blank with
        prPartId := if p = 3 then 2 else 1, prState := .ready, prPeriod := systemTimeInfiniteVal }
    bufIds := []
    ports := fun port =>
      if port = 1 then ⟨"in", 1, .destination, .fifo, 0⟩ else ⟨"out", 2, .source, .fifo, 0⟩
    portIds := [1, 2]
    nxtPortId := 3
    teq := [⟨0, 50, .partitionActivate⟩]
    nxtTe := 1
    schedModules := [⟨1, 0, 50, 0⟩, ⟨2, 50, 50, 50⟩]
    schedCurMod := some 0
    schedParts := [1, 2] }

theorem quiet_twoPartitions : Quiet twoPartitions where
  registered :=
    { procs_lt := by decide
      bufs_lt := by decide
      bbs_lt := by decide
      ports_lt := by decide
      procList := fun pt p hp => by
        simp only [twoPartitions] at hp ⊢
        split at hp
        · rename_i hpt
          rw [hpt]
          rcases List.mem_pair.mp hp with rfl | rfl <;> decide
        · split at hp
          · rename_i hpt
            rw [hpt, List.mem_singleton.mp hp]
            decide
          · exact absurd hp List.not_mem_nil
      calls := by simp [twoPartitions, smallSystem]
      fits := by simp [twoPartitions, smallSystem]
      cur := fun p hp => by
        have hp1 : p = 1 := (Option.some.inj hp).symm
        rw [hp1]
        decide }
  lists o := by cases o <;> rfl
  conts _ := rfl
  woken _ := rfl
  state _ := by simp [twoPartitions]
  timer _ := rfl
  events te hte := by
    rw [List.mem_singleton.mp hte]
    rfl
  ids := by decide
  fresh := by decide

/-- The process `1` waits for a message and is stopped by its neighbour; in the window of the other
partition the process `3` sends a message, which revives it. -/
def reviveStopped : List Event :=
  let env : Env := ⟨fun _ => 0, fun _ => 0⟩
  [.call env (.receiveQueuingMessage 1 systemTimeInfiniteVal 0), .dispatch 2, .call env (.stop 1),
    .timer (fun _ => 50), .dispatch 3, .call env (.sendQueuingMessage 2 0 1 0)]

/-- The state before the last event of a run. -/
def beforeLast (k : Kernel) (es : List Event) : Option (Kernel × Event) :=
  (traceEvents step k es).getLast?

/-- Without the `STOP`, the message wakes up a process that is blocked on the channel. -/
def wakeAcross : List Event :=
  let env : Env := ⟨fun _ => 0, fun _ => 0⟩
  [.call env (.receiveQueuingMessage 1 systemTimeInfiniteVal 0), .dispatch 2,
    .timer (fun _ => 50), .dispatch 3, .call env (.sendQueuingMessage 2 0 1 0)]

end Jrinx
