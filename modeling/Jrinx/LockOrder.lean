import Jrinx.Harts

/-! # The order of the locks

A hart that waits for a lock holds only locks that come before it: that of an object or of the reference
counts, and then one of the two innermost ones. So the harts do not wait for each other in a circle.

* **`rank`**, **`ordered`**, **`InOrder`** — the order, and the programs that keep to it on all paths, with
  a rule for each event.
* **`inOrder_doSyscall`** — the services keep to it.
* **`some_hart_goes_on`** — where a hart spins, a hart inside a lock goes on. -/

namespace Jrinx

namespace Locks

open Program Relation

variable {α β : Type} {l : Lock} {s : List Lock}

/-- The order of the locks: `kalloc` and the list of free frames are innermost. -/
def rank : Lock → Nat
  | .kallocMod => 1
  | .pfFreeList => 1
  | _ => 0

/-- What the events do to the locks of the hart. -/
def heldSem : (e : HartEv) → List Lock → e.Ans → List Lock → Prop
  | .holds l, s, a, t => a = decide (l ∈ s) ∧ t = s
  | .take l, s, _, t => t = l :: s
  | .drop l, s, _, t => t = s.erase l
  | .init l, s, _, t => t = s.erase l
  | _, s, _, t => t = s

/-- A lock is taken after those of lower rank only, and set up by a hart without locks. -/
def ordered : HartEv → List Lock → Prop
  | .take l, s => ∀ l' ∈ s, rank l' < rank l
  | .init _, s => s = []
  | _, _ => True

/-- From `s` on the locks are taken in order on all paths, and the ends satisfy `post`. -/
def InOrder (x : Kern α) (post : α → List Lock → Prop) (s : List Lock) : Prop :=
  x.Safe heldSem ordered (fun _ => True) post s

section Rules

variable {post : α → List Lock → Prop}

@[simp] theorem inOrder_bind {x : Kern α} {f : α → Kern β} {post : β → List Lock → Prop} :
    InOrder (x >>= f) post s ↔ InOrder x (fun a t => InOrder (f a) post t) s := safe_bind

@[simp] theorem inOrder_pure {a : α} : InOrder (pure a) post s ↔ post a s := Iff.rfl

@[simp] theorem inOrder_stop {r : Stop} : InOrder (.stop r) post s := trivial

@[simp] theorem inOrder_ite {c : Prop} [Decidable c] {x y : Kern α} :
    InOrder (if c then x else y) post s ↔ (c → InOrder x post s) ∧ (¬ c → InOrder y post s) := by
  split <;> simp_all

@[simp] theorem inOrder_ask {post : Bool → List Lock → Prop} :
    InOrder ask post s ↔ ∀ b, post b s :=
  ⟨fun h b => h.2 b s rfl, fun h => ⟨trivial, fun b _ ht => ht ▸ h b⟩⟩

@[simp] theorem inOrder_holds {post : Bool → List Lock → Prop} :
    InOrder (holds l) post s ↔ post (decide (l ∈ s)) s :=
  ⟨fun h => h.2 _ s ⟨rfl, rfl⟩, fun h => ⟨trivial, fun _ _ ⟨ha, ht⟩ => ha ▸ ht ▸ h⟩⟩

@[simp] theorem inOrder_take {post : Unit → List Lock → Prop} :
    InOrder (takeLock l) post s ↔ (∀ l' ∈ s, rank l' < rank l) ∧ post () (l :: s) :=
  and_congr_right fun _ => ⟨fun h => h () _ rfl, fun h _ _ ht => ht ▸ h⟩

@[simp] theorem inOrder_drop {post : Unit → List Lock → Prop} :
    InOrder (dropLock l) post s ↔ post () (s.erase l) :=
  ⟨fun h => h.2 () _ rfl, fun h => ⟨trivial, fun _ _ ht => ht ▸ h⟩⟩

@[simp] theorem inOrder_spinlockInit {post : Unit → List Lock → Prop} :
    InOrder (spinlockInit l) post [] ↔ post () [] :=
  ⟨fun h => h.2 () _ rfl, fun h => ⟨rfl, fun _ _ ht => ht ▸ h⟩⟩

/-- An event that has nothing to do with the locks. -/
theorem inOrder_ev {e : HartEv} {post : e.Ans → List Lock → Prop} (ho : ordered e s)
    (hsem : ∀ a t, heldSem e s a t ↔ t = s) : InOrder (ev e) post s ↔ ∀ a, post a s :=
  ⟨fun h a => h.2 a s ((hsem a s).mpr rfl), fun h => ⟨ho, fun a t ht => (hsem a t).mp ht ▸ h a⟩⟩

@[simp] theorem inOrder_intpDisable {post : Bool → List Lock → Prop} :
    InOrder intpDisable post s ↔ ∀ b, post b s :=
  inOrder_ev (e := .intpDisable) trivial fun _ _ => Iff.rfl

@[simp] theorem inOrder_intpLayer {post : Nat → List Lock → Prop} :
    InOrder intpLayer post s ↔ ∀ n, post n s :=
  inOrder_ev (e := .intpLayer) trivial fun _ _ => Iff.rfl

@[simp] theorem inOrder_retainedIntp {post : Bool → List Lock → Prop} :
    InOrder retainedIntp post s ↔ ∀ b, post b s :=
  inOrder_ev (e := .retainedIntp) trivial fun _ _ => Iff.rfl

@[simp] theorem inOrder_intpEnable {post : Unit → List Lock → Prop} :
    InOrder intpEnable post s ↔ post () s :=
  (inOrder_ev (e := .intpEnable) trivial fun _ _ => Iff.rfl).trans ⟨fun h => h (), fun h _ => h⟩

@[simp] theorem inOrder_setIntpLayer {n : Nat} {post : Unit → List Lock → Prop} :
    InOrder (setIntpLayer n) post s ↔ post () s :=
  (inOrder_ev (e := .setIntpLayer n) trivial fun _ _ => Iff.rfl).trans
    ⟨fun h => h (), fun h _ => h⟩

@[simp] theorem inOrder_setRetainedIntp {b : Bool} {post : Unit → List Lock → Prop} :
    InOrder (setRetainedIntp b) post s ↔ post () s :=
  (inOrder_ev (e := .setRetainedIntp b) trivial fun _ _ => Iff.rfl).trans
    ⟨fun h => h (), fun h _ => h⟩

@[simp] theorem inOrder_giveUp {post : Unit → List Lock → Prop} :
    InOrder giveUp post s ↔ post () s :=
  (inOrder_ev (e := .giveUp) trivial fun _ _ => Iff.rfl).trans ⟨fun h => h (), fun h _ => h⟩

@[simp] theorem inOrder_switch {post : Unit → List Lock → Prop} :
    InOrder switch post s ↔ post () s :=
  (inOrder_ev (e := .switch) trivial fun _ _ => Iff.rfl).trans ⟨fun h => h (), fun h _ => h⟩

@[simp] theorem inOrder_intpPush {post : Unit → List Lock → Prop} :
    InOrder intpPush post s ↔ post () s := by
  simp [intpPush]

@[simp] theorem inOrder_intpPop {post : Unit → List Lock → Prop} :
    InOrder intpPop post s ↔ post () s := by
  simp [intpPop]

theorem inOrder_acquire {post : Unit → List Lock → Prop} :
    InOrder (acquire l) post s ↔ (l ∉ s → (∀ l' ∈ s, rank l' < rank l) ∧ post () (l :: s)) := by
  simp [acquire, panicE, lkAcquire]

@[simp] theorem inOrder_release {post : Unit → List Lock → Prop} :
    InOrder (release l) post s ↔ (l ∈ s → post () (s.erase l)) := by
  simp [release, panicE, lkRelease]

@[simp] theorem inOrder_panicE {r : Stop} {x : Kern Bool} {post : Unit → List Lock → Prop} :
    InOrder (panicE r x) post s ↔ InOrder x (fun b t => b = true → post () t) s := by
  simp [panicE]

/-- No lock of the hart is one of the innermost. -/
def Outer (s : List Lock) : Prop := ∀ l ∈ s, rank l = 0

theorem Outer.free (hs : Outer s) (hl : rank l = 1) : l ∉ s := by
  intro h
  simp [hs l h] at hl

/-- An innermost lock is taken after the others. -/
theorem Outer.acquire {post : Unit → List Lock → Prop} (hs : Outer s) (hl : rank l = 1) :
    InOrder (Locks.acquire l) post s ↔ post () (l :: s) := by
  have hrank : ∀ l' ∈ s, rank l' < rank l := fun l' h => by simp [hs l' h, hl]
  exact inOrder_acquire.trans ⟨fun h => (h (hs.free hl)).2, fun h _ => ⟨hrank, h⟩⟩

@[simp] theorem inOrder_acquire_nil {post : Unit → List Lock → Prop} :
    InOrder (acquire l) post [] ↔ post () [l] := by
  simp [inOrder_acquire]

@[simp] theorem outer_nil : Outer [] := by simp [Outer]
@[simp] theorem outer_cons : Outer (l :: s) ↔ rank l = 0 ∧ Outer s := by simp [Outer]

/-- A loop whose rounds end where they began. -/
theorem inOrder_loop {body : Kern (Option α)} {post : α → List Lock → Prop} (n : Nat)
    (h : InOrder body (fun o t => o.elim (t = s) fun a => post a t) s) :
    InOrder (Program.loop .running body n) post s := by
  apply Safe.loop (I := fun t => t = s) _ trivial rfl
  rintro t rfl
  apply Safe.mono h
  rintro (_ | a) u hu
  · exact hu
  · exact hu

theorem inOrder_forM {γ : Type} {l : List γ} {body : γ → Kern Unit} {post : Unit → List Lock → Prop}
    (h : ∀ b ∈ l, InOrder (body b) (fun _ t => t = s) s) (hpost : post () s) :
    InOrder (l.forM body) post s := by
  apply Safe.mono (Safe.forM (I := fun t => t = s) _ rfl)
  · rintro _ _ rfl
    exact hpost
  · rintro b hb t rfl
    exact h b hb

@[simp] theorem inOrder_map {γ : Type} {f : γ → α} {x : Kern γ} :
    InOrder (f <$> x) post s ↔ InOrder x (fun a t => post (f a) t) s := by
  show InOrder (x >>= fun a => pure (f a)) post s ↔ _
  simp

end Rules

/-! ## The functions that the services call -/

section Functions

@[simp] theorem inOrder_kalloc {post : Bool → List Lock → Prop} (hs : Outer s) :
    InOrder kalloc post s ↔ ∀ b, post b s := by
  simp [kalloc, hs.acquire (l := .kallocMod) rfl, and_comm]

@[simp] theorem inOrder_kfree {post : Unit → List Lock → Prop} (hs : Outer s) :
    InOrder kfree post s ↔ post () s := by
  simp [kfree, hs.acquire (l := .kallocMod) rfl]

@[simp] theorem inOrder_phyFrameAlloc {post : Bool → List Lock → Prop} (hs : Outer s) :
    InOrder phyFrameAlloc post s ↔ ∀ b, post b s := by
  simp [phyFrameAlloc, hs.acquire (l := .pfFreeList) rfl]

@[simp] theorem inOrder_phyFrameFree {post : Bool → List Lock → Prop} (hs : Outer s) :
    InOrder phyFrameFree post s ↔ ∀ b, post b s := by
  simp [phyFrameFree, hs.acquire (l := .pfFreeList) rfl]

@[simp] theorem inOrder_phyFrameRefDec {post : Bool → List Lock → Prop} :
    InOrder phyFrameRefDec post [] ↔ ∀ b, post b [] := by
  simp [phyFrameRefDec, rank]
  tauto

@[simp] theorem inOrder_phyFrameRefInc {post : Bool → List Lock → Prop} :
    InOrder phyFrameRefInc post [] ↔ post true [] := by
  simp [phyFrameRefInc]

@[simp] theorem inOrder_ptFrameAlloc {post : Bool → List Lock → Prop} :
    InOrder ptFrameAlloc post [] ↔ ∀ b, post b [] := by
  simp [ptFrameAlloc]

@[simp] theorem inOrder_ptFrameRefInc {post : Bool → List Lock → Prop} :
    InOrder ptFrameRefInc post [] ↔ post true [] := by
  simp [ptFrameRefInc]

@[simp] theorem inOrder_ptFrameRefDec {post : Bool → List Lock → Prop} :
    InOrder ptFrameRefDec post [] ↔ post true [] := by
  simp [ptFrameRefDec]

@[simp] theorem inOrder_timeEventSetHead {post : Unit → List Lock → Prop} :
    InOrder timeEventSetHead post s ↔ post () s := by
  simp [timeEventSetHead]

@[simp] theorem inOrder_timeEventAlloc {post : Unit → List Lock → Prop} (hs : Outer s) :
    InOrder timeEventAlloc post s ↔ post () s := by
  simp [timeEventAlloc, hs]

@[simp] theorem inOrder_timeEventFree {post : Unit → List Lock → Prop} (hs : Outer s) :
    InOrder timeEventFree post s ↔ post () s := by
  simp [timeEventFree, hs]

@[simp] theorem inOrder_freeTimer {post : Unit → List Lock → Prop} (hs : Outer s) :
    InOrder freeTimer post s ↔ post () s := by
  simp [freeTimer, hs]

@[simp] theorem inOrder_wakeup {post : Bool → List Lock → Prop} (hs : Outer s) :
    InOrder wakeup post s ↔ ∀ b, post b s := by
  simp [wakeup, hs]

@[simp] theorem inOrder_ctxAlloc {post : Bool → List Lock → Prop} :
    InOrder ctxAlloc post [] ↔ ∀ b, post b [] := by
  simp [ctxAlloc, and_comm]

@[simp] theorem inOrder_ctxFree {post : Unit → List Lock → Prop} :
    InOrder ctxFree post [] ↔ post () [] := by
  simp [ctxFree]

theorem inOrder_ptWalkLevel {create : Bool} {undo : Kern Unit} {post : Option Bool → List Lock → Prop}
    (hundo : InOrder undo (fun _ t => t = []) []) (h : ∀ r, post r []) :
    InOrder (ptWalkLevel create undo) post [] := by
  have hundo' : InOrder undo (fun _ t => post none t) [] := by
    apply Safe.mono hundo
    rintro _ _ rfl
    exact h none
  simp [ptWalkLevel, h, hundo']

theorem inOrder_ptWalk {create : Bool} {post : Option Bool → List Lock → Prop} (h : ∀ r, post r []) :
    InOrder (ptWalk create) post [] := by
  refine inOrder_bind.mpr (inOrder_ptWalkLevel (by simp) ?_)
  rintro (_ | _ | _)
  · exact h none
  · exact h (some false)
  · exact inOrder_ptWalkLevel (by simp) h

theorem inOrder_ptLookup {post : Option Bool → List Lock → Prop} (h : ∀ r, post r []) :
    InOrder ptLookup post [] := by
  refine inOrder_bind.mpr (inOrder_ptWalk ?_)
  rintro (_ | _ | _)
  · exact h none
  · exact h (some false)
  · simp [h]

theorem inOrder_ptUnmap {post : Bool → List Lock → Prop} (h : ∀ b, post b []) :
    InOrder ptUnmap post [] := by
  refine inOrder_bind.mpr (inOrder_ptLookup ?_)
  rintro (_ | _ | _)
  · exact h false
  · exact h true
  · exact inOrder_ptFrameRefDec.mpr (h true)

theorem inOrder_ptMapFresh {post : Bool → List Lock → Prop} (h : ∀ b, post b []) :
    InOrder ptMap.ptMapFresh post [] := by
  refine inOrder_bind.mpr (inOrder_ptWalk ?_)
  rintro (_ | _)
  · exact h false
  · simp [h]

theorem inOrder_ptMap {post : Bool → List Lock → Prop} (h : ∀ b, post b []) :
    InOrder ptMap post [] := by
  have hfresh : InOrder ptMap.ptMapFresh post [] := inOrder_ptMapFresh h
  refine inOrder_bind.mpr (inOrder_ptWalk ?_)
  rintro (_ | _)
  · exact h false
  · have hunmap : InOrder ptUnmap
        (fun b t => InOrder (if b then ptMap.ptMapFresh else pure false) post t) [] :=
      inOrder_ptUnmap (by simp [hfresh, h])
    simpa [hfresh] using hunmap

theorem inOrder_stackSetup {post : Unit → List Lock → Prop} (stacksize : Nat) (h : post () []) :
    InOrder (stackSetup stacksize) post [] := by
  apply inOrder_forM _ h
  intro page _
  have hmap : InOrder ptMap (fun b t => b = true → t = []) [] := inOrder_ptMap (by simp)
  simp [stackPage, hmap]

@[simp] theorem inOrder_idAlloc {post : Unit → List Lock → Prop} :
    InOrder (idAlloc l) post [] ↔ post () [] := by
  simp [idAlloc]

theorem inOrder_procReset {post : Unit → List Lock → Prop} (rounds processId : Nat) (h : post () []) :
    InOrder (procReset rounds processId) post [] := by
  apply inOrder_bind.mpr
  apply inOrder_loop
  simp [h]

theorem inOrder_procAlloc {post : Bool → List Lock → Prop} (rounds stacksize processId : Nat)
    (h : ∀ b, post b []) : InOrder (procAlloc rounds stacksize processId) post [] := by
  have hreset : InOrder (procReset rounds processId) (fun _ t => post true t) [] :=
    inOrder_procReset _ _ (h true)
  have hxstack : InOrder procXstackSetup
      (fun _ t => InOrder (do acquire .procIdMap; release .procIdMap; procReset rounds processId)
        (fun _ t => post true t) t) [] :=
    inOrder_stackSetup _ (by simp [hreset])
  have hustack : InOrder (procUstackSetup (alignUp stacksize pgSize))
      (fun _ t => InOrder procXstackSetup
      (fun _ t => InOrder (do acquire .procIdMap; release .procIdMap; procReset rounds processId)
        (fun _ t => post true t) t) t) [] :=
    inOrder_stackSetup _ hxstack
  simp [procAlloc, procIdAlloc, h]
  simpa using hustack

theorem inOrder_commAlloc {post : Bool → List Lock → Prop} (nxtId idMap : Lock) (h : ∀ b, post b []) :
    InOrder (commAlloc (idAlloc nxtId) idMap) post [] := by
  simp [commAlloc, partCommAlloc, h]

theorem inOrder_queuingPortAlloc {post : Bool → List Lock → Prop} (h : ∀ b, post b []) :
    InOrder queuingPortAlloc post [] := by
  simp [queuingPortAlloc, queuingPortIdAlloc, h]

@[simp] theorem inOrder_schedProcGiveUp {post : Unit → List Lock → Prop} {rounds : Nat} (h : post () []) :
    InOrder (schedProcGiveUp rounds) post [] := by
  apply inOrder_bind.mpr
  apply inOrder_giveUp.mpr
  apply inOrder_bind.mpr
  apply inOrder_loop
  simp [h]

end Functions

/-! ## The services -/

/-- The paths from a hart without locks. -/
abbrev Paths (x : Kern α) : Prop := InOrder x (fun _ _ => True) []

theorem inOrder_consPutChar {post : Unit → List Lock → Prop} (rounds : Nat) (h : post () []) :
    InOrder (consPutChar rounds) post [] := by
  apply inOrder_loop
  simp [h]

theorem inOrder_doConsWriteChar (rounds ch : Nat) : Paths (doConsWriteChar rounds ch) := by
  apply inOrder_bind.mpr
  apply inOrder_consPutChar
  simp [inOrder_consPutChar]

theorem inOrder_consRetryChar {post : Unit → List Lock → Prop} (rounds : Nat)
    (h : post () [.serialOutputDev]) : InOrder (consRetryChar rounds) post [.serialOutputDev] := by
  apply inOrder_loop
  simp [h]

theorem inOrder_doConsWriteBuf (rounds len : Nat) : Paths (doConsWriteBuf rounds len) := by
  apply inOrder_bind.mpr
  apply inOrder_acquire_nil.mpr
  apply inOrder_bind.mpr
  apply inOrder_forM
  · intro _ _
    apply inOrder_bind.mpr
    apply inOrder_consRetryChar
    simp [inOrder_consRetryChar]
  · simp

theorem inOrder_doHalt : Paths doHalt := by
  simp [doHalt, printSection]

theorem inOrder_answer {post : RetCode → List Lock → Prop} (codes : List RetCode) (h : ∀ c, post c s) :
    InOrder (answer codes) post s := by
  induction codes with
  | nil => exact h _
  | cons c cs ih => simp [answer, h, ih]

theorem inOrder_doSetPartitionMode (rounds operatingMode : Nat) :
    Paths (doSetPartitionMode rounds operatingMode) := by
  refine inOrder_bind.mpr (inOrder_ask.mpr fun _ => inOrder_ite.mpr ⟨fun _ => trivial, fun _ => ?_⟩)
  refine inOrder_bind.mpr (inOrder_ask.mpr fun _ => inOrder_ite.mpr ⟨fun _ => trivial, fun _ => ?_⟩)
  split <;> simp

theorem inOrder_doCreateProcess (rounds stackSize processId : Nat) :
    Paths (doCreateProcess rounds stackSize processId) := by
  simp [doCreateProcess, inOrder_procAlloc]

theorem inOrder_doSetPriority (rounds : Nat) : Paths (doSetPriority rounds) := by
  simp [doSetPriority]

theorem inOrder_doSuspendSelf (rounds cur : Nat) (timeOut : Int) :
    Paths (doSuspendSelf rounds cur timeOut) := by
  simp [doSuspendSelf, rank]

theorem inOrder_doSuspend (rounds : Nat) : Paths (doSuspend rounds) := by
  apply inOrder_bind.mpr
  apply inOrder_answer
  intro c
  split
  · simp
  · simp

theorem inOrder_doResume (rounds processId : Nat) : Paths (doResume rounds processId) := by
  simp [doResume, rank]

theorem inOrder_doStop (rounds processId : Nat) : Paths (doStop rounds processId) := by
  simp [doStop, rank]

theorem inOrder_doDelayedStart (rounds processId : Nat) (delayTime : Int) :
    Paths (doDelayedStart rounds processId delayTime) := by
  simp [doDelayedStart, setState, rank, inOrder_procReset]

theorem inOrder_doTimedWait (rounds cur : Nat) (delayTime : Int) :
    Paths (doTimedWait rounds cur delayTime) := by
  simp [doTimedWait, rank]

/-- A wait ends with a code, or with the lock of the object. -/
theorem inOrder_waitReady {post : Option RetCode → List Lock → Prop} (rounds : Nat) (timeOut : Int)
    (hl : rank l = 0) (hcode : ∀ c, post (some c) []) (hready : post none [l]) :
    InOrder (waitReady rounds l timeOut) post [] := by
  refine inOrder_bind.mpr (inOrder_acquire_nil.mpr (inOrder_bind.mpr (inOrder_ask.mpr ?_)))
  rintro (_ | _)
  · exact hready
  rw [if_pos rfl]
  apply inOrder_ite.mpr
  constructor
  · simp [hcode]
  intro _
  apply inOrder_loop
  have hs : Outer [l] := by simp [hl]
  by_cases hinf : timeOut = systemTimeInfiniteVal
  · simp [expired, hinf, hcode, hready]
  · simp [expired, hinf, hs, hcode, hready]

theorem inOrder_portTransfer (rounds portId : Nat) (timeOut : Int) :
    Paths (portTransfer rounds portId timeOut) := by
  apply inOrder_bind.mpr
  apply inOrder_waitReady _ _ rfl
  · simp
  · simp [rank]

theorem inOrder_doSendQueuingMessage (rounds portId length : Nat) (timeOut : Int) :
    Paths (doSendQueuingMessage rounds portId length timeOut) := by
  simp [doSendQueuingMessage, inOrder_portTransfer]

theorem inOrder_doReceiveQueuingMessage (rounds portId : Nat) (timeOut : Int) :
    Paths (doReceiveQueuingMessage rounds portId timeOut) := by
  simp [doReceiveQueuingMessage, inOrder_portTransfer]

theorem inOrder_doClearQueuingPort (portId : Nat) : Paths (doClearQueuingPort portId) := by
  simp [doClearQueuingPort, rank]

theorem inOrder_doCreateQueuingPort : Paths doCreateQueuingPort := by
  apply inOrder_bind.mpr
  apply inOrder_answer
  intro c
  split
  · exact inOrder_bind.mpr (inOrder_queuingPortAlloc (by simp))
  · simp

theorem inOrder_createObject (maxMessageSize : Nat) (nxtId idMap : Lock) :
    Paths (createObject maxMessageSize (commAlloc (idAlloc nxtId) idMap)) := by
  simp [createObject, inOrder_commAlloc]

theorem inOrder_bufferTransfer (rounds bufferId : Nat) (timeOut : Int) :
    Paths (bufferTransfer rounds bufferId timeOut) := by
  apply inOrder_bind.mpr
  apply inOrder_waitReady _ _ rfl
  · simp
  · simp [rank]

theorem inOrder_doSendBuffer (rounds bufferId length : Nat) (timeOut : Int) :
    Paths (doSendBuffer rounds bufferId length timeOut) := by
  simp [doSendBuffer, inOrder_bufferTransfer]

theorem inOrder_doReceiveBuffer (rounds bufferId : Nat) (timeOut : Int) :
    Paths (doReceiveBuffer rounds bufferId timeOut) := by
  simp [doReceiveBuffer, inOrder_bufferTransfer]

theorem inOrder_doDisplayBlackboard (rounds blackboardId length : Nat) :
    Paths (doDisplayBlackboard rounds blackboardId length) := by
  have hwake : InOrder (do if ← wakeup then pure none else pure (some ()))
      (fun o t => o.elim (t = [.bb blackboardId]) fun _ => InOrder (do
        release (.bb blackboardId)
        schedProcGiveUp rounds
        pure RetCode.noError) (fun _ _ => True) t) [.bb blackboardId] := by
    simp [rank]
  have hloop := inOrder_loop rounds hwake
  refine inOrder_bind.mpr (inOrder_ask.mpr fun _ => inOrder_ite.mpr ⟨fun _ => trivial, fun _ => ?_⟩)
  refine inOrder_bind.mpr (inOrder_ask.mpr fun _ => inOrder_ite.mpr ⟨fun _ => trivial, fun _ => ?_⟩)
  refine inOrder_ite.mpr ⟨fun _ => trivial, fun _ => ?_⟩
  exact inOrder_bind.mpr (inOrder_acquire_nil.mpr (inOrder_bind.mpr hloop))

theorem inOrder_doReadBlackboard (rounds blackboardId : Nat) (timeOut : Int) :
    Paths (doReadBlackboard rounds blackboardId timeOut) := by
  refine inOrder_bind.mpr (inOrder_ask.mpr fun _ => inOrder_ite.mpr ⟨fun _ => trivial, fun _ => ?_⟩)
  apply inOrder_bind.mpr
  apply inOrder_waitReady _ _ rfl
  · simp
  · simp

theorem inOrder_doClearBlackboard (blackboardId : Nat) : Paths (doClearBlackboard blackboardId) := by
  simp [doClearBlackboard]

theorem inOrder_doSyscall (rounds cur sysno : Nat) (args : Args) (hne : sysno ≠ sysConsReadChar) :
    Paths (doSyscall rounds cur sysno args) := by
  have hvoid : ∀ {γ : Type} {x : Kern γ}, Paths x → Paths (doSyscall.void x) := by
    intro γ x hx
    simpa [doSyscall.void] using hx
  unfold doSyscall
  split
  · exact inOrder_doConsWriteChar rounds _
  · exact absurd rfl hne
  · exact inOrder_doConsWriteBuf rounds _
  · exact inOrder_doHalt
  · exact hvoid (inOrder_doSetPartitionMode rounds _)
  · exact hvoid (inOrder_doCreateProcess rounds _ _)
  · exact hvoid (inOrder_doSetPriority rounds)
  · exact hvoid (inOrder_doSuspendSelf rounds cur _)
  · exact hvoid (inOrder_doSuspend rounds)
  · exact hvoid (inOrder_doResume rounds _)
  · exact inOrder_schedProcGiveUp trivial
  · exact hvoid (inOrder_doStop rounds _)
  · exact hvoid (inOrder_doDelayedStart rounds _ 0)
  · exact hvoid (inOrder_doDelayedStart rounds _ _)
  · exact hvoid (inOrder_doTimedWait rounds cur _)
  · exact hvoid inOrder_doCreateQueuingPort
  · exact hvoid (inOrder_doSendQueuingMessage rounds _ _ _)
  · exact hvoid (inOrder_doReceiveQueuingMessage rounds _ _)
  · exact hvoid (inOrder_doClearQueuingPort _)
  · exact hvoid (inOrder_createObject _ _ _)
  · exact hvoid (inOrder_doSendBuffer rounds _ _ _)
  · exact hvoid (inOrder_doReceiveBuffer rounds _ _)
  · exact hvoid (inOrder_createObject _ _ _)
  · exact hvoid (inOrder_doDisplayBlackboard rounds _ _)
  · exact hvoid (inOrder_doReadBlackboard rounds _ _)
  · exact hvoid (inOrder_doClearBlackboard _)
  · exact hvoid (by simp)

/-! ## The harts -/

/-- An event of a hart is one for its locks. -/
theorem heldSem_of_hartSem {e : HartEv} {h t : Hart} {a : e.Ans} (hsem : hartSem e h a t) :
    heldSem e h.held a t.held := by
  cases e with
  | holds l => exact ⟨hsem.1, congrArg Hart.held hsem.2⟩
  | intpDisable =>
      obtain ⟨-, rfl⟩ := hsem
      rfl
  | intpLayer => exact congrArg Hart.held hsem.2
  | retainedIntp => exact congrArg Hart.held hsem.2
  | switch =>
      obtain ⟨_, rfl⟩ := hsem
      rfl
  | ask => exact congrArg Hart.held hsem
  | giveUp => exact congrArg Hart.held hsem
  | take l =>
      obtain rfl := hsem
      rfl
  | drop l =>
      obtain rfl := hsem
      rfl
  | init l =>
      obtain rfl := hsem
      rfl
  | intpEnable =>
      obtain rfl := hsem
      rfl
  | setIntpLayer n =>
      obtain rfl := hsem
      rfl
  | setRetainedIntp b =>
      obtain rfl := hsem
      rfl

/-- What is left of a call, with the locks of the hart. -/
abbrev KeepsOrder (p : Kern Unit) (s : List Lock) : Prop := InOrder p (fun _ _ => True) s

namespace Turns

variable {w w' : Turns}

/-- **The invariant**: what is left of a call keeps to the order, from where it is for the running process
and from a hart without locks for the others. -/
structure Ordered (w : Turns) : Prop where
  running : ∀ p, w.code w.cur = some p → KeepsOrder p w.hart.held
  waiting : ∀ q ≠ w.cur, ∀ p, w.code q = some p → ∃ k, p = .op .switch k ∧ KeepsOrder (k ()) []

theorem Ordered.setCode {p : Option (Kern Unit)} {hart : Hart} (hw : w.Ordered)
    (hrunning : ∀ q, p = some q → KeepsOrder q hart.held) : (w.setCode hart p).Ordered where
  running q h := hrunning q (by simpa [Turns.setCode] using h)
  waiting q hq r h := by
    have hne : q ≠ w.cur := hq
    have hcode : (w.setCode hart p).code q = w.code q := by
      simp [Turns.setCode, hne]
    exact hw.waiting q hq r (hcode ▸ h)

/-- A process is dispatched on a hart without locks. -/
theorem ordered_dispatch (hheld : w.hart.held = [])
    (hwait : ∀ q p, w.code q = some p → ∃ k, p = .op .switch k ∧ KeepsOrder (k ()) []) (q : Nat) :
    (w.dispatch q).Ordered := by
  cases hcode : w.code q with
  | none =>
      have hdisp : (w.dispatch q).code = w.code := by simp [dispatch, hcode]
      refine ⟨fun p hp => ?_, fun r _ p hp => hwait r p (hdisp ▸ hp)⟩
      rw [hdisp] at hp
      exact absurd (hcode.symm.trans hp) (by simp)
  | some p =>
      obtain ⟨k, rfl, hk⟩ := hwait q p hcode
      have hdisp : (w.dispatch q).code = Function.update w.code q (some (k ())) := by
        simp [dispatch, hcode]
      refine ⟨fun p hp => ?_, fun r hr p hp => ?_⟩
      · rw [hdisp] at hp
        obtain rfl : k () = p := by simpa [dispatch] using hp
        exact hheld.symm ▸ hk
      · have hother : (w.dispatch q).code r = w.code r :=
          (congrFun hdisp r).trans (Function.update_of_ne hr _ _)
        exact hwait r p (hother ▸ hp)

/-- **The step lemma.** -/
theorem Ordered.step (ho : w.Ordered) (hw : w.Wf) (hstep : Step w w') : w'.Ordered := by
  cases hstep with
  | call hcode hne =>
      apply ho.setCode
      rintro p ⟨⟩
      show KeepsOrder _ w.hart.held
      rw [(hw.user hcode).held]
      exact inOrder_doSyscall _ _ _ _ hne
  | event hcode _ hsem =>
      apply ho.setCode
      rintro p ⟨⟩
      exact (ho.running _ hcode).2 _ _ (heldSem_of_hartSem hsem)
  | «return» hcode =>
      apply ho.setCode
      rintro p ⟨⟩
  | switch q hcode =>
      obtain ⟨hi, -⟩ := waiting_of_switch (hw.running _ hcode)
      apply ordered_dispatch hi.held
      intro r p hp
      by_cases hr : r = w.cur
      · subst hr
        obtain rfl := Option.some.inj (hcode.symm.trans hp)
        have hrest := (ho.running _ hcode).2 () _ rfl
        exact ⟨_, rfl, hi.held ▸ hrest⟩
      · exact ho.waiting r hr p hp
  | preempt q hcode =>
      apply ordered_dispatch (hw.user hcode).held
      intro r p hp
      have hr : r ≠ w.cur := by
        rintro rfl
        exact absurd (hcode.symm.trans hp) (by simp)
      exact ho.waiting r hr p hp

/-- A process at a `take` has only locks that come before. -/
theorem Ordered.rank_lt_of_take (ho : w.Ordered) (h : w.lockOp = some (.take l)) :
    ∀ l' ∈ w.hart.held, rank l' < rank l := by
  unfold lockOp at h
  split at h <;> cases h
  case h_2 k hcode => exact (ho.running _ hcode).1

end Turns

section Harts

variable {H : Type} [DecidableEq H] {s t : Atomic H Lock (H → Turns)}

/-- A step of the harts with atomic locks is one of the turns of a hart. -/
theorem Agrees.turn (h : Agrees s) (hstep : Atomic.Step (harts H) s t) :
    ∃ i w, Turns.Step (s.client i) w ∧ t.client = Function.update s.client i w := by
  cases hstep with
  | @holds i l hw =>
      have hb : decide (s.owner l = some i) = decide (l ∈ (s.client i).hart.held) :=
        decide_eq_decide.mpr (h.mem i l).symm
      obtain ⟨hturn, -⟩ := Turns.step_answer hw (b := decide (s.owner l = some i))
        (by rintro _ ⟨⟩; exact hb)
      exact ⟨i, _, hturn, rfl⟩
  | take hw hfree => exact ⟨_, _, (Turns.step_answer hw nofun).1, rfl⟩
  | drop hw hmine => exact ⟨_, _, (Turns.step_answer hw nofun).1, rfl⟩
  | init hw hfree => exact ⟨_, _, (Turns.step_answer hw nofun).1, rfl⟩
  | own hw hstep =>
      obtain ⟨w, hturn, rfl⟩ := hstep
      exact ⟨_, w, hturn, rfl⟩

theorem ordered_of_run (h : Agrees s) (ho : ∀ i, (s.client i).Ordered)
    (hrun : ReflTransGen (Atomic.Step (harts H)) s t) (i : H) : (t.client i).Ordered := by
  induction hrun generalizing i with
  | refl => exact ho i
  | tail hrun hstep ih =>
      have hagrees := h.run hrun
      obtain ⟨j, w, hturn, hclient⟩ := hagrees.turn hstep
      rw [hclient]
      by_cases hi : i = j
      · subst hi
        rw [Function.update_self]
        exact (ih i).step (hagrees.wf i) hturn
      · rw [Function.update_of_ne hi]
        exact ih i

/-- A hart that holds locks is in the kernel, and goes on unless it has stopped or spins. -/
theorem exists_step_of_held {m : Machine H Lock (H → Turns)} {i : H} {l : Lock}
    (hwf : (m.client i).Wf) (ho : (m.client i).Ordered) (hl : l ∈ (m.client i).hart.held)
    (hs : m.stage i = .start) (hspin : ∀ l, ¬ m.Spins (harts H) i l) :
    (∃ m', Machine.Step (harts H) i m m') ∨
      ∃ r, (m.client i).code (m.client i).cur = some (.stop r) ∧ r ≠ .lockPanic := by
  have hne : (m.client i).hart.held ≠ [] := List.ne_nil_of_mem hl
  cases hcode : (m.client i).code (m.client i).cur with
  | none => exact absurd (hwf.user hcode).held hne
  | some p =>
      have hd := hwf.running p hcode
      have hord := ho.running p hcode
      cases p with
      | ret a => exact absurd hd.1.held hne
      | stop r => exact .inr ⟨r, rfl, hd⟩
      | op e k =>
          left
          have hturn : ∀ a t, hartSem e (m.client i).hart a t → e ≠ .switch →
              (m.client i).lockOp = none → ∃ m', Machine.Step (harts H) i m m' := by
            intro a t hsem hsw hop
            exact ⟨_, .own hs hop ⟨_, .event hcode hsw hsem, rfl⟩⟩
          have hwants : ∀ o, (m.client i).lockOp = some o → (∀ l, o ≠ .init l) →
              ∃ m', Machine.Step (harts H) i m m' :=
            fun o ho' hinit => Machine.exists_step_of_wants hs ho' hinit hspin
          have hop : (m.client i).lockOp =
              Turns.lockOp ⟨(m.client i).hart, 0, fun _ => some (.op e k)⟩ := by
            simp only [Turns.lockOp, hcode]
          cases e with
          | holds l => exact hwants (.holds l) hop (by simp)
          | take l => exact hwants (.take l) hop (by simp)
          | drop l => exact hwants (.drop l) hop (by simp)
          | init l => exact absurd hord.1 hne
          | switch => exact absurd hd.1.1 hne
          | ask => exact hturn true _ rfl (by simp) hop
          | intpEnable => exact hturn () _ rfl (by simp) hop
          | intpDisable => exact hturn _ _ ⟨rfl, rfl⟩ (by simp) hop
          | intpLayer => exact hturn _ _ ⟨rfl, rfl⟩ (by simp) hop
          | setIntpLayer n => exact hturn () _ rfl (by simp) hop
          | retainedIntp => exact hturn _ _ ⟨rfl, rfl⟩ (by simp) hop
          | setRetainedIntp b => exact hturn () _ rfl (by simp) hop
          | giveUp => exact hturn () _ rfl (by simp) hop

end Harts

end Locks

end Jrinx
