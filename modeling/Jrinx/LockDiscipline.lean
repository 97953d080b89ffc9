import Jrinx.LockedServices

/-! # The lock discipline of the services

A call is disciplined when on all its paths a lock that is taken is not held and a lock that is released
is held, the hart holds no lock and `cpus_intp_layer` is zero where it is given up, and interrupts are
disabled where it runs other processes, no `panic_e` on
`lk_acquire` or `lk_release` is reached, and the hart is as before where the call returns.

* **`allowed`** — what the events may do.
* **`Keeps`**, **`Closes`** — code that leaves the hart as it was, and code that starts under a lock and
  releases it, with their rules.
* **`lock_discipline_iff`** — the calls that are disciplined. -/

namespace Jrinx

namespace Locks

open Program

variable {α β : Type} {h t u : Hart} {l : Lock}

/-! ## The discipline -/

/-- What the events may do. -/
def allowed : HartEv → Hart → Prop
  | .take l, s => l ∉ s.held
  | .drop l, s => l ∈ s.held
  | .giveUp, s => s.held = [] ∧ s.intpLayer = 0
  | .switch, s => s.held = [] ∧ s.intpLayer = 0 ∧ s.sie = false
  | _, _ => True

/-- **The discipline**: from `s` on, everything is allowed on all paths, no `panic_e` on a lock is reached,
and the ends satisfy `post`. -/
def Disciplined (x : Kern α) (post : α → Hart → Prop) (s : Hart) : Prop :=
  x.Safe hartSem allowed (fun r => r ≠ .lockPanic) post s

section Events

variable {s : Hart}

theorem disciplined_bind {x : Kern α} {f : α → Kern β} {post : β → Hart → Prop} :
    Disciplined (x >>= f) post s ↔ Disciplined x (fun a t => Disciplined (f a) post t) s := safe_bind

theorem disciplined_pure {a : α} {post : α → Hart → Prop} :
    Disciplined (pure a) post s ↔ post a s := Iff.rfl

theorem disciplined_ask {post : Bool → Hart → Prop} : Disciplined ask post s ↔ ∀ b, post b s :=
  ⟨fun h b => h.2 b s rfl, fun h => ⟨trivial, fun b _ ht => ht ▸ h b⟩⟩

theorem disciplined_holds {post : Bool → Hart → Prop} :
    Disciplined (holds l) post s ↔ post (decide (l ∈ s.held)) s :=
  ⟨fun h => h.2 _ s ⟨rfl, rfl⟩, fun h => ⟨trivial, fun _ _ ⟨ha, ht⟩ => ha ▸ ht ▸ h⟩⟩

theorem disciplined_take {post : Unit → Hart → Prop} : Disciplined (takeLock l) post s ↔
    l ∉ s.held ∧ post () { s with held := l :: s.held } :=
  and_congr_right fun _ => ⟨fun h => h () _ rfl, fun h _ _ ht => ht ▸ h⟩

theorem disciplined_drop {post : Unit → Hart → Prop} : Disciplined (dropLock l) post s ↔
    l ∈ s.held ∧ post () { s with held := s.held.erase l } :=
  and_congr_right fun _ => ⟨fun h => h () _ rfl, fun h _ _ ht => ht ▸ h⟩

theorem disciplined_intpEnable {post : Unit → Hart → Prop} :
    Disciplined intpEnable post s ↔ post () { s with sie := true } :=
  ⟨fun h => h.2 () _ rfl, fun h => ⟨trivial, fun _ _ ht => ht ▸ h⟩⟩

theorem disciplined_intpDisable {post : Bool → Hart → Prop} :
    Disciplined intpDisable post s ↔ post s.sie { s with sie := false } :=
  ⟨fun h => h.2 _ _ ⟨rfl, rfl⟩, fun h => ⟨trivial, fun _ _ ⟨ha, ht⟩ => ha ▸ ht ▸ h⟩⟩

theorem disciplined_intpLayer {post : Nat → Hart → Prop} :
    Disciplined intpLayer post s ↔ post s.intpLayer s :=
  ⟨fun h => h.2 _ _ ⟨rfl, rfl⟩, fun h => ⟨trivial, fun _ _ ⟨ha, ht⟩ => ha ▸ ht ▸ h⟩⟩

theorem disciplined_setIntpLayer {n : Nat} {post : Unit → Hart → Prop} :
    Disciplined (setIntpLayer n) post s ↔ post () { s with intpLayer := n } :=
  ⟨fun h => h.2 () _ rfl, fun h => ⟨trivial, fun _ _ ht => ht ▸ h⟩⟩

theorem disciplined_retainedIntp {post : Bool → Hart → Prop} :
    Disciplined retainedIntp post s ↔ post s.retainedIntp s :=
  ⟨fun h => h.2 _ _ ⟨rfl, rfl⟩, fun h => ⟨trivial, fun _ _ ⟨ha, ht⟩ => ha ▸ ht ▸ h⟩⟩

theorem disciplined_setRetainedIntp {b : Bool} {post : Unit → Hart → Prop} :
    Disciplined (setRetainedIntp b) post s ↔ post () { s with retainedIntp := b } :=
  ⟨fun h => h.2 () _ rfl, fun h => ⟨trivial, fun _ _ ht => ht ▸ h⟩⟩

end Events

/-! ## Interrupts and locks -/

/-- The hart after `intp_push`. -/
def Hart.push (h : Hart) : Hart where
  held := h.held
  intpLayer := h.intpLayer + 1
  retainedIntp := if h.intpLayer = 0 then h.sie else h.retainedIntp
  sie := false

/-- The hart after `intp_pop`. -/
def Hart.pop (h : Hart) : Hart where
  held := h.held
  intpLayer := wordSub h.intpLayer 1
  retainedIntp := h.retainedIntp
  sie := if wordSub h.intpLayer 1 = 0 ∧ h.retainedIntp = true then true else h.sie

theorem disciplined_intpPush {post : Unit → Hart → Prop} :
    Disciplined intpPush post h ↔ post () h.push := by
  simp only [intpPush, disciplined_bind, disciplined_intpDisable, disciplined_intpLayer]
  by_cases hlayer : h.intpLayer = 0
  · simp only [hlayer, if_true, disciplined_bind, disciplined_setRetainedIntp, disciplined_intpLayer,
      disciplined_setIntpLayer, Hart.push]
  · simp only [hlayer, if_false, disciplined_bind, disciplined_intpLayer, disciplined_setIntpLayer,
      Hart.push]

theorem disciplined_intpPop {post : Unit → Hart → Prop} :
    Disciplined intpPop post h ↔ post () h.pop := by
  simp only [intpPop, disciplined_bind, disciplined_intpLayer, disciplined_setIntpLayer,
    disciplined_retainedIntp]
  by_cases hend : wordSub h.intpLayer 1 = 0 ∧ h.retainedIntp = true
  · rw [if_pos hend, disciplined_intpEnable, Hart.pop, if_pos hend]
  · rw [if_neg hend, disciplined_pure, Hart.pop, if_neg hend]

/-- The hart after a lock is taken. -/
def Hart.under (h : Hart) (l : Lock) : Hart := { h.push with held := l :: h.held }

/-- The hart after a lock is released. -/
def Hart.without (h : Hart) (l : Lock) : Hart :=
  Hart.pop { h with held := h.held.erase l }

theorem disciplined_acquire (hl : l ∉ h.held) {post : Unit → Hart → Prop} :
    Disciplined (acquire l) post h ↔ post () (h.under l) := by
  have hl' : l ∉ h.push.held := hl
  simp only [acquire, panicE, lkAcquire, disciplined_bind, disciplined_holds, hl, decide_false,
    Bool.false_eq_true, if_false, disciplined_intpPush, disciplined_take, hl', not_false_eq_true,
    true_and, disciplined_pure, if_true]
  rfl

theorem disciplined_release (hl : l ∈ h.held) {post : Unit → Hart → Prop} :
    Disciplined (release l) post h ↔ post () (h.without l) := by
  simp only [release, panicE, lkRelease, disciplined_bind, disciplined_holds, hl, decide_true,
    if_true, disciplined_drop, true_and, disciplined_intpPop, disciplined_pure]
  rfl

/-- A `lk_release` of a lock that the hart does not hold is a panic. -/
theorem not_disciplined_release (hl : l ∉ h.held) {post : Unit → Hart → Prop} :
    ¬ Disciplined (release l) post h := by
  simp only [release, panicE, lkRelease, disciplined_bind, disciplined_holds, hl, decide_false,
    if_false, disciplined_pure, Bool.false_eq_true]
  exact fun hstop => hstop rfl

/-! ## States that are alike -/

/-- Two states of the hart are alike, up to a retained bit that will be written before it is read. -/
structure Hart.Like (t h : Hart) : Prop where
  held : t.held = h.held
  intpLayer : t.intpLayer = h.intpLayer
  sie : t.sie = h.sie
  retainedIntp : 0 < h.intpLayer → t.retainedIntp = h.retainedIntp

/-- Under a layer interrupts are disabled. -/
def Hart.Wf (h : Hart) : Prop := 0 < h.intpLayer → h.sie = false

theorem Hart.wf_under (h : Hart) (l : Lock) : (h.under l).Wf := fun _ => rfl

theorem Hart.Like.push (ht : t.Like h) : t.push.Like h.push := by
  refine ⟨ht.held, by simp [Hart.push, ht.intpLayer], rfl, fun _ => ?_⟩
  simp only [Hart.push, ht.intpLayer, ht.sie]
  split
  · rfl
  · rename_i hne
    exact ht.retainedIntp (Nat.pos_of_ne_zero hne)

/-- `intp_pop` after `intp_push` restores the hart. -/
theorem Hart.Like.pop (hw : h.Wf) (ht : t.Like h.push) : t.pop.Like h := by
  have hlayer : wordSub t.intpLayer 1 = h.intpLayer := by
    rw [ht.intpLayer, Hart.push, wordSub_of_le (Nat.le_add_left 1 _), Nat.add_sub_cancel]
  have hret : t.retainedIntp = if h.intpLayer = 0 then h.sie else h.retainedIntp :=
    ht.retainedIntp (Nat.succ_pos _)
  have hsie : t.sie = false := ht.sie
  refine ⟨ht.held, hlayer, ?_, ?_⟩
  · simp only [Hart.pop, hlayer, hret, hsie]
    by_cases hz : h.intpLayer = 0
    · cases hs : h.sie <;> simp [hz]
    · simp [hz, hw (Nat.pos_of_ne_zero hz)]
  · intro hpos
    show t.retainedIntp = h.retainedIntp
    rw [hret, if_neg hpos.ne']

theorem Hart.Like.under (ht : t.Like h) (l : Lock) : (t.under l).Like (h.under l) := by
  obtain ⟨-, hlayer, hsie, hret⟩ := ht.push
  exact ⟨congrArg (l :: ·) ht.held, hlayer, hsie, hret⟩

theorem Hart.Like.without (hw : h.Wf) (ht : t.Like (h.under l)) : (t.without l).Like h := by
  apply Hart.Like.pop hw
  refine ⟨?_, ht.intpLayer, ht.sie, ht.retainedIntp⟩
  show t.held.erase l = h.held
  rw [ht.held]
  exact List.erase_cons_head l h.held

/-! ## Code that restores the hart -/

/-- From all states like `h` the code is disciplined, and it ends in states like `post`. -/
def Triple (h : Hart) (x : Kern α) (post : α → Hart) : Prop :=
  ∀ t : Hart, t.Like h → Disciplined x (fun a u => u.Like (post a)) t

theorem Triple.bind {x : Kern α} {f : α → Kern β} {mid : α → Hart} {post : β → Hart}
    (hx : Triple h x mid) (hf : ∀ a, Triple (mid a) (f a) post) : Triple h (x >>= f) post := by
  intro t ht
  apply disciplined_bind.mpr
  exact Safe.mono (hx t ht) fun a u hu => hf a u hu

theorem Triple.ite {c : Prop} [Decidable c] {x y : Kern α} {post : α → Hart}
    (hx : Triple h x post) (hy : Triple h y post) : Triple h (if c then x else y) post := by
  split
  · exact hx
  · exact hy

theorem triple_pure {a : α} {post : α → Hart} (hpost : post a = h) : Triple h (pure a) post := by
  intro t ht
  show t.Like (post a)
  exact hpost.symm ▸ ht

theorem Triple.loop {body : Kern (Option α)} {post : α → Hart} {n : Nat}
    (hbody : Triple h body fun o => o.elim h post) : Triple h (Program.loop .running body n) post := by
  intro t ht
  apply Safe.loop (I := fun t => t.Like h) _ (by decide) ht
  intro t ht
  apply Safe.mono (hbody t ht)
  rintro (_ | a) u hu
  · exact hu
  · exact hu

theorem Triple.forM {γ : Type} {l : List γ} {body : γ → Kern Unit}
    (hbody : ∀ b, Triple h (body b) fun _ => h) : Triple h (l.forM body) (fun _ => h) :=
  fun _ ht => Safe.forM (fun b _ => hbody b) ht

theorem triple_acquire (hl : l ∉ h.held) : Triple h (acquire l) (fun _ => h.under l) :=
  fun _ ht => (disciplined_acquire (ht.held ▸ hl)).mpr (ht.under l)

theorem triple_release (hw : h.Wf) : Triple (h.under l) (release l) (fun _ => h) := by
  intro t ht
  have hl : l ∈ t.held := ht.held ▸ List.mem_cons_self
  exact (disciplined_release hl).mpr (Hart.Like.without hw ht)

/-- The code restores every hart that satisfies `C`. -/
def Keeps (C : Hart → Prop) (x : Kern α) : Prop :=
  ∀ h : Hart, h.Wf → C h → Triple h x (fun _ => h)

/-- The code starts under a lock, on a hart that satisfies `C` without it, and restores that hart. -/
def Closes (C : Hart → Prop) (l : Lock) (x : Kern α) : Prop :=
  ∀ h : Hart, h.Wf → C h → Triple (h.under l) x (fun _ => h)

section Rules

variable {C D : Hart → Prop} {x y : Kern α} {f : α → Kern β}

theorem keeps_pure (a : α) : Keeps C (pure a : Kern α) := fun _ _ _ _ ht => ht

theorem keeps_ask : Keeps C ask := fun _ _ _ _ ht => disciplined_ask.mpr fun _ => ht

theorem keeps_stop {r : Stop} (hr : r ≠ .lockPanic) : Keeps C (.stop r : Kern α) :=
  fun _ _ _ _ _ => hr

theorem Keeps.bind (hx : Keeps C x) (hf : ∀ a, Keeps C (f a)) : Keeps C (x >>= f) :=
  fun h hw hc => (hx h hw hc).bind fun a => hf a h hw hc

theorem Keeps.ite {c : Prop} [Decidable c] (hx : Keeps C x) (hy : Keeps C y) :
    Keeps C (if c then x else y) := by
  split
  · exact hx
  · exact hy

theorem Keeps.weaken (hx : Keeps D x) (hcd : ∀ h, C h → D h) : Keeps C x :=
  fun h hw hc => hx h hw (hcd h hc)

theorem Keeps.panicE {r : Stop} {x : Kern Bool} (hx : Keeps C x) (hr : r ≠ .lockPanic) :
    Keeps C (Locks.panicE r x) :=
  hx.bind fun _ => Keeps.ite (keeps_pure ()) (keeps_stop hr)

theorem Keeps.forM {γ : Type} {l : List γ} {body : γ → Kern Unit} (hbody : ∀ b, Keeps C (body b)) :
    Keeps C (l.forM body) :=
  fun h hw hc => Triple.forM fun b => hbody b h hw hc

theorem Keeps.loop {body : Kern (Option α)} {n : Nat} (hbody : Keeps C body) :
    Keeps C (Program.loop .running body n) := by
  intro h hw hc
  apply Triple.loop
  intro t ht
  apply Safe.mono (hbody h hw hc t ht)
  rintro (_ | a) u hu
  · exact hu
  · exact hu

/-- The queue of time events is changed between `intp_push` and `intp_pop`. -/
theorem Keeps.intp {f : Unit → Unit → Kern β} (hf : Keeps C (f () ())) :
    Keeps C (intpPush >>= fun a => intpPop >>= f a) := by
  intro h hw hc t ht
  apply disciplined_bind.mpr
  apply disciplined_intpPush.mpr
  apply disciplined_bind.mpr
  apply disciplined_intpPop.mpr
  exact hf h hw hc _ (Hart.Like.pop hw ht.push)

theorem closes_stop {r : Stop} (hr : r ≠ .lockPanic) : Closes C l (.stop r : Kern α) :=
  fun _ _ _ _ _ => hr

theorem Closes.ite {c : Prop} [Decidable c] (hx : Closes C l x) (hy : Closes C l y) :
    Closes C l (if c then x else y) := by
  split
  · exact hx
  · exact hy

/-- Code that restores the hart may run under the lock. -/
theorem Closes.after (hf : ∀ a, Closes C l (f a)) (hx : Keeps D x)
    (hcd : ∀ h, C h → D (h.under l)) : Closes C l (x >>= f) :=
  fun h hw hc => (hx _ (h.wf_under l) (hcd h hc)).bind fun a => hf a h hw hc

theorem Closes.ask {f : Bool → Kern β} (hf : ∀ b, Closes C l (f b)) :
    Closes C l (Locks.ask >>= f) :=
  Closes.after (D := fun _ => True) hf keeps_ask fun _ _ => trivial

/-- The lock is released, and the rest restores the hart. -/
theorem closes_release {f : Unit → Kern β} (hf : Keeps C (f ())) : Closes C l (release l >>= f) :=
  fun h hw hc => (triple_release hw).bind fun _ => hf h hw hc

theorem closes_release_end : Closes C l (release l) := fun _ hw _ => triple_release hw

/-- **The rule for critical sections.** -/
theorem Keeps.section {f : Unit → Kern β} (hl : ∀ h, C h → l ∉ h.held) (hf : Closes C l (f ())) :
    Keeps C (acquire l >>= f) :=
  fun h hw hc => (triple_acquire (hl h hc)).bind fun _ => hf h hw hc

end Rules

/-! ## The functions that the services call -/

/-- The hart holds none of the locks. -/
def NoneOf (S : Set Lock) (h : Hart) : Prop := ∀ l ∈ S, l ∉ h.held

theorem NoneOf.under {S : Set Lock} (hs : NoneOf S h) (hl : l ∉ S) : NoneOf S (h.under l) := by
  intro l' hl' hmem
  rcases List.mem_cons.mp hmem with rfl | hmem
  · exact hl hl'
  · exact hs l' hl' hmem

/-- The locks of the modules of the kernel, which are not those of an object. -/
def modules : Set Lock := {l | match l with
  | .prState _ | .buf _ | .bb _ | .ch _ => False
  | _ => True}

theorem NoneOf.mono {S T : Set Lock} (hs : NoneOf T h) (hst : S ⊆ T) : NoneOf S h :=
  fun l' hl' => hs l' (hst hl')

section Functions

/-- A lock of a module is free. -/
theorem free_of_modules (hl : l ∈ modules) : ∀ h, NoneOf modules h → l ∉ h.held :=
  fun _ hc => hc l hl

/-- Only a section of a module that does nothing else. -/
theorem keeps_section_end {C : Hart → Prop} (hl : ∀ h, C h → l ∉ h.held) (a : α) :
    Keeps C (do acquire l; release l; pure a) :=
  Keeps.section hl (closes_release (keeps_pure a))

theorem keeps_kalloc : Keeps (NoneOf modules) kalloc := by
  have hl := free_of_modules (l := .kallocMod) trivial
  refine keeps_ask.bind fun _ => (keeps_pure _).ite (Keeps.section hl (Closes.ask fun _ => ?_))
  refine Closes.ite (closes_release (keeps_pure _)) (closes_release ?_)
  exact keeps_section_end hl true

theorem keeps_kfree : Keeps (NoneOf modules) kfree := by
  refine Keeps.section (free_of_modules trivial) (Closes.ask fun _ => ?_)
  exact Closes.ite closes_release_end (closes_stop (by decide))

theorem keeps_phyFrameAlloc : Keeps (NoneOf modules) phyFrameAlloc := by
  refine Keeps.section (free_of_modules trivial) (Closes.ask fun _ => Closes.ite ?_ ?_)
  · refine Closes.after (D := fun _ => True) (fun _ => closes_release (keeps_pure _)) ?_ ?_
    · exact keeps_ask.panicE (by decide)
    · exact fun _ _ => trivial
  · exact closes_release (keeps_pure _)

theorem keeps_phyFrameFree : Keeps (NoneOf {.pfFreeList}) phyFrameFree :=
  keeps_ask.bind fun _ =>
    (keeps_section_end (fun _ hc => hc _ rfl) true).ite (keeps_pure _)

theorem keeps_phyFrameRefDec : Keeps (NoneOf modules) phyFrameRefDec := by
  refine Keeps.section (free_of_modules trivial) (Closes.ask fun _ => ?_)
  refine Closes.ite (closes_release (keeps_pure _)) (Closes.ask fun _ => ?_)
  refine Closes.ite ?_ (closes_release (keeps_pure _))
  -- `phy_frame_free` runs under the lock of the reference counts.
  refine Closes.after (fun _ => ?_) keeps_phyFrameFree ?_
  · exact Closes.ite (closes_release (keeps_pure _)) (closes_release (keeps_pure _))
  · intro h hc
    refine NoneOf.under (hc.mono ?_) (by simp)
    rintro l rfl
    trivial

theorem keeps_phyFrameRefInc : Keeps (NoneOf modules) phyFrameRefInc :=
  keeps_section_end (free_of_modules (l := .frameRefMod) trivial) true

theorem keeps_ptFrameAlloc : Keeps (NoneOf modules) ptFrameAlloc := by
  refine keeps_phyFrameAlloc.bind fun _ => Keeps.ite ?_ (keeps_pure _)
  refine (keeps_phyFrameRefInc.panicE (by decide)).bind fun _ => ?_
  exact (keeps_ask.panicE (by decide)).bind fun _ => keeps_pure _

theorem keeps_ptFrameRefInc : Keeps (NoneOf modules) ptFrameRefInc :=
  keeps_ask.bind fun _ =>
    ((keeps_phyFrameRefInc.panicE (by decide)).bind fun _ => keeps_pure _).ite (keeps_pure _)

theorem keeps_ptFrameRefDec : Keeps (NoneOf modules) ptFrameRefDec :=
  keeps_ask.bind fun _ =>
    ((keeps_phyFrameRefDec.panicE (by decide)).bind fun _ => keeps_pure _).ite (keeps_pure _)

theorem keeps_ptWalkLevel {create : Bool} {undo : Kern Unit} (hundo : Keeps (NoneOf modules) undo) :
    Keeps (NoneOf modules) (ptWalkLevel create undo) := by
  refine keeps_ask.bind fun _ => (keeps_pure _).ite (Keeps.ite ?_ (keeps_pure _))
  refine keeps_ptFrameAlloc.bind fun _ => (keeps_pure _).ite ?_
  exact hundo.bind fun _ => keeps_pure _

theorem keeps_ptWalk (create : Bool) : Keeps (NoneOf modules) (ptWalk create) := by
  refine (keeps_ptWalkLevel (keeps_pure ())).bind fun r => ?_
  have hundo : Keeps (NoneOf modules) (do if ← ask then panicE .panic ptFrameRefDec) :=
    keeps_ask.bind fun _ => (keeps_ptFrameRefDec.panicE (by decide)).ite (keeps_pure ())
  rcases r with _ | _ | _
  · exact keeps_pure _
  · exact keeps_pure _
  · exact keeps_ptWalkLevel hundo

theorem keeps_ptLookup : Keeps (NoneOf modules) ptLookup := by
  refine (keeps_ptWalk false).bind fun r => ?_
  rcases r with _ | _ | _
  · exact keeps_pure _
  · exact keeps_pure _
  · exact keeps_ask.bind fun _ => keeps_pure _

theorem keeps_ptUnmap : Keeps (NoneOf modules) ptUnmap := by
  refine keeps_ptLookup.bind fun r => ?_
  rcases r with _ | _ | _
  · exact keeps_pure _
  · exact keeps_pure _
  · exact keeps_ptFrameRefDec

theorem keeps_ptMapFresh : Keeps (NoneOf modules) ptMap.ptMapFresh := by
  refine (keeps_ptWalk true).bind fun r => ?_
  rcases r with _ | _
  · exact keeps_pure _
  · exact (keeps_ptFrameRefInc.panicE (by decide)).bind fun _ => keeps_pure _

theorem keeps_ptMap : Keeps (NoneOf modules) ptMap := by
  refine (keeps_ptWalk false).bind fun r => ?_
  rcases r with _ | _
  · exact keeps_pure _
  · refine keeps_ask.bind fun _ => Keeps.ite ?_ keeps_ptMapFresh
    exact keeps_ptUnmap.bind fun _ => keeps_ptMapFresh.ite (keeps_pure _)

theorem keeps_timeEventSetHead {C : Hart → Prop} : Keeps C timeEventSetHead := by
  refine keeps_ask.bind fun _ => (keeps_ask.panicE (by decide)).ite ?_
  exact keeps_ask.bind fun _ => (keeps_pure _).ite (keeps_ask.panicE (by decide))

theorem keeps_timeEventAlloc : Keeps (NoneOf modules) timeEventAlloc :=
  keeps_kalloc.bind fun _ => Keeps.intp keeps_timeEventSetHead

theorem keeps_timeEventFree : Keeps (NoneOf modules) timeEventFree :=
  Keeps.intp (keeps_timeEventSetHead.bind fun _ => keeps_kfree)

theorem keeps_ctxAlloc : Keeps (NoneOf modules) ctxAlloc := by
  refine Keeps.section (free_of_modules trivial) (Closes.ask fun _ => ?_)
  exact Closes.ite (closes_release (keeps_pure _)) (closes_release (keeps_pure _))

theorem keeps_ctxFree : Keeps (NoneOf modules) ctxFree :=
  Keeps.section (free_of_modules (l := .trapsCtxFreeList) trivial) closes_release_end

theorem keeps_freeTimer : Keeps (NoneOf modules) freeTimer :=
  keeps_ask.bind fun _ => keeps_timeEventFree.ite (keeps_pure _)

theorem keeps_wakeup : Keeps (NoneOf modules) wakeup :=
  keeps_ask.bind fun _ => (keeps_freeTimer.bind fun _ => keeps_pure _).ite (keeps_pure _)

end Functions

/-! ## The hart of a process that gives it up -/

/-- The hart holds no lock and interrupts are not nested. -/
structure Idle (h : Hart) : Prop where
  held : h.held = []
  intpLayer : h.intpLayer = 0

theorem Idle.free (hi : Idle h) (l : Lock) : l ∉ h.held := by
  rw [hi.held]
  exact List.not_mem_nil

theorem Idle.noneOf (hi : Idle h) (S : Set Lock) : NoneOf S h := fun l _ => hi.free l

theorem Idle.of_like (hi : Idle h) (ht : t.Like h) : Idle t :=
  ⟨ht.held.trans hi.held, ht.intpLayer.trans hi.intpLayer⟩

theorem Keeps.idle {x : Kern α} {S : Set Lock} (hx : Keeps (NoneOf S) x) : Keeps Idle x :=
  hx.weaken fun _ hi => hi.noneOf S

theorem disciplined_giveUp {post : Unit → Hart → Prop} :
    Disciplined giveUp post h ↔ Idle h ∧ post () h :=
  ⟨fun hd => ⟨⟨hd.1.1, hd.1.2⟩, hd.2 () h rfl⟩,
    fun hd => ⟨⟨hd.1.held, hd.1.intpLayer⟩, fun _ _ ht => ht ▸ hd.2⟩⟩

theorem disciplined_switch {post : Unit → Hart → Prop} :
    Disciplined switch post h ↔
      (Idle h ∧ h.sie = false) ∧ ∀ b, post () { h with retainedIntp := b } :=
  ⟨fun hd => ⟨⟨⟨hd.1.1, hd.1.2.1⟩, hd.1.2.2⟩, fun b => hd.2 () _ ⟨b, rfl⟩⟩,
    fun hd => ⟨⟨hd.1.1.held, hd.1.1.intpLayer, hd.1.2⟩, fun _ _ ⟨b, ht⟩ => ht ▸ hd.2 b⟩⟩

theorem keeps_giveUp : Keeps Idle giveUp :=
  fun _ _ hi _ ht => disciplined_giveUp.mpr ⟨hi.of_like ht, ht⟩

theorem keeps_schedElectNextProc {C : Hart → Prop} (rounds : Nat) :
    Keeps C (schedElectNextProc rounds) :=
  Keeps.loop (keeps_ask.bind fun _ => (keeps_pure _).ite (keeps_pure _))

/-- A process that gives up the hart has it back as it was. -/
theorem keeps_schedProcGiveUp (rounds : Nat) : Keeps Idle (schedProcGiveUp rounds) := by
  refine keeps_giveUp.bind fun _ => (keeps_schedElectNextProc rounds).bind fun _ => ?_
  refine keeps_ask.bind fun _ => Keeps.ite ?_ (keeps_pure _)
  intro h hw hi t ht
  have hoff : Idle { h with sie := false } := ⟨hi.held, hi.intpLayer⟩
  have halloc := (keeps_ctxAlloc.panicE (r := .panic) (by decide)) { h with sie := false }
    (fun _ => rfl) (hoff.noneOf _)
  apply disciplined_bind.mpr
  apply disciplined_intpDisable.mpr
  apply disciplined_bind.mpr
  apply Safe.mono (halloc { t with sie := false } ⟨ht.held, ht.intpLayer, rfl, ht.retainedIntp⟩)
  intro _ u hu
  apply disciplined_bind.mpr
  apply disciplined_switch.mpr
  refine ⟨⟨hoff.of_like hu, hu.sie⟩, fun b => ?_⟩
  have hlayer : ¬ 0 < h.intpLayer := by simp [hi.intpLayer]
  cases hs : t.sie with
  | false => exact ⟨hu.held, hu.intpLayer, by rw [← ht.sie, hs]; exact hu.sie, fun hp => absurd hp hlayer⟩
  | true =>
      apply disciplined_intpEnable.mpr
      exact ⟨hu.held, hu.intpLayer, by rw [← ht.sie, hs], fun hp => absurd hp hlayer⟩

/-! ## The services -/

section Services

variable {C : Hart → Prop} {x : Kern α} {f : α → Kern β}

/-- The functions of the modules may run under the lock of an object. -/
theorem Closes.object (hl : l ∉ modules) (hx : Keeps (NoneOf modules) x)
    (hf : ∀ a, Closes Idle l (f a)) : Closes Idle l (x >>= f) :=
  Closes.after hf hx fun _ hi => (hi.noneOf modules).under hl

/-- A critical section of an idle hart. -/
theorem Keeps.locked {f : Unit → Kern β} (hf : Closes Idle l (f ())) : Keeps Idle (acquire l >>= f) :=
  Keeps.section (fun _ hi => hi.free l) hf

theorem Keeps.void {x : Kern α} (hx : Keeps C x) : Keeps C (doSyscall.void x) :=
  hx.bind fun _ => keeps_pure ()

theorem keeps_procReset (rounds processId : Nat) : Keeps Idle (procReset rounds processId) := by
  have hbody : Keeps Idle (do if ← ask then pure (some ()) else ctxFree; pure none) :=
    keeps_ask.bind fun _ => (keeps_pure _).ite (keeps_ctxFree.idle.bind fun _ => keeps_pure _)
  refine (Keeps.loop hbody).bind fun _ => (keeps_ctxAlloc.idle.panicE (by decide)).bind fun _ => ?_
  intro h hw hi t ht
  refine ⟨trivial, ?_⟩
  rintro _ u rfl
  refine ⟨?_, ht.intpLayer, ht.sie, ht.retainedIntp⟩
  show t.held.erase _ = h.held
  rw [ht.held, hi.held, List.erase_nil]

theorem keeps_idAlloc (nxtId : Lock) : Keeps Idle (idAlloc nxtId) :=
  Keeps.locked closes_release_end

theorem keeps_stackPage : Keeps (NoneOf modules) stackPage :=
  keeps_phyFrameAlloc.bind fun _ =>
    ((keeps_ask.panicE (by decide)).bind fun _ => keeps_ptMap).ite (keeps_pure _)

theorem keeps_stackSetup (stacksize : Nat) : Keeps (NoneOf modules) (stackSetup stacksize) :=
  Keeps.forM fun _ => keeps_stackPage.panicE (by decide)

theorem keeps_procAlloc (rounds stacksize processId : Nat) :
    Keeps Idle (procAlloc rounds stacksize processId) := by
  refine keeps_ask.bind fun _ => (keeps_pure _).ite ?_
  refine keeps_kalloc.idle.bind fun _ => keeps_kalloc.idle.bind fun _ => ?_
  refine (keeps_idAlloc _).bind fun _ => ?_
  refine (keeps_stackSetup _).idle.bind fun _ => (keeps_stackSetup _).idle.bind fun _ => ?_
  refine Keeps.locked (closes_release ?_)
  exact (keeps_procReset rounds processId).bind fun _ => keeps_pure _

theorem keeps_partCommAlloc : Keeps Idle partCommAlloc := by
  refine Keeps.locked (Closes.ask fun _ => ?_)
  exact Closes.ite (closes_release (keeps_pure _)) (closes_release (keeps_pure _))

theorem keeps_commAlloc {ids : Kern Unit} (hids : Keeps Idle ids) (idMap : Lock) :
    Keeps Idle (commAlloc ids idMap) := by
  refine keeps_kalloc.idle.bind fun _ => hids.bind fun _ => keeps_kalloc.idle.bind fun _ => ?_
  refine keeps_partCommAlloc.bind fun _ => Keeps.ite ?_ ?_
  · exact Keeps.locked (closes_release (keeps_pure _))
  · exact keeps_kfree.idle.bind fun _ => keeps_kfree.idle.bind fun _ => keeps_pure _

theorem keeps_queuingPortAlloc : Keeps Idle queuingPortAlloc := by
  refine keeps_ask.bind fun _ => (keeps_pure _).ite (keeps_kalloc.idle.bind fun _ => ?_)
  exact (keeps_idAlloc _).bind fun _ => keeps_kalloc.idle.bind fun _ => keeps_pure _

/-! ### Console -/

theorem keeps_consPutChar (rounds : Nat) : Keeps Idle (consPutChar rounds) :=
  Keeps.loop (Keeps.locked (Closes.ask fun _ => closes_release (keeps_pure _)))

theorem keeps_doConsWriteChar (rounds ch : Nat) : Keeps Idle (doConsWriteChar rounds ch) :=
  (keeps_consPutChar rounds).bind fun _ => (keeps_consPutChar rounds).ite (keeps_pure _)

theorem keeps_printSection {write : Kern Unit} (hwrite : Keeps (fun _ => True) write) :
    Keeps Idle (printSection write) :=
  Keeps.locked (Closes.after (fun _ => closes_release_end) hwrite fun _ _ => trivial)

theorem keeps_doHalt : Keeps Idle doHalt := by
  have hask : Keeps (fun _ => True) (panicE .panic ask) := keeps_ask.panicE (by decide)
  refine (keeps_printSection (keeps_pure ())).bind fun _ => (keeps_printSection hask).bind fun _ => ?_
  refine keeps_ask.bind fun _ => (keeps_stop (by decide)).ite ?_
  refine (keeps_printSection hask).bind fun _ => (keeps_printSection (keeps_pure ())).bind fun _ => ?_
  exact keeps_stop (by decide)

/-! ### Partitions and processes -/

theorem keeps_answer (codes : List RetCode) : Keeps C (answer codes) := by
  induction codes with
  | nil => exact keeps_pure _
  | cons c cs ih => exact keeps_ask.bind fun _ => (keeps_pure c).ite ih

theorem keeps_doSetPartitionMode (rounds operatingMode : Nat) :
    Keeps Idle (doSetPartitionMode rounds operatingMode) := by
  refine keeps_ask.bind fun _ => (keeps_pure _).ite (keeps_ask.bind fun _ => (keeps_pure _).ite ?_)
  split
  · exact keeps_pure _
  · exact keeps_pure _
  · exact keeps_pure _
  · exact (keeps_schedProcGiveUp rounds).bind fun _ => keeps_pure _
  · exact keeps_pure _

theorem keeps_doCreateProcess (rounds stackSize processId : Nat) :
    Keeps Idle (doCreateProcess rounds stackSize processId) := by
  refine keeps_ask.bind fun _ => (keeps_pure _).ite ((keeps_pure _).ite ?_)
  refine keeps_ask.bind fun _ => (keeps_pure _).ite (keeps_ask.bind fun _ => (keeps_pure _).ite ?_)
  exact (keeps_procAlloc rounds stackSize processId).bind fun _ => (keeps_pure _).ite (keeps_pure _)

/-- The process gives up the hart, and the call returns. -/
theorem keeps_giveUpThen (rounds : Nat) (a : α) :
    Keeps Idle (do schedProcGiveUp rounds; pure a) :=
  (keeps_schedProcGiveUp rounds).bind fun _ => keeps_pure a

theorem keeps_doSetPriority (rounds : Nat) : Keeps Idle (doSetPriority rounds) :=
  keeps_ask.bind fun _ => (keeps_pure _).ite <| keeps_ask.bind fun _ =>
    (keeps_pure _).ite (keeps_giveUpThen rounds _)

theorem keeps_doSuspendSelf (rounds cur : Nat) (timeOut : Int) :
    Keeps Idle (doSuspendSelf rounds cur timeOut) := by
  refine keeps_ask.bind fun _ => (keeps_pure _).ite ((keeps_pure _).ite (Keeps.locked ?_))
  refine Closes.ite ?_ (closes_release (keeps_giveUpThen rounds _))
  refine Closes.object id keeps_timeEventAlloc fun _ => closes_release ?_
  refine (keeps_schedProcGiveUp rounds).bind fun _ => keeps_ask.bind fun _ => ?_
  exact (keeps_pure _).ite (keeps_pure _)

theorem keeps_doSuspend (rounds : Nat) : Keeps Idle (doSuspend rounds) := by
  refine (keeps_answer _).bind fun c => ?_
  split
  · exact keeps_giveUpThen rounds _
  · exact keeps_pure _

theorem keeps_doResume (rounds processId : Nat) : Keeps Idle (doResume rounds processId) := by
  refine keeps_ask.bind fun _ => (keeps_pure _).ite (keeps_ask.bind fun _ => (keeps_pure _).ite ?_)
  refine Keeps.locked (Closes.ask fun _ => Closes.ite (closes_release (keeps_pure _)) ?_)
  exact Closes.object id keeps_freeTimer fun _ => closes_release (keeps_giveUpThen rounds _)

theorem keeps_doStop (rounds processId : Nat) : Keeps Idle (doStop rounds processId) := by
  refine keeps_ask.bind fun _ => (keeps_pure _).ite (keeps_ask.bind fun _ => (keeps_pure _).ite ?_)
  refine Keeps.locked ?_
  exact Closes.object id keeps_freeTimer fun _ => closes_release (keeps_giveUpThen rounds _)

theorem keeps_setState (processId : Nat) : Keeps Idle (setState processId) :=
  Keeps.locked closes_release_end

/-- A delay is added under the lock of the process. -/
theorem keeps_delay {f : Unit → Kern β} (processId : Nat) (hf : Keeps Idle (f ())) :
    Keeps Idle (do acquire (.prState processId); timeEventAlloc; release (.prState processId) >>= f) :=
  Keeps.locked (Closes.object id keeps_timeEventAlloc fun _ => closes_release hf)

theorem keeps_doDelayedStart (rounds processId : Nat) (delayTime : Int) :
    Keeps Idle (doDelayedStart rounds processId delayTime) := by
  refine keeps_ask.bind fun _ => (keeps_pure _).ite (keeps_ask.bind fun _ => (keeps_pure _).ite ?_)
  refine (keeps_pure _).ite (keeps_ask.bind fun _ => (keeps_pure _).ite ?_)
  refine keeps_ask.bind fun _ => Keeps.ite ?_ ?_
  · refine (keeps_procReset rounds processId).bind fun _ => keeps_ask.bind fun _ => Keeps.ite ?_ ?_
    · have hgiveUp := keeps_giveUpThen rounds RetCode.noError
      exact Keeps.ite hgiveUp (keeps_delay processId hgiveUp)
    · exact (keeps_setState processId).bind fun _ => keeps_pure _
  · refine (keeps_procReset rounds processId).bind fun _ => ?_
    exact (keeps_setState processId).bind fun _ => keeps_pure _

theorem keeps_doTimedWait (rounds cur : Nat) (delayTime : Int) :
    Keeps Idle (doTimedWait rounds cur delayTime) := by
  have hgiveUp := keeps_giveUpThen rounds RetCode.noError
  exact (keeps_pure _).ite (Keeps.ite hgiveUp (keeps_delay cur hgiveUp))

/-! ### Loops that release the lock and take it again -/

theorem triple_consRetryChar (hi : Idle h) (hw : h.Wf) (rounds : Nat) :
    Triple (h.under .serialOutputDev) (consRetryChar rounds) (fun _ => h.under .serialOutputDev) := by
  apply Triple.loop
  refine Triple.bind (keeps_ask (C := fun _ => True) _ (h.wf_under _) trivial) fun _ => Triple.ite ?_ ?_
  · exact triple_pure rfl
  · refine (triple_release hw).bind fun _ => (triple_acquire (hi.free _)).bind fun _ => ?_
    exact triple_pure rfl

theorem keeps_doConsWriteBuf (rounds len : Nat) : Keeps Idle (doConsWriteBuf rounds len) := by
  refine Keeps.locked ?_
  intro h hw hi
  have hretry := triple_consRetryChar hi hw rounds
  have hask := keeps_ask (C := fun _ => True) _ (h.wf_under .serialOutputDev) trivial
  have hround : Triple (h.under .serialOutputDev)
      (do consRetryChar rounds; if ← ask then consRetryChar rounds else pure ())
      (fun _ => h.under .serialOutputDev) :=
    hretry.bind fun _ => hask.bind fun _ => hretry.ite (triple_pure rfl)
  exact (Triple.forM fun _ => hround).bind fun _ => triple_release hw

/-- Where a wait ends: with a code, or with the lock of the object. -/
def waiting (h : Hart) (l : Lock) : Option RetCode → Hart
  | some _ => h
  | none => h.under l

theorem keeps_expired (timeOut : Int) : Keeps C (expired timeOut) :=
  (keeps_pure _).ite keeps_ask

/-- **The wait for an object** ends without its lock where a code is returned, and with it otherwise. -/
theorem triple_waitReady (hi : Idle h) (hw : h.Wf) (hl : l ∉ modules) (rounds : Nat) (timeOut : Int) :
    Triple h (waitReady rounds l timeOut) (waiting h l) := by
  have hheld : NoneOf modules (h.under l) := (hi.noneOf modules).under hl
  have hask := keeps_ask _ (h.wf_under l) hheld
  have hacquire := triple_acquire (hi.free l)
  have hrelease := triple_release (l := l) hw
  refine hacquire.bind fun _ => hask.bind fun _ => Triple.ite (Triple.ite ?_ (Triple.loop ?_)) ?_
  · exact hrelease.bind fun _ => triple_pure rfl
  · have hexpired := keeps_expired timeOut _ (h.wf_under l) hheld
    refine hexpired.bind fun _ => Triple.ite ?_ ?_
    · exact hrelease.bind fun _ => triple_pure rfl
    have hretry : Triple h
        (do if ← expired timeOut then pure (some (some RetCode.timedOut))
            else
              acquire l
              if ← ask then pure none else pure (some none))
        (fun o => o.elim (h.under l) (waiting h l)) := by
      refine (keeps_expired timeOut h hw hi).bind fun _ => Triple.ite (triple_pure rfl) ?_
      refine hacquire.bind fun _ => hask.bind fun _ => Triple.ite ?_ ?_
      · exact triple_pure rfl
      · exact triple_pure rfl
    -- The process waits, and tries again when it is back.
    have hwait : Triple (h.under l)
        (do release l
            schedProcGiveUp rounds
            if timeOut = systemTimeInfiniteVal then pure () else kfree
            if ← expired timeOut then pure (some (some RetCode.timedOut))
            else
              acquire l
              if ← ask then pure none else pure (some none))
        (fun o => o.elim (h.under l) (waiting h l)) := by
      refine hrelease.bind fun _ => (keeps_schedProcGiveUp rounds h hw hi).bind fun _ => ?_
      exact Triple.ite hretry ((keeps_kfree.idle h hw hi).bind fun _ => hretry)
    refine Triple.ite hwait ?_
    refine (keeps_kalloc _ (h.wf_under l) hheld).bind fun _ => ?_
    exact (keeps_timeEventAlloc _ (h.wf_under l) hheld).bind fun _ => hwait
  · exact triple_pure rfl

/-! ### Communication -/

theorem keeps_portTransfer (rounds portId : Nat) (timeOut : Int) :
    Keeps Idle (portTransfer rounds portId timeOut) := by
  intro h hw hi
  refine (triple_waitReady hi hw id rounds timeOut).bind fun r => ?_
  cases r with
  | some c => exact triple_pure rfl
  | none =>
      have hend : Closes Idle (.ch portId) (do let _ ← wakeup; release (.ch portId); pure RetCode.noError) :=
        Closes.object id keeps_wakeup fun _ => closes_release (keeps_pure _)
      exact hend h hw hi

theorem keeps_doSendQueuingMessage (rounds portId length : Nat) (timeOut : Int) :
    Keeps Idle (doSendQueuingMessage rounds portId length timeOut) := by
  refine keeps_ask.bind fun _ => (keeps_pure _).ite (keeps_ask.bind fun _ => (keeps_pure _).ite ?_)
  refine (keeps_pure _).ite (keeps_ask.bind fun _ => (keeps_pure _).ite ?_)
  exact keeps_portTransfer rounds portId timeOut

theorem keeps_doReceiveQueuingMessage (rounds portId : Nat) (timeOut : Int) :
    Keeps Idle (doReceiveQueuingMessage rounds portId timeOut) := by
  refine keeps_ask.bind fun _ => (keeps_pure _).ite (keeps_ask.bind fun _ => (keeps_pure _).ite ?_)
  exact keeps_portTransfer rounds portId timeOut

theorem keeps_doClearQueuingPort (portId : Nat) : Keeps Idle (doClearQueuingPort portId) := by
  refine keeps_ask.bind fun _ => (keeps_pure _).ite (keeps_ask.bind fun _ => (keeps_pure _).ite ?_)
  have hend : Closes Idle (.ch portId) (do release (.ch portId); pure RetCode.noError) :=
    closes_release (keeps_pure _)
  exact Keeps.locked (Closes.ask fun _ => (Closes.object id keeps_wakeup fun _ => hend).ite hend)

theorem keeps_doCreateQueuingPort : Keeps Idle doCreateQueuingPort := by
  refine (keeps_answer _).bind fun c => ?_
  split
  · exact keeps_queuingPortAlloc.bind fun _ => (keeps_pure _).ite (keeps_pure _)
  · exact keeps_pure _

theorem keeps_createObject {alloc : Kern Bool} (halloc : Keeps Idle alloc) (maxMessageSize : Nat) :
    Keeps Idle (createObject maxMessageSize alloc) := by
  refine keeps_ask.bind fun _ => (keeps_pure _).ite ((keeps_pure _).ite ?_)
  refine keeps_ask.bind fun _ => (keeps_pure _).ite ?_
  exact halloc.bind fun _ => (keeps_pure _).ite (keeps_pure _)

theorem keeps_bufferTransfer (rounds bufferId : Nat) (timeOut : Int) :
    Keeps Idle (bufferTransfer rounds bufferId timeOut) := by
  intro h hw hi
  refine (triple_waitReady hi hw id rounds timeOut).bind fun r => ?_
  cases r with
  | some c => exact triple_pure rfl
  | none =>
      have hend : Closes Idle (.buf bufferId)
          (do if ← wakeup then
                release (.buf bufferId)
                schedProcGiveUp rounds
              else release (.buf bufferId)
              pure RetCode.noError) :=
        Closes.object id keeps_wakeup fun _ =>
          Closes.ite (closes_release (keeps_giveUpThen rounds _)) (closes_release (keeps_pure _))
      exact hend h hw hi

theorem keeps_doSendBuffer (rounds bufferId length : Nat) (timeOut : Int) :
    Keeps Idle (doSendBuffer rounds bufferId length timeOut) := by
  refine keeps_ask.bind fun _ => (keeps_pure _).ite (keeps_ask.bind fun _ => (keeps_pure _).ite ?_)
  exact (keeps_pure _).ite (keeps_bufferTransfer rounds bufferId timeOut)

theorem keeps_doReceiveBuffer (rounds bufferId : Nat) (timeOut : Int) :
    Keeps Idle (doReceiveBuffer rounds bufferId timeOut) :=
  keeps_ask.bind fun _ => (keeps_pure _).ite (keeps_bufferTransfer rounds bufferId timeOut)

theorem keeps_doDisplayBlackboard (rounds blackboardId length : Nat) :
    Keeps Idle (doDisplayBlackboard rounds blackboardId length) := by
  refine keeps_ask.bind fun _ => (keeps_pure _).ite (keeps_ask.bind fun _ => (keeps_pure _).ite ?_)
  refine (keeps_pure _).ite (Keeps.locked ?_)
  have hround : Keeps (NoneOf modules) (do if ← wakeup then pure none else pure (some ())) :=
    keeps_wakeup.bind fun _ => (keeps_pure _).ite (keeps_pure _)
  exact Closes.object id (Keeps.loop hround) fun _ => closes_release (keeps_giveUpThen rounds _)

theorem keeps_doReadBlackboard (rounds blackboardId : Nat) (timeOut : Int) :
    Keeps Idle (doReadBlackboard rounds blackboardId timeOut) := by
  refine keeps_ask.bind fun _ => (keeps_pure _).ite ?_
  intro h hw hi
  refine (triple_waitReady hi hw id rounds timeOut).bind fun r => ?_
  cases r with
  | some c => exact triple_pure rfl
  | none => exact (triple_release hw).bind fun _ => triple_pure rfl

theorem keeps_doClearBlackboard (blackboardId : Nat) : Keeps Idle (doClearBlackboard blackboardId) :=
  keeps_ask.bind fun _ => (keeps_pure _).ite (Keeps.locked (closes_release (keeps_pure _)))

/-! ### The switch -/

/-- All services but one restore an idle hart. -/
theorem keeps_doSyscall {sysno : Nat} (hne : sysno ≠ sysConsReadChar) (rounds cur : Nat) (args : Args) :
    Keeps Idle (doSyscall rounds cur sysno args) := by
  -- one case for each entry of the table; `CONS_READ_CHAR` waits for a character with its lock held
  unfold doSyscall
  split
  · exact keeps_doConsWriteChar rounds _
  · exact absurd rfl hne
  · exact keeps_doConsWriteBuf rounds _
  · exact keeps_doHalt
  · exact (keeps_doSetPartitionMode rounds _).void
  · exact (keeps_doCreateProcess rounds _ _).void
  · exact (keeps_doSetPriority rounds).void
  · exact (keeps_doSuspendSelf rounds cur _).void
  · exact (keeps_doSuspend rounds).void
  · exact (keeps_doResume rounds _).void
  · exact keeps_schedProcGiveUp rounds
  · exact (keeps_doStop rounds _).void
  · exact (keeps_doDelayedStart rounds _ 0).void
  · exact (keeps_doDelayedStart rounds _ _).void
  · exact (keeps_doTimedWait rounds cur _).void
  · exact keeps_doCreateQueuingPort.void
  · exact (keeps_doSendQueuingMessage rounds _ _ _).void
  · exact (keeps_doReceiveQueuingMessage rounds _ _).void
  · exact (keeps_doClearQueuingPort _).void
  · exact (keeps_createObject (keeps_commAlloc (keeps_idAlloc _) _) _).void
  · exact (keeps_doSendBuffer rounds _ _ _).void
  · exact (keeps_doReceiveBuffer rounds _ _).void
  · exact (keeps_createObject (keeps_commAlloc (keeps_idAlloc _) _) _).void
  · exact (keeps_doDisplayBlackboard rounds _ _).void
  · exact (keeps_doReadBlackboard rounds _ _).void
  · exact (keeps_doClearBlackboard _).void
  · exact keeps_ask.void

end Services

/-! ## The calls that are disciplined -/

/-- The policy of a call that starts on the hart `h`: the events are allowed, there is no `panic_e` on a
lock, and the call returns with the locks, the counter and the interrupt-enable bit of its entry. -/
def discipline (h : Hart) : Policy HartEv Stop α Hart where
  event := allowed
  stop := fun r => r ≠ .lockPanic
  ret := fun _ t => t.held = h.held ∧ t.intpLayer = h.intpLayer ∧ t.sie = h.sie

/-- A call on an idle hart follows the discipline on all its paths. -/
theorem path_ok_of_keeps {x : Kern α} (hx : Keeps Idle x) (hi : Idle h) {q : Kern α}
    (hpath : Path hartSem x h q t) : q.Ok (discipline h) t := by
  have hw : h.Wf := fun hpos => absurd hi.intpLayer hpos.ne'
  have hlike : h.Like h := ⟨rfl, rfl, rfl, fun _ => rfl⟩
  have hsafe : Disciplined x (discipline h).ret h :=
    Safe.mono (hx h hw hi h hlike) fun _ u hu => ⟨hu.held, hu.intpLayer, hu.sie⟩
  exact safe_iff.mp hsafe q t hpath

/-- `do_cons_read_char` releases a lock that it did not take. -/
theorem not_disciplined_doConsReadChar (hi : Idle h) {post : Unit → Hart → Prop} (rounds : Nat) :
    ¬ Disciplined (doConsReadChar (rounds + 1)) post h := by
  intro hd
  have hbody := disciplined_bind.mp hd
  have hsection := disciplined_bind.mp hbody
  have hask := (disciplined_acquire (hi.free .serialInputDev)).mp hsection
  have hrelease := disciplined_ask.mp (disciplined_bind.mp hask) true
  have hnot : Lock.serialOutputDev ∉ (h.under .serialInputDev).held := by
    simp [Hart.under, hi.held]
  exact not_disciplined_release hnot (disciplined_bind.mp hrelease)

end Locks

end Jrinx
