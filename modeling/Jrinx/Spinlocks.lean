import Jrinx.Lib.AtomicLocks

/-! # Spinlocks

The spinlocks of `kern/lock/lock.c` and `kern/lock/spinlock.c` under every interleaving of the harts. A
step is one access to `lk_state` or `lk_hartid`; the accesses of a hart happen in the order of its code,
as the fences beside the `amoswap.w` have it.

* **`Machine`**, **`Machine.Step`** — the words of the locks, where the harts are in `lk_acquire` and
  `lk_release`, and the steps.
* **`Machine.Inside`**, **`Machine.Wf`** — who is between the two `amoswap.w` of a lock, and the invariant.
* **`Machine.refines`** — every run is a run with atomic locks, whose owners are the `lk_hartid`. -/

namespace Jrinx

/-- Where a hart is: between two operations, or inside one. -/
inductive Stage (L : Type*) where
  | start
  /-- `lk_state == LK_LOCKED` was true; `lk_hartid` is not read yet. -/
  | seen (l : L)
  /-- The `amoswap.w` found `LK_UNLOCKED`; `lk_hartid` is not written yet. -/
  | swapped (l : L)
  /-- `lk_hartid = HARTID_MAX` is done; the `amoswap.w` to `LK_UNLOCKED` is not. -/
  | disowned (l : L)
  deriving DecidableEq

/-- The words of the locks, the places of the harts and what they run: `lkState` is whether the word is
`LK_LOCKED`, and `lkHartid` is `none` for `HARTID_MAX`. -/
structure Machine (H L C : Type*) where
  lkState : L → Bool
  lkHartid : L → Option H
  stage : H → Stage L
  client : C

namespace Machine

variable {H L C : Type*} {P : Client H L C} {m m' : Machine H L C} {i j : H} {l l' : L}

/-- **The hart is inside the lock**: from the `amoswap.w` that took it to the one that gives it back. -/
def Inside (m : Machine H L C) (i : H) (l : L) : Prop :=
  m.lkHartid l = some i ∨ m.stage i = .swapped l ∨ m.stage i = .disowned l

/-- What the place of a hart says: what it is doing, and that `lk_hartid` is not its own before it is
written nor after it is cleared. -/
def At (P : Client H L C) (m : Machine H L C) (i : H) : Prop :=
  match m.stage i with
  | .start => True
  | .seen l => P.wants m.client i = some (.holds l)
  | .swapped l => m.lkHartid l = none ∧ P.wants m.client i = some (.take l)
  | .disowned l => m.lkHartid l = none

/-- **The invariant**: at most one hart is inside a lock, and a lock is `LK_LOCKED` exactly while somebody
is inside. -/
structure Wf (P : Client H L C) (m : Machine H L C) : Prop where
  exclusive : ∀ {i j l}, m.Inside i l → m.Inside j l → i = j
  locked : ∀ l, m.lkState l = true ↔ ∃ i, m.Inside i l
  place : ∀ i, m.At P i

/-- No lock is taken, and all harts are between operations. -/
structure Initial (m : Machine H L C) : Prop where
  lkState : ∀ l, m.lkState l = false
  lkHartid : ∀ l, m.lkHartid l = none
  stage : ∀ i, m.stage i = .start

theorem At.of_start (h : m.stage i = .start) : m.At P i := by
  simp only [At, h]

theorem Initial.wf (h : m.Initial) : m.Wf P where
  exclusive hi := by simp [Inside, h.lkHartid, h.stage] at hi
  locked := by simp [Inside, h.lkState, h.lkHartid, h.stage]
  place i := .of_start (h.stage i)

/-- What the place of a hart says stays true while others are elsewhere. -/
theorem At.congr (h : m.At P i) (hstage : m'.stage i = m.stage i)
    (hwants : P.wants m'.client i = P.wants m.client i)
    (hname : ∀ l, m.Inside i l → m.lkHartid l = none → m'.lkHartid l = none) : m'.At P i := by
  simp only [At, hstage, hwants] at h ⊢
  cases hs : m.stage i with
  | start => trivial
  | seen l => simpa only [hs] using h
  | swapped l =>
      simp only [hs] at h
      exact ⟨hname l (.inr (.inl hs)) h.1, h.2⟩
  | disowned l =>
      simp only [hs] at h
      exact hname l (.inr (.inr hs)) h

theorem inside_congr (hname : m'.lkHartid l = m.lkHartid l) (hstage : m'.stage i = m.stage i) :
    m'.Inside i l ↔ m.Inside i l := by
  simp only [Inside, hname, hstage]

/-- A hart between operations is inside the locks that have its name. -/
theorem inside_of_start (h : m.stage i = .start) : m.Inside i l ↔ m.lkHartid l = some i := by
  simp [Inside, h]

theorem inside_of_seen (h : m.stage i = .seen l') : m.Inside i l ↔ m.lkHartid l = some i := by
  simp [Inside, h]

/-- A lock that is `LK_UNLOCKED` has no name. -/
theorem Wf.hartid_of_unlocked (h : m.Wf P) (hl : m.lkState l = false) : m.lkHartid l = none := by
  cases hname : m.lkHartid l with
  | none => rfl
  | some i =>
      have hlocked := (h.locked l).mpr ⟨i, .inl hname⟩
      simp [hl] at hlocked

/-- A step of one hart that leaves the words of the locks as they are. -/
theorem Wf.of_same (h : m.Wf P) (hstate : m'.lkState = m.lkState) (hname : m'.lkHartid = m.lkHartid)
    (hself : ∀ k, m'.Inside i k ↔ m.Inside i k) (hplace : m'.At P i)
    (hstage : ∀ j ≠ i, m'.stage j = m.stage j)
    (hwants : ∀ j ≠ i, P.wants m'.client j = P.wants m.client j) : m'.Wf P := by
  have hin : ∀ j k, m'.Inside j k ↔ m.Inside j k := by
    intro j k
    by_cases hj : j = i
    · exact hj ▸ hself k
    · exact inside_congr (congrFun hname k) (hstage j hj)
  refine ⟨fun hi hj => h.exclusive ((hin _ _).mp hi) ((hin _ _).mp hj), ?_, ?_⟩
  · intro k
    rw [hstate, h.locked k]
    exact exists_congr fun j => (hin j k).symm
  · intro j
    by_cases hj : j = i
    · exact hj ▸ hplace
    · exact (h.place j).congr (hstage j hj) (hwants j hj) fun k _ hk => hname ▸ hk

/-- A step of one hart that changes the words of a lock that nobody else is inside. -/
theorem Wf.of_lock (h : m.Wf P) (hstate : ∀ k ≠ l, m'.lkState k = m.lkState k)
    (hname : ∀ k ≠ l, m'.lkHartid k = m.lkHartid k)
    (hself : ∀ k ≠ l, m'.Inside i k ↔ m.Inside i k) (hplace : m'.At P i)
    (hstage : ∀ j ≠ i, m'.stage j = m.stage j)
    (hwants : ∀ j ≠ i, P.wants m'.client j = P.wants m.client j)
    (hfree : ∀ j ≠ i, ¬ m.Inside j l) (hmine : ∀ j ≠ i, m'.lkHartid l ≠ some j)
    (hlocked : m'.lkState l = true ↔ m'.Inside i l) : m'.Wf P := by
  have hin : ∀ j, ∀ k ≠ l, (m'.Inside j k ↔ m.Inside j k) := by
    intro j k hk
    by_cases hj : j = i
    · exact hj ▸ hself k hk
    · exact inside_congr (hname k hk) (hstage j hj)
  have honly : ∀ j, m'.Inside j l → j = i := by
    intro j hj
    by_contra hne
    rcases hj with hn | hs
    · exact hmine j hne hn
    · exact hfree j hne (.inr (hstage j hne ▸ hs))
  constructor
  · intro j j' k hj hj'
    by_cases hk : k = l
    · subst hk
      exact (honly j hj).trans (honly j' hj').symm
    · exact h.exclusive ((hin j k hk).mp hj) ((hin j' k hk).mp hj')
  · intro k
    by_cases hk : k = l
    · subst hk
      exact hlocked.trans ⟨fun hi => ⟨i, hi⟩, fun ⟨j, hj⟩ => honly j hj ▸ hj⟩
    · rw [hstate k hk, h.locked k]
      exact exists_congr fun j => (hin j k hk).symm
  · intro j
    by_cases hj : j = i
    · exact hj ▸ hplace
    · apply (h.place j).congr (hstage j hj) (hwants j hj)
      intro k hk hnone
      have hkl : k ≠ l := fun hkl => hfree j hj (hkl ▸ hk)
      exact (hname k hkl).trans hnone

/-- **The hart spins**: it wants a lock that is `LK_LOCKED`. -/
def Spins (P : Client H L C) (m : Machine H L C) (i : H) (l : L) : Prop :=
  m.stage i = .start ∧ P.wants m.client i = some (.take l) ∧ m.lkState l = true

/-- **Somebody who is inside a lock does not spin**, if somebody spins, where a hart that spins is inside
locks of lower rank only. -/
theorem Wf.exists_inside_not_spinning {rank : L → Nat} {top : Nat} (h : m.Wf P)
    (htop : ∀ l, rank l ≤ top)
    (horder : ∀ i l l', Spins P m i l → m.Inside i l' → rank l' < rank l) (hspin : Spins P m i l) :
    ∃ j l', m.Inside j l' ∧ ∀ l'', ¬ Spins P m j l'' :=
  exists_holder_that_runs htop (fun _ l hs => (h.locked l).mp hs.2.2) horder hspin

/-- The machine with atomic locks that a machine stands for. -/
def atomic (m : Machine H L C) : Atomic H L C := ⟨m.lkHartid, m.client⟩

/-! ## The steps -/

variable [DecidableEq H] [DecidableEq L]

/-- The hart is somewhere else. -/
def goTo (m : Machine H L C) (i : H) (x : Stage L) : Machine H L C :=
  { m with stage := Function.update m.stage i x }

/-- The operation of the hart is done. -/
def done (m : Machine H L C) (P : Client H L C) (i : H) (b : Bool) : Machine H L C :=
  { m with client := P.answer m.client i b }

/-- **The steps** of a hart. -/
inductive Step (P : Client H L C) (i : H) : Machine H L C → Machine H L C → Prop
  /-- `lk_state == LK_LOCKED` is false. -/
  | readUnlocked {m : Machine H L C} {l : L} : m.stage i = .start →
      P.wants m.client i = some (.holds l) → m.lkState l = false → Step P i m (m.done P i false)
  /-- It is true. -/
  | readLocked {m : Machine H L C} {l : L} : m.stage i = .start →
      P.wants m.client i = some (.holds l) → m.lkState l = true → Step P i m (m.goTo i (.seen l))
  /-- `lk_hartid == hrt_get_id()`. -/
  | readHartid {m : Machine H L C} {l : L} : m.stage i = .seen l →
      Step P i m ((m.done P i (decide (m.lkHartid l = some i))).goTo i .start)
  /-- A round of the loop: the `amoswap.w` found `LK_LOCKED`. -/
  | spin {m : Machine H L C} {l : L} : m.stage i = .start →
      P.wants m.client i = some (.take l) → m.lkState l = true → Step P i m m
  /-- The last round: it found `LK_UNLOCKED`. -/
  | swap {m : Machine H L C} {l : L} : m.stage i = .start →
      P.wants m.client i = some (.take l) → m.lkState l = false →
      Step P i m { m.goTo i (.swapped l) with lkState := Function.update m.lkState l true }
  /-- `lk_hartid = hrt_get_id()`. -/
  | setHartid {m : Machine H L C} {l : L} : m.stage i = .swapped l →
      Step P i m { (m.done P i true).goTo i .start with
        lkHartid := Function.update m.lkHartid l (some i) }
  /-- `lk_hartid = HARTID_MAX`. -/
  | clearHartid {m : Machine H L C} {l : L} : m.stage i = .start →
      P.wants m.client i = some (.drop l) →
      Step P i m { (m.done P i true).goTo i (.disowned l) with
        lkHartid := Function.update m.lkHartid l none }
  /-- The `amoswap.w` of `spnlk_release`. -/
  | unlock {m : Machine H L C} {l : L} : m.stage i = .disowned l →
      Step P i m { m.goTo i .start with lkState := Function.update m.lkState l false }
  /-- `spinlock_init` of an object that no other hart has. -/
  | init {m : Machine H L C} {l : L} : m.stage i = .start →
      P.wants m.client i = some (.init l) → (m.lkState l = true → m.lkHartid l = some i) →
      Step P i m { m.done P i true with
        lkState := Function.update m.lkState l false
        lkHartid := Function.update m.lkHartid l none }
  /-- Something else. -/
  | own {m : Machine H L C} {c : C} : m.stage i = .start →
      P.wants m.client i = none → P.step i m.client c → Step P i m { m with client := c }

/-- A step of some hart. -/
def Next (P : Client H L C) (m m' : Machine H L C) : Prop := ∃ i, Step P i m m'

/-- **The step lemma.** -/
theorem Wf.step (h : m.Wf P) (hstep : Step P i m m')
    (hproper : ∀ i l, P.wants m.client i = some (.drop l) → m.lkHartid l = some i) : m'.Wf P := by
  cases hstep with
  | @readUnlocked l hs hw hl =>
      apply h.of_same (i := i)
      · rfl
      · rfl
      · exact fun k => inside_congr rfl rfl
      · exact .of_start hs
      · exact fun j hj => rfl
      · exact fun j hj => P.wants_answer false hj
  | @readLocked l hs hw hl =>
      apply h.of_same (i := i)
      · rfl
      · rfl
      · intro k
        rw [inside_of_start hs, inside_of_seen (Function.update_self i _ _)]
        rfl
      · simpa [At, goTo] using hw
      · exact fun j hj => Function.update_of_ne hj _ _
      · exact fun j hj => rfl
  | @readHartid l hs =>
      apply h.of_same (i := i)
      · rfl
      · rfl
      · intro k
        rw [inside_of_seen hs, inside_of_start (Function.update_self i _ _)]
        rfl
      · exact .of_start (Function.update_self i _ _)
      · exact fun j hj => Function.update_of_ne hj _ _
      · exact fun j hj => P.wants_answer _ hj
  | spin => exact h
  | @swap l hs hw hl =>
      have hnone := h.hartid_of_unlocked hl
      have hfree : ∀ j, ¬ m.Inside j l := by
        intro j hj
        have := (h.locked l).mpr ⟨j, hj⟩
        simp [hl] at this
      apply h.of_lock (i := i) (l := l)
      · exact fun k hk => Function.update_of_ne hk _ _
      · exact fun k hk => rfl
      · intro k hk
        simp [Inside, goTo, hs, hk.symm]
      · simpa [At, goTo] using ⟨hnone, hw⟩
      · exact fun j hj => Function.update_of_ne hj _ _
      · exact fun j hj => rfl
      · exact fun j _ => hfree j
      · exact fun j _ hj => by simp [goTo, hnone] at hj
      · simp [Inside, goTo]
  | @setHartid l hs =>
      have hin : m.Inside i l := .inr (.inl hs)
      apply h.of_lock (i := i) (l := l)
      · exact fun k hk => rfl
      · exact fun k hk => Function.update_of_ne hk _ _
      · intro k hk
        simp [Inside, goTo, done, hs, hk, hk.symm]
      · exact .of_start (Function.update_self i _ _)
      · exact fun j hj => Function.update_of_ne hj _ _
      · exact fun j hj => P.wants_answer _ hj
      · exact fun j hj hjl => hj (h.exclusive hjl hin)
      · simpa using fun j hj => Ne.symm hj
      · simpa [Inside, goTo, done] using (h.locked l).mpr ⟨i, hin⟩
  | @clearHartid l hs hw =>
      have hname := hproper i l hw
      have hin : m.Inside i l := .inl hname
      apply h.of_lock (i := i) (l := l)
      · exact fun k hk => rfl
      · exact fun k hk => Function.update_of_ne hk _ _
      · intro k hk
        simp [Inside, goTo, done, hs, hk, hk.symm]
      · simp [At, goTo]
      · exact fun j hj => Function.update_of_ne hj _ _
      · exact fun j hj => P.wants_answer _ hj
      · exact fun j hj hjl => hj (h.exclusive hjl hin)
      · simp
      · simpa [Inside, goTo, done] using (h.locked l).mpr ⟨i, hin⟩
  | @unlock l hs =>
      have hin : m.Inside i l := .inr (.inr hs)
      have hnone : m.lkHartid l = none := by
        have := h.place i
        simpa only [At, hs] using this
      apply h.of_lock (i := i) (l := l)
      · exact fun k hk => Function.update_of_ne hk _ _
      · exact fun k hk => rfl
      · intro k hk
        simp [Inside, goTo, hs, hk.symm]
      · exact .of_start (Function.update_self i _ _)
      · exact fun j hj => Function.update_of_ne hj _ _
      · exact fun j hj => rfl
      · exact fun j hj hjl => hj (h.exclusive hjl hin)
      · simp [goTo, hnone]
      · simp [Inside, goTo, hnone]
  | @init l hs hw hl =>
      have hfree : ∀ j ≠ i, ¬ m.Inside j l := by
        intro j hj hjl
        have hname := hl ((h.locked l).mpr ⟨j, hjl⟩)
        exact hj (h.exclusive hjl (.inl hname))
      apply h.of_lock (i := i) (l := l)
      · exact fun k hk => Function.update_of_ne hk _ _
      · exact fun k hk => Function.update_of_ne hk _ _
      · intro k hk
        simp [Inside, done, hk]
      · exact .of_start hs
      · exact fun j hj => rfl
      · exact fun j hj => P.wants_answer _ hj
      · exact hfree
      · simp
      · simp [Inside, done, hs]
  | @own c hs hw hc =>
      apply h.of_same (i := i)
      · rfl
      · rfl
      · exact fun k => inside_congr rfl rfl
      · exact .of_start hs
      · exact fun j hj => rfl
      · exact fun j hj => P.wants_step hc hj

/-- Every step is a step with atomic locks, or is none. A lock is taken where `lk_hartid` is written, and
dropped where it is cleared. -/
theorem Wf.atomic_step (h : m.Wf P) (hstep : Step P i m m')
    (hproper : ∀ i l, P.wants m.client i = some (.drop l) → m.lkHartid l = some i) :
    m'.atomic = m.atomic ∨ Atomic.Step P m.atomic m'.atomic := by
  cases hstep with
  | @readUnlocked l hs hw hl =>
      right
      have hnone := h.hartid_of_unlocked hl
      have hanswer : decide (m.lkHartid l = some i) = false := by simp [hnone]
      have hstep := Atomic.Step.holds (P := P) (s := m.atomic) hw
      exact (congrArg (fun b => Atomic.Step P m.atomic (m.done P i b).atomic) hanswer).mp hstep
  | readLocked => exact .inl rfl
  | @readHartid l hs =>
      right
      have hplace := h.place i
      simp only [At, hs] at hplace
      exact .holds hplace
  | spin => exact .inl rfl
  | swap => exact .inl rfl
  | @setHartid l hs =>
      right
      have hplace := h.place i
      simp only [At, hs] at hplace
      exact .take hplace.2 hplace.1
  | clearHartid hs hw => exact .inr (.drop hw (hproper _ _ hw))
  | unlock => exact .inl rfl
  | @init l hs hw hl =>
      right
      apply Atomic.Step.init hw
      intro j hj
      have hname := hl ((h.locked l).mpr ⟨j, .inl hj⟩)
      exact Option.some.inj (hj.symm.trans hname)
  | own hs hw hc => exact .inr (.own hw hc)

/-- **Every run is a run with atomic locks**, and keeps the invariant, where harts drop only their own
locks. -/
theorem refines (hm : m.Initial) (hproper : Atomic.Proper P m.atomic)
    (hrun : Relation.ReflTransGen (Next P) m m') :
    m'.Wf P ∧ Relation.ReflTransGen (Atomic.Step P) m.atomic m'.atomic := by
  induction hrun with
  | refl => exact ⟨hm.wf, .refl⟩
  | tail _ hnext ih =>
      obtain ⟨i, hstep⟩ := hnext
      obtain ⟨hwf, hatomic⟩ := ih
      refine ⟨hwf.step hstep (hproper _ hatomic), ?_⟩
      rcases hwf.atomic_step hstep (hproper _ hatomic) with hsame | hnext
      · exact hsame ▸ hatomic
      · exact hatomic.tail hnext

/-! ## Progress -/

/-- A hart that asks for nothing stays between operations, whoever makes the step. -/
theorem Step.stage_of_idle (hstep : Step P i m m') (hs : m.stage j = .start)
    (hw : P.wants m.client j = none) : m'.stage j = .start := by
  by_cases hj : j = i
  · subst hj
    cases hstep with
    | readUnlocked => exact hs
    | readLocked _ hw' => simp [hw] at hw'
    | readHartid hs' => simp [hs] at hs'
    | spin => exact hs
    | swap _ hw' => simp [hw] at hw'
    | setHartid hs' => simp [hs] at hs'
    | clearHartid _ hw' => simp [hw] at hw'
    | unlock hs' => simp [hs] at hs'
    | init => exact hs
    | own => exact hs
  · rw [← hs]
    cases hstep <;> first | rfl | exact Function.update_of_ne hj _ _

/-- A hart that is in the middle of an operation goes on. -/
theorem exists_step_of_stage (h : m.stage i ≠ .start) : ∃ m', Step P i m m' := by
  cases hs : m.stage i with
  | start => exact absurd hs h
  | seen l => exact ⟨_, .readHartid hs⟩
  | swapped l => exact ⟨_, .setHartid hs⟩
  | disowned l => exact ⟨_, .unlock hs⟩

/-- A hart that is at an operation goes on, unless it sets up a lock, or spins. -/
theorem exists_step_of_wants {o : LockOp L} (hs : m.stage i = .start)
    (hw : P.wants m.client i = some o) (hinit : ∀ l, o ≠ .init l) (hspin : ∀ l, ¬ Spins P m i l) :
    ∃ m', Step P i m m' := by
  cases o with
  | holds l =>
      cases hl : m.lkState l with
      | false => exact ⟨_, .readUnlocked hs hw hl⟩
      | true => exact ⟨_, .readLocked hs hw hl⟩
  | take l =>
      cases hl : m.lkState l with
      | false => exact ⟨_, .swap hs hw hl⟩
      | true => exact absurd ⟨hs, hw, hl⟩ (hspin l)
  | drop l => exact ⟨_, .clearHartid hs hw⟩
  | init l => exact absurd rfl (hinit l)

end Machine

end Jrinx
