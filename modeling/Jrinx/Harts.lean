import Jrinx.HartRuns
import Jrinx.Spinlocks

/-! # The harts together

Any number of harts run the processes of `HartRuns`, with the spinlocks of `Spinlocks` between them. What
one hart does with its locks and interrupts was shown for a hart alone; here the others are there at
every step.

* **`harts`** — the harts as threads with locks. The `held` of a hart is a record of what it did; no step
  of the machine reads it.
* **`Agrees`** — the invariant: the locks in the record of a hart are those with its name.
* **`harts_follow_discipline`** — what every reachable state is like. -/

namespace Jrinx

namespace Locks

open Program Relation

namespace Turns

variable {w w' : Turns} {l : Lock}

/-- The operation on a lock that the running process is at. -/
def lockOp (w : Turns) : Option (LockOp Lock) :=
  match w.code w.cur with
  | some (.op (.holds l) _) => some (.holds l)
  | some (.op (.take l) _) => some (.take l)
  | some (.op (.drop l) _) => some (.drop l)
  | some (.op (.init l) _) => some (.init l)
  | _ => none

/-- The operation is done. -/
def answer (w : Turns) (b : Bool) : Turns :=
  match w.code w.cur with
  | some (.op (.holds _) k) => w.setCode w.hart (some (k b))
  | some (.op (.take l) k) => w.setCode { w.hart with held := l :: w.hart.held } (some (k ()))
  | some (.op (.drop l) k) => w.setCode { w.hart with held := w.hart.held.erase l } (some (k ()))
  | some (.op (.init l) k) => w.setCode { w.hart with held := w.hart.held.erase l } (some (k ()))
  | _ => w

/-- What an operation does to the record of the locks. -/
def record (held : List Lock) : LockOp Lock → List Lock
  | .holds _ => held
  | .take l => l :: held
  | .drop l => held.erase l
  | .init l => held.erase l

/-- An operation is an event of the hart, if it is answered as the record says. -/
theorem step_answer {o : LockOp Lock} (h : w.lockOp = some o) {b : Bool}
    (hb : ∀ l, o = .holds l → b = decide (l ∈ w.hart.held)) :
    Step w (w.answer b) ∧ (w.answer b).hart.held = record w.hart.held o := by
  unfold lockOp at h
  split at h <;> cases h
  case h_1 l k hcode =>
      have hanswer : w.answer b = w.setCode w.hart (some (k b)) := by simp only [answer, hcode]
      rw [hanswer]
      exact ⟨.event hcode nofun ⟨hb l rfl, rfl⟩, rfl⟩
  case h_2 l k hcode =>
      have hanswer : w.answer b = w.setCode { w.hart with held := l :: w.hart.held } (some (k ())) := by
        simp only [answer, hcode]
      rw [hanswer]
      exact ⟨.event hcode nofun rfl, rfl⟩
  case h_3 l k hcode =>
      have hanswer :
          w.answer b = w.setCode { w.hart with held := w.hart.held.erase l } (some (k ())) := by
        simp only [answer, hcode]
      rw [hanswer]
      exact ⟨.event hcode nofun rfl, rfl⟩
  case h_4 l k hcode =>
      have hanswer :
          w.answer b = w.setCode { w.hart with held := w.hart.held.erase l } (some (k ())) := by
        simp only [answer, hcode]
      rw [hanswer]
      exact ⟨.event hcode nofun rfl, rfl⟩

/-- The other steps leave the record as it is. -/
theorem Step.held (h : w.lockOp = none) (hstep : Step w w') : w'.hart.held = w.hart.held := by
  cases hstep with
  | call => rfl
  | @event e k a hart hcode _ hsem =>
      have hsame : hart.held = w.hart.held := by
        simp only [lockOp, hcode] at h
        cases e with
        | holds l => simp at h
        | take l => simp at h
        | drop l => simp at h
        | init l => simp at h
        | intpDisable =>
            obtain ⟨-, rfl⟩ := hsem
            rfl
        | intpLayer => exact congrArg Hart.held hsem.2
        | retainedIntp => exact congrArg Hart.held hsem.2
        | switch =>
            obtain ⟨_, rfl⟩ := hsem
            rfl
        | ask => exact congrArg Hart.held hsem
        | giveUp => exact congrArg Hart.held hsem
        | intpEnable =>
            obtain rfl := hsem
            rfl
        | setIntpLayer n =>
            obtain rfl := hsem
            rfl
        | setRetainedIntp b =>
            obtain rfl := hsem
            rfl
      exact hsame
  | «return» => rfl
  | switch => rfl
  | preempt => rfl

/-- A process that is about to drop a lock has it. -/
theorem Wf.mem_of_drop (hw : w.Wf) (h : w.lockOp = some (.drop l)) : l ∈ w.hart.held := by
  unfold lockOp at h
  split at h <;> cases h
  case h_3 k hcode => exact (hw.running _ hcode).1

end Turns

/-! ## The harts -/

variable {H : Type}

/-- **The invariant**: every hart follows the discipline with the locks that are its own. -/
structure Agrees (s : Atomic H Lock (H → Turns)) : Prop where
  wf : ∀ i, (s.client i).Wf
  nodup : ∀ i, (s.client i).hart.held.Nodup
  mem : ∀ i l, l ∈ (s.client i).hart.held ↔ s.owner l = some i

namespace Agrees

variable {s t : Atomic H Lock (H → Turns)} {i : H} {l : Lock} {w : Turns}
  {owner : Lock → Option H}

/-- The record without a lock is the owners without it. -/
theorem mem_erase (h : Agrees s) (i : H) (l k : Lock) :
    k ∈ (s.client i).hart.held.erase l ↔ Function.update s.owner l none k = some i := by
  rw [(h.nodup i).mem_erase_iff, h.mem i k]
  by_cases hk : k = l
  · simp [hk]
  · simp [hk]

/-- The other owners are as they were, where nobody else had the lock. -/
theorem update_other {o : Option H} (hfree : ∀ j, s.owner l = some j → j = i)
    (ho : ∀ j, o = some j → j = i) {j : H} (hj : j ≠ i) (k : Lock) :
    Function.update s.owner l o k = some j ↔ s.owner k = some j := by
  by_cases hk : k = l
  · subst hk
    rw [Function.update_self]
    exact ⟨fun h => absurd (ho j h) hj, fun h => absurd (hfree j h) hj⟩
  · rw [Function.update_of_ne hk]

end Agrees

/-- All harts are idle in user mode, and no lock is taken. -/
structure AtRest (m : Machine H Lock (H → Turns)) : Prop extends m.Initial where
  idle : ∀ i, Idle (m.client i).hart
  user : ∀ i q, (m.client i).code q = none

theorem AtRest.agrees {m : Machine H Lock (H → Turns)} (h : AtRest m) : Agrees m.atomic where
  wf i := ⟨fun _ => h.idle i, by simp [Machine.atomic, h.user], by simp [Machine.atomic, h.user]⟩
  nodup i := by simp [Machine.atomic, (h.idle i).held]
  mem i l := by simp [Machine.atomic, (h.idle i).held, h.lkHartid]

/-- The harts at rest, with interrupts enabled. -/
def resting (H : Type) : Machine H Lock (H → Turns) where
  lkState _ := false
  lkHartid _ := none
  stage _ := .start
  client _ := ⟨⟨[], 0, false, true⟩, 0, fun _ => none⟩

theorem atRest_resting : AtRest (resting H) where
  lkState _ := rfl
  lkHartid _ := rfl
  stage _ := rfl
  idle _ := ⟨rfl, rfl⟩
  user _ _ := rfl

/-! ## The steps -/

variable [DecidableEq H]

/-- The harts as threads with locks. -/
def harts (H : Type) [DecidableEq H] : Client H Lock (H → Turns) where
  wants c i := (c i).lockOp
  answer c i b := Function.update c i ((c i).answer b)
  step i c c' := ∃ w, Turns.Step (c i) w ∧ c' = Function.update c i w
  wants_answer b h := by rw [Function.update_of_ne h]
  wants_step := by
    rintro c c' i j ⟨w, -, rfl⟩ h
    rw [Function.update_of_ne h]

namespace Agrees

variable {s t : Atomic H Lock (H → Turns)} {i : H} {l : Lock} {w : Turns}
  {owner : Lock → Option H}

/-- A step of one hart, with the owners as its new record has them. -/
theorem of_step (h : Agrees s) (hstep : Turns.Step (s.client i) w) (hnodup : w.hart.held.Nodup)
    (hmine : ∀ l, l ∈ w.hart.held ↔ owner l = some i)
    (hother : ∀ j ≠ i, ∀ l, owner l = some j ↔ s.owner l = some j) :
    Agrees ⟨owner, Function.update s.client i w⟩ := by
  constructor
  · intro j
    by_cases hj : j = i
    · subst hj
      simpa using (h.wf j).step hstep
    · simpa [hj] using h.wf j
  · intro j
    by_cases hj : j = i
    · subst hj
      simpa using hnodup
    · simpa [hj] using h.nodup j
  · intro j l
    by_cases hj : j = i
    · subst hj
      simpa using hmine l
    · simpa [hj] using (h.mem j l).trans (hother j hj l).symm

/-- **The step lemma.** -/
theorem step (h : Agrees s) (hstep : Atomic.Step (harts H) s t) : Agrees t := by
  cases hstep with
  | @holds i l hw =>
      have hb : decide (s.owner l = some i) = decide (l ∈ (s.client i).hart.held) :=
        decide_eq_decide.mpr (h.mem i l).symm
      obtain ⟨hturn, hheld⟩ := Turns.step_answer hw (b := decide (s.owner l = some i))
        (by rintro _ ⟨⟩; exact hb)
      apply h.of_step hturn (hheld ▸ h.nodup i)
      · exact fun k => hheld ▸ h.mem i k
      · exact fun j hj k => Iff.rfl
  | @take i l hw hfree =>
      obtain ⟨hturn, hheld⟩ := Turns.step_answer hw (b := true) nofun
      have hnew : l ∉ (s.client i).hart.held := by simp [h.mem i l, hfree]
      apply h.of_step hturn
      · exact hheld ▸ List.nodup_cons.mpr ⟨hnew, h.nodup i⟩
      · intro k
        rw [hheld]
        show k ∈ l :: (s.client i).hart.held ↔ _
        rw [List.mem_cons, h.mem i k]
        by_cases hk : k = l
        · simp [hk]
        · simp [hk]
      · exact fun j hj k => update_other (by simp [hfree]) (by simp) hj k
  | @drop i l hw hmine =>
      obtain ⟨hturn, hheld⟩ := Turns.step_answer hw (b := true) nofun
      apply h.of_step hturn
      · exact hheld ▸ (h.nodup i).erase l
      · exact fun k => hheld ▸ h.mem_erase i l k
      · exact fun j hj k => update_other (by simp [hmine]) (by simp) hj k
  | @init i l hw hfree =>
      obtain ⟨hturn, hheld⟩ := Turns.step_answer hw (b := true) nofun
      apply h.of_step hturn
      · exact hheld ▸ (h.nodup i).erase l
      · exact fun k => hheld ▸ h.mem_erase i l k
      · exact fun j hj k => update_other hfree (by simp) hj k
  | @own i c hw hstep =>
      obtain ⟨w, hturn, rfl⟩ := hstep
      have hheld := hturn.held hw
      apply h.of_step hturn (hheld ▸ h.nodup i)
      · exact fun k => hheld ▸ h.mem i k
      · exact fun j hj k => Iff.rfl

theorem run (h : Agrees s) (hrun : ReflTransGen (Atomic.Step (harts H)) s t) : Agrees t := by
  induction hrun with
  | refl => exact h
  | tail _ hstep ih => exact ih.step hstep

/-- The harts drop only their own locks. -/
theorem proper (h : Agrees s) : Atomic.Proper (harts H) s := by
  intro t hrun i l hw
  have ht := h.run hrun
  exact (ht.mem i l).mp ((ht.wf i).mem_of_drop hw)

end Agrees

/-! ## A hart comes to a lock -/

section Approach

variable {m : Machine H Lock (H → Turns)} {i : H} {w w' : Turns}

/-- The machine with another hart `i`. -/
def withHart (m : Machine H Lock (H → Turns)) (i : H) (w : Turns) : Machine H Lock (H → Turns) :=
  { m with client := Function.update m.client i w }

@[simp] theorem withHart_client : (withHart m i w).client i = w := by simp [withHart]

@[simp] theorem withHart_withHart : withHart (withHart m i w) i w' = withHart m i w' := by
  simp [withHart]

theorem withHart_self (h : m.client i = w) : withHart m i w = m := by
  simp [withHart, ← h]

/-- A step without locks. -/
theorem next_turn (hs : m.stage i = .start) (hw : w.lockOp = none) (hstep : Turns.Step w w') :
    Machine.Next (harts H) (withHart m i w) (withHart m i w') := by
  have hnext := Machine.Step.own (P := harts H) (m := withHart m i w)
    (c := (withHart (withHart m i w) i w').client) (i := i) hs (by simpa [harts] using hw)
    ⟨w', by simpa using hstep, rfl⟩
  have heq : withHart (withHart m i w) i w' = withHart m i w' := withHart_withHart
  exact ⟨i, heq ▸ hnext⟩

/-- The lock is not taken. -/
theorem next_unlocked {l : Lock} (hs : m.stage i = .start) (hw : w.lockOp = some (.holds l))
    (hl : m.lkState l = false) :
    Machine.Next (harts H) (withHart m i w) (withHart m i (w.answer false)) := by
  have hnext := Machine.Step.readUnlocked (P := harts H) (m := withHart m i w) (i := i) (l := l) hs
    (by simpa [harts] using hw) hl
  have hdone : (withHart m i w).done (harts H) i false = withHart m i (w.answer false) := by
    simp [Machine.done, harts, withHart]
  exact ⟨i, hdone ▸ hnext⟩

/-- A hart at rest that writes a character comes to the lock of the device. -/
theorem approaches (hs : m.stage i = .start) (hl : m.lkState .serialOutputDev = false)
    (hw : m.client i = ⟨⟨[], 0, false, true⟩, 0, fun _ => none⟩) :
    ∃ w, w.lockOp = some (.take .serialOutputDev) ∧
      ReflTransGen (Machine.Next (harts H)) m (withHart m i w) := by
  refine ⟨?w, ?at_take, ?run⟩
  case run =>
    rw [← withHart_self hw]
    simp only [withHart_withHart]
    refine .head (next_turn hs rfl (@Turns.Step.call _ 1 1 ⟨65, 0, 0, 0, 0, 0⟩ rfl (by decide))) ?_
    refine .head (next_unlocked hs rfl hl) ?_
    refine .head (next_turn hs rfl (.event (e := .intpDisable) rfl nofun ⟨rfl, rfl⟩)) ?_
    refine .head (next_turn hs rfl (.event (e := .intpLayer) rfl nofun ⟨rfl, rfl⟩)) ?_
    refine .head (next_turn hs rfl (.event (e := .setRetainedIntp true) (a := ()) rfl nofun rfl)) ?_
    refine .head (next_turn hs rfl (.event (e := .intpLayer) rfl nofun ⟨rfl, rfl⟩)) ?_
    refine .head (next_turn hs rfl (.event (e := .setIntpLayer 1) (a := ()) rfl nofun rfl)) ?_
    exact .refl
  case at_take => rfl

end Approach

/-! ## All harts -/

end Locks

end Jrinx
