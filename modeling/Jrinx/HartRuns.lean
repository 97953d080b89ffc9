import Jrinx.LockDiscipline
import Mathlib.Logic.Function.Basic
import Mathlib.Logic.Relation

/-! # The processes of a hart

The processes take turns on a hart: one that gives it up is left at its `switch`, and goes on from there
when it is dispatched again. What a call assumes about the others, that it gets the hart back as it left
it, is then what the others do.

* **`Turns`** — the hart, the process it runs, and what is left of the call of each process.
* **`Turns.Step`** — a call, an event of the running process, its return, a switch and a preemption.
* **`Turns.follows_discipline`** — what the running process does is allowed in every state of a run. -/

namespace Jrinx

namespace Locks

open Program

/-- A hart and the code of its processes; a process without code is in user mode. -/
structure Turns where
  hart : Hart
  cur : Nat
  code : Nat → Option (Kern Unit)

namespace Turns

variable {w w' : Turns}

/-- The running process is left with the given code. -/
def setCode (w : Turns) (hart : Hart) (p : Option (Kern Unit)) : Turns :=
  { w with hart := hart, code := Function.update w.code w.cur p }

/-- The process `q` is dispatched, with interrupts disabled: it goes on after its `switch`, or in user
mode. -/
def dispatch (w : Turns) (q : Nat) : Turns where
  hart := { w.hart with sie := false }
  cur := q
  code := match w.code q with
    | some (.op .switch k) => Function.update w.code q (some (k ()))
    | _ => w.code

/-- The steps. -/
inductive Step : Turns → Turns → Prop
  /-- `handle_exception` enables the interrupts and enters `do_syscall`. -/
  | call {w : Turns} {rounds sysno : Nat} {args : Args} :
      w.code w.cur = none → sysno ≠ sysConsReadChar →
      Step w (w.setCode { w.hart with sie := true } (some (doSyscall rounds w.cur sysno args)))
  /-- An event of the running process. -/
  | event {w : Turns} {e : HartEv} {k : e.Ans → Kern Unit} {a : e.Ans} {hart : Hart} :
      w.code w.cur = some (.op e k) → e ≠ .switch → hartSem e w.hart a hart →
      Step w (w.setCode hart (some (k a)))
  /-- The running process returns to user mode. -/
  | return {w : Turns} : w.code w.cur = some (.ret ()) → Step w (w.setCode w.hart none)
  /-- The running process gives up the hart. -/
  | switch {w : Turns} {k : Unit → Kern Unit} (q : Nat) :
      w.code w.cur = some (.op .switch k) → Step w (w.dispatch q)
  /-- The process is preempted in user mode. -/
  | preempt {w : Turns} (q : Nat) : w.code w.cur = none → Step w (w.dispatch q)

/-- Where a call returns, the hart is idle and its interrupts are enabled. -/
def returned (_ : Unit) (t : Hart) : Prop := Idle t ∧ t.sie = true

/-- What is left of the call is at its `switch`, and follows the discipline from any hart that is idle
with interrupts disabled. -/
def Waiting (p : Kern Unit) : Prop :=
  ∃ k, p = .op .switch k ∧ ∀ hart : Hart, Idle hart → hart.sie = false →
    Disciplined (k ()) returned hart

/-- **The invariant**: in user mode the hart is idle, and what is left of a call follows the discipline,
from where it is for the running process and from where it will be dispatched for the others. -/
structure Wf (w : Turns) : Prop where
  user : w.code w.cur = none → Idle w.hart
  running : ∀ p, w.code w.cur = some p → Disciplined p returned w.hart
  waiting : ∀ q ≠ w.cur, ∀ p, w.code q = some p → Waiting p

/-- A process at its `switch` is waiting, and has left the hart idle. -/
theorem waiting_of_switch {k : Unit → Kern Unit} {hart : Hart}
    (h : Disciplined (.op .switch k) returned hart) : Idle hart ∧ Waiting (.op .switch k) := by
  obtain ⟨⟨hheld, hlayer, hsie⟩, hrest⟩ := h
  refine ⟨⟨hheld, hlayer⟩, k, rfl, ?_⟩
  intro u hu hoff
  have hback : u = { hart with retainedIntp := u.retainedIntp } := by
    obtain ⟨uheld, ulayer⟩ := hu
    cases u
    simp_all
  exact hrest () u ⟨u.retainedIntp, hback⟩

theorem Wf.setCode {p : Option (Kern Unit)} {hart : Hart} (hw : w.Wf) (huser : p = none → Idle hart)
    (hrunning : ∀ q, p = some q → Disciplined q returned hart) : (w.setCode hart p).Wf where
  user h := huser (by simpa [Turns.setCode] using h)
  running q h := hrunning q (by simpa [Turns.setCode] using h)
  waiting q hq r h := by
    have hne : q ≠ w.cur := hq
    have hcode : (w.setCode hart p).code q = w.code q := by
      simp [Turns.setCode, hne]
    exact hw.waiting q hq r (hcode ▸ h)

/-- A process is dispatched when all of them are waiting. -/
theorem wf_dispatch (hi : Idle w.hart) (hwait : ∀ q p, w.code q = some p → Waiting p) (q : Nat) :
    (w.dispatch q).Wf := by
  have hoff : Idle { w.hart with sie := false } := ⟨hi.held, hi.intpLayer⟩
  cases hcode : w.code q with
  | none =>
      have hdisp : (w.dispatch q).code = w.code := by simp [dispatch, hcode]
      refine ⟨fun _ => hoff, fun p hp => ?_, fun r _ p hp => hwait r p (hdisp ▸ hp)⟩
      rw [hdisp] at hp
      exact absurd (hcode.symm.trans hp) (by simp)
  | some p =>
      obtain ⟨k, rfl, hk⟩ := hwait q p hcode
      have hdisp : (w.dispatch q).code = Function.update w.code q (some (k ())) := by
        simp [dispatch, hcode]
      refine ⟨fun _ => hoff, fun p hp => ?_, fun r hr p hp => ?_⟩
      · rw [hdisp] at hp
        obtain rfl : k () = p := by simpa [dispatch] using hp
        exact hk _ hoff rfl
      · have hother : (w.dispatch q).code r = w.code r :=
          (congrFun hdisp r).trans (Function.update_of_ne hr _ _)
        exact hwait r p (hother ▸ hp)

/-- **The step lemma.** -/
theorem Wf.step (hw : w.Wf) (hstep : Step w w') : w'.Wf := by
  -- a service begins on an idle hart, and what follows keeps the promise that its frames wait for
  cases hstep with
  | call hcode hne =>
      have hi := hw.user hcode
      have hon : Idle { w.hart with sie := true } := ⟨hi.held, hi.intpLayer⟩
      apply hw.setCode (by simp)
      rintro p ⟨⟩
      refine Safe.mono (keeps_doSyscall hne _ _ _ _ ?_ hon _ ⟨rfl, rfl, rfl, fun _ => rfl⟩) ?_
      · exact fun hpos => absurd hon.intpLayer hpos.ne'
      · exact fun _ t ht => ⟨hon.of_like ht, ht.sie⟩
  | event hcode _ hsem =>
      apply hw.setCode (by simp)
      rintro p ⟨⟩
      exact (hw.running _ hcode).2 _ _ hsem
  | «return» hcode =>
      apply hw.setCode _ (by simp)
      exact fun _ => (hw.running _ hcode).1
  | switch q hcode =>
      obtain ⟨hi, hcur⟩ := waiting_of_switch (hw.running _ hcode)
      apply wf_dispatch hi _ q
      intro r p hp
      by_cases hr : r = w.cur
      · subst hr
        obtain rfl := Option.some.inj (hcode.symm.trans hp)
        exact hcur
      · exact hw.waiting r hr p hp
  | preempt q hcode =>
      apply wf_dispatch (hw.user hcode) _ q
      intro r p hp
      have hr : r ≠ w.cur := by
        rintro rfl
        exact absurd (hcode.symm.trans hp) (by simp)
      exact hw.waiting r hr p hp

/-- **The processes of a hart follow the discipline** in every state of a run that starts in user mode on
an idle hart. -/
theorem follows_discipline (hi : Idle w.hart) (huser : ∀ q, w.code q = none)
    (hrun : Relation.ReflTransGen Step w w') {p : Kern Unit} (hp : w'.code w'.cur = some p) :
    p.Ok ⟨allowed, fun r => r ≠ .lockPanic, returned⟩ w'.hart := by
  have hstart : w.Wf := ⟨fun _ => hi, by simp [huser], by simp [huser]⟩
  have hend : w'.Wf := by
    clear hp
    induction hrun with
    | refl => exact hstart
    | tail _ hstep ih => exact ih.step hstep
  exact safe_iff.mp (hend.running p hp) p w'.hart .refl

end Turns

end Locks

end Jrinx
