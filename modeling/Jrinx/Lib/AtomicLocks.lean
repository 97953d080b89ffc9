import Mathlib.Logic.Function.Basic
import Mathlib.Logic.Relation

/-! # Threads with locks

Threads that take locks, where an operation on a lock is one step. An implementation of the locks is right
when every run of the threads on it is such a run.

* **`LockOp`**, **`Client`** — the operations, and threads that ask for them.
* **`Atomic`**, **`Atomic.Step`** — the owners of the locks with the threads, and their steps.
* **`exists_holder_that_runs`** — where locks are taken in the order of their ranks, somebody who holds a
  lock is not waiting. -/

namespace Jrinx

/-- What a thread asks of a lock. -/
inductive LockOp (L : Type*) where
  /-- Whether the lock is its own. -/
  | holds (l : L)
  | take (l : L)
  | drop (l : L)
  /-- The lock of a new object is set up. -/
  | init (l : L)

/-- **Threads** `H` with locks `L` in a state `C`: the operation that a thread asks for, the state after it
with the answer, and the other steps of a thread, which leave what the others ask for as it is. -/
structure Client (H L C : Type*) where
  wants : C → H → Option (LockOp L)
  answer : C → H → Bool → C
  step : H → C → C → Prop
  wants_answer : ∀ {c : C} {i j : H} (b : Bool), j ≠ i → wants (answer c i b) j = wants c j
  wants_step : ∀ {c c' : C} {i j : H}, step i c c' → j ≠ i → wants c' j = wants c j

/-- The owners of the locks, and the threads. -/
structure Atomic (H L C : Type*) where
  owner : L → Option H
  client : C

namespace Atomic

variable {H L C : Type*} [DecidableEq H] [DecidableEq L] (P : Client H L C)

/-- **The steps.** A lock that is set up is nobody else's. -/
inductive Step : Atomic H L C → Atomic H L C → Prop
  | holds {s : Atomic H L C} {i : H} {l : L} : P.wants s.client i = some (.holds l) →
      Step s ⟨s.owner, P.answer s.client i (decide (s.owner l = some i))⟩
  | take {s : Atomic H L C} {i : H} {l : L} : P.wants s.client i = some (.take l) →
      s.owner l = none →
      Step s ⟨Function.update s.owner l (some i), P.answer s.client i true⟩
  | drop {s : Atomic H L C} {i : H} {l : L} : P.wants s.client i = some (.drop l) →
      s.owner l = some i →
      Step s ⟨Function.update s.owner l none, P.answer s.client i true⟩
  | init {s : Atomic H L C} {i : H} {l : L} : P.wants s.client i = some (.init l) →
      (∀ j, s.owner l = some j → j = i) →
      Step s ⟨Function.update s.owner l none, P.answer s.client i true⟩
  | own {s : Atomic H L C} {i : H} {c : C} : P.wants s.client i = none → P.step i s.client c →
      Step s ⟨s.owner, c⟩

/-- The threads drop only their own locks, in all states from `s` on. -/
def Proper (s : Atomic H L C) : Prop :=
  ∀ t, Relation.ReflTransGen (Step P) s t →
    ∀ i l, P.wants t.client i = some (.drop l) → t.owner l = some i

end Atomic

/-- **No deadlock**: let a thread that waits for a lock hold only locks of lower rank, and let somebody hold
every lock that is waited for. Then some holder is not waiting. -/
theorem exists_holder_that_runs {H L : Type*} {waits inside : H → L → Prop} {rank : L → Nat} {top : Nat}
    (htop : ∀ l, rank l ≤ top) (hheld : ∀ i l, waits i l → ∃ j, inside j l)
    (horder : ∀ i l l', waits i l → inside i l' → rank l' < rank l) {i : H} {l : L}
    (hwait : waits i l) : ∃ j l', inside j l' ∧ ∀ l'', ¬ waits j l'' := by
  induction hn : top - rank l using Nat.strongRecOn generalizing i l with
  | ind n ih =>
      obtain ⟨j, hj⟩ := hheld i l hwait
      by_cases hruns : ∀ l'', ¬ waits j l''
      · exact ⟨j, l, hj, hruns⟩
      · obtain ⟨l'', hl''⟩ := not_forall_not.mp hruns
        have hlt := horder j l'' l hl'' hj
        have hle := htop l''
        exact ih (top - rank l'') (by omega) hl'' rfl

end Jrinx
