import Mathlib.Data.List.Basic

/-! # First-in first-out histories

The abstract meaning of a message queue, over an arbitrary type of messages. A *history* is the list
of the operations performed on the queue, oldest first; a `deq` entry records the message that the
operation really delivered, which a faulty queue might get wrong.

* **`FifoLog log q`** — `log` is the history of a correct queue that now holds `q`: every delivered
  message was the oldest one queued, and a `clear` dropped all of them.
* **`FifoLog.exists_fates`** — the accounting law: the messages enqueued are, in order, those that
  left the queue (each either delivered or dropped by a clear) followed by those still queued.
* **`FifoLog.delivered_append`** — without clears, delivered followed by queued is enqueued. -/

namespace Jrinx

variable {α : Type*}

/-- An operation on a message queue, with the message that went in or came out. -/
inductive QueueOp (α : Type*) where
  /-- A message was enqueued. -/
  | enq (m : α)
  /-- This message was delivered. -/
  | deq (m : α)
  /-- The queue was emptied. -/
  | clear
  deriving DecidableEq, Repr

/-- What became of a message that left the queue. -/
inductive Fate where
  | delivered
  | dropped
  deriving DecidableEq, Repr

/-- **A first-in first-out history**: `FifoLog log q` says that `log` is the history of a queue which
never lost, duplicated or reordered a message and which now holds `q`, oldest first. -/
inductive FifoLog : List (QueueOp α) → List α → Prop
  /-- A new queue is empty. -/
  | nil : FifoLog [] []
  /-- An enqueued message goes to the end. -/
  | enq {log : List (QueueOp α)} {q : List α} (m : α) :
      FifoLog log q → FifoLog (log ++ [.enq m]) (q ++ [m])
  /-- The message delivered is the oldest one. -/
  | deq {log : List (QueueOp α)} {m : α} {q : List α} :
      FifoLog log (m :: q) → FifoLog (log ++ [.deq m]) q
  /-- A clear drops exactly the messages queued at that moment. -/
  | clear {log : List (QueueOp α)} {q : List α} :
      FifoLog log q → FifoLog (log ++ [.clear]) []

/-- The messages enqueued by a history, oldest first. -/
def enqueued : List (QueueOp α) → List α
  | [] => []
  | .enq m :: log => m :: enqueued log
  | .deq _ :: log => enqueued log
  | .clear :: log => enqueued log

/-- The messages delivered by a history, oldest first. -/
def delivered : List (QueueOp α) → List α
  | [] => []
  | .enq _ :: log => delivered log
  | .deq m :: log => m :: delivered log
  | .clear :: log => delivered log

theorem enqueued_append (l₁ l₂ : List (QueueOp α)) :
    enqueued (l₁ ++ l₂) = enqueued l₁ ++ enqueued l₂ := by
  induction l₁ with
  | nil => rfl
  | cons op l₁ ih => cases op <;> simp [enqueued, ih]

theorem delivered_append (l₁ l₂ : List (QueueOp α)) :
    delivered (l₁ ++ l₂) = delivered l₁ ++ delivered l₂ := by
  induction l₁ with
  | nil => rfl
  | cons op l₁ ih => cases op <;> simp [delivered, ih]

namespace FifoLog

variable {log : List (QueueOp α)} {q : List α}

/-- **The accounting law.** The messages enqueued are, in order, the messages that have left the
queue followed by the messages still queued; and the messages delivered are those of the former
whose fate was delivery. Nothing is lost, duplicated or reordered. -/
theorem exists_fates (h : FifoLog log q) :
    ∃ fates : List (α × Fate),
      enqueued log = fates.map Prod.fst ++ q ∧
      delivered log = (fates.filter (fun x => x.2 = .delivered)).map Prod.fst := by
  induction h with
  | nil => exact ⟨[], rfl, rfl⟩
  | @enq log q m _ ih =>
      obtain ⟨fates, henq, hdel⟩ := ih
      refine ⟨fates, ?_, ?_⟩
      · simp [enqueued_append, enqueued, henq]
      · simp [delivered_append, delivered, hdel]
  | @deq log m q _ ih =>
      obtain ⟨fates, henq, hdel⟩ := ih
      refine ⟨fates ++ [(m, .delivered)], ?_, ?_⟩
      · simp [enqueued_append, enqueued, henq]
      · simp [delivered_append, delivered, hdel]
  | @clear log q _ ih =>
      obtain ⟨fates, henq, hdel⟩ := ih
      -- the messages queued at the moment of the clear all leave with the fate `dropped`
      refine ⟨fates ++ q.map (fun m => (m, .dropped)), ?_, ?_⟩
      · simp [enqueued_append, enqueued, henq, List.map_map, Function.comp_def]
      · simp [delivered_append, delivered, hdel, List.filter_map, Function.comp_def]

end FifoLog

end Jrinx
