import Mathlib.Logic.Basic

/-! # Programs over events

A program does events of a signature `E`, one after the other, each with an answer of type `A e`, and
ends with a value or stops for a reason. What an event answers and does to a state is a relation, so
that a program has many paths.

* **`Program`** — the programs, a monad.
* **`Path`** — from a program in a state to a program that is left in another state.
* **`Safe`** — the events of all paths are allowed, and the ends are as they should be, by recursion on
  the program; `safe_iff` is that this is about the paths.
* **`Safe.bind`**, **`Safe.mono`**, **`Safe.forM`** — the rules. -/

namespace Jrinx

/-- **A program** over the events `E` with answers `A`, values `α` and reasons to stop `F`. -/
inductive Program (E : Type) (A : E → Type) (F α : Type) where
  /-- It ends with a value. -/
  | ret (a : α)
  /-- It stops. -/
  | stop (f : F)
  /-- It does an event and goes on with the answer. -/
  | op (e : E) (k : A e → Program E A F α)

namespace Program

variable {E : Type} {A : E → Type} {F α β σ : Type}

/-- One program after the other. -/
def bind : Program E A F α → (α → Program E A F β) → Program E A F β
  | ret a, f => f a
  | stop r, _ => stop r
  | op e k, f => op e fun a => (k a).bind f

instance : Monad (Program E A F) where
  pure := ret
  bind := bind

/-- The program that is one event. -/
def event (e : E) : Program E A F (A e) := op e ret

/-- The body is done until it gives a value, at most a number of times; then the program stops. -/
def loop (r : F) (body : Program E A F (Option α)) : Nat → Program E A F α
  | 0 => stop r
  | n + 1 => body.bind fun
      | some a => ret a
      | none => loop r body n

/-- **A path** of a program: `sem e s a t` says that `e` may answer `a` in `s` and lead to `t`. -/
inductive Path (sem : (e : E) → σ → A e → σ → Prop) :
    Program E A F α → σ → Program E A F α → σ → Prop
  /-- Nothing is done yet. -/
  | refl {p : Program E A F α} {s : σ} : Path sem p s p s
  /-- The first event, and a path of the rest. -/
  | step {e : E} {k : A e → Program E A F α} {s t u : σ} {a : A e} {q : Program E A F α} :
      sem e s a t → Path sem (k a) t q u → Path sem (op e k) s q u

/-- What is allowed: the events by state, the reasons to stop, and the ends. -/
structure Policy (E F α σ : Type) where
  event : E → σ → Prop
  stop : F → Prop
  ret : α → σ → Prop

/-- What is left is allowed: its first event, its reason to stop or its end. -/
def Ok (c : Policy E F α σ) : Program E A F α → σ → Prop
  | ret a, s => c.ret a s
  | stop r, _ => c.stop r
  | op e _, s => c.event e s

variable {sem : (e : E) → σ → A e → σ → Prop} {event : E → σ → Prop} {stops : F → Prop}

/-- **Everything on all paths is allowed**: the events by `event`, the reasons to stop by `stops`, and
the ends by `post`. -/
def Safe (sem : (e : E) → σ → A e → σ → Prop) (event : E → σ → Prop) (stops : F → Prop) :
    Program E A F α → (α → σ → Prop) → σ → Prop
  | ret a, post, s => post a s
  | stop r, _, _ => stops r
  | op e k, post, s => event e s ∧ ∀ a t, sem e s a t → (k a).Safe sem event stops post t

/-- `Safe` is about the paths. -/
theorem safe_iff {p : Program E A F α} {post : α → σ → Prop} {s : σ} :
    p.Safe sem event stops post s ↔ ∀ q t, Path sem p s q t → q.Ok ⟨event, stops, post⟩ t := by
  constructor
  · intro h q t hpath
    induction hpath with
    | @refl p s =>
        cases p with
        | ret a => exact h
        | stop r => exact h
        | op e k => exact h.1
    | step hsem _ ih => exact ih (h.2 _ _ hsem)
  · intro h
    induction p generalizing s with
    | ret a => exact h _ _ .refl
    | stop r => exact h _ _ .refl
    | op e k ih =>
        refine ⟨h _ _ .refl, ?_⟩
        intro a t hsem
        exact ih a fun q u hpath => h q u (.step hsem hpath)

variable {p : Program E A F α} {f : α → Program E A F β} {post post' : α → σ → Prop} {s : σ}

theorem Safe.mono (h : p.Safe sem event stops post s) (hpost : ∀ a t, post a t → post' a t) :
    p.Safe sem event stops post' s := by
  induction p generalizing s with
  | ret a => exact hpost a s h
  | stop r => exact h
  | op e k ih =>
      refine ⟨h.1, ?_⟩
      intro a t hsem
      exact ih a (h.2 a t hsem)

/-- **The rule for sequences.** -/
theorem safe_bind {post : β → σ → Prop} : (p >>= f).Safe sem event stops post s ↔
    p.Safe sem event stops (fun a t => (f a).Safe sem event stops post t) s := by
  show (p.bind f).Safe sem event stops post s ↔ _
  induction p generalizing s with
  | ret a => rfl
  | stop r => rfl
  | op e k ih =>
      constructor
      · rintro ⟨he, h⟩
        exact ⟨he, fun a t hsem => (ih a).mp (h a t hsem)⟩
      · rintro ⟨he, h⟩
        exact ⟨he, fun a t hsem => (ih a).mpr (h a t hsem)⟩

@[simp] theorem safe_pure {a : α} :
    (pure a : Program E A F α).Safe sem event stops post s ↔ post a s := Iff.rfl

@[simp] theorem safe_stop {r : F} :
    (stop r : Program E A F α).Safe sem event stops post s ↔ stops r := Iff.rfl

/-- **The rule for loops over a list**: what the body keeps, the loop keeps. -/
theorem Safe.forM {I : σ → Prop} {l : List β} {body : β → Program E A F Unit}
    (h : ∀ b ∈ l, ∀ s, I s → (body b).Safe sem event stops (fun _ => I) s) (hs : I s) :
    (l.forM body).Safe sem event stops (fun _ => I) s := by
  induction l generalizing s with
  | nil => exact hs
  | cons b l ih =>
      apply safe_bind.mpr
      apply (h b List.mem_cons_self s hs).mono
      intro _ t ht
      exact ih (fun c hc => h c (List.mem_cons_of_mem b hc)) ht

/-- **The rule for loops**: a round keeps the invariant or ends with the postcondition. -/
theorem Safe.loop {I : σ → Prop} {r : F} {body : Program E A F (Option α)} {n : Nat}
    (h : ∀ s, I s → body.Safe sem event stops (fun o t => match o with
      | some a => post a t
      | none => I t) s) (hr : stops r) (hs : I s) :
    (Program.loop r body n).Safe sem event stops post s := by
  induction n generalizing s with
  | zero => exact hr
  | succ n ih =>
      apply safe_bind.mpr
      apply (h s hs).mono
      rintro (_ | a) t ht
      · exact ih ht
      · exact ht

end Program

end Jrinx
