import Mathlib.Data.List.Basic

/-! # Computations with a log

A program text may say, besides its result, what it did on the way: the sums it computed, the addresses it
touched, the numbers it divided by. `Logged ε α` is the result with that log.

* **`Logged`** — the monad, and **`Logged.entry`** for one step.
* **`Logged.value_foldlM`** — forgetting the log gives the loop without it.
* **`Logged.all_bind`**, **`Logged.all_foldlM`** — the rules for what holds of every entry. -/

namespace Jrinx

/-- A result, and the log of the steps on the way to it. -/
structure Logged (ε α : Type*) where
  log : List ε
  value : α

namespace Logged

variable {ε α β : Type*}

/-- A step with the result `a` that logs `e`. -/
def entry (e : ε) (a : α) : Logged ε α := ⟨[e], a⟩

instance : Monad (Logged ε) where
  pure a := ⟨[], a⟩
  bind x f := ⟨x.log ++ (f x.value).log, (f x.value).value⟩

@[simp] theorem value_pure (a : α) : (pure a : Logged ε α).value = a := rfl

@[simp] theorem value_entry (e : ε) (a : α) : (entry e a).value = a := rfl

@[simp] theorem value_bind {α β : Type _} (x : Logged ε α) (f : α → Logged ε β) :
    (x >>= f).value = (f x.value).value := rfl

@[simp] theorem value_map {α β : Type _} (f : α → β) (x : Logged ε α) : (f <$> x).value = f x.value := rfl

/-- The loop without its log. -/
theorem value_foldlM {α β : Type _} (f : α → β → Logged ε α) (l : List β) (a : α) :
    (l.foldlM f a).value = l.foldl (fun a b => (f a b).value) a := by
  induction l generalizing a with
  | nil => rfl
  | cons b l ih =>
      rw [List.foldlM_cons, value_bind, ih]
      rfl

/-! ## What holds of all entries -/

variable {P : ε → Prop}

/-- Every step that was logged is a `P`. -/
def All (P : ε → Prop) (x : Logged ε α) : Prop := ∀ e ∈ x.log, P e

@[simp] theorem all_pure (a : α) : (pure a : Logged ε α).All P := fun _ h => absurd h List.not_mem_nil

@[simp] theorem all_entry {e : ε} {a : α} : (entry e a).All P ↔ P e := by
  simp [All, entry]

/-- One after the other. -/
@[simp] theorem all_bind {α β : Type _} {x : Logged ε α} {f : α → Logged ε β} :
    (x >>= f).All P ↔ x.All P ∧ (f x.value).All P :=
  List.forall_mem_append

@[simp] theorem all_map {α β : Type _} {f : α → β} {x : Logged ε α} : (f <$> x).All P ↔ x.All P := by
  show (x >>= pure ∘ f).All P ↔ x.All P
  simp

/-- **A loop** logs what its rounds log, each in the state that the rounds before it lead to. -/
theorem all_foldlM {α β : Type _} {f : α → β → Logged ε α} {l : List β} {a : α} :
    (l.foldlM f a).All P ↔ ∀ pre b post, l = pre ++ b :: post →
      (f (pre.foldl (fun a b => (f a b).value) a) b).All P := by
  induction l generalizing a with
  | nil =>
      refine ⟨fun _ pre b post h => ?_, fun _ => all_pure a⟩
      exact absurd h.symm (List.append_ne_nil_of_right_ne_nil pre (List.cons_ne_nil b post))
  | cons c l ih =>
      rw [List.foldlM_cons, all_bind, ih]
      constructor
      · rintro ⟨hfirst, hrest⟩ pre b post h
        cases pre with
        | nil =>
            obtain ⟨rfl, -⟩ := List.cons.inj h
            exact hfirst
        | cons d pre =>
            obtain ⟨rfl, rfl⟩ := List.cons.inj h
            exact hrest pre b post rfl
      · intro h
        refine ⟨h [] c l rfl, fun pre b post hl => ?_⟩
        exact h (c :: pre) b post (by rw [hl, List.cons_append])

end Logged

end Jrinx
