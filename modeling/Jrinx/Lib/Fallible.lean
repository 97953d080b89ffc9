import Mathlib.Data.List.Basic

/-! # Computations that fail with a state or stop the system

C functions that return an error code leave behind whatever they changed before the error, and some
errors stop the system for good. `Op σ α` is a state-passing computation with both outcomes:

* **`Res σ α`** — `ok a s`, an error `err s` that keeps the state, or the final `fatal`.
* **`Op.panicE`**, **`Op.catchE`** — the two ways the kernel treats an error of a callee.
* **`Op.bind_eq_ok`** and its companions — the inversion lemmas by which a successful computation is
  taken apart.
* **`Op.forM_induct`** — the rule for loops.
* **`Op.Keeps`** — the rules for properties that a successful computation preserves.
* **`Barring`** — the rules for computations in `StateT` and `Except` that have one way to fail. -/

namespace Jrinx

/-- The result of a computation on states `σ`. -/
inductive Res (σ α : Type) where
  /-- It returned `a` in state `s`. -/
  | ok (a : α) (s : σ)
  /-- It returned an error code, in state `s`. -/
  | err (s : σ)
  /-- It stopped the system. -/
  | fatal

/-- The state a computation leaves behind, also when it returns an error. -/
def Res.settled {σ α : Type} : Res σ α → Except Unit σ
  | .ok _ s => .ok s
  | .err s => .ok s
  | .fatal => .error ()

theorem Res.settled_eq_ok {σ α : Type} {x : Res σ α} {s : σ} (h : x.settled = .ok s) :
    (∃ a, x = .ok a s) ∨ x = .err s := by
  cases x with
  | ok a t => exact Or.inl ⟨a, by rw [Except.ok.inj h]⟩
  | err t => exact Or.inr (by rw [Except.ok.inj h])
  | fatal => exact absurd h (by simp [Res.settled])

/-- It returned a value and a state that pass a check. -/
def Res.okAnd {σ α : Type} (p : α → σ → Bool) : Res σ α → Bool
  | .ok a s => p a s
  | _ => false

theorem Res.okAnd_eq_true {σ α : Type} {p : α → σ → Bool} {x : Res σ α} :
    x.okAnd p = true ↔ ∃ a s, x = .ok a s ∧ p a s = true := by
  cases x <;> simp [Res.okAnd]

/-- A state-passing computation that may fail. -/
def Op (σ α : Type) : Type := σ → Res σ α

namespace Op

variable {σ α β : Type}

/-- Return a value. -/
protected def pure (a : α) : Op σ α := fun s => .ok a s

/-- Sequencing: an error of the first computation is returned to the caller. -/
protected def bind (x : Op σ α) (f : α → Op σ β) : Op σ β := fun s =>
  match x s with
  | .ok a t => f a t
  | .err t => .err t
  | .fatal => .fatal

instance : Monad (Op σ) where
  pure := Op.pure
  bind := Op.bind

/-- Read the state. -/
def get : Op σ σ := fun s => .ok s s

/-- Change the state. -/
def modify (f : σ → σ) : Op σ Unit := fun s => .ok () (f s)

/-- Return an error code. -/
def fail : Op σ α := fun s => .err s

/-- Stop the system. -/
def halt : Op σ α := fun _ => .fatal

/-- `panic_e`: an error stops the system. -/
def panicE (x : Op σ α) : Op σ α := fun s =>
  match x s with
  | .ok a t => .ok a t
  | .err _ => .fatal
  | .fatal => .fatal

/-- `catch_e` with an action: an error runs the action in the state the failed call left. -/
def catchE (x : Op σ α) (action : Op σ α) : Op σ α := fun s =>
  match x s with
  | .ok a t => .ok a t
  | .err t => action t
  | .fatal => .fatal

/-! ## Taking a successful computation apart -/

theorem pure_eq_ok {a b : α} {s t : σ} : (pure a : Op σ α) s = .ok b t ↔ a = b ∧ s = t := by
  show Res.ok a s = .ok b t ↔ _
  rw [Res.ok.injEq]

theorem bind_eq_ok {x : Op σ α} {f : α → Op σ β} {s t : σ} {b : β} :
    (x >>= f) s = .ok b t ↔ ∃ a u, x s = .ok a u ∧ f a u = .ok b t := by
  show Op.bind x f s = .ok b t ↔ _
  unfold Op.bind
  cases hx : x s with
  | ok a u =>
      constructor
      · intro h
        exact ⟨a, u, rfl, h⟩
      · rintro ⟨a', u', hau, h⟩
        cases hau
        exact h
  | err u => simp
  | fatal => simp

/-- A sequence fails in its first computation or in the rest. -/
theorem bind_eq_err {x : Op σ α} {f : α → Op σ β} {s t : σ} :
    (x >>= f) s = .err t ↔ x s = .err t ∨ ∃ a u, x s = .ok a u ∧ f a u = .err t := by
  show Op.bind x f s = .err t ↔ _
  unfold Op.bind
  cases hx : x s with
  | ok a u =>
      constructor
      · intro h
        exact Or.inr ⟨a, u, rfl, h⟩
      · rintro (h | ⟨a', u', hau, h⟩)
        · simp at h
        · cases hau
          exact h
  | err u => simp
  | fatal => simp

theorem get_eq_ok {a s t : σ} : (get : Op σ σ) s = .ok a t ↔ s = a ∧ s = t := by
  show Res.ok s s = .ok a t ↔ _
  rw [Res.ok.injEq]

theorem modify_eq_ok {f : σ → σ} {u : Unit} {s t : σ} :
    modify f s = .ok u t ↔ f s = t := by
  show Res.ok () (f s) = .ok u t ↔ _
  simp

theorem fail_eq_ok {a : α} {s t : σ} : (fail : Op σ α) s = .ok a t ↔ False := by
  simp [fail]

theorem halt_eq_ok {a : α} {s t : σ} : (halt : Op σ α) s = .ok a t ↔ False := by
  simp [halt]

theorem panicE_eq_ok {x : Op σ α} {a : α} {s t : σ} :
    panicE x s = .ok a t ↔ x s = .ok a t := by
  unfold panicE
  cases x s <;> simp

/-- `panic_e` never returns an error. -/
theorem panicE_ne_err {x : Op σ α} {s t : σ} : panicE x s ≠ .err t := by
  unfold panicE
  cases x s <;> simp

/-- A `catch_e` that succeeded did so in the call itself, or in the action after an error. -/
theorem catchE_eq_ok {x action : Op σ α} {a : α} {s t : σ} :
    catchE x action s = .ok a t ↔
      x s = .ok a t ∨ ∃ u, x s = .err u ∧ action u = .ok a t := by
  unfold catchE
  cases x s <;> simp

/-- A `catch_e` whose action always ends in an error succeeds only in the call itself. -/
theorem catchE_eq_ok_of_fails {x action : Op σ α} (hfail : ∀ u b t, action u ≠ .ok b t) {a : α}
    {s t : σ} (h : catchE x action s = .ok a t) : x s = .ok a t := by
  rcases catchE_eq_ok.mp h with hx | ⟨u, -, hu⟩
  · exact hx
  · exact absurd hu (hfail u a t)

/-! ## Success -/

/-- The computation succeeds from the state. -/
def Succeeds (x : Op σ α) (s : σ) : Prop := ∃ a t, x s = .ok a t

theorem succeeds_pure (a : α) (s : σ) : (pure a : Op σ α).Succeeds s := ⟨a, s, rfl⟩

theorem succeeds_bind {x : Op σ α} {f : α → Op σ β} {s : σ} :
    (x >>= f).Succeeds s ↔ ∃ a t, x s = .ok a t ∧ (f a).Succeeds t := by
  constructor
  · rintro ⟨b, t, h⟩
    obtain ⟨a, u, hx, hf⟩ := bind_eq_ok.mp h
    exact ⟨a, u, hx, b, t, hf⟩
  · rintro ⟨a, u, hx, b, t, hf⟩
    exact ⟨b, t, bind_eq_ok.mpr ⟨a, u, hx, hf⟩⟩

theorem succeeds_get {f : σ → Op σ β} {s : σ} : (get >>= f).Succeeds s ↔ (f s).Succeeds s := Iff.rfl

theorem succeeds_modify {g : σ → σ} {f : Unit → Op σ β} {s : σ} :
    (modify g >>= f).Succeeds s ↔ (f ()).Succeeds (g s) := Iff.rfl

theorem not_succeeds_fail (s : σ) : ¬ (fail : Op σ α).Succeeds s := by
  rintro ⟨a, t, h⟩
  exact fail_eq_ok.mp h

theorem succeeds_panicE {x : Op σ α} {s : σ} : (panicE x).Succeeds s ↔ x.Succeeds s :=
  exists_congr fun _ => exists_congr fun _ => panicE_eq_ok

/-! ## Loops -/

/-- **The rule for loops over a list**: what holds without a round, and of a round and the rest when it holds of
the rest, holds of a loop that succeeds. -/
theorem forM_induct {body : β → Op σ Unit} {P : List β → σ → σ → Prop} (nil : ∀ s, P [] s s)
    (cons : ∀ b l s s₁ t u, body b s = .ok u s₁ → P l s₁ t → P (b :: l) s t) {l : List β} {s t : σ} {u : Unit}
    (h : l.forM body s = .ok u t) : P l s t := by
  induction l generalizing s with
  | nil =>
      obtain ⟨-, rfl⟩ := pure_eq_ok.mp h
      exact nil s
  | cons b l ih =>
      obtain ⟨u', s₁, hb, h⟩ := bind_eq_ok.mp h
      exact cons b l s s₁ t u' hb (ih h)

/-- A loop over two lists. -/
theorem forM_append_eq_ok {f : β → Op σ Unit} {l l' : List β} {s t : σ} {u : Unit} :
    (l ++ l').forM f s = .ok u t ↔ ∃ s₁, l.forM f s = .ok () s₁ ∧ l'.forM f s₁ = .ok u t := by
  induction l generalizing s with
  | nil =>
      constructor
      · exact fun h => ⟨s, rfl, h⟩
      · rintro ⟨s₁, h₁, h⟩
        obtain ⟨-, rfl⟩ := pure_eq_ok.mp h₁
        exact h
  | cons b l ih =>
      show (f b >>= fun _ => (l ++ l').forM f) s = _ ↔ ∃ s₁, (f b >>= fun _ => l.forM f) s = _ ∧ _
      simp only [bind_eq_ok, ih]
      constructor
      · rintro ⟨a, s₂, hb, s₁, h₁, h⟩
        exact ⟨s₁, ⟨a, s₂, hb, h₁⟩, h⟩
      · rintro ⟨s₁, ⟨a, s₂, hb, h₁⟩, h⟩
        exact ⟨a, s₂, hb, s₁, h₁, h⟩

/-- A loop fails in one of its rounds, after rounds that succeeded. -/
theorem forM_eq_err {f : β → Op σ Unit} {l : List β} {s t : σ} (h : l.forM f s = .err t) :
    ∃ l₁ b l₂ s₁, l = l₁ ++ b :: l₂ ∧ l₁.forM f s = .ok () s₁ ∧ f b s₁ = .err t := by
  induction l generalizing s with
  | nil => exact absurd h (by simp [pure, Op.pure])
  | cons b l ih =>
      rcases bind_eq_err.mp h with hb | ⟨u, s₁, hb, h⟩
      · exact ⟨[], b, l, s, rfl, rfl, hb⟩
      · obtain ⟨l₁, b', l₂, s₂, rfl, hl₁, hb'⟩ := ih h
        exact ⟨b :: l₁, b', l₂, s₂, rfl, bind_eq_ok.mpr ⟨u, s₁, hb, hl₁⟩, hb'⟩

/-! ## Preserved properties -/

/-- Whenever the computation succeeds from a state with `I`, it ends in a state with `I`. -/
def Keeps (I : σ → Prop) (x : Op σ α) : Prop :=
  ∀ ⦃s a t⦄, I s → x s = .ok a t → I t

variable {I : σ → Prop}

theorem keeps_pure (a : α) : Keeps I (pure a : Op σ α) := by
  intro s b t hs h
  obtain ⟨-, rfl⟩ := pure_eq_ok.mp h
  exact hs

theorem Keeps.bind {x : Op σ α} {f : α → Op σ β} (hx : Keeps I x) (hf : ∀ a, Keeps I (f a)) :
    Keeps I (x >>= f) := by
  intro s b t hs h
  obtain ⟨a, u, hxa, hfb⟩ := bind_eq_ok.mp h
  exact hf a (hx hs hxa) hfb

theorem keeps_get : Keeps I (get : Op σ σ) := by
  intro s a t hs h
  obtain ⟨-, rfl⟩ := get_eq_ok.mp h
  exact hs

theorem keeps_fail : Keeps I (fail : Op σ α) :=
  fun _ _ _ _ h => (fail_eq_ok.mp h).elim

theorem keeps_halt : Keeps I (halt : Op σ α) :=
  fun _ _ _ _ h => (halt_eq_ok.mp h).elim

theorem keeps_modify {f : σ → σ} (hf : ∀ s, I s → I (f s)) : Keeps I (modify f) := by
  intro s u t hs h
  rw [← modify_eq_ok.mp h]
  exact hf s hs

theorem Keeps.panicE {x : Op σ α} (hx : Keeps I x) : Keeps I (panicE x) :=
  fun _ _ _ hs h => hx hs (panicE_eq_ok.mp h)

/-- A `catch_e` whose action always ends in an error keeps what the call keeps. -/
theorem Keeps.catchE {x action : Op σ α} (hx : Keeps I x) (hfail : ∀ u b t, action u ≠ .ok b t) :
    Keeps I (catchE x action) :=
  fun _ _ _ hs h => hx hs (catchE_eq_ok_of_fails hfail h)

end Op

/-! ## Errors without a state -/

theorem except_bind_eq_ok {ε α β : Type} {x : Except ε α} {f : α → Except ε β} {b : β} :
    (x >>= f) = .ok b ↔ ∃ a, x = .ok a ∧ f a = .ok b := by
  cases x with
  | error e => simp [bind, Except.bind]
  | ok a => simp [bind, Except.bind]

/-! ## One way to fail -/

section Barring

variable {σ ε α β : Type} {e : ε} {P : α → Prop}

/-- From every state the computation fails with `e`, or it returns a value with `P`. -/
def Barring (e : ε) (x : StateT σ (Except ε) α) (P : α → Prop) : Prop :=
  ∀ s, x s = .error e ∨ ∃ a t, x s = .ok (a, t) ∧ P a

theorem barring_pure {a : α} (h : P a) : Barring e (pure a : StateT σ (Except ε) α) P :=
  fun s => Or.inr ⟨a, s, rfl, h⟩

theorem Barring.bind {x : StateT σ (Except ε) α} {f : α → StateT σ (Except ε) β} {Q : β → Prop}
    (hx : Barring e x P) (hf : ∀ a, P a → Barring e (f a) Q) : Barring e (x >>= f) Q := by
  intro s
  show (x s >>= fun r => f r.1 r.2) = _ ∨ ∃ b t, (x s >>= fun r => f r.1 r.2) = _ ∧ _
  rcases hx s with h | ⟨a, t, h, ha⟩
  · rw [h]
    exact Or.inl rfl
  · rw [h]
    exact hf a ha t

theorem Barring.mono {x : StateT σ (Except ε) α} {Q : α → Prop} (hx : Barring e x P)
    (h : ∀ a, P a → Q a) : Barring e x Q := by
  intro s
  rcases hx s with hs | ⟨a, t, hs, ha⟩
  · exact Or.inl hs
  · exact Or.inr ⟨a, t, hs, h a ha⟩

/-- A computation that did not fail this way returned a value. -/
theorem Barring.eq_ok {x : StateT σ (Except ε) α} {s : σ} (hx : Barring e x P)
    (h : x s ≠ .error e) : ∃ a t, x s = .ok (a, t) ∧ P a := by
  rcases hx s with hs | hs
  · exact absurd hs h
  · exact hs

end Barring

end Jrinx
