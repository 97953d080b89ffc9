import Mathlib.Logic.Function.Basic
import Mathlib.Data.List.Basic

/-! # Runs of a fallible step function

A system is given by a step function `σ → ε → Except φ σ`: an event either takes a state to the
next one or stops the system with a fault. This file fixes what a *run* of such a system is and the
rules by which a property of all runs follows from facts about one step:

* **`Exec step s tr t`** — a run from `s` to `t`; the trace `tr` pairs every event with the state in
  which it happened, so that a condition on the state before a step can be read off the run.
* **`Exec.invariant`**, **`Exec.invariant_of_forall`** — the induction rules for invariants, without
  and with a side condition on the steps of the run.
* **`Exec.forall_iff`**, **`Exec.forall_iff_within`** — the exactness rule: where a step that violates
  the side condition also violates the property at once, the property holds throughout a run *iff* all
  its steps meet the condition.
* **`Exec.allSteps_iff`** — the exactness rule for properties of single steps.
* **`runEvents`** — the executable run, and `Exec.of_runEvents` which reads it as an `Exec`. -/

namespace Jrinx

variable {σ ε φ : Type*}

/-- **A run** from `s`: the trace lists, oldest first, each event together with the state in which
it happened. A step that faults ends the run before it. -/
inductive Exec (step : σ → ε → Except φ σ) (s : σ) : List (σ × ε) → σ → Prop
  /-- The empty run. -/
  | nil : Exec step s [] s
  /-- One more event, accepted in the state reached so far. -/
  | snoc {tr : List (σ × ε)} {t u : σ} {e : ε} :
      Exec step s tr t → step t e = .ok u → Exec step s (tr ++ [(t, e)]) u

/-- The property `P` holds in every state of the run: before each of its steps and at its end. -/
def Throughout (P : σ → Prop) (tr : List (σ × ε)) (t : σ) : Prop :=
  (∀ x ∈ tr, P x.1) ∧ P t

/-- Every step of the run meets the condition `ok` on its event and the state before it. -/
def AllSteps (ok : σ → ε → Prop) (tr : List (σ × ε)) : Prop :=
  ∀ x ∈ tr, ok x.1 x.2

@[simp] theorem throughout_nil (P : σ → Prop) (t : σ) :
    Throughout P ([] : List (σ × ε)) t ↔ P t := by
  simp [Throughout]

theorem throughout_snoc (P : σ → Prop) (tr : List (σ × ε)) (t u : σ) (e : ε) :
    Throughout P (tr ++ [(t, e)]) u ↔ Throughout P tr t ∧ P u := by
  simp only [Throughout, List.mem_append, List.mem_singleton]
  constructor
  · rintro ⟨h, hu⟩
    exact ⟨⟨fun x hx => h x (Or.inl hx), h (t, e) (Or.inr rfl)⟩, hu⟩
  · rintro ⟨⟨h, ht⟩, hu⟩
    refine ⟨?_, hu⟩
    rintro x (hx | rfl)
    exacts [h x hx, ht]

@[simp] theorem allSteps_nil (ok : σ → ε → Prop) : AllSteps ok [] := by
  simp [AllSteps]

theorem allSteps_snoc (ok : σ → ε → Prop) (tr : List (σ × ε)) (t : σ) (e : ε) :
    AllSteps ok (tr ++ [(t, e)]) ↔ AllSteps ok tr ∧ ok t e := by
  simp only [AllSteps, List.mem_append, List.mem_singleton]
  constructor
  · intro h
    exact ⟨fun x hx => h x (Or.inl hx), h (t, e) (Or.inr rfl)⟩
  · rintro ⟨h, ht⟩ x (hx | rfl)
    exacts [h x hx, ht]

namespace Exec

variable {step : σ → ε → Except φ σ} {s t : σ} {tr : List (σ × ε)}

/-- **The invariant rule**: what holds at the start and is preserved by every accepted step holds at
the end of every run. -/
theorem invariant {I : σ → Prop} (h : Exec step s tr t) (hs : I s)
    (hstep : ∀ ⦃a e b⦄, I a → step a e = .ok b → I b) : I t := by
  induction h with
  | nil => exact hs
  | snoc _ hu ih => exact hstep ih hu

/-- **The invariant rule under a condition on the steps.** -/
theorem invariant_of_forall {I : σ → Prop} {ok : σ → ε → Prop} (h : Exec step s tr t) (hs : I s)
    (hok : AllSteps ok tr) (hstep : ∀ ⦃a e b⦄, I a → ok a e → step a e = .ok b → I b) : I t := by
  induction h with
  | nil => exact hs
  | snoc _ hu ih =>
      obtain ⟨hpre, hlast⟩ := (allSteps_snoc ok _ _ _).mp hok
      exact hstep (ih hpre) hlast hu

/-- An invariant holds in every state of the run, not only in its last one. -/
theorem throughout_of_forall {I : σ → Prop} {ok : σ → ε → Prop} (h : Exec step s tr t) (hs : I s)
    (hok : AllSteps ok tr) (hstep : ∀ ⦃a e b⦄, I a → ok a e → step a e = .ok b → I b) :
    Throughout I tr t := by
  induction h with
  | nil => exact (throughout_nil I s).mpr hs
  | snoc _ hu ih =>
      obtain ⟨hpre, hlast⟩ := (allSteps_snoc ok _ _ _).mp hok
      have hrun := ih hpre
      exact (throughout_snoc I _ _ _ _).mpr ⟨hrun, hstep hrun.2 hlast hu⟩

/-- **The exactness rule within a domain.** Let the invariant `I` give the property `P` and be preserved
by the steps of the domain that meet `ok`, and let every step of the domain that does not meet `ok`
break `P` at once. Then `P` holds throughout a run inside the domain iff all its steps meet `ok`. -/
theorem forall_iff_within {I P : σ → Prop} {ok dom : σ → ε → Prop} (h : Exec step s tr t) (hs : I s)
    (hdom : AllSteps dom tr) (hP : ∀ ⦃a⦄, I a → P a)
    (hgood : ∀ ⦃a e b⦄, I a → dom a e → ok a e → step a e = .ok b → I b)
    (hbad : ∀ ⦃a e b⦄, I a → dom a e → ¬ ok a e → step a e = .ok b → ¬ P b) :
    Throughout P tr t ↔ AllSteps ok tr := by
  have hboth : ∀ {tr : List (σ × ε)}, AllSteps dom tr → AllSteps ok tr →
      AllSteps (fun a e => dom a e ∧ ok a e) tr := fun hd ho x hx => ⟨hd x hx, ho x hx⟩
  constructor
  · intro hall
    induction h with
    | nil => exact allSteps_nil ok
    | snoc hrun hu ih =>
        obtain ⟨hpre, hPu⟩ := (throughout_snoc P _ _ _ _).mp hall
        obtain ⟨hdpre, hdlast⟩ := (allSteps_snoc dom _ _ _).mp hdom
        have hok := ih hdpre hpre
        refine (allSteps_snoc ok _ _ _).mpr ⟨hok, ?_⟩
        by_contra hnot
        have hI := hrun.invariant_of_forall hs (hboth hdpre hok)
          fun _ _ _ hi hc hstep => hgood hi hc.1 hc.2 hstep
        exact hbad hI hdlast hnot hu hPu
  · intro hok
    have hI := h.throughout_of_forall hs (hboth hdom hok)
      fun _ _ _ hi hc hstep => hgood hi hc.1 hc.2 hstep
    exact ⟨fun x hx => hP (hI.1 x hx), hP hI.2⟩

/-- **The exactness rule**, for runs without a restriction of the domain. -/
theorem forall_iff {I P : σ → Prop} {ok : σ → ε → Prop} (h : Exec step s tr t) (hs : I s)
    (hP : ∀ ⦃a⦄, I a → P a)
    (hgood : ∀ ⦃a e b⦄, I a → ok a e → step a e = .ok b → I b)
    (hbad : ∀ ⦃a e b⦄, I a → ¬ ok a e → step a e = .ok b → ¬ P b) :
    Throughout P tr t ↔ AllSteps ok tr :=
  h.forall_iff_within hs (show AllSteps (fun _ _ => True) tr from fun _ _ => trivial) hP
    (fun _ _ _ hi _ hok hstep => hgood hi hok hstep)
    (fun _ _ _ hi _ hnot hstep => hbad hi hnot hstep)

/-- **The exactness rule for single steps within a domain.** Let the invariant `I` be kept by the steps of
the domain that meet `ok`, and let `P` and `ok` agree on every step of the domain from a state with `I`.
Then they agree on runs inside the domain. -/
theorem allSteps_iff_within {I : σ → Prop} {P ok dom : σ → ε → Prop} (h : Exec step s tr t) (hs : I s)
    (hdom : AllSteps dom tr)
    (hI : ∀ ⦃a e b⦄, I a → dom a e → ok a e → step a e = .ok b → I b)
    (hiff : ∀ ⦃a e b⦄, I a → dom a e → step a e = .ok b → (P a e ↔ ok a e)) :
    AllSteps P tr ↔ AllSteps ok tr := by
  induction h with
  | nil => simp
  | snoc hrun hu ih =>
      obtain ⟨hdpre, hdlast⟩ := (allSteps_snoc dom _ _ _).mp hdom
      rw [allSteps_snoc, allSteps_snoc, ih hdpre]
      refine and_congr_right fun hok => hiff ?_ hdlast hu
      have hboth : AllSteps (fun a e => dom a e ∧ ok a e) _ := fun x hx => ⟨hdpre x hx, hok x hx⟩
      exact hrun.invariant_of_forall hs hboth fun _ _ _ hi hc hstep => hI hi hc.1 hc.2 hstep

/-- **The exactness rule for single steps.** Let the invariant `I` be kept by every step, and let
`P` and `ok` agree on every step from a state with `I`. Then they agree on runs. -/
theorem allSteps_iff {I : σ → Prop} {P ok : σ → ε → Prop} (h : Exec step s tr t) (hs : I s)
    (hI : ∀ ⦃a e b⦄, I a → step a e = .ok b → I b)
    (hiff : ∀ ⦃a e b⦄, I a → step a e = .ok b → (P a e ↔ ok a e)) :
    AllSteps P tr ↔ AllSteps ok tr :=
  h.allSteps_iff_within hs (show AllSteps (fun _ _ => True) tr from fun _ _ => trivial)
    (fun _ _ _ hi _ _ hstep => hI hi hstep) (fun _ _ _ hi _ hstep => hiff hi hstep)

/-- A run up to one of its steps. -/
theorem split {pre post : List (σ × ε)} {x : σ × ε} (h : Exec step s tr t)
    (htr : tr = pre ++ x :: post) : Exec step s pre x.1 ∧ ∃ u, step x.1 x.2 = .ok u := by
  induction h generalizing post with
  | nil => exact absurd htr (by simp)
  | @snoc tr t u e hrun hu ih =>
      rcases List.eq_nil_or_concat post with rfl | ⟨post, y, rfl⟩
      · obtain ⟨rfl, hx⟩ := List.append_inj' htr rfl
        rw [← List.head_eq_of_cons_eq hx]
        exact ⟨hrun, u, hu⟩
      · apply @ih post
        have hlast : tr ++ [(t, e)] = (pre ++ x :: post) ++ [y] := by
          rw [htr]
          simp
        exact (List.append_inj' hlast rfl).1

/-- Runs compose: a run from the end of another extends it. -/
theorem trans {u : σ} {tr' : List (σ × ε)} (h : Exec step s tr t) (h' : Exec step t tr' u) :
    Exec step s (tr ++ tr') u := by
  induction h' with
  | nil => simpa using h
  | snoc _ hu ih =>
      rw [← List.append_assoc]
      exact ih.snoc hu

end Exec

/-- Run a list of events, stopping at the first fault. -/
def runEvents (step : σ → ε → Except φ σ) (s : σ) : List ε → Except φ σ
  | [] => .ok s
  | e :: es =>
      match step s e with
      | .ok t => runEvents step t es
      | .error f => .error f

theorem runEvents_cons_eq_ok {step : σ → ε → Except φ σ} {s u : σ} {e : ε} {es : List ε} :
    runEvents step s (e :: es) = .ok u ↔ ∃ t, step s e = .ok t ∧ runEvents step t es = .ok u := by
  rw [runEvents]
  cases step s e <;> simp

/-- The events run without a fault and lead to a state that passes the check. -/
def checkRun (step : σ → ε → Except φ σ) (s : σ) (es : List ε) (check : σ → Bool) : Bool :=
  match runEvents step s es with
  | .ok t => check t
  | .error _ => false

/-- The trace of the executable run: the states before its events. -/
def traceEvents (step : σ → ε → Except φ σ) (s : σ) : List ε → List (σ × ε)
  | [] => []
  | e :: es =>
      match step s e with
      | .ok t => (s, e) :: traceEvents step t es
      | .error _ => []

/-- The trace of the executable run holds events of the list only. -/
theorem mem_of_traceEvents {step : σ → ε → Except φ σ} {s : σ} {es : List ε} {x : σ × ε}
    (h : x ∈ traceEvents step s es) : x.2 ∈ es := by
  induction es generalizing s with
  | nil => simp [traceEvents] at h
  | cons e es ih =>
      rw [traceEvents] at h
      cases he : step s e with
      | error f => simp [he] at h
      | ok t =>
          simp only [he, List.mem_cons] at h
          rcases h with rfl | h
          · exact List.mem_cons_self
          · exact List.mem_cons_of_mem e (ih h)

/-- A condition on events alone is checked on the list. -/
theorem allSteps_traceEvents {step : σ → ε → Except φ σ} {s : σ} {es : List ε} {P : ε → Prop}
    (h : ∀ e ∈ es, P e) : AllSteps (fun _ e => P e) (traceEvents step s es) :=
  fun _ hx => h _ (mem_of_traceEvents hx)

/-- A run may also be extended at its front. -/
theorem Exec.cons {step : σ → ε → Except φ σ} {s t u : σ} {e : ε} {tr : List (σ × ε)}
    (he : step s e = .ok t) (h : Exec step t tr u) : Exec step s ((s, e) :: tr) u := by
  have hone : Exec step s [(s, e)] t := by
    simpa using Exec.snoc Exec.nil he
  simpa using hone.trans h

/-- An executable run that ends without a fault is a run. -/
theorem Exec.of_runEvents {step : σ → ε → Except φ σ} {s t : σ} {es : List ε}
    (h : runEvents step s es = .ok t) : Exec step s (traceEvents step s es) t := by
  induction es generalizing s with
  | nil =>
      rw [runEvents, Except.ok.injEq] at h
      subst h
      exact Exec.nil
  | cons e es ih =>
      rw [runEvents] at h
      rw [traceEvents]
      cases he : step s e with
      | error f =>
          rw [he] at h
          exact absurd h (by simp)
      | ok u =>
          rw [he] at h
          exact Exec.cons he (ih h)

/-- A checked run is a run, to a state that passes the check. -/
theorem Exec.of_checkRun (step : σ → ε → Except φ σ) (s : σ) (es : List ε) (check : σ → Bool)
    (h : checkRun step s es check = true) :
    ∃ t, Exec step s (traceEvents step s es) t ∧ check t = true := by
  rw [checkRun] at h
  cases hr : runEvents step s es with
  | error f => simp [hr] at h
  | ok t => exact ⟨t, .of_runEvents hr, by simpa [hr] using h⟩

end Jrinx
