import Jrinx.Lib.Runs
import Jrinx.Syscalls

/-! # Runs of the kernel

The kernel on one hart as a step function over events: a process is dispatched, the process on the
hart makes a service call or continues one, or a timer interrupt is taken. A call that gives the
processor up is split there, so that any other event can come in between.

* **`Event`**, **`step`** — the events and what they do.
* **`live`** — when the process on the hart can execute a segment of a service. -/

namespace Jrinx

/-- What happens next on the hart. -/
inductive Event where
  /-- `sched_proc` dispatches this process. -/
  | dispatch (p : ProcId)
  /-- The process on the hart makes a service call. -/
  | call (env : Env) (s : Service)
  /-- The process on the hart comes back from `sched_proc_give_up`. -/
  | resume (env : Env)
  /-- A timer interrupt is handled; `clk` gives the readings of the clock. -/
  | timer (clk : Nat → Int)

/-- The process that executes on the hart: it may run, and it belongs to the current partition, which
is so whenever a dispatch came after the last partition switch. -/
def live (k : Kernel) : Option ProcId :=
  k.curProc.filter (fun p => eligible k p && ((k.procs p).prPartId = k.curPart))

/-- Record on the kernel stack of `p` how its segment ended. -/
def settle (p : ProcId) : Next × Kernel → Kernel
  | (.ret _ _, k) => k.setCont p none
  | (.giveUp _ c, k) => k.setCont p (some c)

/-- `sched_proc`, with an election whose result is `p`: any process of the current partition that is
ready may be elected. -/
def dispatch (k : Kernel) (p : ProcId) : Except Fault Kernel :=
  let k := schedProcSt k
  if p ∈ (k.parts k.curPart).paProcList ∧ eligible k p then .ok (schedProcEd k p)
  else .error .disabled

/-- The segment of a service that an event executes, with the process that executes it. -/
def segment (k : Kernel) : Event → Option (ProcId × Outcome)
  | .call env s =>
      match live k with
      | none => none
      | some p => if k.conts p = none then some (p, doSyscall k env p s) else none
  | .resume env =>
      match live k with
      | none => none
      | some p =>
          match k.conts p with
          | none => none
          | some c => some (p, resumeCont (k.setWoken p false) env p c)
  | _ => none

/-- One step. -/
def step (k : Kernel) (e : Event) : Except Fault Kernel :=
  match e with
  | .dispatch p => dispatch k p
  | .timer clk => (timeEventAction k clk).map Prod.snd
  | e =>
      match segment k e with
      | none => .error .disabled
      | some (p, out) => out.map (settle p)

/-- A run of the kernel. -/
abbrev Run (k : Kernel) (tr : List (Kernel × Event)) (k' : Kernel) : Prop := Exec step k tr k'

/-! ## Taking steps apart -/

/-- A dispatch takes the processor from the process on the hart and gives it to an elected one. -/
theorem dispatch_eq_ok {k k' : Kernel} {p : ProcId} (h : dispatch k p = .ok k') :
    (p ∈ ((schedProcSt k).parts (schedProcSt k).curPart).paProcList ∧ eligible (schedProcSt k) p = true) ∧
      k' = schedProcEd (schedProcSt k) p := by
  simp only [dispatch] at h
  split at h
  · rename_i hp
    exact ⟨hp, (Except.ok.inj h).symm⟩
  · exact absurd h (by simp)

/-- The events that execute no segment of a service. -/
theorem segment_eq_some {k : Kernel} {e : Event} {p : ProcId} {o : Outcome}
    (h : segment k e = some (p, o)) :
    live k = some p ∧ ((∃ env s, e = .call env s ∧ k.conts p = none ∧ o = doSyscall k env p s) ∨
      ∃ env c, e = .resume env ∧ k.conts p = some c ∧
        o = resumeCont (k.setWoken p false) env p c) := by
  -- a segment needs a process that may run, with a call to begin or one to continue
  cases e with
  | dispatch q => simp [segment] at h
  | timer clk => simp [segment] at h
  | call env s =>
      simp only [segment] at h
      cases hl : live k with
      | none => simp [hl] at h
      | some q =>
          simp only [hl] at h
          split at h
          · rename_i hc
            rw [Option.some.injEq, Prod.mk.injEq] at h
            obtain ⟨rfl, rfl⟩ := h
            exact ⟨rfl, Or.inl ⟨env, s, rfl, hc, rfl⟩⟩
          · exact absurd h (by simp)
  | resume env =>
      simp only [segment] at h
      cases hl : live k with
      | none => simp [hl] at h
      | some q =>
          cases hc : k.conts q with
          | none => simp [hl, hc] at h
          | some c =>
              simp only [hl, hc, Option.some.injEq, Prod.mk.injEq] at h
              obtain ⟨rfl, rfl⟩ := h
              exact ⟨rfl, Or.inr ⟨env, c, rfl, hc, rfl⟩⟩

/-- A step that executes a segment records how the segment ended. -/
theorem step_of_segment {k k' : Kernel} {e : Event} {p : ProcId} {o : Outcome}
    (hs : segment k e = some (p, o)) (h : step k e = .ok k') : ∃ r, o = .ok r ∧ settle p r = k' := by
  have hmap : o.map (settle p) = .ok k' := by
    cases e with
    | dispatch q => simp [segment] at hs
    | timer clk => simp [segment] at hs
    | call env s => simpa only [step, hs] using h
    | resume env => simpa only [step, hs] using h
  cases o with
  | error f => simp [Except.map] at hmap
  | ok r => exact ⟨r, rfl, Except.ok.inj hmap⟩

/-- A step is a dispatch, a timer interrupt or a segment of a service. -/
theorem step_eq_ok {k k' : Kernel} {e : Event} (h : step k e = .ok k') :
    (∃ p, e = .dispatch p ∧ dispatch k p = .ok k') ∨
      (∃ clk r, e = .timer clk ∧ timeEventAction k clk = .ok (r, k')) ∨
      ∃ p r, segment k e = some (p, .ok r) ∧ settle p r = k' := by
  cases e with
  | dispatch p => exact Or.inl ⟨p, rfl, h⟩
  | timer clk =>
      simp only [step] at h
      cases ht : timeEventAction k clk with
      | error f => simp [ht, Except.map] at h
      | ok x =>
          rw [ht] at h
          exact Or.inr (Or.inl ⟨clk, x.1, rfl, by rw [ht, ← Except.ok.inj h]⟩)
  | call env s =>
      cases hs : segment k (.call env s) with
      | none => simp [step, hs] at h
      | some x =>
          obtain ⟨r, ho, hr⟩ := step_of_segment hs h
          exact Or.inr (Or.inr ⟨x.1, r, by rw [← ho], hr⟩)
  | resume env =>
      cases hs : segment k (.resume env) with
      | none => simp [step, hs] at h
      | some x =>
          obtain ⟨r, ho, hr⟩ := step_of_segment hs h
          exact Or.inr (Or.inr ⟨x.1, r, by rw [← ho], hr⟩)

end Jrinx
