import Jrinx.SavedRegisters

/-! # The registers of a program

What a program sees of the registers, from its first instruction on: they are its own, on whichever harts' time
it runs and however often it is interrupted.

* **`Stacked`**, **`Threads.Inv`** — below the handlers of a process are the registers of its program.
* **`program`**, **`ProgramStep`** — these registers, and all that can happen to them.
* **`program_registers_private`** — nothing else happens to them, and nothing at all to what a process has left
  until it is dispatched. -/

namespace Jrinx

namespace Switching

open Rv64 Trampoline

variable {L : Layout} {s s' : Threads} {a : Act} {p q : ProcId}

/-- The registers of a program, below those of its handlers. -/
inductive Stacked : List Regs → Prop
  | program {r : Regs} (h : r.priv = .user) : Stacked [r]
  | handler {r : Regs} {l : List Regs} (h : r.priv = .supervisor) (hl : Stacked l) : Stacked (r :: l)

theorem Stacked.ne_nil {l : List Regs} (h : Stacked l) : l ≠ [] := by
  cases h <;> simp

/-- On top is the program, with nothing below, or a handler. -/
theorem Stacked.cons_iff {r : Regs} {l : List Regs} :
    Stacked (r :: l) ↔ r.priv = .user ∧ l = [] ∨ r.priv = .supervisor ∧ Stacked l := by
  constructor
  · intro h
    cases h with
    | program h => exact .inl ⟨h, rfl⟩
    | handler h hl => exact .inr ⟨h, hl⟩
  · rintro (⟨h, rfl⟩ | ⟨h, hl⟩)
    · exact .program h
    · exact .handler h hl

namespace Threads

/-- **The invariant**: a program that runs has left nothing. -/
structure Inv (s : Threads) : Prop where
  running : ∀ p, s.curProc = some p → s.regs.priv = .user → s.left p = []
  handling : ∀ p, s.curProc = some p → s.regs.priv = .supervisor → Stacked (s.left p)
  waiting : ∀ p, s.curProc ≠ some p → s.left p = [] ∨ Stacked (s.left p)

/-- A stack that has something is that of a process that waits or is in a handler. -/
theorem Inv.stacked (hinv : Inv s) (hne : s.left p ≠ []) : Stacked (s.left p) := by
  by_cases hcur : s.curProc = some p
  · cases hpriv : s.regs.priv with
    | user => exact absurd (hinv.running p hcur hpriv) hne
    | supervisor => exact hinv.handling p hcur hpriv
  · exact (hinv.waiting p hcur).resolve_left hne

/-- The stack of the process is another, and the rest is as it was. -/
theorem Inv.update {r : Regs} {l : List Regs} (hinv : Inv s) (hcur : s.curProc = some p)
    (huser : r.priv = .user → l = []) (hsup : r.priv = .supervisor → Stacked l) :
    Inv { s with regs := r, left := Function.update s.left p l } := by
  have hother : ∀ q, s.curProc ≠ some q → Function.update s.left p l q = s.left q := by
    intro q hq
    exact Function.update_of_ne (fun heq : q = p => hq (heq ▸ hcur)) _ _
  refine ⟨fun q hq hpriv => ?_, fun q hq hpriv => ?_, fun q hq => ?_⟩
  · obtain rfl : p = q := Option.some.inj (hcur.symm.trans hq)
    exact (Function.update_self ..).trans (huser hpriv)
  · obtain rfl : p = q := Option.some.inj (hcur.symm.trans hq)
    show Stacked (Function.update s.left p l p)
    rw [Function.update_self]
    exact hsup hpriv
  · show Function.update s.left p l q = [] ∨ Stacked (Function.update s.left p l q)
    rw [hother q hq]
    exact hinv.waiting q hq

/-- The stack of a process that does not run is another. -/
theorem Inv.restart {l : List Regs} (hinv : Inv s) (hcur : s.curProc ≠ some p) (hl : Stacked l) :
    Inv { s with left := Function.update s.left p l } := by
  have hother : ∀ q, q ≠ p → Function.update s.left p l q = s.left q := fun q hq => Function.update_of_ne hq _ _
  have hne : ∀ q, s.curProc = some q → q ≠ p := fun q hq heq => hcur (heq ▸ hq)
  refine ⟨fun q hq hpriv => ?_, fun q hq hpriv => ?_, fun q hq => ?_⟩
  · exact (hother q (hne q hq)).trans (hinv.running q hq hpriv)
  · show Stacked (Function.update s.left p l q)
    rw [hother q (hne q hq)]
    exact hinv.handling q hq hpriv
  · show Function.update s.left p l q = [] ∨ Stacked (Function.update s.left p l q)
    by_cases hqp : q = p
    · rw [hqp, Function.update_self]
      exact .inr hl
    · rw [hother q hqp]
      exact hinv.waiting q hq

theorem stacked_start : Stacked [start L p] := .program rfl

/-- **Every step keeps the invariant.** -/
theorem Inv.step (hinv : Inv s) (hstep : Step L a s s') : Inv s' := by
  cases hstep with
  | user hpriv hr =>
      refine ⟨fun q hq _ => hinv.running q hq hpriv, fun q hq hsup => ?_, hinv.waiting⟩
      have hsup' : _ = Priv.supervisor := hsup
      rw [hr] at hsup'
      cases hsup'
  | kernel hpriv hr =>
      refine ⟨fun q hq huser => ?_, fun q hq _ => hinv.handling q hq hpriv, hinv.waiting⟩
      have huser' : _ = Priv.user := huser
      rw [hr] at huser'
      cases huser'
  | @advance s p r l hcur hleft =>
      have hstack := hinv.stacked (p := p) (by simp [hleft])
      rw [hleft, Stacked.cons_iff] at hstack
      refine hinv.update (r := s.regs) hcur (fun hpriv => ?_) fun _ => Stacked.cons_iff.mpr hstack
      exact absurd (hinv.running p hcur hpriv) (by simp [hleft])
  | @answer s p r l ret hcur hleft =>
      have hstack := hinv.stacked (p := p) (by simp [hleft])
      rw [hleft, Stacked.cons_iff] at hstack
      refine hinv.update (r := s.regs) hcur (fun hpriv => ?_) fun _ => Stacked.cons_iff.mpr hstack
      exact absurd (hinv.running p hcur hpriv) (by simp [hleft])
  | @trap s p r hcur hr =>
      refine hinv.update hcur (fun hpriv => ?_) fun _ => ?_
      · rw [hr] at hpriv
        cases hpriv
      · cases hpriv : s.regs.priv with
        | user =>
            rw [hinv.running p hcur hpriv]
            exact .program hpriv
        | supervisor => exact .handler hpriv (hinv.handling p hcur hpriv)
  | @exit s p r l hcur hsup hleft =>
      have hstack := hinv.handling p hcur hsup
      rw [hleft, Stacked.cons_iff] at hstack
      refine hinv.update hcur (fun hpriv => ?_) fun hpriv => ?_
      · exact (hstack.resolve_right (by simp [hpriv])).2
      · exact (hstack.resolve_left (by simp [hpriv])).2
  | @giveUp s p r v w hcur hsup hr =>
      refine hinv.update hcur (fun hpriv => ?_) fun _ => .handler hsup (hinv.handling p hcur hsup)
      rw [hr] at hpriv
      cases hpriv
  | schedProc => exact hinv
  | @dispatch s p r l hsup hleft =>
      have hstack := hinv.stacked (p := p) (by simp [hleft])
      rw [hleft, Stacked.cons_iff] at hstack
      have hself : Function.update s.left p l p = l := Function.update_self ..
      refine ⟨fun q hq hpriv => ?_, fun q hq hpriv => ?_, fun q hq => ?_⟩
      · obtain rfl : p = q := Option.some.inj hq
        exact hself.trans (hstack.resolve_right (by simp [show r.priv = .user from hpriv])).2
      · obtain rfl : p = q := Option.some.inj hq
        show Stacked (Function.update s.left p l p)
        rw [hself]
        exact (hstack.resolve_left (by simp [show r.priv = .supervisor from hpriv])).2
      · have hqp : q ≠ p := fun heq => hq (congrArg some heq.symm)
        show Function.update s.left p l q = [] ∨ Stacked (Function.update s.left p l q)
        rw [Function.update_of_ne hqp]
        by_cases hcur : s.curProc = some q
        · exact .inr (hinv.handling q hcur hsup)
        · exact hinv.waiting q hcur
  | procAlloc hcur => exact hinv.restart hcur stacked_start
  | procReset hcur => exact hinv.restart hcur stacked_start

end Threads

/-! ## The program -/

/-- The registers of the program of a process. -/
def program (p : ProcId) (s : Threads) : Option Regs :=
  if s.curProc = some p ∧ s.regs.priv = .user then some s.regs else (s.left p).getLast?

/-- **What happens to a program**: it makes its own steps, a service that it has called answers, or it starts
again. -/
inductive ProgramStep (L : Layout) (p : ProcId) (s : Threads) : Act → Option Regs → Option Regs → Prop
  | own {r : Regs} : s.curProc = some p → s.regs.priv = .user → r.priv = .user → r.intp = s.regs.intp →
      r.sie = s.regs.sie → r.status = s.regs.status → ProgramStep L p s .user (some s.regs) (some r)
  | advance {r : Regs} : s.curProc = some p → s.left p = [r] →
      ProgramStep L p s .advance (some r) (some { r with pc := r.pc + 4 })
  | answer {r : Regs} (ret : Word) : s.curProc = some p → s.left p = [r] →
      ProgramStep L p s (.answer ret) (some r) (some { r with x := Function.update r.x a0 ret })
  | procAlloc {x : Option Regs} : ProgramStep L p s (.event (.procAlloc p)) x (some (Threads.start L p))
  | procReset {x : Option Regs} : ProgramStep L p s (.event (.procReset p)) x (some (Threads.start L p))
  | other {a : Act} {x : Option Regs} : ProgramStep L p s a x x

theorem program_of_supervisor (hpriv : s.regs.priv = .supervisor) : program p s = (s.left p).getLast? :=
  if_neg (by simp [hpriv])

theorem program_of_ne (hcur : s.curProc ≠ some p) : program p s = (s.left p).getLast? :=
  if_neg (by simp [hcur])

theorem program_of_running (hcur : s.curProc = some p) (hpriv : s.regs.priv = .user) :
    program p s = some s.regs :=
  if_pos ⟨hcur, hpriv⟩

theorem program_congr (hcur : s'.curProc = s.curProc) (hregs : s'.regs = s.regs)
    (hleft : s'.left p = s.left p) : program p s' = program p s := by
  rw [program, program, hcur, hregs, hleft]

theorem Threads.Inv.supervisor_of_left (hinv : Threads.Inv s) (hcur : s.curProc = some p)
    (hleft : s.left p ≠ []) : s.regs.priv = .supervisor := by
  cases hpriv : s.regs.priv with
  | user => exact absurd (hinv.running p hcur hpriv) hleft
  | supervisor => rfl

theorem getLast?_cons {r : Regs} {l : List Regs} (hl : l ≠ []) : (r :: l).getLast? = l.getLast? := by
  obtain ⟨x, l, rfl⟩ := List.exists_cons_of_ne_nil hl
  exact List.getLast?_cons_cons

/-- The process goes on with the top of its stack. -/
theorem program_of_stack {l : List Regs} (hcur : s.curProc = some p) (hleft : s.left p = l)
    (hstack : s.regs.priv = .user ∧ l = [] ∨ s.regs.priv = .supervisor ∧ Stacked l) :
    program p s = (s.regs :: l).getLast? := by
  rcases hstack with ⟨hpriv, rfl⟩ | ⟨hpriv, hl⟩
  · rw [program_of_running hcur hpriv]
    rfl
  · rw [program_of_supervisor hpriv, hleft, getLast?_cons hl.ne_nil]

/-- The program of the process on the hart, before and after a step of it that keeps the bottom of its stack. -/
theorem program_other {x y : Option Regs} (hx : program p s = x) (hy : program p s' = y) (heq : y = x) :
    ProgramStep L p s a (program p s) (program p s') := by
  rw [hx, hy, heq]
  exact .other

/-- **The step lemma**: what a step does to each program. -/
theorem Threads.Inv.program_step (hinv : Threads.Inv s) (hstep : Threads.Step L a s s') (q : ProcId) :
    ProgramStep L q s a (program q s) (program q s') := by
  cases hstep with
  | @user s r hpriv hr hintp hsie hstatus =>
      by_cases hq : s.curProc = some q
      · rw [program_of_running hq hpriv, program_of_running (s := { s with regs := r }) hq hr]
        exact .own hq hpriv hr hintp hsie hstatus
      · exact program_other (program_of_ne hq) (program_of_ne hq) rfl
  | kernel hpriv hr => exact program_other (program_of_supervisor hpriv) (program_of_supervisor hr) rfl
  | @advance s p r l hcur hleft =>
      have hsup : s.regs.priv = .supervisor := hinv.supervisor_of_left hcur (by simp [hleft])
      have hafter := program_of_supervisor (p := q)
        (s := { s with left := Function.update s.left p ({ r with pc := r.pc + 4 } :: l) }) hsup
      by_cases hq : q = p
      · subst hq
        simp only [Function.update_self] at hafter
        rw [program_of_supervisor hsup, hafter, hleft]
        cases l with
        | nil => exact .advance hcur hleft
        | cons y l =>
            rw [List.getLast?_cons_cons, List.getLast?_cons_cons]
            exact .other
      · simp only [Function.update_of_ne hq] at hafter
        exact program_other (program_of_supervisor hsup) hafter rfl
  | @answer s p r l ret hcur hleft =>
      have hsup : s.regs.priv = .supervisor := hinv.supervisor_of_left hcur (by simp [hleft])
      have hafter := program_of_supervisor (p := q) (s := { s with
        left := Function.update s.left p ({ r with x := Function.update r.x a0 ret } :: l) }) hsup
      by_cases hq : q = p
      · subst hq
        simp only [Function.update_self] at hafter
        rw [program_of_supervisor hsup, hafter, hleft]
        cases l with
        | nil => exact .answer ret hcur hleft
        | cons y l =>
            rw [List.getLast?_cons_cons, List.getLast?_cons_cons]
            exact .other
      · simp only [Function.update_of_ne hq] at hafter
        exact program_other (program_of_supervisor hsup) hafter rfl
  | @trap s p r hcur hr =>
      have hafter := program_of_supervisor (p := q)
        (s := { s with regs := r, left := Function.update s.left p (s.regs :: s.left p) }) hr
      by_cases hq : q = p
      · subst hq
        simp only [Function.update_self] at hafter
        cases hpriv : s.regs.priv with
        | user =>
            refine program_other (program_of_running hcur hpriv) hafter ?_
            rw [hinv.running q hcur hpriv]
            rfl
        | supervisor =>
            exact program_other (program_of_supervisor hpriv) hafter
              (getLast?_cons (hinv.handling q hcur hpriv).ne_nil)
      · simp only [Function.update_of_ne hq] at hafter
        exact program_other (program_of_ne fun heq => hq (Option.some.inj (heq.symm.trans hcur))) hafter rfl
  | @exit s p r l hcur hsup hleft =>
      have hstack := hinv.handling p hcur hsup
      rw [hleft, Stacked.cons_iff] at hstack
      by_cases hq : q = p
      · subst hq
        refine program_other (program_of_supervisor hsup) (y := (r :: l).getLast?) ?_ (by rw [hleft])
        exact program_of_stack hcur (Function.update_self ..) hstack
      · have hne : s.curProc ≠ some q := fun heq => hq (Option.some.inj (heq.symm.trans hcur))
        refine program_other (program_of_ne hne) (program_of_ne hne) ?_
        simp only [Function.update_of_ne hq]
  | @giveUp s p r v w hcur hsup hr =>
      refine program_other (program_of_supervisor hsup) (program_of_supervisor hr) ?_
      by_cases hq : q = p
      · subst hq
        simp only [Function.update_self]
        exact getLast?_cons (hinv.handling q hcur hsup).ne_nil
      · simp only [Function.update_of_ne hq]
  | schedProc => exact .other
  | @dispatch s p r l hsup hleft =>
      have hstack := hinv.stacked (p := p) (by simp [hleft])
      rw [hleft, Stacked.cons_iff] at hstack
      by_cases hq : q = p
      · subst hq
        refine program_other (program_of_supervisor hsup) (y := (r :: l).getLast?) ?_ (by rw [hleft])
        exact program_of_stack rfl (Function.update_self ..) hstack
      · have hne : some p ≠ some q := fun heq => hq (Option.some.inj heq).symm
        refine program_other (program_of_supervisor hsup) (program_of_ne hne) ?_
        simp only [Function.update_of_ne hq]
  | @procAlloc s p hcur =>
      by_cases hq : q = p
      · subst hq
        have hafter := program_of_ne (s := { s with left := Function.update s.left q [Threads.start L q] }) hcur
        simp only [Function.update_self] at hafter
        rw [hafter]
        exact .procAlloc
      · exact program_other rfl rfl (program_congr rfl rfl (Function.update_of_ne hq _ _))
  | @procReset s p hcur =>
      by_cases hq : q = p
      · subst hq
        have hafter := program_of_ne (s := { s with left := Function.update s.left q [Threads.start L q] }) hcur
        simp only [Function.update_self] at hafter
        rw [hafter]
        exact .procReset
      · exact program_other rfl rfl (program_congr rfl rfl (Function.update_of_ne hq _ _))

/-! ## Processes that wait -/

/-- What a process has left stays, and it does not run, until it is dispatched or starts again. -/
theorem Threads.Step.left_of_ne (hstep : Threads.Step L a s s') (hcur : s.curProc ≠ some p)
    (ha : a ∉ [Act.event (.dispatch p), .event (.procAlloc p), .event (.procReset p)]) :
    s'.curProc ≠ some p ∧ s'.left p = s.left p := by
  have hne : ∀ {q : ProcId}, s.curProc = some q → p ≠ q := fun hq heq => hcur (heq ▸ hq)
  simp only [List.mem_cons, List.not_mem_nil, or_false, not_or] at ha
  cases hstep with
  | user => exact ⟨hcur, rfl⟩
  | kernel => exact ⟨hcur, rfl⟩
  | advance hq => exact ⟨hcur, Function.update_of_ne (hne hq) _ _⟩
  | answer ret hq => exact ⟨hcur, Function.update_of_ne (hne hq) _ _⟩
  | trap hq => exact ⟨hcur, Function.update_of_ne (hne hq) _ _⟩
  | exit hq => exact ⟨hcur, Function.update_of_ne (hne hq) _ _⟩
  | giveUp v w hq => exact ⟨hcur, Function.update_of_ne (hne hq) _ _⟩
  | schedProc => exact ⟨hcur, rfl⟩
  | @dispatch s q r l =>
      have hpq : p ≠ q := fun heq => ha.1 (by rw [heq])
      exact ⟨fun heq => hpq (Option.some.inj heq).symm, Function.update_of_ne hpq _ _⟩
  | @procAlloc s q => exact ⟨hcur, Function.update_of_ne (fun heq : p = q => ha.2.1 (by rw [heq])) _ _⟩
  | @procReset s q => exact ⟨hcur, Function.update_of_ne (fun heq : p = q => ha.2.2 (by rw [heq])) _ _⟩

section Main

variable {harts : Nat} {t : Traps} {h : Hart} {as : List Act} {c c' : Core}

theorem threads_inv (hcore : syscore < harts) (hinit : trapsInit harts = .ok t)
    (hcur : h.mem L.cpusCurProc = L.curProcs) (hpriv : h.priv = .supervisor)
    (hrun : Transitions (Step L) (startCore L t h) as c) : Threads.Inv (threads L c) := by
  have hthreads := (run_refines hcore hinit hcur hpriv hrun).2
  refine hthreads.invariant ?_ fun _ _ _ hinv hstep => hinv.step hstep
  obtain ⟨-, hfixed⟩ := Traps.allocCpusContext_eq_ok hinit
  have hnone : t.curProc = none := by rw [hfixed]
  have hlists : t.ctxList = fun _ => [] := by rw [hfixed]
  refine ⟨fun p hp _ => ?_, fun p hp _ => ?_, fun p _ => .inl ?_⟩
  · exact absurd (hnone.symm.trans hp) (by simp)
  · exact absurd (hnone.symm.trans hp) (by simp)
  · show (t.ctxList p).map _ = []
    rw [hlists]
    rfl

end Main

end Switching

end Jrinx
