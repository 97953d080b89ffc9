import Jrinx.Lib.Fallible
import Jrinx.Lib.Runs
import Jrinx.Types

/-! # Trap contexts

`kern/traps/traps.c`, with `sched_proc_give_up`, `proc_run` and `proc_reset` as far as they move contexts. The
registers that a trap saves in a context are those of a program, of a handler that has a context of its own to
come back to, or of an election; so a context is worth what the code in it needs on the list below it.

* **`Traps`**, **`trapsInit`** — the free list, the contexts of the harts and the lists of the processes.
* **`TrapEvent`**, **`trapStep`** — traps, their exits, dispatches and resets.
* **`Fits`** — a list of contexts that some code can come back through.
* **`contexts_conserved`** — every context has one place, and no exit or dispatch takes a wrong one. -/

namespace Jrinx

/-! ## The state -/

/-- A context, as a position in `traps_context`. -/
abbrev Ctx : Type := Nat

/-- `NCTX_MAX`. -/
def nctxMax : Nat := 512

/-- `SYSCORE`, the hart that runs processes. The other harts are suspended. -/
def syscore : Nat := 1

/-- What the registers of the hart, or those in a context, go on with. -/
inductive Code where
  /-- `kernel_init`, up to the first `sched_global`. -/
  | boot
  /-- The program of a process. -/
  | user
  /-- A handler, with its variable `context`. -/
  | handler (context : Ctx)
  /-- `sched_proc`, which does not return. -/
  | elect
  deriving DecidableEq, Repr

/-- The contexts, and what the hart executes. -/
structure Traps where
  /-- `traps_ctx_free_list`. -/
  ctxFreeList : List Ctx
  /-- `cpus_get_count`. -/
  harts : Nat
  /-- `cpus_context`. -/
  cpusContext : Nat → Ctx
  /-- The processes that there are. -/
  procs : List ProcId
  /-- `tf_ctx_list`. -/
  ctxList : ProcId → List Ctx
  /-- `cpus_cur_proc` of the hart. -/
  curProc : Option ProcId
  /-- The registers in a context. -/
  saved : Ctx → Code
  /-- The registers of the hart. -/
  code : Code

/-- Why an event does not happen. -/
inductive TrapFault where
  /-- It is none that can happen here. -/
  | disabled
  /-- `ctx_alloc` found no context, which stops the system. -/
  | panic
  /-- `proc_run` followed the head of an empty list. -/
  | emptyList
  deriving DecidableEq, Repr

/-! ## Allocation -/

namespace Traps

variable (s : Traps)

/-- `ctx_alloc`. -/
def ctxAlloc : Except TrapFault (Ctx × Traps) :=
  match s.ctxFreeList with
  | [] => .error .panic
  | p :: l => .ok (p, { s with ctxFreeList := l })

/-- `ctx_free`. -/
def ctxFree (ctx : Ctx) : Traps := { s with ctxFreeList := ctx :: s.ctxFreeList }

/-- `hlist_insert_head` into the list of a process. -/
def insertHead (p : ProcId) (ctx : Ctx) : Traps :=
  { s with ctxList := Function.update s.ctxList p (ctx :: s.ctxList p) }

/-- `hlist_remove_node`: the node leaves the list that it is in. -/
def removeNode (ctx : Ctx) : Traps := { s with ctxList := fun p => (s.ctxList p).erase ctx }

/-- Another context for the hart. -/
def setContext (ctx : Ctx) : Traps := { s with cpusContext := Function.update s.cpusContext syscore ctx }

/-- The registers are saved in a context. -/
def save (ctx : Ctx) : Traps := { s with saved := Function.update s.saved ctx s.code }

/-! ## Traps -/

/-- The entry to a trap: the registers go to the context of the hart, and `prepare_nested_trap`. Before the
first dispatch all interrupts are masked. -/
def prepareNestedTrap : Except TrapFault Traps :=
  match s.curProc with
  | none => .error .disabled
  | some proc => do
      let context := s.cpusContext syscore
      let s := (s.save context).insertHead proc context
      let (ctx, s) ← s.ctxAlloc
      .ok { s.setContext ctx with code := .handler context }

/-- The end of `handle_exception` and its siblings, up to `trap_ret`, which loads the registers. -/
def trapExit (context : Ctx) : Traps :=
  let s := s.ctxFree (s.cpusContext syscore)
  let s := s.removeNode context
  { s.setContext context with code := s.saved context }

/-! ## Switches -/

/-- `sched_proc_give_up` from its election of another process on: `_sched_proc_give_up` saves the registers and
calls `sched_proc`. -/
def schedProcGiveUp (proc : ProcId) : Except TrapFault Traps := do
  let (context, s) ← s.ctxAlloc
  .ok { (s.insertHead proc context).save context with code := .elect }

/-- `proc_run`. -/
def procRun (proc : ProcId) : Except TrapFault Traps :=
  match s.ctxList proc with
  | [] => .error .emptyList
  | procTopCtx :: _ =>
      let s := s.ctxFree (s.cpusContext syscore)
      let s := (s.setContext procTopCtx).removeNode procTopCtx
      .ok { s with curProc := some proc, code := s.saved procTopCtx }

/-- The loops of `proc_reset` and `traps_init`: the contexts go to the free list one by one. -/
def freeContexts : List Ctx → List Ctx → List Ctx
  | [], free => free
  | ctx :: l, free => freeContexts l (ctx :: free)

/-- `proc_reset`. The new context starts the program of the process. -/
def procReset (proc : ProcId) : Except TrapFault Traps := do
  let s := { s with
    ctxFreeList := freeContexts (s.ctxList proc) s.ctxFreeList
    ctxList := Function.update s.ctxList proc [] }
  let (procCtx, s) ← s.ctxAlloc
  .ok { s.insertHead proc procCtx with saved := Function.update s.saved procCtx .user }

/-- `proc_alloc`. -/
def procAlloc (proc : ProcId) : Except TrapFault Traps :=
  { s with procs := s.procs ++ [proc], ctxList := Function.update s.ctxList proc [] }.procReset proc

end Traps

/-- The second loop of `traps_init`, for the first `n` harts. -/
def Traps.allocCpusContext (s : Traps) : Nat → Except TrapFault Traps
  | 0 => .ok s
  | n + 1 => do
      let s ← s.allocCpusContext n
      let (ctx, s) ← s.ctxAlloc
      .ok { s with cpusContext := Function.update s.cpusContext n ctx }

/-- `traps_init`, with `cpus_get_count` harts. -/
def trapsInit (harts : Nat) : Except TrapFault Traps :=
  Traps.allocCpusContext {
    ctxFreeList := Traps.freeContexts (List.range nctxMax) []
    harts
    cpusContext := fun _ => 0
    procs := []
    ctxList := fun _ => []
    curProc := none
    saved := fun _ => .user
    code := .boot } harts

/-! ## Runs -/

/-- What happens to the contexts. -/
inductive TrapEvent where
  /-- An exception or an interrupt is taken. -/
  | trap
  /-- A handler ends. -/
  | exit
  /-- `sched_proc_give_up` has elected another process. -/
  | giveUp
  /-- `sched_proc` is called, by `sched_global` or by a handler. -/
  | schedProc
  /-- An election ends, with this process. -/
  | dispatch (proc : ProcId)
  /-- `proc_alloc`. -/
  | procAlloc (proc : ProcId)
  /-- `proc_reset`. -/
  | procReset (proc : ProcId)
  deriving DecidableEq, Repr

/-- One step. -/
def trapStep (s : Traps) : TrapEvent → Except TrapFault Traps
  | .trap => s.prepareNestedTrap
  | .exit =>
      match s.code with
      | .handler context => .ok (s.trapExit context)
      | _ => .error .disabled
  | .giveUp =>
      match s.code, s.curProc with
      | .handler _, some proc => s.schedProcGiveUp proc
      | _, _ => .error .disabled
  | .schedProc =>
      match s.code with
      | .boot => .ok { s with code := .elect }
      | .handler _ => .ok { s with code := .elect }
      | _ => .error .disabled
  | .dispatch proc =>
      if s.code = .elect ∧ proc ∈ s.procs then s.procRun proc else .error .disabled
  | .procAlloc proc =>
      match s.code with
      | .boot => if proc ∈ s.procs then .error .disabled else s.procAlloc proc
      | .handler _ => if proc ∈ s.procs then .error .disabled else s.procAlloc proc
      | _ => .error .disabled
  | .procReset proc =>
      match s.code with
      | .handler _ =>
          -- the process on the hart is never reset
          if proc ∈ s.procs ∧ s.curProc ≠ some proc then s.procReset proc else .error .disabled
      | _ => .error .disabled

/-! ## What a step does -/

namespace Traps

variable {s s' : Traps} {p : ProcId}

theorem ctxAlloc_eq_ok {x : Ctx × Traps} :
    s.ctxAlloc = .ok x ↔ ∃ c l, s.ctxFreeList = c :: l ∧ x = (c, { s with ctxFreeList := l }) := by
  rw [ctxAlloc]
  cases s.ctxFreeList with
  | nil => simp
  | cons c l =>
      constructor
      · intro h
        cases h
        exact ⟨c, l, rfl, rfl⟩
      · rintro ⟨c', l', heq, rfl⟩
        cases heq
        rfl

theorem prepareNestedTrap_eq_ok (h : s.prepareNestedTrap = .ok s') :
    ∃ p c l, s.curProc = some p ∧ s.ctxFreeList = c :: l ∧ s' = { s with
      ctxFreeList := l
      cpusContext := Function.update s.cpusContext syscore c
      ctxList := Function.update s.ctxList p (s.cpusContext syscore :: s.ctxList p)
      saved := Function.update s.saved (s.cpusContext syscore) s.code
      code := .handler (s.cpusContext syscore) } := by
  rw [prepareNestedTrap] at h
  cases hcur : s.curProc with
  | none =>
      rw [hcur] at h
      cases h
  | some p =>
      simp only [hcur] at h
      obtain ⟨x, halloc, h⟩ := except_bind_eq_ok.mp h
      obtain ⟨c, l, hfree, rfl⟩ := ctxAlloc_eq_ok.mp halloc
      cases h
      exact ⟨p, c, l, rfl, hfree, by rw [← hcur]; rfl⟩

theorem schedProcGiveUp_eq_ok (h : s.schedProcGiveUp p = .ok s') :
    ∃ c l, s.ctxFreeList = c :: l ∧ s' = { s with
      ctxFreeList := l
      ctxList := Function.update s.ctxList p (c :: s.ctxList p)
      saved := Function.update s.saved c s.code
      code := .elect } := by
  obtain ⟨x, halloc, h⟩ := except_bind_eq_ok.mp h
  obtain ⟨c, l, hfree, rfl⟩ := ctxAlloc_eq_ok.mp halloc
  cases h
  exact ⟨c, l, hfree, rfl⟩

theorem procRun_eq_ok (h : s.procRun p = .ok s') : ∃ c l, s.ctxList p = c :: l ∧ s' = { s with
    ctxFreeList := s.cpusContext syscore :: s.ctxFreeList
    cpusContext := Function.update s.cpusContext syscore c
    ctxList := fun q => (s.ctxList q).erase c
    curProc := some p
    code := s.saved c } := by
  rw [procRun] at h
  cases hlist : s.ctxList p with
  | nil =>
      rw [hlist] at h
      cases h
  | cons c l =>
      rw [hlist] at h
      cases h
      exact ⟨c, l, rfl, rfl⟩

theorem freeContexts_eq (l free : List Ctx) : freeContexts l free = l.reverse ++ free := by
  induction l generalizing free with
  | nil => rfl
  | cons c l ih => rw [freeContexts, ih, List.reverse_cons, List.append_assoc, List.singleton_append]

theorem procReset_eq_ok (h : s.procReset p = .ok s') :
    ∃ c l, (s.ctxList p).reverse ++ s.ctxFreeList = c :: l ∧ s' = { s with
      ctxFreeList := l
      ctxList := Function.update s.ctxList p [c]
      saved := Function.update s.saved c .user } := by
  obtain ⟨x, halloc, h⟩ := except_bind_eq_ok.mp h
  obtain ⟨c, l, hfree, rfl⟩ := ctxAlloc_eq_ok.mp halloc
  cases h
  refine ⟨c, l, by rw [← freeContexts_eq]; exact hfree, ?_⟩
  simp [insertHead]

/-- The harts take their contexts from the free list, and nothing else changes. -/
theorem allocCpusContext_eq_ok {n : Nat} (h : s.allocCpusContext n = .ok s') :
    (s'.ctxFreeList ++ (List.range n).map s'.cpusContext).Perm s.ctxFreeList ∧
      s' = { s with ctxFreeList := s'.ctxFreeList, cpusContext := s'.cpusContext } := by
  induction n generalizing s' with
  | zero =>
      cases h
      exact ⟨by simp, rfl⟩
  | succ n ih =>
      obtain ⟨t, ht, h⟩ := except_bind_eq_ok.mp h
      obtain ⟨hperm, hfixed⟩ := ih ht
      obtain ⟨x, halloc, h⟩ := except_bind_eq_ok.mp h
      obtain ⟨c, l, hfree, rfl⟩ := ctxAlloc_eq_ok.mp halloc
      cases h
      -- the harts before the new one keep theirs
      have hold : (List.range n).map (Function.update t.cpusContext n c) = (List.range n).map t.cpusContext :=
        List.map_congr_left fun i hi => Function.update_of_ne (List.mem_range.mp hi).ne _ _
      refine ⟨?_, by rw [hfixed]⟩
      refine .trans ?_ hperm
      rw [List.range_succ, List.map_append, hold, hfree]
      simp only [List.map_cons, List.map_nil, Function.update_self, List.perm_iff_count, List.count_append,
        List.count_cons, List.count_nil]
      omega

end Traps

/-! ## Lists that some code can come back through -/

/-- **The lists below some code**: a program has left no context, a handler has left its own on top, and what an
election has left, or the processes that wait for one, is the list of a process that can be dispatched. Below a
context is what the code in it needs. -/
inductive Fits (saved : Ctx → Code) : Code → List Ctx → Prop where
  | user : Fits saved .user []
  | handler {c : Ctx} {l : List Ctx} (h : Fits saved (saved c) l) : Fits saved (.handler c) (c :: l)
  | elect {c : Ctx} {l : List Ctx} (h : Fits saved (saved c) l) : Fits saved .elect (c :: l)

variable {saved saved' : Ctx → Code} {code : Code} {l : List Ctx} {s s' : Traps} {p q : ProcId} {c : Ctx}

theorem Fits.congr (h : Fits saved code l) (hsaved : ∀ c ∈ l, saved' c = saved c) : Fits saved' code l := by
  induction h with
  | user => exact .user
  | @handler c l _ ih =>
      obtain ⟨hc, hl⟩ := List.forall_mem_cons.mp hsaved
      exact .handler (hc ▸ ih hl)
  | @elect c l _ ih =>
      obtain ⟨hc, hl⟩ := List.forall_mem_cons.mp hsaved
      exact .elect (hc ▸ ih hl)

/-- A handler can be left for good. -/
theorem Fits.leave (h : Fits saved (.handler c) l) : Fits saved .elect l := by
  cases h with
  | handler h => exact .elect h

theorem Fits.handler_eq (h : Fits saved (.handler c) l) : ∃ l', l = c :: l' ∧ Fits saved (saved c) l' := by
  cases h with
  | handler h => exact ⟨_, rfl, h⟩

theorem Fits.elect_eq (h : Fits saved .elect l) : ∃ c l', l = c :: l' ∧ Fits saved (saved c) l' := by
  cases h with
  | elect h => exact ⟨_, _, rfl, h⟩

/-- What is saved elsewhere does not matter. -/
theorem Fits.update (h : Fits saved code l) (hc : c ∉ l) (x : Code) : Fits (Function.update saved c x) code l :=
  h.congr fun d hd => Function.update_of_ne (fun heq : d = c => hc (heq ▸ hd)) x saved

/-! ## The places of the contexts -/

namespace Traps

/-- The contexts, place by place. -/
def contexts (s : Traps) : List Ctx :=
  s.ctxFreeList ++ (List.range s.harts).map s.cpusContext ++ s.procs.flatMap s.ctxList

/-- Those of the other harts, and of the processes but `p`. -/
def rest (s : Traps) (p : ProcId) : List Ctx :=
  ((List.range s.harts).erase syscore).map s.cpusContext ++ (s.procs.erase p).flatMap s.ctxList

/-- The contexts that can move in a step of the process `p`, and the rest. -/
theorem contexts_perm (hhart : syscore < s.harts) (hp : p ∈ s.procs) :
    s.contexts.Perm (s.ctxFreeList ++ s.cpusContext syscore :: (s.ctxList p ++ s.rest p)) := by
  have hharts : ((List.range s.harts).map s.cpusContext).Perm
      (s.cpusContext syscore :: ((List.range s.harts).erase syscore).map s.cpusContext) :=
    (List.perm_cons_erase (List.mem_range.mpr hhart)).map _
  have hprocs : (s.procs.flatMap s.ctxList).Perm (s.ctxList p ++ (s.procs.erase p).flatMap s.ctxList) :=
    (List.perm_cons_erase hp).flatMap_right _
  have hboth := (hharts.append hprocs).append_left s.ctxFreeList
  rw [contexts, List.append_assoc]
  refine hboth.trans ?_
  rw [rest, List.perm_iff_count]
  intro x
  simp only [List.count_append, List.count_cons]
  omega

/-- A step of the process `p` leaves the rest alone. -/
theorem rest_congr (hharts : s'.harts = s.harts) (hprocs : s'.procs = s.procs) (hnodup : s.procs.Nodup)
    (hcpus : ∀ i ≠ syscore, s'.cpusContext i = s.cpusContext i)
    (hlists : ∀ q ≠ p, s'.ctxList q = s.ctxList q) : s'.rest p = s.rest p := by
  rw [rest, rest, hharts, hprocs]
  congr 1
  · refine List.map_congr_left fun i hi => hcpus i ?_
    rintro rfl
    exact (List.nodup_range.not_mem_erase) hi
  · refine List.flatMap_congr fun q hq => hlists q ?_
    rintro rfl
    exact hnodup.not_mem_erase hq

end Traps

/-! ## The invariant -/

/-- **The invariant.** -/
structure TrapInv (s : Traps) : Prop where
  hart : syscore < s.harts
  nodup : s.procs.Nodup
  /-- Every context has one place. -/
  conserved : s.contexts.Perm (List.range nctxMax)
  /-- A process that is not there has no context. -/
  fresh : ∀ p ∉ s.procs, s.ctxList p = []
  /-- Before the first dispatch there is only the boot code. -/
  idle : s.curProc = none → s.code = .boot ∨ s.code = .elect
  /-- The code on the hart comes back through the list of its process. -/
  current : ∀ p, s.curProc = some p → p ∈ s.procs ∧ Fits s.saved s.code (s.ctxList p)
  /-- The other processes can be dispatched. -/
  others : ∀ p ∈ s.procs, s.curProc ≠ some p → Fits s.saved .elect (s.ctxList p)

namespace TrapInv

theorem contexts_nodup (h : TrapInv s) : s.contexts.Nodup := h.conserved.nodup_iff.mpr List.nodup_range

/-- A context of the hart, or a free one, is on no list. -/
theorem notMem_ctxList (h : TrapInv s) (hc : c ∈ s.ctxFreeList ∨ c = s.cpusContext syscore) (p : ProcId) :
    c ∉ s.ctxList p := by
  intro hmem
  by_cases hp : p ∈ s.procs
  · have hnodup := (Traps.contexts_perm h.hart hp).nodup_iff.mp h.contexts_nodup
    rw [List.nodup_append] at hnodup
    rcases hc with hc | rfl
    · exact hnodup.2.2 c hc c (List.mem_cons_of_mem _ (List.mem_append_left _ hmem)) rfl
    · exact (List.nodup_cons.mp hnodup.2.1).1 (List.mem_append_left _ hmem)
  · rw [h.fresh p hp] at hmem
    exact absurd hmem List.not_mem_nil

/-- A context is on one list only. -/
theorem notMem_other (h : TrapInv s) (hc : c ∈ s.ctxList p) (hne : q ≠ p) : c ∉ s.ctxList q := by
  intro hmem
  by_cases hp : p ∈ s.procs
  · by_cases hq : q ∈ s.procs
    · have hnodup := (Traps.contexts_perm h.hart hp).nodup_iff.mp h.contexts_nodup
      have hlists := (List.nodup_cons.mp (List.nodup_append.mp hnodup).2.1).2
      refine (List.nodup_append.mp hlists).2.2 c hc c ?_ rfl
      exact List.mem_append_right _ (List.mem_flatMap.mpr ⟨q, (List.mem_erase_of_ne hne).mpr hq, hmem⟩)
    · rw [h.fresh q hq] at hmem
      exact absurd hmem List.not_mem_nil
  · rw [h.fresh p hp] at hc
    exact absurd hc List.not_mem_nil

/-- What moves between the free list, the hart and the process `p` keeps its place count. -/
theorem conserved_of_move (h : TrapInv s) (hp : p ∈ s.procs) (hharts : s'.harts = s.harts)
    (hprocs : s'.procs = s.procs) (hcpus : ∀ i ≠ syscore, s'.cpusContext i = s.cpusContext i)
    (hlists : ∀ q ≠ p, s'.ctxList q = s.ctxList q)
    (hmove : (s'.ctxFreeList ++ s'.cpusContext syscore :: s'.ctxList p).Perm
      (s.ctxFreeList ++ s.cpusContext syscore :: s.ctxList p)) :
    s'.contexts.Perm (List.range nctxMax) := by
  have hbefore := Traps.contexts_perm h.hart hp
  have hafter := Traps.contexts_perm (s := s') (hharts ▸ h.hart) (hprocs ▸ hp)
  have hrest := Traps.rest_congr hharts hprocs h.nodup hcpus hlists
  refine (hafter.trans ?_).trans (hbefore.symm.trans h.conserved)
  rw [hrest]
  simpa using hmove.append_right (s.rest p)

/-- What the hart executes for a process. -/
theorem cur_of_handler (h : TrapInv s) (hcode : s.code = .handler c) : ∃ p, s.curProc = some p := by
  cases hcur : s.curProc with
  | none =>
      rcases h.idle hcur with hboot | helect
      · rw [hboot] at hcode
        cases hcode
      · rw [helect] at hcode
        cases hcode
  | some p => exact ⟨p, rfl⟩

/-- At the end of a handler its context is on top of the list of the process. -/
theorem top_of_handler (h : TrapInv s) (hcode : s.code = .handler c) :
    ∃ p l, s.curProc = some p ∧ s.ctxList p = c :: l ∧ Fits s.saved (s.saved c) l := by
  obtain ⟨p, hcur⟩ := h.cur_of_handler hcode
  obtain ⟨l, hl, hfits⟩ := (hcode ▸ (h.current p hcur).2).handler_eq
  exact ⟨p, l, hcur, hl, hfits⟩

/-- While an election goes on, every process can be dispatched. -/
theorem dispatchable (h : TrapInv s) (hcode : s.code = .elect) (hp : p ∈ s.procs) :
    Fits s.saved .elect (s.ctxList p) := by
  by_cases hcur : s.curProc = some p
  · exact hcode ▸ (h.current p hcur).2
  · exact h.others p hp hcur

/-! ## The steps -/

theorem trap (h : TrapInv s) (hs : s.prepareNestedTrap = .ok s') : TrapInv s' := by
  obtain ⟨p, c, l, hcur, hfree, rfl⟩ := Traps.prepareNestedTrap_eq_ok hs
  obtain ⟨hp, hfits⟩ := h.current p hcur
  have hapart := h.notMem_ctxList (Or.inr rfl)
  refine ⟨h.hart, h.nodup, ?_, ?_, ?_, ?_, ?_⟩
  · refine h.conserved_of_move hp rfl rfl (fun i hi => ?_) (fun q hq => ?_) ?_
    · exact Function.update_of_ne hi _ _
    · exact Function.update_of_ne hq _ _
    · simp only [Function.update_self, hfree, List.perm_iff_count, List.count_append, List.count_cons]
      omega
  · intro q hq
    show Function.update _ _ _ _ = _
    rw [Function.update_of_ne (fun heq : q = p => hq (heq ▸ hp)), h.fresh q hq]
  · intro hnone
    rw [hcur] at hnone
    cases hnone
  · intro q hq
    obtain rfl : p = q := Option.some.inj (hcur.symm.trans hq)
    refine ⟨hp, ?_⟩
    simp only [Function.update_self]
    refine .handler ?_
    rw [Function.update_self]
    exact hfits.update (hapart p) _
  · intro q hq hne
    have hqp : q ≠ p := fun heq => hne (heq ▸ hcur)
    simp only [Function.update_of_ne hqp]
    exact (h.others q hq hne).update (hapart q) _

theorem exit (h : TrapInv s) (hcode : s.code = .handler c) : TrapInv (s.trapExit c) := by
  obtain ⟨p, l, hcur, hlist, hfits⟩ := h.top_of_handler hcode
  obtain ⟨hp, -⟩ := h.current p hcur
  have hself : (s.trapExit c).ctxList p = l := by
    show (s.ctxList p).erase c = l
    rw [hlist, List.erase_cons_head]
  have hothers : ∀ q ≠ p, (s.trapExit c).ctxList q = s.ctxList q := fun q hq =>
    List.erase_of_not_mem (h.notMem_other (hlist ▸ List.mem_cons_self) hq)
  refine ⟨h.hart, h.nodup, ?_, ?_, ?_, ?_, ?_⟩
  · refine h.conserved_of_move hp rfl rfl (fun i hi => Function.update_of_ne hi _ _) hothers ?_
    rw [hself, hlist]
    show (_ :: s.ctxFreeList ++ Function.update s.cpusContext syscore c syscore :: l).Perm _
    simp only [Function.update_self, List.perm_iff_count, List.count_append, List.count_cons]
    omega
  · intro q hq
    rw [hothers q fun heq => hq (heq ▸ hp), h.fresh q hq]
  · intro hnone
    rw [show (s.trapExit c).curProc = s.curProc from rfl, hcur] at hnone
    cases hnone
  · intro q hq
    obtain rfl : p = q := Option.some.inj (hcur.symm.trans hq)
    exact ⟨hp, hself.symm ▸ hfits⟩
  · intro q hq hne
    rw [hothers q fun heq => hne (heq ▸ hcur)]
    exact h.others q hq hne

theorem giveUp (h : TrapInv s) (hcur : s.curProc = some p) (hs : s.schedProcGiveUp p = .ok s') : TrapInv s' := by
  obtain ⟨x, l, hfree, rfl⟩ := Traps.schedProcGiveUp_eq_ok hs
  obtain ⟨hp, hfits⟩ := h.current p hcur
  have hapart := h.notMem_ctxList (Or.inl (hfree ▸ List.mem_cons_self) : x ∈ s.ctxFreeList ∨ _)
  refine ⟨h.hart, h.nodup, ?_, ?_, ?_, ?_, ?_⟩
  · refine h.conserved_of_move hp rfl rfl (fun _ _ => rfl) (fun q hq => ?_) ?_
    · exact Function.update_of_ne hq _ _
    · simp only [Function.update_self, hfree, List.perm_iff_count, List.count_append, List.count_cons]
      omega
  · intro q hq
    simp only [Function.update_of_ne (fun heq : q = p => hq (heq ▸ hp)), h.fresh q hq]
  · exact fun _ => Or.inr rfl
  · intro q hq
    obtain rfl : p = q := Option.some.inj (hcur.symm.trans hq)
    refine ⟨hp, ?_⟩
    simp only [Function.update_self]
    refine .elect ?_
    rw [Function.update_self]
    exact hfits.update (hapart p) _
  · intro q hq hne
    have hqp : q ≠ p := fun heq => hne (heq ▸ hcur)
    simp only [Function.update_of_ne hqp]
    exact (h.others q hq hne).update (hapart q) _

/-- `sched_proc` leaves what called it for good. -/
theorem schedProc (h : TrapInv s) (hcode : s.code = .boot ∨ ∃ c, s.code = .handler c) :
    TrapInv { s with code := .elect } := by
  refine ⟨h.hart, h.nodup, h.conserved, h.fresh, fun _ => Or.inr rfl, fun p hcur => ?_, h.others⟩
  obtain ⟨hp, hfits⟩ := h.current p hcur
  refine ⟨hp, ?_⟩
  rcases hcode with hboot | ⟨c, hc⟩
  · rw [hboot] at hfits
    cases hfits
  · exact (hc ▸ hfits : Fits s.saved (.handler c) _).leave

theorem dispatch (h : TrapInv s) (hcode : s.code = .elect) (hp : p ∈ s.procs)
    (hs : s.procRun p = .ok s') : TrapInv s' := by
  obtain ⟨x, l, hlist, rfl⟩ := Traps.procRun_eq_ok hs
  obtain ⟨x', l', hlist', hfits⟩ := (h.dispatchable hcode hp).elect_eq
  obtain ⟨rfl, rfl⟩ := List.cons.inj (hlist.symm.trans hlist')
  -- the saved context goes from the list of the process to the hart, and that of the hart is freed
  have hothers : ∀ q ≠ p, (s.ctxList q).erase x = s.ctxList q := fun q hq =>
    List.erase_of_not_mem (h.notMem_other (hlist ▸ List.mem_cons_self) hq)
  have hself : (s.ctxList p).erase x = l := by rw [hlist, List.erase_cons_head]
  refine ⟨h.hart, h.nodup, ?_, ?_, ?_, ?_, ?_⟩
  · refine h.conserved_of_move hp rfl rfl (fun i hi => ?_) hothers ?_
    · exact Function.update_of_ne hi _ _
    · show (_ :: s.ctxFreeList ++ Function.update s.cpusContext syscore x syscore :: (s.ctxList p).erase x).Perm _
      rw [hself, hlist]
      simp only [Function.update_self, List.perm_iff_count, List.count_append, List.count_cons]
      omega
  · intro q hq
    show (s.ctxList q).erase x = []
    rw [hothers q fun heq => hq (heq ▸ hp), h.fresh q hq]
  · intro hnone
    cases hnone
  · intro q hq
    obtain rfl : p = q := Option.some.inj hq
    refine ⟨hp, ?_⟩
    show Fits s.saved (s.saved x) ((s.ctxList p).erase x)
    rw [hself]
    exact hfits
  · intro q hq hne
    show Fits s.saved .elect ((s.ctxList q).erase x)
    rw [hothers q fun heq => hne (congrArg some heq.symm)]
    exact h.dispatchable hcode hq

theorem reset (h : TrapInv s) (hp : p ∈ s.procs) (hcur : s.curProc ≠ some p)
    (hs : s.procReset p = .ok s') : TrapInv s' := by
  obtain ⟨x, l, hfree, rfl⟩ := Traps.procReset_eq_ok hs
  -- the context that the process gets is one of its own or a free one
  have hx : x ∈ s.ctxList p ∨ x ∈ s.ctxFreeList := by
    have hmem : x ∈ (s.ctxList p).reverse ++ s.ctxFreeList := hfree ▸ List.mem_cons_self
    simpa using hmem
  -- in both cases no other process has it
  have hapart : ∀ q ≠ p, x ∉ s.ctxList q := by
    intro q hq
    rcases hx with hx | hx
    · exact h.notMem_other hx hq
    · exact h.notMem_ctxList (Or.inl hx) q
  refine ⟨h.hart, h.nodup, ?_, ?_, h.idle, ?_, ?_⟩
  · refine h.conserved_of_move hp rfl rfl (fun _ _ => rfl) (fun q hq => ?_) ?_
    · exact Function.update_of_ne hq _ _
    · have hcount : ∀ y, ((s.ctxList p).reverse ++ s.ctxFreeList).count y = (x :: l).count y := by
        rw [hfree]
        exact fun _ => rfl
      simp only [List.count_append, List.count_reverse, List.count_cons] at hcount
      simp only [Function.update_self, List.perm_iff_count, List.count_append, List.count_cons, List.count_nil]
      intro y
      have := hcount y
      omega
  · intro q hq
    simp only [Function.update_of_ne (fun heq : q = p => hq (heq ▸ hp)), h.fresh q hq]
  · intro q hq
    obtain ⟨hmem, hfits⟩ := h.current q hq
    have hqp : q ≠ p := fun heq => hcur (heq ▸ hq)
    refine ⟨hmem, ?_⟩
    simp only [Function.update_of_ne hqp]
    exact hfits.update (hapart q hqp) _
  · intro q hq hne
    by_cases hqp : q = p
    · rw [hqp]
      simp only [Function.update_self]
      refine .elect ?_
      rw [Function.update_self]
      exact .user
    · simp only [Function.update_of_ne hqp]
      exact (h.others q hq hne).update (hapart q hqp) _

/-- A process that is new gets its first context. -/
theorem alloc (h : TrapInv s) (hp : p ∉ s.procs) (hs : s.procAlloc p = .ok s') : TrapInv s' := by
  obtain ⟨x, l, hfree, rfl⟩ := Traps.procReset_eq_ok hs
  simp only [Function.update_self, List.reverse_nil, List.nil_append] at hfree
  -- the context is a free one, and so it is on no list
  have hapart := h.notMem_ctxList (Or.inl (hfree ▸ List.mem_cons_self) : x ∈ s.ctxFreeList ∨ _)
  have hlists : ∀ q ≠ p, Function.update (Function.update s.ctxList p []) p [x] q = s.ctxList q := by
    intro q hq
    rw [Function.update_of_ne hq, Function.update_of_ne hq]
  have hold : ∀ q ∈ s.procs, q ≠ p := fun q hq heq => hp (heq ▸ hq)
  refine ⟨h.hart, ?_, ?_, ?_, h.idle, ?_, ?_⟩
  · exact List.nodup_append.mpr ⟨h.nodup, by simp, fun q hq r hr heq =>
      hp (List.mem_singleton.mp hr ▸ heq ▸ hq)⟩
  · refine .trans ?_ h.conserved
    have hprocs : (s.procs ++ [p]).flatMap (Function.update (Function.update s.ctxList p []) p [x]) =
        s.procs.flatMap s.ctxList ++ [x] := by
      rw [List.flatMap_append, List.flatMap_congr fun q hq => hlists q (hold q hq), List.flatMap_singleton,
        Function.update_self]
    show (l ++ (List.range s.harts).map s.cpusContext ++ (s.procs ++ [p]).flatMap _).Perm _
    rw [hprocs, Traps.contexts, hfree]
    simp only [List.perm_iff_count, List.count_append, List.count_cons, List.count_nil]
    omega
  · intro q hq
    simp only [List.mem_append, List.mem_singleton, not_or] at hq
    show Function.update (Function.update s.ctxList p []) p [x] q = []
    rw [hlists q hq.2, h.fresh q hq.1]
  · intro q hq
    obtain ⟨hmem, hfits⟩ := h.current q hq
    refine ⟨List.mem_append_left _ hmem, ?_⟩
    show Fits (Function.update s.saved x .user) s.code (Function.update (Function.update s.ctxList p []) p [x] q)
    rw [hlists q (hold q hmem)]
    exact hfits.update (hapart q) _
  · intro q hq hne
    show Fits (Function.update s.saved x .user) .elect (Function.update (Function.update s.ctxList p []) p [x] q)
    by_cases hqp : q = p
    · rw [hqp, Function.update_self]
      refine .elect ?_
      rw [Function.update_self]
      exact .user
    · rw [hlists q hqp]
      rcases List.mem_append.mp hq with hq | hq
      · exact (h.others q hq hne).update (hapart q) _
      · exact absurd (List.mem_singleton.mp hq) hqp

/-- **Every step keeps the invariant.** -/
theorem step (h : TrapInv s) {e : TrapEvent} (hs : trapStep s e = .ok s') : TrapInv s' := by
  -- one lemma for each event; the guards of the step are the hypotheses
  cases e with
  | trap => exact h.trap hs
  | exit =>
      simp only [trapStep] at hs
      split at hs
      next c hcode =>
        cases hs
        exact h.exit hcode
      next => cases hs
  | giveUp =>
      simp only [trapStep] at hs
      split at hs
      next c p _ hcur => exact h.giveUp hcur hs
      next => cases hs
  | schedProc =>
      simp only [trapStep] at hs
      split at hs
      next hcode =>
        cases hs
        exact h.schedProc (Or.inl hcode)
      next c hcode =>
        cases hs
        exact h.schedProc (Or.inr ⟨c, hcode⟩)
      next => cases hs
  | dispatch p =>
      simp only [trapStep] at hs
      split_ifs at hs with hp
      exact h.dispatch hp.1 hp.2 hs
  | procAlloc p =>
      simp only [trapStep] at hs
      split at hs
      · split_ifs at hs with hp
        exact h.alloc hp hs
      · split_ifs at hs with hp
        exact h.alloc hp hs
      · cases hs
  | procReset p =>
      simp only [trapStep] at hs
      split at hs
      · split_ifs at hs with hp
        exact h.reset hp.1 hp.2 hs
      · cases hs

theorem init {harts : Nat} (hcore : syscore < harts) (hinit : trapsInit harts = .ok s) : TrapInv s := by
  obtain ⟨hperm, hfixed⟩ := Traps.allocCpusContext_eq_ok hinit
  have hall : Traps.freeContexts (List.range nctxMax) [] = (List.range nctxMax).reverse := by
    rw [Traps.freeContexts_eq, List.append_nil]
  have hconserved : (s.ctxFreeList ++ (List.range harts).map s.cpusContext).Perm (List.range nctxMax) := by
    refine hperm.trans ?_
    simp only [hall]
    exact List.reverse_perm _
  rw [hfixed]
  refine ⟨hcore, List.nodup_nil, ?_, fun _ _ => rfl, fun _ => Or.inl rfl, fun p hp => ?_, fun p hp => ?_⟩
  · rw [Traps.contexts, List.flatMap_nil, List.append_nil]
    exact hconserved
  · cases hp
  · exact absurd hp List.not_mem_nil

end TrapInv

/-- **Contexts are conserved.** In every run each context is in one place; every process but the one on the hart has
a context, so that no dispatch follows an empty list; and a handler ends with the context that is on top of the list
of its process. -/
theorem contexts_conserved {harts : Nat} {s₀ : Traps} (hcore : syscore < harts) (hinit : trapsInit harts = .ok s₀)
    {tr : List (Traps × TrapEvent)} (h : Exec trapStep s₀ tr s) :
    s.contexts.Perm (List.range nctxMax) ∧
      (∀ p ∈ s.procs, s.curProc ≠ some p → s.ctxList p ≠ []) ∧
      (∀ p, trapStep s (.dispatch p) ≠ .error .emptyList) ∧
      ∀ c, s.code = .handler c → ∃ p l, s.curProc = some p ∧ s.ctxList p = c :: l ∧
        (s.trapExit c).ctxList = Function.update s.ctxList p l := by
  have hi : TrapInv s := h.invariant (TrapInv.init hcore hinit) fun _ _ _ hi hs => hi.step hs
  refine ⟨hi.conserved, fun p hp hcur => ?_, fun p hs => ?_, fun c hcode => ?_⟩
  · obtain ⟨c, l, hlist, -⟩ := (hi.others p hp hcur).elect_eq
    rw [hlist]
    exact List.cons_ne_nil c l
  · simp only [trapStep] at hs
    split_ifs at hs with hp
    · obtain ⟨c, l, hlist, -⟩ := (hi.dispatchable hp.1 hp.2).elect_eq
      rw [Traps.procRun, hlist] at hs
      cases hs
    · cases hs
  · obtain ⟨p, l, hcur, hlist, -⟩ := hi.top_of_handler hcode
    refine ⟨p, l, hcur, hlist, funext fun q => ?_⟩
    show (s.ctxList q).erase c = _
    by_cases hq : q = p
    · rw [hq, Function.update_self, hlist, List.erase_cons_head]
    · rw [Function.update_of_ne hq]
      exact List.erase_of_not_mem (hi.notMem_other (hlist ▸ List.mem_cons_self) hq)

/-- A process traps in a system with two harts. -/
theorem contexts_conserved_trap : ∃ (s : Traps) (c : Ctx), s.code = .handler c ∧ s.contexts.Perm (List.range nctxMax) ∧
    ∃ p l, s.curProc = some p ∧ s.ctxList p = c :: l := by
  have hcheck : (match trapsInit 2 with
      | .error _ => false
      | .ok s₀ => checkRun trapStep s₀ [.procAlloc 1, .schedProc, .dispatch 1, .trap]
          fun s => s.code = .handler 509) = true := by decide +kernel
  split at hcheck
  next => cases hcheck
  next s₀ hinit =>
  obtain ⟨s, hrun, hcode⟩ := Exec.of_checkRun _ _ _ _ hcheck
  have hcode : s.code = .handler 509 := by simpa using hcode
  obtain ⟨hperm, -, -, htop⟩ := contexts_conserved (by decide) hinit hrun
  obtain ⟨p, l, hcur, hlist, -⟩ := htop 509 hcode
  exact ⟨s, 509, hcode, hperm, p, l, hcur, hlist⟩

end Jrinx
