import Jrinx.Dispatches
import Jrinx.Traps

/-! # The contexts that a run takes

The steps of the kernel with what they do to the trap contexts. A run of the kernel does not ask whether there is
a context for it; along it, the events of the contexts happen one after the other, until one finds the free list
empty.

* **`contextEvents`**, **`contextsRun`** — the events in one step, and along a run.
* **`Coupled`** — the lists of contexts hold what the kernel left unfinished, list by list.
* **`coupled_of_run`** — the events of a run always go together with it, or end in the panic of `ctx_alloc`. -/

namespace Jrinx

/-! ## Events -/

/-- At the end of a service its handler ends; in `sched_proc_give_up` it goes on. -/
def Next.exits : Next → List TrapEvent
  | .ret _ _ => [.exit]
  | .giveUp _ _ => []

/-- The processes that a service created. -/
def created (k k' : Kernel) : List ProcId := k'.procIds.drop k.procIds.length

/-- What a step does to the contexts. -/
def contextEvents (h : Interleaved) : FlowEvent → List TrapEvent
  | .call env s =>
      match h.kernel.curProc with
      | none => []
      | some p =>
          match doSyscall h.kernel env p s with
          | .error _ => [.trap]
          | .ok (n, k) =>
              -- the new process, the one that is reset, and then the way back, or the switch
              [.trap] ++ (created h.kernel k).map .procAlloc ++ (resetBy h.kernel s).toList.map .procReset ++ n.exits
  | .resume env =>
      match h.kernel.curProc with
      | none => []
      | some p =>
          match h.kernel.conts p with
          | none => []
          | some c =>
              match resumeCont (h.kernel.setWoken p false) env p c with
              | .error _ => []
              | .ok (n, _) => n.exits
  | .scan => []
  | .elected =>
      match h.flow with
      | .giveUp p _ (.found q) => if p = q then [] else [.giveUp]
      | .elect _ (.found q) => [.dispatch q]
      | _ => []
  | .timer clk =>
      match timeEventAction h.kernel clk with
      | .error _ => [.trap]
      | .ok (r, _) => [.trap, if r.part || r.proc then .schedProc else .exit]

/-- Events one after the other. -/
def trapSteps (t : Traps) (es : List TrapEvent) : Except TrapFault Traps := es.foldlM trapStep t

/-- The events along a run. -/
def contextsRun (t : Traps) (tr : List (Interleaved × FlowEvent)) : Except TrapFault Traps :=
  tr.foldlM (fun t x => trapSteps t (contextEvents x.1 x.2)) t

/-- The contexts at the first `sched_global`: those of the harts, and one for each process. -/
def bootContexts (harts : Nat) (k : Kernel) : Except TrapFault Traps := do
  let t ← trapsInit harts
  trapSteps t (k.procIds.map .procAlloc ++ [.schedProc])

variable {t t' : Traps} {h h' : Interleaved} {p q : ProcId} {c : Ctx} {l : List Ctx}

theorem contextsRun_snoc (t : Traps) (tr : List (Interleaved × FlowEvent)) (x : Interleaved × FlowEvent) :
    contextsRun t (tr ++ [x]) = contextsRun t tr >>= fun t' => trapSteps t' (contextEvents x.1 x.2) := by
  rw [contextsRun, List.foldlM_append]
  simp only [List.foldlM_cons, List.foldlM_nil, bind_pure]
  rfl

/-- The contexts after a trap of `p`, which took `c` and left `l` on the free list. -/
def Traps.trapped (t : Traps) (p : ProcId) (c : Ctx) (l : List Ctx) : Traps :=
  { t with
    ctxFreeList := l
    cpusContext := Function.update t.cpusContext syscore c
    ctxList := Function.update t.ctxList p (t.cpusContext syscore :: t.ctxList p)
    saved := Function.update t.saved (t.cpusContext syscore) t.code
    code := .handler (t.cpusContext syscore) }

theorem trapStep_trap (hcur : t.curProc = some p) (hfree : t.ctxFreeList = c :: l) :
    trapStep t .trap = .ok (t.trapped p c l) := by
  simp only [trapStep, Traps.prepareNestedTrap, hcur]
  simp only [Traps.ctxAlloc, Traps.insertHead, Traps.save, hfree]
  rfl

theorem trapStep_trap_of_nil (hcur : t.curProc = some p) (hfree : t.ctxFreeList = []) :
    trapStep t .trap = .error .panic := by
  simp only [trapStep, Traps.prepareNestedTrap, hcur]
  simp only [Traps.ctxAlloc, Traps.insertHead, Traps.save, hfree]
  rfl

/-- A handler that `sched_proc` leaves for good keeps the context. -/
theorem trapSteps_leave (hcur : t.curProc = some p) (hfree : t.ctxFreeList = c :: l) :
    trapSteps t [.trap, .schedProc] = .ok { t.trapped p c l with code := .elect } := by
  rw [trapSteps, List.foldlM_cons, trapStep_trap hcur hfree]
  rfl

/-- A handler that returns gives a context back. -/
theorem trapSteps_return (hcur : t.curProc = some p) (hfree : t.ctxFreeList = c :: l) :
    trapSteps t [.trap, .exit] = .ok ((t.trapped p c l).trapExit (t.cpusContext syscore)) := by
  rw [trapSteps, List.foldlM_cons, trapStep_trap hcur hfree]
  rfl

theorem ctxFreeList_return : ((t.trapped p c l).trapExit (t.cpusContext syscore)).ctxFreeList = c :: l := by
  show Function.update t.cpusContext syscore c syscore :: l = c :: l
  rw [Function.update_self]

theorem trapSteps_of_nil {e : TrapEvent} (hcur : t.curProc = some p) (hfree : t.ctxFreeList = []) :
    trapSteps t [.trap, e] = .error .panic := by
  rw [trapSteps, List.foldlM_cons, trapStep_trap_of_nil hcur hfree]
  rfl

/-! ## The processes that a service creates -/

variable {k k' : Kernel} {env : Env}

theorem same_wakeup {disc : QueDisc} {o : WaitObj} {woke : Option ProcId} (h : wakeup k disc o = .ok (woke, k')) :
    Same k k' := by
  obtain ⟨-, -, rfl⟩ | ⟨q, -, -, hwake⟩ := wakeup_eq_ok h
  · exact .refl _
  · exact .wakeProc hwake

theorem same_commFinish {x : CommCall} {n : Next} (h : commFinish k env x = .ok (n, k')) : Same k k' := by
  have hbuffer : ∀ {b : BufId} {cc : Circbuf} {out : Out},
      bufferWakeup (k.setBody (.buffer b) cc) b out = .ok (n, k') → Same k k' := by
    intro b cc out h
    obtain ⟨⟨woke, k₁⟩, hw, h⟩ := except_bind_eq_ok.mp h
    cases woke <;> cases h <;> exact (Same.setBody _ _).trans (same_wakeup hw)
  have hport : ∀ {q : Que} {cc : Circbuf} {port : PortId} {out : Out},
      queuingPortWakeup (k.setBody q cc) port out = .ok (n, k') → Same k k' := by
    intro q cc port out h
    obtain ⟨⟨woke, k₁⟩, hw, h⟩ := except_bind_eq_ok.mp h
    cases h
    exact (Same.setBody _ _).trans (same_wakeup hw)
  cases x with
  | sendBuffer b msgAddr length timeOut => exact hbuffer h
  | receiveBuffer b timeOut msgAddr => exact hbuffer h
  | sendQueuingMessage port msgAddr length timeOut => exact hport h
  | receiveQueuingMessage port timeOut msgAddr => exact hport h
  | readBlackboard b timeOut msgAddr =>
      cases h
      exact .refl _

/-- After `sched_proc_give_up` a service creates nothing. -/
theorem same_resumeCont {x : Cont} {n : Next} (h : resumeCont k env p x = .ok (n, k')) : Same k k' := by
  cases x with
  | comm x wakeup armed =>
      simp only [resumeCont, commResume] at h
      split at h
      · cases h
        exact .refl _
      split at h
      · unfold commBlock at h
        split at h
        · cases h
          exact .refl _
        · cases h
          exact .commWait p x _
      · exact same_commFinish h
  | suspendSelf wakeup =>
      cases h
      exact .refl _
  | done code out =>
      cases h
      exact .refl _

theorem Eff.procIds {a : Act} (he : Eff k a k') :
    k'.procIds = k.procIds ∨ k'.procIds = k.procIds ++ [k.nxtProcId] := by
  by_cases hnew : a ≠ .newProc ∧ a ≠ .newBuffer ∧ a ≠ .newBoard ∧ a ≠ .newPort ∧ a ≠ .spend
  · exact Or.inl (he.same hnew).procIds
  · cases he with
    | newProc mem pr own dormant timer frame => exact Or.inr rfl
    | newBuffer mem buf own empty body frame => exact Or.inl rfl
    | newBoard mem bb own empty blank frame => exact Or.inl rfl
    | newPort qp own => exact Or.inl rfl
    | spend mem nb nbb hb hbb frame => exact Or.inl rfl
    | _ => simp at hnew

/-- New processes come after the old ones, and are none of them. -/
theorem procIds_of_path {A : Kernel → Act → Prop} (hr : Registered k) (hnd : k.procIds.Nodup) (h : Path A k k') :
    ∃ l, k'.procIds = k.procIds ++ l ∧ (k.procIds ++ l).Nodup := by
  induction h with
  | refl k => exact ⟨[], by simp, by simpa using hnd⟩
  | @cons k k₁ k' a he _ _ ih =>
      have hfresh : k.nxtProcId ∉ k.procIds := fun hmem => (hr.procs_lt _ hmem).false
      have hnd₁ : k₁.procIds.Nodup := by
        rcases he.procIds with heq | heq
        · rwa [heq]
        · rw [heq, List.nodup_append_comm, List.singleton_append]
          exact List.nodup_cons.mpr ⟨hfresh, hnd⟩
      obtain ⟨l, hl, hnodup⟩ := ih (hr.eff he).1 hnd₁
      rcases he.procIds with heq | heq
      · rw [heq] at hl hnodup
        exact ⟨l, hl, hnodup⟩
      · rw [heq, List.append_assoc] at hl hnodup
        exact ⟨_, hl, hnodup⟩

/-! ## What the kernel left unfinished, and the contexts -/

/-- The registers in a context go on with what the kernel left there. -/
inductive SameCode : Flow → Code → Prop
  | user : SameCode .user .user
  | giveUp {p : ProcId} {roundRobin : Bool} {sc : Scan} {c : Ctx} : SameCode (.giveUp p roundRobin sc) (.handler c)
  | back {c : Ctx} : SameCode .back (.handler c)
  | elect {roundRobin : Bool} {sc : Scan} : SameCode (.elect roundRobin sc) .elect

/-- The lists of contexts hold what the kernel left unfinished. -/
structure SameLists (h : Interleaved) (t : Traps) : Prop where
  inv : TrapInv t
  curProc : t.curProc = h.kernel.curProc
  procs : t.procs = h.kernel.procIds
  lists : ∀ p ∈ t.procs, List.Forall₂ (fun f c => SameCode f (t.saved c)) (h.saved p) (t.ctxList p)
  /-- A process that is created later begins with its program. -/
  fresh : ∀ p ∉ t.procs, h.saved p = [.user]

/-- **The coupling**: also the hart executes the same. -/
structure Coupled (h : Interleaved) (t : Traps) : Prop extends SameLists h t where
  code : SameCode h.flow t.code

namespace Coupled

variable {f : Flow} {fs : List Flow} {roundRobin : Bool} {sc : Scan} {saved : Ctx → Code}

/-- What is saved in a context that is on no list does not matter. -/
theorem forall₂_update {cs : List Ctx} (h : List.Forall₂ (fun f c => SameCode f (saved c)) fs cs) (hc : c ∉ cs)
    (x : Code) : List.Forall₂ (fun f d => SameCode f (Function.update saved c x d)) fs cs := by
  induction h with
  | nil => exact .nil
  | @cons f d fs cs hfd _ ih =>
      obtain ⟨hne, hcs⟩ := List.ne_and_not_mem_of_not_mem_cons hc
      refine .cons ?_ (ih hcs)
      rwa [Function.update_of_ne hne.symm]

/-- The process on the hart is there. -/
theorem mem_procs (hc : Coupled h t) (hcur : h.kernel.curProc = some p) : p ∈ t.procs :=
  (hc.inv.current p (hc.curProc.trans hcur)).1

/-- A trap: what the hart executed is on the list, and a handler executes. -/
theorem trap (hc : Coupled h t) (hcur : h.kernel.curProc = some p) (hfree : t.ctxFreeList = c :: l) :
    Coupled { h.push p h.flow with flow := .back } (t.trapped p c l) := by
  have hcur' : t.curProc = some p := hc.curProc.trans hcur
  have hp := hc.mem_procs hcur
  have hapart := hc.inv.notMem_ctxList (Or.inr rfl)
  refine ⟨⟨hc.inv.trap (trapStep_trap hcur' hfree), hc.curProc, hc.procs, fun q hq => ?_, fun q hq => ?_⟩, .back⟩
  · show List.Forall₂ _ (Function.update h.saved p _ q) (Function.update t.ctxList p _ q)
    by_cases hqp : q = p
    · rw [hqp, Function.update_self, Function.update_self]
      refine .cons ?_ (forall₂_update (hc.lists p (hqp ▸ hq)) (hapart p) _)
      rw [show (t.trapped p c l).saved = Function.update t.saved _ t.code from rfl, Function.update_self]
      exact hc.code
    · rw [Function.update_of_ne hqp, Function.update_of_ne hqp]
      exact forall₂_update (hc.lists q hq) (hapart q) _
  · show Function.update h.saved p _ q = _
    rw [Function.update_of_ne fun heq : q = p => hq (heq ▸ hp)]
    exact hc.fresh q hq

/-- The end of a handler: what lies on top of the list goes on. -/
theorem exit (hc : Coupled h t) (hcur : h.kernel.curProc = some p) (hcode : t.code = .handler c) :
    ∃ h', h.pop p = .ok h' ∧ Coupled h' (t.trapExit c) := by
  obtain ⟨p', l, hcur', hlist, -⟩ := hc.inv.top_of_handler hcode
  obtain rfl : p = p' := Option.some.inj ((hcur.symm.trans hc.curProc.symm).trans hcur')
  have hp := hc.mem_procs hcur
  have hall := hc.lists p hp
  rw [hlist] at hall
  obtain ⟨f, fs, hf, hfs, hsaved⟩ := List.forall₂_cons_right_iff.mp hall
  refine ⟨{ h with saved := Function.update h.saved p fs, flow := f }, ?_, ?_⟩
  · rw [Interleaved.pop, hsaved]
  · refine ⟨⟨hc.inv.exit hcode, hc.curProc, hc.procs, fun q hq => ?_, fun q hq => ?_⟩, hf⟩
    · show List.Forall₂ _ (Function.update h.saved p fs q) ((t.ctxList q).erase c)
      by_cases hqp : q = p
      · rw [hqp, Function.update_self, hlist, List.erase_cons_head]
        exact hfs
      · rw [Function.update_of_ne hqp, List.erase_of_not_mem (hc.inv.notMem_other (hlist ▸ List.mem_cons_self) hqp)]
        exact hc.lists q hq
    · show Function.update h.saved p fs q = _
      rw [Function.update_of_ne fun heq : q = p => hq (heq ▸ hp)]
      exact hc.fresh q hq

/-- `sched_proc` begins an election. -/
theorem schedProc (hc : Coupled h t) (hcode : t.code = .handler c) :
    Coupled { h with flow := .elect roundRobin sc } { t with code := .elect } :=
  ⟨⟨hc.inv.schedProc (Or.inr ⟨c, hcode⟩), hc.curProc, hc.procs, hc.lists, hc.fresh⟩, .elect⟩

/-- `sched_proc_give_up` has elected another process. -/
theorem giveUp (hc : Coupled h t) (hcur : h.kernel.curProc = some p) (hcode : SameCode f t.code)
    (hs : t.schedProcGiveUp p = .ok t') : Coupled { h.push p f with flow := .elect roundRobin sc } t' := by
  have hp := hc.mem_procs hcur
  have hinv := hc.inv.giveUp (hc.curProc.trans hcur) hs
  obtain ⟨c, l, hfree, rfl⟩ := Traps.schedProcGiveUp_eq_ok hs
  have hapart := hc.inv.notMem_ctxList (Or.inl (hfree ▸ List.mem_cons_self) : c ∈ t.ctxFreeList ∨ _)
  refine ⟨⟨hinv, hc.curProc, hc.procs, fun q hq => ?_, fun q hq => ?_⟩, .elect⟩
  · show List.Forall₂ _ (Function.update h.saved p _ q) (Function.update t.ctxList p _ q)
    by_cases hqp : q = p
    · rw [hqp, Function.update_self, Function.update_self]
      refine .cons ?_ (forall₂_update (hc.lists p hp) (hapart p) _)
      show SameCode f (Function.update t.saved c t.code c)
      rw [Function.update_self]
      exact hcode
    · rw [Function.update_of_ne hqp, Function.update_of_ne hqp]
      exact forall₂_update (hc.lists q hq) (hapart q) _
  · show Function.update h.saved p _ q = _
    rw [Function.update_of_ne fun heq : q = p => hq (heq ▸ hp)]
    exact hc.fresh q hq

/-- A dispatch. -/
theorem dispatch (hc : Coupled h t) (hcode : t.code = .elect) (hp : p ∈ t.procs) :
    ∃ h' t', h.pop p = .ok h' ∧ t.procRun p = .ok t' ∧
      Coupled { h' with kernel := { h.kernel with curProc := some p } } t' := by
  obtain ⟨c, l, hlist, -⟩ := (hc.inv.dispatchable hcode hp).elect_eq
  have hall := hc.lists p hp
  rw [hlist] at hall
  obtain ⟨f, fs, hf, hfs, hsaved⟩ := List.forall₂_cons_right_iff.mp hall
  obtain ⟨t', ht'⟩ : ∃ t', t.procRun p = .ok t' := by
    rw [Traps.procRun, hlist]
    exact ⟨_, rfl⟩
  have hinv := hc.inv.dispatch hcode hp ht'
  refine ⟨{ h with saved := Function.update h.saved p fs, flow := f }, t', ?_, ht', ?_⟩
  · rw [Interleaved.pop, hsaved]
  obtain ⟨c', l', hlist', rfl⟩ := Traps.procRun_eq_ok ht'
  obtain ⟨rfl, rfl⟩ := List.cons.inj (hlist.symm.trans hlist')
  refine ⟨⟨hinv, rfl, hc.procs, fun q hq => ?_, fun q hq => ?_⟩, hf⟩
  · show List.Forall₂ _ (Function.update h.saved p fs q) ((t.ctxList q).erase c)
    by_cases hqp : q = p
    · rw [hqp, Function.update_self, hlist, List.erase_cons_head]
      exact hfs
    · rw [Function.update_of_ne hqp, List.erase_of_not_mem (hc.inv.notMem_other (hlist ▸ List.mem_cons_self) hqp)]
      exact hc.lists q hq
  · show Function.update h.saved p fs q = _
    rw [Function.update_of_ne fun heq : q = p => hq (heq ▸ hp)]
    exact hc.fresh q hq

/-- A reset leaves one context, which starts the program. -/
theorem procReset (hc : Coupled h t) (hp : p ∈ t.procs) (hcur : t.curProc ≠ some p)
    (hs : t.procReset p = .ok t') : Coupled { h with saved := Function.update h.saved p [.user] } t' := by
  have hinv := hc.inv.reset hp hcur hs
  obtain ⟨x, l, hfree, rfl⟩ := Traps.procReset_eq_ok hs
  refine ⟨⟨hinv, hc.curProc, hc.procs, fun q hq => ?_, fun q hq => ?_⟩, hc.code⟩
  · show List.Forall₂ _ (Function.update h.saved p _ q) (Function.update t.ctxList p _ q)
    by_cases hqp : q = p
    · rw [hqp, Function.update_self, Function.update_self]
      refine .cons ?_ .nil
      show SameCode .user (Function.update t.saved x .user x)
      rw [Function.update_self]
      exact .user
    · rw [Function.update_of_ne hqp, Function.update_of_ne hqp]
      refine forall₂_update (hc.lists q hq) ?_ _
      have hx : x ∈ (t.ctxList p).reverse ++ t.ctxFreeList := hfree ▸ List.mem_cons_self
      rcases List.mem_append.mp hx with hx | hx
      · exact hc.inv.notMem_other (List.mem_reverse.mp hx) hqp
      · exact hc.inv.notMem_ctxList (Or.inl hx) q
  · show Function.update h.saved p _ q = _
    by_cases hqp : q = p
    · rw [hqp, Function.update_self]
    · rw [Function.update_of_ne hqp]
      exact hc.fresh q hq

/-- What the hart executes may be called otherwise. -/
theorem withFlow (hc : Coupled h t) (hcode : SameCode f t.code) : Coupled { h with flow := f } t :=
  ⟨⟨hc.inv, hc.curProc, hc.procs, hc.lists, hc.fresh⟩, hcode⟩

theorem withKernel {k : Kernel} (hc : Coupled h t) (hcur : k.curProc = h.kernel.curProc)
    (hids : k.procIds = h.kernel.procIds) : Coupled { h with kernel := k } t :=
  ⟨⟨hc.inv, hc.curProc.trans hcur.symm, hc.procs.trans hids.symm, hc.lists, hc.fresh⟩, hc.code⟩

end Coupled

/-- A new process begins with its program. -/
theorem SameLists.procAlloc {k : Kernel} (hc : SameLists h t) (hp : p ∉ t.procs) (hs : t.procAlloc p = .ok t')
    (hcur : k.curProc = h.kernel.curProc) (hids : k.procIds = h.kernel.procIds ++ [p]) :
    SameLists { h with kernel := k } t' := by
  have hinv := hc.inv.alloc hp hs
  obtain ⟨x, l, hfree, rfl⟩ := Traps.procReset_eq_ok hs
  simp only [Function.update_self, List.reverse_nil, List.nil_append] at hfree
  have hapart := hc.inv.notMem_ctxList (Or.inl (hfree ▸ List.mem_cons_self) : x ∈ t.ctxFreeList ∨ _)
  refine ⟨hinv, hc.curProc.trans hcur.symm, ?_, fun q hq => ?_, fun q hq => ?_⟩
  · show t.procs ++ [p] = k.procIds
    rw [hids, hc.procs]
  · show List.Forall₂ _ (h.saved q) (Function.update (Function.update t.ctxList p []) p [x] q)
    by_cases hqp : q = p
    · rw [hqp, Function.update_self, hc.fresh p hp]
      refine .cons ?_ .nil
      show SameCode .user (Function.update t.saved x .user x)
      rw [Function.update_self]
      exact .user
    · rw [Function.update_of_ne hqp, Function.update_of_ne hqp]
      refine Coupled.forall₂_update (hc.lists q ?_) (hapart q) _
      rcases List.mem_append.mp hq with hq | hq
      · exact hq
      · exact absurd (List.mem_singleton.mp hq) hqp
  · exact hc.fresh q fun hold => hq (List.mem_append_left _ hold)

/-! ## Steps -/

theorem trapSteps_append (t : Traps) (es es' : List TrapEvent) :
    trapSteps t (es ++ es') = trapSteps t es >>= fun t' => trapSteps t' es' := by
  rw [trapSteps, List.foldlM_append]
  rfl

theorem trapSteps_cons (t : Traps) (e : TrapEvent) (es : List TrapEvent) :
    trapSteps t (e :: es) = trapStep t e >>= fun t' => trapSteps t' es := rfl

/-- `proc_reset` fails only for want of a context. -/
theorem procReset_cases (t : Traps) (p : ProcId) :
    (∃ t', t.procReset p = .ok t' ∧ t'.code = t.code ∧ t'.curProc = t.curProc ∧ t'.procs = t.procs) ∨
      t.procReset p = .error .panic := by
  cases hs : t.procReset p with
  | ok t' =>
      obtain ⟨c, l, -, rfl⟩ := Traps.procReset_eq_ok hs
      exact Or.inl ⟨_, rfl, rfl, rfl, rfl⟩
  | error e =>
      right
      unfold Traps.procReset Traps.ctxAlloc at hs
      dsimp only at hs
      split at hs
      · cases hs
        rfl
      · cases hs

/-- The contexts of new processes. -/
theorem sameLists_procAllocs {l : List ProcId} {k : Kernel} (hc : SameLists h t)
    (hcode : t.code = .boot ∨ ∃ c, t.code = .handler c) (hnd : (h.kernel.procIds ++ l).Nodup)
    (hcur : k.curProc = h.kernel.curProc) (hids : k.procIds = h.kernel.procIds ++ l) :
    (∃ t', trapSteps t (l.map .procAlloc) = .ok t' ∧ t'.code = t.code ∧ SameLists { h with kernel := k } t') ∨
      trapSteps t (l.map .procAlloc) = .error .panic := by
  induction l generalizing h t with
  | nil =>
      rw [List.append_nil] at hids
      exact Or.inl ⟨t, rfl, rfl, hc.inv, hc.curProc.trans hcur.symm, hc.procs.trans hids.symm, hc.lists, hc.fresh⟩
  | cons p l ih =>
      -- the process is a new one for the traps too
      have hp : p ∉ t.procs := by
        rw [hc.procs]
        intro hmem
        exact (List.nodup_append.mp hnd).2.2 p hmem p List.mem_cons_self rfl
      have hstep : trapStep t (.procAlloc p) = t.procAlloc p := by
        rcases hcode with hboot | ⟨c, hcode⟩
        · simp only [trapStep, hboot, if_neg hp]
        · simp only [trapStep, hcode, if_neg hp]
      rw [List.map_cons, trapSteps_cons, hstep]
      rcases procReset_cases { t with procs := t.procs ++ [p], ctxList := Function.update t.ctxList p [] } p with
        ⟨t₁, ht₁, hcode₁, -, -⟩ | hpanic
      · let h₁ : Interleaved := { h with kernel := { h.kernel with procIds := h.kernel.procIds ++ [p] } }
        have hc₁ : SameLists h₁ t₁ := hc.procAlloc hp ht₁ rfl rfl
        have hids₁ : h₁.kernel.procIds ++ l = h.kernel.procIds ++ p :: l := List.append_assoc _ _ _
        rw [show t.procAlloc p = .ok t₁ from ht₁]
        have hrest := ih hc₁ (hcode₁ ▸ hcode) (hids₁.symm ▸ hnd) hcur (hids.trans hids₁.symm)
        rw [hcode₁] at hrest
        exact hrest
      · right
        rw [show t.procAlloc p = .error .panic from hpanic]
        rfl

theorem mem_of_resetBy {s : Service} (h : resetBy k s = some q) : q ∈ k.procIds := by
  have hstarted : ∀ {id : ProcId} {d : Int}, resetBy.started k id d = some q → q ∈ k.procIds := by
    intro id d hs
    rw [resetBy.started] at hs
    cases hpr : curPartProc k id with
    | none =>
        rw [hpr] at hs
        cases hs
    | some pr =>
        simp only [hpr] at hs
        split_ifs at hs
        rw [← Option.some.inj hs]
        exact (of_curPartProc hpr).1
  cases s with
  | start id => exact hstarted h
  | delayedStart id d => exact hstarted h
  | _ => cases h

/-- The process that a service resets. -/
theorem coupled_resetBy {r : Option ProcId} (hc : Coupled h t) (hcode : t.code = .handler c)
    (hr : ∀ q, r = some q → q ∈ h.kernel.procIds ∧ h.kernel.curProc ≠ some q) :
    (∃ t', trapSteps t (r.toList.map .procReset) = .ok t' ∧ t'.code = .handler c ∧
        Coupled { h with saved := resetSaved h.saved r } t') ∨
      trapSteps t (r.toList.map .procReset) = .error .panic := by
  cases r with
  | none => exact Or.inl ⟨t, rfl, hcode, hc⟩
  | some q =>
      obtain ⟨hmem, hcur⟩ := hr q rfl
      have hq : q ∈ t.procs := hc.procs ▸ hmem
      have hne : t.curProc ≠ some q := hc.curProc ▸ hcur
      have hstep : trapStep t (.procReset q) = t.procReset q := by
        simp only [trapStep, hcode, if_pos (And.intro hq hne)]
      show (∃ t', trapSteps t [.procReset q] = .ok t' ∧ _) ∨ trapSteps t [.procReset q] = _
      rw [trapSteps_cons, hstep]
      rcases procReset_cases t q with ⟨t₁, ht₁, hcode₁, -, -⟩ | hpanic
      · rw [ht₁]
        exact Or.inl ⟨t₁, rfl, hcode₁.trans hcode, hc.procReset hq hne ht₁⟩
      · rw [hpanic]
        exact Or.inr rfl

/-- The end of a segment of a service. -/
theorem coupled_serviceEnd {n : Next} (hc : Coupled h t) (hcode : t.code = .handler c)
    (hcur : h.kernel.curProc = some p) {f : Flow}
    (hend : Interleaved.serviceEnd { h with flow := f } p n = .ok h') :
    ∃ t', trapSteps t n.exits = .ok t' ∧ Coupled h' t' := by
  cases n with
  | ret code out =>
      obtain ⟨h₁, hpop, hc₁⟩ := hc.exit hcur hcode
      refine ⟨t.trapExit c, ?_, ?_⟩
      · show trapSteps t [.exit] = _
        rw [trapSteps_cons]
        simp only [trapStep, hcode]
        rfl
      · -- what the hart executed before does not matter
        have hsame : Interleaved.pop { h with flow := f } p = h.pop p := by
          unfold Interleaved.pop
          rfl
        rw [Interleaved.serviceEnd, hsame, hpop] at hend
        obtain rfl : h₁ = h' := Except.ok.inj hend
        exact hc₁
  | giveUp rr x =>
      cases hend
      refine ⟨t, rfl, ?_⟩
      have hflow := hc.withFlow (f := .giveUp p rr .round) (by
        rw [hcode]
        exact .giveUp)
      exact hflow

/-- The events go together with the step, or a `ctx_alloc` among them panics. -/
def StaysCoupled (h' : Interleaved) (r : Except TrapFault Traps) : Prop :=
  (∃ t', r = .ok t' ∧ Coupled h' t') ∨ r = .error .panic

theorem SameCode.handler_of_giveUp {roundRobin : Bool} {sc : Scan} {x : Code}
    (h : SameCode (.giveUp p roundRobin sc) x) : ∃ c, x = .handler c := by
  cases h with
  | giveUp => exact ⟨_, rfl⟩

theorem SameCode.handler_of_back {x : Code} (h : SameCode .back x) : ∃ c, x = .handler c := by
  cases h with
  | back => exact ⟨_, rfl⟩

theorem SameCode.elect_eq {roundRobin : Bool} {sc : Scan} {x : Code} (h : SameCode (.elect roundRobin sc) x) :
    x = .elect := by
  cases h with
  | elect => rfl

namespace Coupled

theorem call {s : Service} (hi : InterleavedInv h) (hc : Coupled h t)
    (hs : interleavedStep h (.call env s) = .ok h') : StaysCoupled h' (trapSteps t (contextEvents h (.call env s))) := by
  obtain ⟨p, n, k₁, hflow, hl, hdo, -, hreset, hself, hend⟩ := hi.call_eq_ok hs
  have hcur' : t.curProc = some p := hc.curProc.trans hl.cur
  have hevents : contextEvents h (.call env s) =
      .trap :: ((created h.kernel k₁).map .procAlloc ++ ((resetBy h.kernel s).toList.map .procReset ++ n.exits)) := by
    simp only [contextEvents, hl.cur, hdo, List.cons_append, List.nil_append, List.append_assoc]
  rw [hevents, trapSteps_cons]
  cases hfree : t.ctxFreeList with
  | nil =>
      rw [trapStep_trap_of_nil hcur' hfree]
      exact Or.inr rfl
  | cons c l =>
      rw [trapStep_trap hcur' hfree]
      have hc₁ : Coupled { h.push p .user with flow := .back } (t.trapped p c l) := by
        rw [← hflow]
        exact hc.trap hl.cur hfree
      -- what the service creates
      have hpath := path_doSyscall hi.registered hl hdo
      have hserves : Serves h.kernel (settle p (n, k₁)) := .of_path rfl hpath
      obtain ⟨new, hids, hnd⟩ := procIds_of_path hi.registered (hc.procs ▸ hc.inv.nodup) hpath
      have hsettle : (settle p (n, k₁)).procIds = k₁.procIds := by cases n <;> rfl
      have hcreated : created h.kernel k₁ = new := by
        rw [created, ← hsettle, hids, List.drop_left]
      show StaysCoupled h' (trapSteps (t.trapped p c l) _)
      rw [trapSteps_append, hcreated]
      rcases sameLists_procAllocs hc₁.toSameLists (Or.inr ⟨_, rfl⟩) hnd hserves.curProc hids with
        ⟨t₂, ht₂, hcode₂, hc₂⟩ | hpanic
      · rw [ht₂]
        have hc₂ : Coupled ⟨settle p (n, k₁), (h.push p .user).saved, .back⟩ t₂ := ⟨hc₂, hcode₂ ▸ .back⟩
        show StaysCoupled h' (trapSteps t₂ _)
        rw [trapSteps_append]
        -- what it resets
        have hresets : ∀ q, resetBy h.kernel s = some q →
            q ∈ (settle p (n, k₁)).procIds ∧ (settle p (n, k₁)).curProc ≠ some q := by
          intro q hq
          rw [hids, hserves.curProc, hl.cur]
          refine ⟨List.mem_append_left _ (mem_of_resetBy hq), fun heq => hreset ?_⟩
          rw [hq, Option.some.inj heq]
        rcases coupled_resetBy hc₂ hcode₂ hresets with ⟨t₃, ht₃, hcode₃, hc₃⟩ | hpanic
        · rw [ht₃]
          obtain ⟨t', ht', hc'⟩ := coupled_serviceEnd hc₃ hcode₃ (hserves.curProc.trans hl.cur) hend
          exact Or.inl ⟨t', ht', hc'⟩
        · rw [hpanic]
          exact Or.inr rfl
      · rw [hpanic]
        exact Or.inr rfl

theorem resume (hi : InterleavedInv h) (hc : Coupled h t) (hs : interleavedStep h (.resume env) = .ok h') :
    StaysCoupled h' (trapSteps t (contextEvents h (.resume env))) := by
  obtain ⟨p, x, n, k₁, hflow, hl, hx, hdo, -, hend⟩ := hi.resume_eq_ok hs
  have hevents : contextEvents h (.resume env) = n.exits := by
    simp only [contextEvents, hl.cur, hx, hdo]
  obtain ⟨c, hcode⟩ := (hflow ▸ hc.code : SameCode .back t.code).handler_of_back
  have hsame : Same h.kernel (settle p (n, k₁)) := by
    refine ((Same.setWoken p false).trans (same_resumeCont hdo)).trans ?_
    cases n <;> exact .setCont p _
  have hcur : (settle p (n, k₁)).curProc = h.kernel.curProc :=
    (Serves.of_path rfl (path_resumeCont hi.registered hl hx hdo)).curProc
  have hc₁ := hc.withKernel hcur hsame.procIds
  rw [hevents]
  exact Or.inl (coupled_serviceEnd hc₁ hcode (hcur.trans hl.cur) hend)

theorem scan (hc : Coupled h t) (hs : interleavedStep h .scan = .ok h') :
    StaysCoupled h' (trapSteps t (contextEvents h .scan)) := by
  rw [interleavedStep] at hs
  split at hs
  next p rr sc hflow =>
    cases hs
    obtain ⟨c, hcode⟩ := (hflow ▸ hc.code : SameCode (.giveUp p rr sc) t.code).handler_of_giveUp
    refine Or.inl ⟨t, rfl, hc.withFlow ?_⟩
    rw [hcode]
    exact .giveUp
  next rr sc hflow =>
    cases hs
    refine Or.inl ⟨t, rfl, hc.withFlow ?_⟩
    rw [(hflow ▸ hc.code : SameCode (.elect rr sc) t.code).elect_eq]
    exact .elect
  next => cases hs

theorem elected (hi : InterleavedInv h) (hc : Coupled h t) (hs : interleavedStep h .elected = .ok h') :
    StaysCoupled h' (trapSteps t (contextEvents h .elected)) := by
  rw [interleavedStep] at hs
  split at hs
  next p rr q hflow =>
    obtain ⟨c, hcode⟩ := (hflow ▸ hc.code : SameCode (.giveUp p rr (.found q)) t.code).handler_of_giveUp
    have hcur : h.kernel.curProc = some p := by
      have hf : FlowOk h.kernel (.giveUp p rr (.found q)) := hflow ▸ hi.flow
      cases hf with
      | giveUp cur own self => exact cur
    split at hs
    · -- the process that gives up has elected itself, and no context is switched
      rename_i hpq
      cases hs
      have hevents : contextEvents h .elected = [] := by
        simp only [contextEvents, hflow, if_pos hpq]
      rw [hevents]
      refine Or.inl ⟨t, rfl, hc.withFlow ?_⟩
      rw [hcode]
      exact .back
    · -- another one was elected: the context of the process is pushed
      rename_i hpq
      cases hs
      have hevents : contextEvents h .elected = [.giveUp] := by
        simp only [contextEvents, hflow, if_neg hpq]
      have hstep : trapStep t .giveUp = t.schedProcGiveUp p := by
        simp only [trapStep, hcode, hc.curProc.trans hcur]
      rw [hevents, trapSteps_cons, hstep]
      cases hgive : t.schedProcGiveUp p with
      | error e =>
          right
          obtain rfl : e = .panic := by
            unfold Traps.schedProcGiveUp Traps.ctxAlloc at hgive
            split at hgive
            · exact (Except.error.inj hgive).symm
            · cases hgive
          rfl
      | ok t₁ =>
          have hback : SameCode .back t.code := hcode ▸ .back
          have hc₁ : Coupled { h.push p .back with flow := .elect rr .round } t₁ := hc.giveUp hcur hback hgive
          refine Or.inl ⟨t₁, rfl, hc₁.withKernel ?_ (Same.schedProcSt h.kernel).procIds⟩
          exact curProc_schedProcSt h.kernel
  next rr q hflow =>
    -- the hart is between two processes, and switches to the one that was found
    have hq : q ∈ t.procs := by
      have hf : FlowOk h.kernel (.elect rr (.found q)) := hflow ▸ hi.flow
      cases hf with
      | elect idle turn proc nextProc =>
          rw [hc.procs]
          exact (hi.registered.procList _ q (nextProc q rfl).1).1
    have hcode := (hflow ▸ hc.code : SameCode (.elect rr (.found q)) t.code).elect_eq
    have hevents : contextEvents h .elected = [.dispatch q] := by
      simp only [contextEvents, hflow]
    obtain ⟨h₁, t₁, hpop, hrun, hc₁⟩ := hc.dispatch hcode hq
    have hstep : trapStep t (.dispatch q) = .ok t₁ := by
      simp only [trapStep, if_pos (And.intro hcode hq)]
      exact hrun
    have hh' : h' = { h₁ with kernel := schedProcEd h.kernel q } := by
      unfold Interleaved.pop at hpop hs
      split at hpop
      · cases hpop
      · rename_i hl
        rw [hl] at hs
        cases hpop
        cases hs
        rfl
    rw [hevents, trapSteps_cons, hstep, hh']
    exact Or.inl ⟨t₁, rfl, hc₁.withKernel rfl (Same.schedProcEd q).procIds⟩
  next => cases hs

theorem timer {clk : Nat → Int} (hc : Coupled h t) (hs : interleavedStep h (.timer clk) = .ok h') :
    StaysCoupled h' (trapSteps t (contextEvents h (.timer clk))) := by
  rw [interleavedStep] at hs
  split at hs
  next => cases hs
  next p hcur =>
    obtain ⟨⟨r, k₁⟩, hact, hs⟩ := except_bind_eq_ok.mp hs
    have hcur' : t.curProc = some p := hc.curProc.trans hcur
    obtain ⟨k₂, hloop, hk₁⟩ := timeEventAction_eq_ok hact
    have hexp : Expires h.kernel k₂ := by
      have hexp := Expires.timeEventLoop clk h.kernel.teq 0 ⟨false, false⟩ h.kernel
      rwa [hloop] at hexp
    obtain ⟨hcur₁, hsame⟩ : k₁.curProc = h.kernel.curProc ∧ Same h.kernel k₁ := by
      rcases hk₁ with ⟨-, hg⟩ | ⟨-, rfl⟩
      · exact ⟨(conts_of_schedGlobal hg).2.trans hexp.curProc, hexp.same.trans (.schedGlobal hg)⟩
      · exact ⟨hexp.curProc, hexp.same⟩
    have hevents : contextEvents h (.timer clk) = [.trap, if r.part || r.proc then .schedProc else .exit] := by
      simp only [contextEvents, hact]
    rw [hevents]
    cases hfree : t.ctxFreeList with
    | nil => exact Or.inr (trapSteps_of_nil hcur' hfree)
    | cons c l =>
        have hc₁ := hc.trap hcur hfree
        dsimp only at hs
        split at hs
        · rename_i hresched
          cases hs
          rw [if_pos hresched, trapSteps_leave hcur' hfree]
          have hc₂ : Coupled { h.push p h.flow with flow := .elect false .round } _ := hc₁.schedProc rfl
          refine Or.inl ⟨_, rfl, hc₂.withKernel ?_ ?_⟩
          · exact (curProc_schedProcSt k₁).trans hcur₁
          · exact (Same.schedProcSt k₁).procIds.trans hsame.procIds
        · rename_i hresched
          cases hs
          rw [if_neg hresched, trapSteps_return hcur' hfree]
          obtain ⟨h₁, hpop, hc₂⟩ := hc₁.exit hcur rfl
          -- what the interrupt put aside goes on
          obtain rfl : h₁ = h := by
            simp only [Interleaved.pop, Interleaved.push, Function.update_self, Function.update_idem,
              Function.update_eq_self, Except.ok.injEq] at hpop
            exact hpop.symm
          exact Or.inl ⟨_, rfl, hc₂.withKernel hcur₁ hsame.procIds⟩

/-- **The contexts follow the kernel** in each step, or there is none left. -/
theorem step {e : FlowEvent} (hi : InterleavedInv h) (hc : Coupled h t) (hs : interleavedStep h e = .ok h') :
    StaysCoupled h' (trapSteps t (contextEvents h e)) := by
  cases e with
  | call env s => exact hc.call hi hs
  | resume env => exact hc.resume hi hs
  | scan => exact hc.scan hs
  | elected => exact hc.elected hi hs
  | timer clk => exact hc.timer hs

end Coupled

/-- The contexts at boot. -/
theorem coupled_atBoot {harts : Nat} (hb : AtBoot h) (hnd : h.kernel.procIds.Nodup) (hcore : syscore < harts)
    (hboot : bootContexts harts h.kernel = .ok t) : Coupled h t := by
  obtain ⟨t₁, hinit, hboot⟩ := except_bind_eq_ok.mp hboot
  obtain ⟨-, hfixed⟩ := Traps.allocCpusContext_eq_ok hinit
  have hcode : t₁.code = .boot := by rw [hfixed]
  have hprocs : t₁.procs = [] := by rw [hfixed]
  let h₀ : Interleaved := { h with kernel := { h.kernel with procIds := [] } }
  have h₁ : SameLists h₀ t₁ := by
    refine ⟨.init hcore hinit, ?_, hprocs, fun p hp => ?_, fun p _ => hb.saved p⟩
    · rw [hfixed]
      exact hb.curProc.symm
    · rw [hprocs] at hp
      cases hp
  rw [trapSteps_append] at hboot
  rcases sameLists_procAllocs (k := h.kernel) h₁ (Or.inl hcode) hnd rfl rfl with ⟨t₂, ht₂, hcode₂, h₂⟩ | hpanic
  · rw [ht₂] at hboot
    have hcode₂ : t₂.code = .boot := hcode₂.trans hcode
    have hlast : trapSteps t₂ [.schedProc] = .ok { t₂ with code := .elect } := by
      rw [trapSteps_cons]
      simp only [trapStep, hcode₂]
      rfl
    obtain rfl : { t₂ with code := .elect } = t := Except.ok.inj (hlast.symm.trans hboot)
    refine ⟨⟨h₂.inv.schedProc (Or.inl hcode₂), h₂.curProc, h₂.procs, h₂.lists, h₂.fresh⟩, ?_⟩
    rw [hb.flow]
    exact .elect
  · rw [hpanic] at hboot
    cases hboot

/-- **The contexts follow the kernel along a run**, as long as there are any: no trap, exit or dispatch of the run
ever finds the contexts in another order than the kernel expects. -/
theorem coupled_of_run {tr : List (Interleaved × FlowEvent)} {harts : Nat} (hb : AtBoot h)
    (hnd : h.kernel.procIds.Nodup) (hcore : syscore < harts) (hboot : bootContexts harts h.kernel = .ok t)
    (hrun : Exec interleavedStep h tr h') (hok : AllSteps ResumesNoElection tr) : StaysCoupled h' (contextsRun t tr) := by
  induction hrun with
  | nil => exact Or.inl ⟨t, rfl, coupled_atBoot hb hnd hcore hboot⟩
  | @snoc tr u v e hrun hs ih =>
      obtain ⟨hpre, -⟩ := (allSteps_snoc _ _ _ _).mp hok
      have hi : InterleavedInv u :=
        (hrun.throughout_of_forall (InterleavedInv.atBoot hb) hpre fun _ _ _ hm hd hs => hm.step hd hs).2
      rw [contextsRun_snoc]
      rcases ih hpre with ⟨t', ht', hc'⟩ | hpanic
      · rw [ht']
        exact hc'.step hi hs
      · rw [hpanic]
        exact Or.inr rfl

end Jrinx
