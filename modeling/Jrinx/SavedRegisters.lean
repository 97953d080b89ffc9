import Jrinx.Switching

/-! # Registers across traps and switches

Whatever the code on the hart is interrupted by, and whichever processes run in between, it goes on with its own
registers.

* **`Good`**, **`Inv`** — the contexts on the lists hold the registers.
* **`Inv.trap`**, **`Inv.exit`**, **`Inv.giveUp`**, **`Inv.dispatch`**, **`Inv.restarted`** — the events.
* **`registers_refine`** — every run of the hart is one of the stacks.
* **`trampolines_complete`** — the code of the trampolines never faults. -/

namespace Jrinx

namespace Switching

open Rv64 Trampoline

/-! ## The invariant -/

variable {L : Layout} {s : Core} {t : Traps} {h : Hart} {c d : Ctx} {p q : ProcId} {mem mem' : Word → Word}
  {saved saved' : Ctx → Code}

/-- A context on a list can be restored, and its registers are in the mode of the code that was saved. -/
structure Good (L : Layout) (mem : Word → Word) (saved : Ctx → Code) (c : Ctx) : Prop where
  restorable : Restorable mem (L.ctx c)
  priv : (savedRegs mem (L.ctx c)).priv = .user ↔ saved c = .user
  handler : ∀ d, saved c = .handler d → mem (effective (L.ctx d) ptHartid) = hartid

/-- **The invariant.** -/
structure Inv (L : Layout) (s : Core) : Prop where
  traps : TrapInv s.traps
  scratch : s.hart.csr .sscratch = L.ctx (s.traps.cpusContext syscore)
  hartid : s.hart.mem (effective (L.ctx (s.traps.cpusContext syscore)) ptHartid) = hartid
  handler : ∀ c, s.traps.code = .handler c → s.hart.mem (effective (L.ctx c) ptHartid) = Switching.hartid
  left : ∀ p, ∀ c ∈ s.traps.ctxList p, Good L s.hart.mem s.traps.saved c
  fpOn : s.traps.curProc ≠ none → s.hart.fpOn = true
  priv : s.hart.priv = .user ↔ s.traps.code = .user
  curProcs : s.hart.mem L.cpusCurProc = L.curProcs
  slot : ∀ p, s.traps.curProc = some p → s.hart.mem L.slot = L.procAddr p
  procs : ∀ p ∈ s.traps.procs, p ∈ L.procs
  xstack : ∀ p ∈ s.traps.procs, s.hart.mem (L.procAddr p) = L.xstacktop p

/-- Only `sstatus` and the names of the harts matter. -/
theorem Good.congr (hgood : Good L mem saved c) (hsaved : saved' c = saved c)
    (hstatus : mem' (effective (L.ctx c) ptSstatus) = mem (effective (L.ctx c) ptSstatus))
    (hhart : ∀ d, saved c = .handler d → mem (effective (L.ctx d) ptHartid) = hartid →
      mem' (effective (L.ctx d) ptHartid) = hartid) : Good L mem' saved' c := by
  refine ⟨⟨?_, ?_⟩, ?_, ?_⟩
  · rw [hstatus]
    exact hgood.restorable.masked
  · rw [hstatus]
    exact hgood.restorable.fpOn
  · have hpriv : (savedRegs mem' (L.ctx c)).priv = (savedRegs mem (L.ctx c)).priv := by
      simp only [savedRegs, hstatus]
    rw [hpriv, hsaved]
    exact hgood.priv
  · intro d hd
    rw [hsaved] at hd
    exact hhart d hd (hgood.handler d hd)

/-- A handler on a list has its context on it. -/
theorem handler_mem {code : Code} {l : List Ctx} (hfits : Fits saved code l) (hc : c ∈ l)
    (hd : saved c = .handler d) : d ∈ l := by
  induction hfits with
  | user => exact absurd hc List.not_mem_nil
  | @handler e l hrest ih =>
      rcases List.mem_cons.mp hc with rfl | hc
      · obtain ⟨l', rfl, -⟩ := (hd ▸ hrest).handler_eq
        simp
      · exact List.mem_cons_of_mem _ (ih hc)
  | @elect e l hrest ih =>
      rcases List.mem_cons.mp hc with rfl | hc
      · obtain ⟨l', rfl, -⟩ := (hd ▸ hrest).handler_eq
        simp
      · exact List.mem_cons_of_mem _ (ih hc)

namespace Inv

/-- A list that has a context is that of a process, and fits. -/
theorem fits (hinv : Inv L s) (hc : c ∈ s.traps.ctxList p) : p ∈ s.traps.procs ∧
    ∃ code, Fits s.traps.saved code (s.traps.ctxList p) := by
  have hp : p ∈ s.traps.procs := by
    by_contra hp
    rw [hinv.traps.fresh p hp] at hc
    exact absurd hc List.not_mem_nil
  refine ⟨hp, ?_⟩
  by_cases hcur : s.traps.curProc = some p
  · exact ⟨_, (hinv.traps.current p hcur).2⟩
  · exact ⟨_, hinv.traps.others p hp hcur⟩

theorem supervisor (hinv : Inv L s) (hcode : s.traps.code ≠ .user) : s.hart.priv = .supervisor := by
  cases hpriv : s.hart.priv with
  | user => exact absurd (hinv.priv.mp hpriv) hcode
  | supervisor => rfl

theorem lt_of_mem (hinv : Inv L s) (hc : c ∈ s.traps.ctxList p) : c < nctxMax := by
  have hp := (hinv.fits hc).1
  have hmem := (Traps.contexts_perm hinv.traps.hart hp).symm.mem_iff.mp
    (List.mem_append_right _ (List.mem_cons_of_mem _ (List.mem_append_left _ hc)))
  exact List.mem_range.mp (hinv.traps.conserved.mem_iff.mp hmem)

theorem lt_of_free (hinv : Inv L s) (hc : c ∈ s.traps.ctxFreeList) : c < nctxMax := by
  refine List.mem_range.mp (hinv.traps.conserved.mem_iff.mp ?_)
  rw [Traps.contexts]
  exact List.mem_append_left _ (List.mem_append_left _ hc)

theorem lt_of_cpus (hinv : Inv L s) : s.traps.cpusContext syscore < nctxMax := by
  refine List.mem_range.mp (hinv.traps.conserved.mem_iff.mp ?_)
  rw [Traps.contexts]
  exact List.mem_append_left _ (List.mem_append_right _
    (List.mem_map.mpr ⟨syscore, List.mem_range.mpr hinv.traps.hart, rfl⟩))

theorem free_ne_cpus (hinv : Inv L s) (hc : c ∈ s.traps.ctxFreeList) : c ≠ s.traps.cpusContext syscore := by
  rintro rfl
  have hnodup := hinv.traps.contexts_nodup
  rw [Traps.contexts] at hnodup
  refine (List.nodup_append.mp (List.nodup_append.mp hnodup).1).2.2 _ hc _ ?_ rfl
  exact List.mem_map.mpr ⟨syscore, List.mem_range.mpr hinv.traps.hart, rfl⟩

/-- Where only contexts `d` on no list are written, what is on the lists stays. -/
theorem good_of_apart (hinv : Inv L s) (hc : c ∈ s.traps.ctxList p) (hsaved : saved' c = s.traps.saved c)
    (hsame : ∀ d q, d ∈ s.traps.ctxList q → ∀ n < ptCtxSize,
      mem' (effective (L.ctx d) n) = s.hart.mem (effective (L.ctx d) n)) : Good L mem' saved' c := by
  refine (hinv.left p c hc).congr hsaved (hsame c p hc _ (by decide)) ?_
  intro d hd hhart
  obtain ⟨-, code, hfits⟩ := hinv.fits hc
  exact (hsame d p (handler_mem hfits hc hd) _ (by decide)).trans hhart

theorem left_of_apart {l : List Ctx}
    (hsame : ∀ c ∈ l, ∀ n < ptCtxSize, mem' (effective (L.ctx c) n) = mem (effective (L.ctx c) n)) :
    (l.map fun c => savedRegs mem' (L.ctx c)) = l.map fun c => savedRegs mem (L.ctx c) := by
  refine List.map_congr_left fun c hc => savedRegs_congr fun n hn => ?_
  exact hsame c hc n (lt_trans hn (by decide))

theorem nodup_left (hinv : Inv L s) (p : ProcId) : (s.traps.ctxList p).Nodup := by
  by_cases hp : p ∈ s.traps.procs
  · have hnodup := (Traps.contexts_perm hinv.traps.hart hp).nodup_iff.mp hinv.traps.contexts_nodup
    exact (List.nodup_append.mp (List.nodup_cons.mp (List.nodup_append.mp hnodup).2.1).2).1
  · rw [hinv.traps.fresh p hp]
    exact List.nodup_nil

/-! ## What moves no context -/

/-- The hart changes, but nothing that is kept. -/
theorem move (hinv : Inv L s) (hscratch : h.csr .sscratch = s.hart.csr .sscratch)
    (hfp : h.fpOn = s.hart.fpOn) (hpriv : h.priv = s.hart.priv)
    (hmem : ∀ a, L.Kept a → h.mem a = s.hart.mem a) : Inv L ⟨s.traps, h⟩ where
  traps := hinv.traps
  scratch := hscratch.trans hinv.scratch
  hartid := (hmem _ (Layout.cell_kept hinv.lt_of_cpus (by decide))).trans hinv.hartid
  handler c hc := by
    obtain ⟨p, l, -, hlist, -⟩ := hinv.traps.top_of_handler hc
    have hlt : c < nctxMax := hinv.lt_of_mem (p := p) (hlist ▸ List.mem_cons_self)
    exact (hmem _ (Layout.cell_kept hlt (by decide))).trans (hinv.handler c hc)
  left p c hc := hinv.good_of_apart hc rfl fun d q hd n hn =>
    hmem _ (Layout.cell_kept (hinv.lt_of_mem hd) hn)
  fpOn hcur := hfp.trans (hinv.fpOn hcur)
  priv := by
    rw [hpriv]
    exact hinv.priv
  curProcs := (hmem _ (.inr (.inl rfl))).trans hinv.curProcs
  slot p hcur := (hmem _ (.inr (.inr (.inl rfl)))).trans (hinv.slot p hcur)
  procs := hinv.procs
  xstack p hp := (hmem _ (.inr (.inr (.inr ⟨p, hinv.procs p hp, rfl⟩)))).trans (hinv.xstack p hp)

theorem threads_move (hinv : Inv L s) (hmem : ∀ a, L.Kept a → h.mem a = s.hart.mem a) :
    threads L ⟨s.traps, h⟩ = { threads L s with regs := h.regs } := by
  have hleft : (threads L ⟨s.traps, h⟩).left = (threads L s).left := funext fun p =>
    left_of_apart fun c hc n hn => hmem _ (Layout.cell_kept (hinv.lt_of_mem hc) hn)
  exact congrArg (Threads.mk h.regs s.traps.curProc) hleft

/-- A word of a context is written that is neither `sstatus` nor the name of the hart. -/
theorem store (hinv : Inv L s) {n : Nat} (hc : c < nctxMax) (hn : n < ptCtxSize) (hstatus : n ≠ ptSstatus)
    (hhart : n ≠ ptHartid) (v : Word) : Inv L ⟨s.traps, s.hart.store (effective (L.ctx c) n) v⟩ := by
  have hstride : ∀ m, m < ptCtxSize → m < ctxStride := fun m hm => lt_trans hm (by decide)
  have hcell : ∀ d m, d < nctxMax → m < ptCtxSize → n ≠ m →
      (s.hart.store (effective (L.ctx c) n) v).mem (effective (L.ctx d) m) =
        s.hart.mem (effective (L.ctx d) m) := by
    intro d m hd hm hne
    refine Function.update_of_ne (fun heq => hne ?_) _ _
    exact (Layout.cell_inj hd hc (hstride m hm) (hstride n hn) heq).2.symm
  have hout : ∀ a, ¬ L.InContext a → (s.hart.store (effective (L.ctx c) n) v).mem a = s.hart.mem a := by
    intro a ha
    exact Function.update_of_ne (fun heq => ha ⟨c, hc, n, hstride n hn, heq⟩) _ _
  have hfits : ∀ p d e, d ∈ s.traps.ctxList p → s.traps.saved d = .handler e → e < nctxMax := by
    intro p d e hd he
    obtain ⟨-, code, hfits⟩ := hinv.fits hd
    exact hinv.lt_of_mem (handler_mem hfits hd he)
  refine ⟨hinv.traps, hinv.scratch, ?_, ?_, ?_, hinv.fpOn, hinv.priv, ?_, ?_, hinv.procs, ?_⟩
  · exact (hcell _ _ hinv.lt_of_cpus (by decide) hhart).trans hinv.hartid
  · intro d hd
    obtain ⟨p, l, -, hlist, -⟩ := hinv.traps.top_of_handler hd
    have hlt : d < nctxMax := hinv.lt_of_mem (p := p) (hlist ▸ List.mem_cons_self)
    exact (hcell _ _ hlt (by decide) hhart).trans (hinv.handler d hd)
  · intro p d hd
    refine (hinv.left p d hd).congr rfl (hcell _ _ (hinv.lt_of_mem hd) (by decide) hstatus) fun e he heq => ?_
    exact (hcell _ _ (hfits p d e hd he) (by decide) hhart).trans heq
  · exact (hout _ L.curApart).trans hinv.curProcs
  · exact fun p hp => (hout _ L.slotApart).trans (hinv.slot p hp)
  · exact fun p hp => (hout _ (L.procApart p (hinv.procs p hp))).trans (hinv.xstack p hp)

/-- The registers on top are another's. -/
theorem threads_store (hinv : Inv L s) {n : Nat} {v : Word} {r : Regs} {l : List Ctx}
    (hlist : s.traps.ctxList p = c :: l) (hn : n < ptCtxSize)
    (hregs : savedRegs (s.hart.store (effective (L.ctx c) n) v).mem (L.ctx c) = r) :
    threads L ⟨s.traps, s.hart.store (effective (L.ctx c) n) v⟩ =
      { threads L s with
        left := Function.update (threads L s).left p
          (r :: l.map fun d => savedRegs s.hart.mem (L.ctx d)) } := by
  have hstride : ∀ m, m < ptCtxSize → m < ctxStride := fun m hm => lt_trans hm (by decide)
  have hc : c ∈ s.traps.ctxList p := hlist ▸ List.mem_cons_self
  have hcell : ∀ d m q, d ∈ s.traps.ctxList q → d ≠ c → m < ptCtxSize →
      (s.hart.store (effective (L.ctx c) n) v).mem (effective (L.ctx d) m) =
        s.hart.mem (effective (L.ctx d) m) := by
    intro d m q hd hne hm
    refine Function.update_of_ne (fun heq => hne ?_) _ _
    exact (Layout.cell_inj (hinv.lt_of_mem hd) (hinv.lt_of_mem hc) (hstride m hm) (hstride n hn) heq).1
  have hnodup := hinv.nodup_left p
  rw [hlist] at hnodup
  have hleft : (threads L ⟨s.traps, s.hart.store (effective (L.ctx c) n) v⟩).left =
      Function.update (threads L s).left p (r :: l.map fun d => savedRegs s.hart.mem (L.ctx d)) := by
    funext q
    by_cases hq : q = p
    · subst hq
      rw [Function.update_self]
      show (s.traps.ctxList q).map _ = _
      rw [hlist, List.map_cons, hregs]
      congr 1
      refine left_of_apart fun d hd m hm => hcell d m q (hlist ▸ List.mem_cons_of_mem _ hd) ?_ hm
      rintro rfl
      exact (List.nodup_cons.mp hnodup).1 hd
    · rw [Function.update_of_ne hq]
      refine left_of_apart fun d hd m hm => hcell d m q hd ?_ hm
      rintro rfl
      exact hinv.traps.notMem_other hc hq hd
  exact congrArg (Threads.mk s.hart.regs s.traps.curProc) hleft

/-! ## Traps -/

/-- A context that is on no list takes the registers of the hart, and comes on top of those of the process. -/
theorem pushed (hinv : Inv L s) (hc : c ∈ s.traps.ctxFreeList ∨ c = s.traps.cpusContext syscore)
    (hold : ∀ d q, d ∈ s.traps.ctxList q → ∀ n < ptCtxSize,
      mem (effective (L.ctx d) n) = s.hart.mem (effective (L.ctx d) n))
    (hres : Restorable mem (L.ctx c)) (hpriv : (savedRegs mem (L.ctx c)).priv = s.hart.priv) (p : ProcId) :
    (∀ q, ∀ d ∈ Function.update s.traps.ctxList p (c :: s.traps.ctxList p) q,
      Good L mem (Function.update s.traps.saved c s.traps.code) d) ∧
    (fun q => (Function.update s.traps.ctxList p (c :: s.traps.ctxList p) q).map fun d =>
        savedRegs mem (L.ctx d)) =
      Function.update (threads L s).left p (savedRegs mem (L.ctx c) :: (threads L s).left p) := by
  constructor
  · intro q d hd
    by_cases hdc : d = c
    · subst hdc
      refine ⟨hres, ?_, fun e he => ?_⟩
      · rw [hpriv, Function.update_self]
        exact hinv.priv
      · rw [Function.update_self] at he
        obtain ⟨r, l, -, hlist, -⟩ := hinv.traps.top_of_handler he
        exact (hold e r (hlist ▸ List.mem_cons_self) _ (by decide)).trans (hinv.handler e he)
    · have hdq : d ∈ s.traps.ctxList q := by
        by_cases hq : q = p
        · subst hq
          simpa [hdc] using hd
        · simpa [hq] using hd
      exact hinv.good_of_apart hdq (Function.update_of_ne hdc _ _) hold
  · funext q
    by_cases hq : q = p
    · subst hq
      rw [Function.update_self, Function.update_self, List.map_cons]
      exact congrArg _ (left_of_apart fun d hd => hold d q hd)
    · rw [Function.update_of_ne hq, Function.update_of_ne hq]
      exact left_of_apart fun d hd => hold d q hd

/-- What the entry reads for the stack of the process. -/
theorem xstack_eq (hinv : Inv L s) (hcur : s.traps.curProc = some p) :
    xstackReads s.hart.mem L.cpusCurProc Switching.hartid = [L.cpusCurProc, L.slot, L.procAddr p] ∧
      xstackOf s.hart.mem L.cpusCurProc Switching.hartid = L.xstacktop p := by
  have hslot : s.hart.mem (L.curProcs + (Switching.hartid <<< 3)) = L.procAddr p := hinv.slot p hcur
  rw [xstackReads, xstackOf, hinv.curProcs, hslot, hinv.xstack p (hinv.traps.current p hcur).1]
  exact ⟨rfl, rfl⟩

/-- The entry in the state of the kernel. -/
theorem entry (hinv : Inv L s) (hcur : s.traps.curProc = some p) (cause tval ret : Word) (target : Target) :
    ∃ h, run (trapHandler L.cpusCurProc target ret) 0 (s.hart.takeTrap cause tval) = some (.called target, h) ∧
      savedRegs h.mem (L.ctx (s.traps.cpusContext syscore)) = s.hart.regs ∧
      Restorable h.mem (L.ctx (s.traps.cpusContext syscore)) ∧
      (∀ b, (∀ n < ptHartid, b ≠ effective (L.ctx (s.traps.cpusContext syscore)) n) →
        h.mem b = s.hart.mem b) ∧
      h.Masked ∧ h.fpOn = true ∧ h.csr .sie = s.hart.csr .sie ∧
      others (h.csr .sstatus) = others (s.hart.csr .sstatus) ∧ h.get tp = Switching.hartid ∧
      h.get sp = (if s.hart.priv = .user then L.xstacktop p else s.hart.get sp) := by
  have hcurne : s.traps.curProc ≠ none := by simp [hcur]
  have hp : p ∈ L.procs := hinv.procs p (hinv.traps.current p hcur).1
  have hmask := s.hart.masked_takeTrap cause tval
  have hfp : (s.hart.takeTrap cause tval).fpOn = true := by
    rw [Hart.fpOn_takeTrap]
    exact hinv.fpOn hcurne
  have hscratch : (s.hart.takeTrap cause tval).csr .sscratch = L.ctx (s.traps.cpusContext syscore) := by
    rw [Hart.csr_takeTrap_of_ne _ (by decide)]
    exact hinv.scratch
  obtain ⟨hreads, hstack⟩ := hinv.xstack_eq hcur
  have hhart : (s.hart.takeTrap cause tval).mem
      (effective (L.ctx (s.traps.cpusContext syscore)) ptHartid) = Switching.hartid := hinv.hartid
  have hread : ∀ b ∈ xstackReads (s.hart.takeTrap cause tval).mem L.cpusCurProc
      ((s.hart.takeTrap cause tval).mem
      (effective (L.ctx (s.traps.cpusContext syscore)) ptHartid)),
        IsAligned b ∧ ∀ n < ptHartid, b ≠ effective (L.ctx (s.traps.cpusContext syscore)) n := by
    have hout : ∀ b, ¬ L.InContext b → ∀ n < ptHartid, b ≠ effective (L.ctx (s.traps.cpusContext syscore)) n :=
      fun b hb n hn heq => hb ⟨_, hinv.lt_of_cpus, n, lt_trans hn (by decide), heq⟩
    rw [hhart]
    show ∀ b ∈ xstackReads s.hart.mem _ _, _
    rw [hreads]
    simp only [List.forall_mem_cons]
    exact ⟨⟨L.curAligned, hout _ L.curApart⟩, ⟨L.slotAligned, hout _ L.slotApart⟩,
      ⟨L.procAligned p hp, hout _ (L.procApart p hp)⟩, by simp⟩
  obtain ⟨h, hrun, hsaved, hstatus, hmem, htp, hsp, hcsr, hpriv⟩ :=
    run_trapHandler target ret hmask hfp hscratch (Layout.ctx_aligned _) hread
  have hcsr' : ∀ c, c ≠ .sscratch → h.csr c = (s.hart.takeTrap cause tval).csr c := by
    intro c hc
    rw [hcsr, Hart.csr_setCsr_of_ne _ hc]
  have hstatus' := hcsr' .sstatus (by decide)
  refine ⟨h, hrun, ?_, ⟨?_, ?_⟩, hmem, ⟨hpriv, ?_⟩, ?_, ?_, ?_, ?_, ?_⟩
  · rw [hsaved, Hart.returnRegs_takeTrap]
  · rw [hstatus]
    exact hmask.2
  · rw [hstatus]
    exact Bool.or_eq_true_iff.mp hfp
  · rw [Hart.intp, hstatus']
    exact hmask.2
  · rw [Hart.fpOn, hstatus']
    exact hfp
  · rw [hcsr' .sie (by decide), Hart.csr_takeTrap_of_ne _ (by decide)]
  · rw [hstatus', Hart.sstatus_takeTrap, others_setBit (by decide), others_setBit (by decide),
      others_setBit (by decide)]
  · rw [htp, hhart]
  · have hspp : ((s.hart.takeTrap cause tval).csr .sstatus).getLsbD 8 = decide (s.hart.priv = .supervisor) := by
      rw [Hart.sstatus_takeTrap, getLsbD_setBit (by decide), if_neg (by decide), getLsbD_setBit (by decide),
        if_neg (by decide), getLsbD_setBit (by decide), if_pos rfl]
    rw [hsp, hspp, hhart]
    show (if _ then s.hart.get sp else xstackOf s.hart.mem _ _) = _
    rw [hstack]
    cases s.hart.priv <;> rfl

theorem trap (hinv : Inv L s) (ht : s.traps.prepareNestedTrap = .ok t) {cause tval ret : Word} {target : Target}
    (hrun : run (trapHandler L.cpusCurProc target ret) 0 (s.hart.takeTrap cause tval) =
      some (.called target, h)) :
    Inv L ⟨t, prepare L (t.cpusContext syscore) h⟩ ∧
      Threads.Step L (.event .trap) (threads L s) (threads L ⟨t, prepare L (t.cpusContext syscore) h⟩) := by
  have htrap := hinv.traps.trap ht
  obtain ⟨p, x, l, hcur, hfree, rfl⟩ := Traps.prepareNestedTrap_eq_ok ht
  obtain ⟨h', hrun', hsaved, hres, hmem, hm, hfp, hsie, hothers, htp, hsp⟩ :=
    hinv.entry hcur cause tval ret target
  obtain rfl : h = h' := (Prod.ext_iff.mp (Option.some.inj (hrun.symm.trans hrun'))).2
  have hx : x ∈ s.traps.ctxFreeList := hfree ▸ List.mem_cons_self
  have hxlt := hinv.lt_of_free hx
  have hne := hinv.free_ne_cpus hx
  obtain ⟨c₀, hc₀⟩ : ∃ c₀, c₀ = s.traps.cpusContext syscore := ⟨_, rfl⟩
  have hlt := hinv.lt_of_cpus
  rw [← hc₀] at hsaved hres hmem hlt hne
  simp only [Function.update_self, ← hc₀] at htrap ⊢
  have hstride : ∀ m, m < ptCtxSize → m < ctxStride := fun m hm => lt_trans hm (by decide)
  -- a context is neither that of the trap nor the new one
  have hother : ∀ d, d < nctxMax → d ≠ c₀ → d ≠ x → ∀ n < ptCtxSize,
      (prepare L x h).mem (effective (L.ctx d) n) = s.hart.mem (effective (L.ctx d) n) := by
    intro d hd hdc hdx n hn
    rw [prepare_mem fun heq => hdx (Layout.cell_inj hd hxlt (hstride n hn) (by decide) heq).1]
    refine hmem _ fun m hm heq => hdc ?_
    exact (Layout.cell_inj hd hlt (hstride n hn) (hstride m (lt_trans hm (by decide))) heq).1
  have hlist : ∀ d q, d ∈ s.traps.ctxList q → d ≠ c₀ ∧ d ≠ x := by
    intro d q hd
    constructor
    · rintro rfl
      exact hinv.traps.notMem_ctxList (.inr hc₀) q hd
    · rintro rfl
      exact hinv.traps.notMem_ctxList (.inl hx) q hd
  have hold : ∀ d q, d ∈ s.traps.ctxList q → ∀ n < ptCtxSize,
      (prepare L x h).mem (effective (L.ctx d) n) = s.hart.mem (effective (L.ctx d) n) :=
    fun d q hd => hother d (hinv.lt_of_mem hd) (hlist d q hd).1 (hlist d q hd).2
  have hself : ∀ n < ptCtxSize, (prepare L x h).mem (effective (L.ctx c₀) n) = h.mem (effective (L.ctx c₀) n) :=
    fun n hn => prepare_mem fun heq => hne (Layout.cell_inj hlt hxlt (hstride n hn) (by decide) heq).1.symm
  have hout : ∀ b, ¬ L.InContext b → (prepare L x h).mem b = s.hart.mem b := by
    intro b hb
    rw [prepare_mem fun heq => hb ⟨x, hxlt, _, by decide, heq⟩]
    exact hmem b fun n hn heq => hb ⟨c₀, hlt, n, lt_trans hn (by decide), heq⟩
  have hhart₀ : (prepare L x h).mem (effective (L.ctx c₀) ptHartid) = Switching.hartid := by
    rw [hself _ (by decide), hmem]
    · exact hc₀ ▸ hinv.hartid
    · intro n hn heq
      rw [effective_inj (by simp) (by simp at hn; omega)] at heq
      omega
  have hhart₁ : (prepare L x h).mem (effective (L.ctx x) ptHartid) = Switching.hartid := by
    rw [prepare, Hart.mem_setCsr, Hart.mem_store, Function.update_self]
  have hsaved' : savedRegs (prepare L x h).mem (L.ctx c₀) = s.hart.regs :=
    (savedRegs_congr fun n hn => hself n (lt_trans hn (by decide))).trans hsaved
  have hres' : Restorable (prepare L x h).mem (L.ctx c₀) := by
    have hstatus := hself ptSstatus (by decide)
    exact ⟨by rw [hstatus]; exact hres.masked, by rw [hstatus]; exact hres.fpOn⟩
  obtain ⟨hgood, hleft⟩ := hinv.pushed (.inr hc₀) hold hres' (congrArg Regs.priv hsaved') p
  constructor
  · have hcpus : Function.update s.traps.cpusContext syscore x syscore = x := Function.update_self ..
    have hscratch : (prepare L x h).csr .sscratch = L.ctx x := by rw [prepare, Hart.csr_setCsr_self]
    refine ⟨htrap, ?_, ?_, ?_, ?_, ?_, ?_, ?_, ?_, hinv.procs, ?_⟩
    · show (prepare L x h).csr .sscratch = L.ctx (Function.update s.traps.cpusContext syscore x syscore)
      rw [hcpus]
      exact hscratch
    · show (prepare L x h).mem (effective (L.ctx (Function.update s.traps.cpusContext syscore x syscore)) _) = _
      rw [hcpus]
      exact hhart₁
    · rintro e ⟨⟩
      exact hhart₀
    · exact hgood
    · intro _
      rw [prepare, Hart.fpOn_setCsr _ (by decide)]
      exact hfp
    · have hpriv : (prepare L x h).priv = .supervisor := hm.1
      simp [hpriv]
    · exact (hout _ L.curApart).trans hinv.curProcs
    · exact fun q hq => (hout _ L.slotApart).trans (hinv.slot q hq)
    · exact fun q hq => (hout _ (L.procApart q (hinv.procs q hq))).trans (hinv.xstack q hq)
  · rw [hsaved'] at hleft
    have hkept : ∀ c, c ≠ .sscratch → (prepare L x h).csr c = h.csr c := by
      intro c hc
      rw [prepare, Hart.csr_setCsr_of_ne _ hc, Hart.csr_store]
    have hsie' : (prepare L x h).regs.sie = s.hart.regs.sie := (hkept .sie (by decide)).trans hsie
    have hothers' : (prepare L x h).regs.status = s.hart.regs.status :=
      (congrArg others (hkept .sstatus (by decide))).trans hothers
    have hintp : (prepare L x h).regs.intp = false := by
      have hbit : (h.csr .sstatus).getLsbD 1 = false := hm.2
      show ((prepare L x h).csr .sstatus).getLsbD 1 = false
      rw [hkept .sstatus (by decide), hbit]
    exact .of_left hleft (.trap (s := threads L s) hcur hm.1 hintp hsie' hothers' htp hsp)

/-! ## The way back -/

/-- A context of the process comes from its list to the hart, and the code goes on that was saved in it. -/
theorem resumed (hinv : Inv L s) (htrap : TrapInv t) (hc : c ∈ s.traps.ctxList p) (hcur : t.curProc = some p)
    (hcpus : t.cpusContext syscore = c) (hcode : t.code = s.traps.saved c) (hsaved : t.saved = s.traps.saved)
    (hprocs : t.procs = s.traps.procs) (hlists : ∀ q, ∀ d ∈ t.ctxList q, d ∈ s.traps.ctxList q)
    (hhart : mem (effective (L.ctx c) ptHartid) = Switching.hartid) (hslot : mem L.slot = L.procAddr p)
    (hcell : ∀ d < nctxMax, ∀ n < ptCtxSize, effective (L.ctx d) n ≠ effective (L.ctx c) ptHartid →
      mem (effective (L.ctx d) n) = s.hart.mem (effective (L.ctx d) n))
    (hout : ∀ b, ¬ L.InContext b → b ≠ L.slot → mem b = s.hart.mem b) (hregs : h.regs = savedRegs mem (L.ctx c))
    (hmem : h.mem = mem) (hscratch : h.csr .sscratch = L.ctx c) (hfp : h.fpOn = true) : Inv L ⟨t, h⟩ := by
  subst hmem
  have hharts : ∀ d < nctxMax, s.hart.mem (effective (L.ctx d) ptHartid) = Switching.hartid →
      h.mem (effective (L.ctx d) ptHartid) = Switching.hartid := by
    intro d hd heq
    by_cases hdc : d = c
    · exact hdc ▸ hhart
    · refine (hcell d hd _ (by decide) fun hcells => hdc ?_).trans heq
      exact (Layout.cell_inj hd (hinv.lt_of_mem hc) (by decide) (by decide) hcells).1
  have hgood : ∀ q d, d ∈ s.traps.ctxList q → Good L h.mem t.saved d := by
    intro q d hd
    obtain ⟨-, code, hfits⟩ := hinv.fits hd
    have hdlt := hinv.lt_of_mem hd
    refine (hinv.left q d hd).congr (by rw [hsaved]) ?_ fun e he heq => ?_
    · refine hcell d hdlt _ (by decide) fun hcells => ?_
      have hne := (Layout.cell_inj hdlt (hinv.lt_of_mem hc) (by decide) (by decide) hcells).2
      exact absurd hne (by decide)
    · exact hharts e (hinv.lt_of_mem (handler_mem hfits hd he)) heq
  have hgoodc := hgood p c hc
  have hpriv : h.priv = (savedRegs h.mem (L.ctx c)).priv := congrArg Regs.priv hregs
  refine ⟨htrap, ?_, ?_, ?_, fun q d hd => hgood q d (hlists q d hd), fun _ => hfp, ?_, ?_, ?_,
    hprocs ▸ hinv.procs, ?_⟩
  · rw [hcpus]
    exact hscratch
  · rw [hcpus]
    exact hhart
  · intro d hd
    exact hgoodc.handler d (by rw [hsaved, ← hcode, hd])
  · rw [hpriv, hcode, ← hsaved]
    exact hgoodc.priv
  · exact (hout _ L.curApart L.slotNe.symm).trans hinv.curProcs
  · intro q hq
    obtain rfl : p = q := Option.some.inj (hcur.symm.trans hq)
    exact hslot
  · intro q hq
    rw [hprocs] at hq
    have hmem := hinv.procs q hq
    exact (hout _ (L.procApart q hmem) (L.procNe q hmem).2).trans (hinv.xstack q hq)

theorem exit (hinv : Inv L s) (hcode : s.traps.code = .handler c)
    (hrun : run trapRet 0 (s.hart.set a0 (L.ctx c)) = some (.returned, h)) :
    Inv L ⟨s.traps.trapExit c, h⟩ ∧
      Threads.Step L (.event .exit) (threads L s) (threads L ⟨s.traps.trapExit c, h⟩) := by
  obtain ⟨p, l, hcur, hlist, -⟩ := hinv.traps.top_of_handler hcode
  have hc : c ∈ s.traps.ctxList p := hlist ▸ List.mem_cons_self
  have hm : (s.hart.set a0 (L.ctx c)).Masked := masked_of_run (by simp [trapRet]) hrun
  have ha : (s.hart.set a0 (L.ctx c)).get a0 = L.ctx c := by rw [Hart.get_set, if_neg (by decide), if_pos rfl]
  obtain ⟨h', hrun', hregs, hmem, hscratch, hfp⟩ :=
    run_trapRet hm ha (Layout.ctx_aligned c) (hinv.left p c hc).restorable
  obtain rfl : h = h' := (Prod.ext_iff.mp (Option.some.inj (hrun.symm.trans hrun'))).2
  have hcpus : (s.traps.trapExit c).cpusContext syscore = c := by
    show Function.update s.traps.cpusContext syscore c syscore = c
    rw [Function.update_self]
  constructor
  · exact hinv.resumed (hinv.traps.exit hcode) hc hcur hcpus rfl rfl rfl
      (fun q d hd => List.mem_of_mem_erase hd) (hinv.handler c hcode) (hinv.slot p hcur) (fun _ _ _ _ _ => rfl)
      (fun _ _ _ => rfl) hregs hmem hscratch hfp
  · have hleft : (fun q => ((s.traps.ctxList q).erase c).map fun d => savedRegs h.mem (L.ctx d)) =
        Function.update (threads L s).left p (l.map fun d => savedRegs s.hart.mem (L.ctx d)) := by
      funext q
      rw [hmem]
      by_cases hq : q = p
      · rw [hq, hlist, List.erase_cons_head, Function.update_self]
        rfl
      · rw [Function.update_of_ne hq, List.erase_of_not_mem (hinv.traps.notMem_other hc hq)]
        rfl
    have htop : (threads L s).left p =
        savedRegs s.hart.mem (L.ctx c) :: l.map fun d => savedRegs s.hart.mem (L.ctx d) := by
      show (s.traps.ctxList p).map _ = _
      rw [hlist, List.map_cons]
    refine .of_left hleft ?_
    rw [hregs]
    exact .exit (s := threads L s) hcur hm.1 htop

theorem dispatch (hinv : Inv L s) (hcode : s.traps.code = .elect) (hp : p ∈ s.traps.procs)
    (ht : s.traps.procRun p = .ok t) {satp : Word}
    (hrun : run trapRetSwitchAs 0
      (((load L (t.cpusContext syscore) p s.hart).set a0 (L.ctx (t.cpusContext syscore))).set a1 satp) =
        some (.returned, h)) :
    Inv L ⟨t, h⟩ ∧ Threads.Step L (.event (.dispatch p)) (threads L s) (threads L ⟨t, h⟩) := by
  have htrap := hinv.traps.dispatch hcode hp ht
  obtain ⟨x, l, hlist, rfl⟩ := Traps.procRun_eq_ok ht
  have hx : x ∈ s.traps.ctxList p := hlist ▸ List.mem_cons_self
  have hxlt := hinv.lt_of_mem hx
  simp only [Function.update_self] at hrun
  -- only the name of the hart and `cpus_cur_proc` are other than they were
  obtain ⟨g, hg⟩ : ∃ g, g = load L x p s.hart := ⟨_, rfl⟩
  rw [← hg] at hrun
  have hcell : ∀ d < nctxMax, ∀ n < ptCtxSize, effective (L.ctx d) n ≠ effective (L.ctx x) ptHartid →
      g.mem (effective (L.ctx d) n) = s.hart.mem (effective (L.ctx d) n) := by
    intro d hd n hn hne
    rw [hg, load_cell hd hn hne]
  have hsame : ∀ q d, d ∈ s.traps.ctxList q → savedRegs g.mem (L.ctx d) = savedRegs s.hart.mem (L.ctx d) := by
    intro q d hd
    refine savedRegs_congr fun n hn => hcell d (hinv.lt_of_mem hd) n (lt_trans hn (by decide)) fun heq => ?_
    have hne := (Layout.cell_inj (hinv.lt_of_mem hd) hxlt (lt_trans hn (by decide)) (by decide) heq).2
    omega
  have hres : Restorable g.mem (L.ctx x) := hg ▸ restorable_load hxlt (hinv.left p x hx).restorable
  have hm : ((g.set a0 (L.ctx x)).set a1 satp).Masked := masked_of_run (by simp [trapRetSwitchAs, trapRet]) hrun
  have ha : ((g.set a0 (L.ctx x)).set a1 satp).get a0 = L.ctx x := by
    rw [Hart.get_set_of_ne _ (by decide), Hart.get_set, if_neg (by decide), if_pos rfl]
  obtain ⟨h', hrun', hregs, hmem, hscratch, hfp⟩ :=
    run_trapRetSwitchAs (h := (g.set a0 (L.ctx x)).set a1 satp) hm ha (Layout.ctx_aligned x) hres
  obtain rfl : h = h' := (Prod.ext_iff.mp (Option.some.inj (hrun.symm.trans hrun'))).2
  have hhart : g.mem (effective (L.ctx x) ptHartid) = Switching.hartid := by
    rw [hg, load, Hart.mem_store, Function.update_self]
  have hslot : g.mem L.slot = L.procAddr p := by
    have hne : L.slot ≠ effective (L.ctx x) ptHartid := fun heq => L.slotApart ⟨x, hxlt, _, by decide, heq⟩
    rw [hg, load, Hart.mem_store, Function.update_of_ne hne, Hart.mem_store, Function.update_self]
  have hout : ∀ b, ¬ L.InContext b → b ≠ L.slot → g.mem b = s.hart.mem b := by
    intro b hb hne
    rw [hg, load_out hxlt hb hne]
  have hcpus : Function.update s.traps.cpusContext syscore x syscore = x := Function.update_self ..
  constructor
  · exact hinv.resumed htrap hx rfl hcpus rfl rfl rfl (fun q d hd => List.mem_of_mem_erase hd) hhart hslot hcell
      hout hregs hmem hscratch hfp
  · have hleft : (fun q => ((s.traps.ctxList q).erase x).map fun d => savedRegs h.mem (L.ctx d)) =
        Function.update (threads L s).left p (l.map fun d => savedRegs s.hart.mem (L.ctx d)) := by
      funext q
      rw [hmem]
      by_cases hq : q = p
      · rw [hq, hlist, List.erase_cons_head, Function.update_self]
        exact List.map_congr_left fun d hd => hsame p d (hlist ▸ List.mem_cons_of_mem _ hd)
      · rw [Function.update_of_ne hq, List.erase_of_not_mem (hinv.traps.notMem_other hx hq)]
        exact List.map_congr_left fun d hd => hsame q d hd
    have htop : (threads L s).left p =
        savedRegs s.hart.mem (L.ctx x) :: l.map fun d => savedRegs s.hart.mem (L.ctx d) := by
      show (s.traps.ctxList p).map _ = _
      rw [hlist, List.map_cons]
    refine .of_left hleft ?_
    rw [hregs]
    show Threads.Step L _ _ ⟨savedRegs g.mem (L.ctx x), _, _⟩
    rw [hsame p x hx]
    exact .dispatch (s := threads L s) (hinv.supervisor (by simp [hcode])) htop

/-! ## The switch -/

theorem giveUp (hinv : Inv L s) (hcode : s.traps.code = .handler d) (hcur : s.traps.curProc = some p)
    (ht : s.traps.schedProcGiveUp p = .ok t) {l : List Ctx} (hlist : t.ctxList p = c :: l)
    {roundRobin ret : Word}
    (hrun : run (Trampoline.giveUp ret) 0 ((s.hart.set a0 (L.ctx c)).set a1 roundRobin) =
      some (.called .schedProc, h)) :
    Inv L ⟨t, h⟩ ∧ Threads.Step L (.event .giveUp) (threads L s) (threads L ⟨t, h⟩) := by
  have htrap := hinv.traps.giveUp hcur ht
  obtain ⟨x, free, hfree, rfl⟩ := Traps.schedProcGiveUp_eq_ok ht
  simp only [Function.update_self] at hlist
  obtain ⟨rfl, rfl⟩ := List.cons.inj hlist
  have hx : x ∈ s.traps.ctxFreeList := hfree ▸ List.mem_cons_self
  have hxlt := hinv.lt_of_free hx
  obtain ⟨g, hg⟩ : ∃ g, g = (s.hart.set a0 (L.ctx x)).set a1 roundRobin := ⟨_, rfl⟩
  rw [← hg] at hrun
  have hm : g.Masked := masked_of_run (by simp [Trampoline.giveUp]) hrun
  have hmemg : g.mem = s.hart.mem := by
    rw [hg]
    rfl
  have hcsrg : g.csr = s.hart.csr := by
    rw [hg]
    rfl
  have hfpg : g.fpOn = true := by
    rw [hg, Hart.fpOn_set, Hart.fpOn_set]
    exact hinv.fpOn (by simp [hcur])
  have ha : g.get a0 = L.ctx x := by
    rw [hg, Hart.get_set_of_ne _ (by decide), Hart.get_set, if_neg (by decide), if_pos rfl]
  obtain ⟨h', hrun', hmem, hcsr, hpriv⟩ := run_giveUp ret hm hfpg ha (Layout.ctx_aligned x)
  obtain rfl : h = h' := (Prod.ext_iff.mp (Option.some.inj (hrun.symm.trans hrun'))).2
  have hpriv' : h.priv = .supervisor := hpriv.trans hm.1
  have hstride : ∀ m, m < ptCtxSize → m < ctxStride := fun m hm => lt_trans hm (by decide)
  -- a context that is not the new one
  have hother : ∀ e, e < nctxMax → e ≠ x → ∀ n < ptCtxSize,
      h.mem (effective (L.ctx e) n) = s.hart.mem (effective (L.ctx e) n) := by
    intro e he hne n hn
    rw [hmem, givenMem_of_ne, hmemg]
    exact fun m hm heq => hne (Layout.cell_inj he hxlt (hstride n hn) (hstride m hm) heq).1
  have hold : ∀ e q, e ∈ s.traps.ctxList q → ∀ n < ptCtxSize,
      h.mem (effective (L.ctx e) n) = s.hart.mem (effective (L.ctx e) n) := by
    intro e q he
    refine hother e (hinv.lt_of_mem he) ?_
    rintro rfl
    exact hinv.traps.notMem_ctxList (.inl hx) q he
  have hout : ∀ b, ¬ L.InContext b → h.mem b = s.hart.mem b := by
    intro b hb
    rw [hmem, givenMem_of_ne, hmemg]
    exact fun m hm heq => hb ⟨x, hxlt, m, hstride m hm, heq⟩
  have hsaved : savedRegs h.mem (L.ctx x) = { s.hart.regs with
      x := Function.update (Function.update s.hart.regs.x a1 roundRobin) a0
        (g.mem (effective (L.ctx x) (ptReg a0)))
      pc := s.hart.regs.x ra } := by
    have hget : ∀ r, r ≠ a0 → g.get r = Function.update s.hart.get a1 roundRobin r := by
      intro r hr
      rw [hg, Hart.get_set, Function.update_apply, Hart.get_set]
      by_cases hzero : r = 0
      · subst hzero
        rfl
      · rw [if_neg hzero, if_neg hzero, if_neg hr]
    have hx : Function.update g.get a0 (g.mem (effective (L.ctx x) (ptReg a0))) =
        Function.update (Function.update s.hart.get a1 roundRobin) a0
          (g.mem (effective (L.ctx x) (ptReg a0))) := by
      funext r
      by_cases hr : r = a0
      · rw [hr, Function.update_self, Function.update_self]
      · rw [Function.update_of_ne hr, Function.update_of_ne hr, hget r hr]
    have hra : g.get ra = s.hart.get ra := by
      rw [hget ra (by decide), Function.update_of_ne (by decide)]
    rw [hmem, savedRegs_givenMem hm, hx, hra, hg]
    rfl
  have hsup : s.hart.priv = .supervisor := hinv.supervisor (by simp [hcode])
  have hres : Restorable h.mem (L.ctx x) := by
    rw [hmem]
    exact restorable_givenMem hm hfpg
  obtain ⟨hgood, hleft⟩ := hinv.pushed (.inl hx) hold hres (by rw [hsaved]; rfl) p
  constructor
  · refine ⟨htrap, ?_, ?_, ?_, ?_, ?_, ?_, ?_, ?_, hinv.procs, ?_⟩
    · show h.csr .sscratch = _
      rw [hcsr, hcsrg]
      exact hinv.scratch
    · exact (hother _ hinv.lt_of_cpus (hinv.free_ne_cpus hx).symm _ (by decide)).trans hinv.hartid
    · rintro e ⟨⟩
    · exact hgood
    · intro _
      show h.fpOn = true
      rw [Hart.fpOn, hcsr]
      exact hfpg
    · simp [hpriv']
    · exact (hout _ L.curApart).trans hinv.curProcs
    · exact fun q hq => (hout _ L.slotApart).trans (hinv.slot q hq)
    · exact fun q hq => (hout _ (L.procApart q (hinv.procs q hq))).trans (hinv.xstack q hq)
  · refine .of_left hleft ?_
    rw [hsaved]
    exact .giveUp (s := threads L s) _ _ hcur hsup hpriv'

/-! ## The first context -/

/-- A process gets its first context, and nothing else changes but the word that it begins with. -/
theorem restarted (hinv : Inv L s) (htrap : TrapInv t) (hcur : s.traps.curProc ≠ some p)
    (hlist : t.ctxList p = [c]) (hlists : ∀ q ≠ p, t.ctxList q = s.traps.ctxList q)
    (hsaved : t.saved = Function.update s.traps.saved c .user) (hcode : t.code = s.traps.code)
    (hcurt : t.curProc = s.traps.curProc) (hcpus : t.cpusContext = s.traps.cpusContext)
    (hc : c ∈ s.traps.ctxList p ∨ c ∈ s.traps.ctxFreeList) {g : Hart} (hcsr : g.csr = s.hart.csr)
    (hregs : g.regs = s.hart.regs) (hmem : ∀ b, b ≠ L.procAddr p → g.mem b = s.hart.mem b)
    (hp : p ∈ L.procs) (hprocs : ∀ q ∈ t.procs, q ∈ L.procs)
    (hxstack : ∀ q ∈ t.procs, g.mem (L.procAddr q) = L.xstacktop q) :
    Inv L ⟨t, reset L c p g⟩ ∧ threads L ⟨t, reset L c p g⟩ =
      { threads L s with left := Function.update (threads L s).left p [Threads.start L p] } := by
  have hclt : c < nctxMax := hc.elim hinv.lt_of_mem hinv.lt_of_free
  have hapart : ∀ q ≠ p, c ∉ s.traps.ctxList q := fun q hq =>
    hc.elim (fun hc => hinv.traps.notMem_other hc hq) fun hc => hinv.traps.notMem_ctxList (.inl hc) q
  have hcpusne : s.traps.cpusContext syscore ≠ c :=
    hc.elim (fun hc heq => hinv.traps.notMem_ctxList (.inr rfl) p (heq ▸ hc))
      fun hc => (hinv.free_ne_cpus hc).symm
  have hin : ∀ d < nctxMax, ∀ n < ptCtxSize, effective (L.ctx d) n ≠ L.procAddr p :=
    fun d hd n hn heq => L.procApart p hp (heq ▸ ⟨d, hd, n, lt_trans hn (by decide), rfl⟩)
  have hother : ∀ d < nctxMax, d ≠ c → ∀ n < ptCtxSize,
      (reset L c p g).mem (effective (L.ctx d) n) = s.hart.mem (effective (L.ctx d) n) := by
    intro d hd hne n hn
    rw [reset_of_ne, hmem _ (hin d hd n hn)]
    exact fun m hm heq => hne (Layout.cell_inj hd hclt (lt_trans hn (by decide)) hm heq).1
  have hout : ∀ b, ¬ L.InContext b → (reset L c p g).mem b = g.mem b := by
    intro b hb
    exact reset_of_ne fun n hn heq => hb ⟨c, hclt, n, hn, heq⟩
  have hold : ∀ q ≠ p, ∀ d, d ∈ s.traps.ctxList q → ∀ n < ptCtxSize,
      (reset L c p g).mem (effective (L.ctx d) n) = s.hart.mem (effective (L.ctx d) n) := by
    intro q hq d hd
    refine hother d (hinv.lt_of_mem hd) ?_
    rintro rfl
    exact hapart q hq hd
  have hhandler : ∀ q ≠ p, ∀ d ∈ s.traps.ctxList q, ∀ e, s.traps.saved d = .handler e →
      s.hart.mem (effective (L.ctx e) ptHartid) = Switching.hartid →
      (reset L c p g).mem (effective (L.ctx e) ptHartid) = Switching.hartid := by
    intro q hq d hd e he heq
    obtain ⟨-, code, hfits⟩ := hinv.fits hd
    exact (hold q hq e (handler_mem hfits hd he) _ (by decide)).trans heq
  have hstatus : (reset L c p g).mem (effective (L.ctx c) ptSstatus) = startSstatus :=
    reset_cell (by decide)
  have hregs' : (reset L c p g).regs = s.hart.regs := regs_reset.trans hregs
  have hcsr' : (reset L c p g).csr = s.hart.csr := csr_reset.trans hcsr
  constructor
  · refine ⟨htrap, ?_, ?_, ?_, ?_, ?_, ?_, ?_, ?_, hprocs, ?_⟩
    · rw [hcsr', hcpus]
      exact hinv.scratch
    · rw [hcpus]
      exact (hother _ hinv.lt_of_cpus hcpusne _ (by decide)).trans hinv.hartid
    · intro d hd
      rw [hcode] at hd
      obtain ⟨q, l, hq, hlist', -⟩ := hinv.traps.top_of_handler hd
      have hqp : q ≠ p := fun heq => hcur (heq ▸ hq)
      exact (hold q hqp d (hlist' ▸ List.mem_cons_self) _ (by decide)).trans (hinv.handler d hd)
    · intro q d hd
      by_cases hq : q = p
      · rw [hq, hlist] at hd
        obtain rfl := List.mem_singleton.mp hd
        refine ⟨⟨by rw [hstatus]; decide, by rw [hstatus]; decide⟩, ?_, ?_⟩
        · rw [savedRegs_reset, hsaved, Function.update_self]
          exact iff_of_true rfl rfl
        · intro e he
          rw [hsaved, Function.update_self] at he
          cases he
      · rw [hlists q hq] at hd
        have hdc : d ≠ c := fun heq => hapart q hq (heq ▸ hd)
        exact (hinv.left q d hd).congr (by rw [hsaved, Function.update_of_ne hdc])
          (hold q hq d hd _ (by decide)) (hhandler q hq d hd)
    · intro hcur'
      rw [hcurt] at hcur'
      rw [Hart.fpOn, hcsr']
      exact hinv.fpOn hcur'
    · rw [priv_reset, hcode]
      have hpriv : g.priv = s.hart.priv := congrArg Regs.priv hregs
      rw [hpriv]
      exact hinv.priv
    · exact (hout _ L.curApart).trans ((hmem _ (L.procNe p hp).1.symm).trans hinv.curProcs)
    · intro q hq
      rw [hcurt] at hq
      exact (hout _ L.slotApart).trans ((hmem _ (L.procNe p hp).2.symm).trans (hinv.slot q hq))
    · exact fun q hq => (hout _ (L.procApart q (hprocs q hq))).trans (hxstack q hq)
  · have hleft : (fun q => (t.ctxList q).map fun d => savedRegs (reset L c p g).mem (L.ctx d)) =
        Function.update (threads L s).left p [Threads.start L p] := by
      funext q
      by_cases hq : q = p
      · rw [hq, hlist, Function.update_self, List.map_singleton, savedRegs_reset]
      · rw [hlists q hq, Function.update_of_ne hq]
        exact left_of_apart (hold q hq)
    rw [← hleft]
    show Threads.mk (reset L c p g).regs t.curProc _ = Threads.mk s.hart.regs s.traps.curProc _
    rw [hregs', hcurt]

theorem procReset (hinv : Inv L s) (hp : p ∈ s.traps.procs) (hcur : s.traps.curProc ≠ some p)
    (ht : s.traps.procReset p = .ok t) (hlist : t.ctxList p = [c]) :
    Inv L ⟨t, reset L c p s.hart⟩ ∧
      Threads.Step L (.event (.procReset p)) (threads L s) (threads L ⟨t, reset L c p s.hart⟩) := by
  have htrap := hinv.traps.reset hp hcur ht
  obtain ⟨x, l, hfree, rfl⟩ := Traps.procReset_eq_ok ht
  simp only [Function.update_self] at hlist
  obtain rfl := List.singleton_inj.mp hlist
  have hx : x ∈ s.traps.ctxList p ∨ x ∈ s.traps.ctxFreeList := by
    have hmem : x ∈ (s.traps.ctxList p).reverse ++ s.traps.ctxFreeList := hfree ▸ List.mem_cons_self
    simpa using hmem
  obtain ⟨hnext, hthreads⟩ := hinv.restarted htrap hcur (Function.update_self ..)
    (fun q hq => Function.update_of_ne hq _ _) rfl rfl rfl rfl hx rfl rfl (fun _ _ => rfl)
    (hinv.procs p hp) hinv.procs hinv.xstack
  refine ⟨hnext, ?_⟩
  rw [hthreads]
  exact .procReset hcur

theorem procAlloc (hinv : Inv L s) (hp : p ∉ s.traps.procs) (hpmem : p ∈ L.procs)
    (ht : s.traps.procAlloc p = .ok t) (hlist : t.ctxList p = [c]) :
    Inv L ⟨t, reset L c p (s.hart.store (L.procAddr p) (L.xstacktop p))⟩ ∧
      Threads.Step L (.event (.procAlloc p)) (threads L s)
        (threads L ⟨t, reset L c p (s.hart.store (L.procAddr p) (L.xstacktop p))⟩) := by
  have htrap := hinv.traps.alloc hp ht
  have hcur : s.traps.curProc ≠ some p := fun hcur => hp (hinv.traps.current p hcur).1
  obtain ⟨x, l, hfree, rfl⟩ := Traps.procReset_eq_ok ht
  simp only [Function.update_self] at hlist
  obtain rfl := List.singleton_inj.mp hlist
  have hx : x ∈ s.traps.ctxFreeList := by
    simp only [Function.update_self, List.reverse_nil, List.nil_append] at hfree
    exact hfree ▸ List.mem_cons_self
  have hlists : ∀ q ≠ p,
      Function.update (Function.update s.traps.ctxList p []) p [x] q = s.traps.ctxList q := by
    intro q hq
    rw [Function.update_of_ne hq, Function.update_of_ne hq]
  have hmem : ∀ b, b ≠ L.procAddr p → (s.hart.store (L.procAddr p) (L.xstacktop p)).mem b = s.hart.mem b := by
    intro b hb
    rw [Hart.mem_store, Function.update_of_ne hb]
  have hprocs : ∀ q ∈ s.traps.procs ++ [p], q ∈ L.procs := by
    intro q hq
    rcases List.mem_append.mp hq with hq | hq
    · exact hinv.procs q hq
    · exact List.mem_singleton.mp hq ▸ hpmem
  have hxstack : ∀ q ∈ s.traps.procs ++ [p],
      (s.hart.store (L.procAddr p) (L.xstacktop p)).mem (L.procAddr q) = L.xstacktop q := by
    intro q hq
    rw [Hart.mem_store]
    by_cases hqp : q = p
    · rw [hqp, Function.update_self]
    · have hold : q ∈ s.traps.procs :=
        (List.mem_append.mp hq).resolve_right fun hq => hqp (List.mem_singleton.mp hq)
      have hne : L.procAddr q ≠ L.procAddr p := fun heq => hqp (L.procInj q (hinv.procs q hold) p hpmem heq)
      rw [Function.update_of_ne hne, hinv.xstack q hold]
  obtain ⟨hnext, hthreads⟩ := hinv.restarted (g := s.hart.store (L.procAddr p) (L.xstacktop p)) htrap hcur
    (Function.update_self ..) hlists rfl rfl rfl rfl (.inr hx) rfl rfl hmem hpmem hprocs hxstack
  refine ⟨hnext, ?_⟩
  rw [hthreads]
  exact .procAlloc hcur

/-! ## Runs -/

theorem schedProc (hinv : Inv L s) (hcode : s.traps.code = .boot ∨ ∃ c, s.traps.code = .handler c) :
    Inv L ⟨{ s.traps with code := .elect }, s.hart⟩ ∧
      Threads.Step L (.event .schedProc) (threads L s)
        (threads L ⟨{ s.traps with code := .elect }, s.hart⟩) := by
  have huser : s.traps.code ≠ .user := by
    rcases hcode with hcode | ⟨c, hcode⟩ <;> simp [hcode]
  have hsup := hinv.supervisor huser
  refine ⟨⟨hinv.traps.schedProc hcode, hinv.scratch, hinv.hartid, ?_, hinv.left, hinv.fpOn, ?_, hinv.curProcs,
    hinv.slot, hinv.procs, hinv.xstack⟩, .schedProc hsup⟩
  · rintro c ⟨⟩
  · simp [hsup]

theorem event {e : TrapEvent} (hinv : Inv L s) (ht : trapStep s.traps e = .ok t) (hh : HartStep L s t e h) :
    Inv L ⟨t, h⟩ ∧ Threads.Step L (.event e) (threads L s) (threads L ⟨t, h⟩) := by
  -- the guards of the step are the hypotheses of the lemma of the event
  cases hh with
  | trap _ _ hrun => exact hinv.trap ht hrun
  | exit hcode hrun =>
      rw [trapStep, hcode] at ht
      obtain rfl := Except.ok.inj ht
      exact hinv.exit hcode hrun
  | giveUp hcur hlist hrun =>
      simp only [trapStep, hcur] at ht
      split at ht
      next d q hcode hq =>
        obtain rfl := Option.some.inj hq
        exact hinv.giveUp hcode hcur ht hlist hrun
      next => cases ht
  | schedProc =>
      simp only [trapStep] at ht
      split at ht
      next hcode =>
        obtain rfl := Except.ok.inj ht
        exact hinv.schedProc (.inl hcode)
      next d hcode =>
        obtain rfl := Except.ok.inj ht
        exact hinv.schedProc (.inr ⟨d, hcode⟩)
      next => cases ht
  | dispatch _ hrun =>
      rw [trapStep] at ht
      split_ifs at ht with hguard
      exact hinv.dispatch hguard.1 hguard.2 ht hrun
  | procReset hlist =>
      simp only [trapStep] at ht
      split at ht
      · split_ifs at ht with hguard
        exact hinv.procReset hguard.1 hguard.2 ht hlist
      · cases ht
  | procAlloc hmem hlist =>
      simp only [trapStep] at ht
      split at ht
      · split_ifs at ht with hguard
        exact hinv.procAlloc hguard hmem ht hlist
      · split_ifs at ht with hguard
        exact hinv.procAlloc hguard hmem ht hlist
      · cases ht

/-- **A step** keeps the invariant, and is one of the stacks. -/
theorem step {a : Act} {s' : Core} (hinv : Inv L s) (hstep : Step L a s s') :
    Inv L s' ∧ Threads.Step L a (threads L s) (threads L s') := by
  cases hstep with
  | @user s h hcode hpriv hintp hsie hothers hscratch hfp hmem =>
      have hpriv' : s.hart.priv = .user := hinv.priv.mpr hcode
      refine ⟨hinv.move hscratch hfp (hpriv.trans hpriv'.symm) hmem, ?_⟩
      rw [hinv.threads_move hmem]
      exact .user (s := threads L s) hpriv' hpriv hintp hsie hothers
  | @kernel s h hcode hpriv hscratch hfp hmem =>
      have hpriv' := hinv.supervisor hcode
      refine ⟨hinv.move hscratch hfp (hpriv.trans hpriv'.symm) hmem, ?_⟩
      rw [hinv.threads_move hmem]
      exact .kernel (s := threads L s) hpriv' hpriv
  | @advance s c hcode =>
      obtain ⟨p, l, hcur, hlist, -⟩ := hinv.traps.top_of_handler hcode
      have hc : c < nctxMax := hinv.lt_of_mem (p := p) (hlist ▸ List.mem_cons_self)
      refine ⟨hinv.store hc (by decide) (by decide) (by decide) _, ?_⟩
      rw [hinv.threads_store hlist (by decide) (savedRegs_store_sepc _)]
      have hleft : (threads L s).left p = savedRegs s.hart.mem (L.ctx c) :: l.map fun d =>
          savedRegs s.hart.mem (L.ctx d) := by
        show (s.traps.ctxList p).map _ = _
        rw [hlist, List.map_cons]
      exact .advance hcur hleft
  | @answer s c ret hcode =>
      obtain ⟨p, l, hcur, hlist, -⟩ := hinv.traps.top_of_handler hcode
      have hc : c < nctxMax := hinv.lt_of_mem (p := p) (hlist ▸ List.mem_cons_self)
      refine ⟨hinv.store hc (by decide) (by decide) (by decide) _, ?_⟩
      rw [hinv.threads_store hlist (by decide) (savedRegs_store_a0 _)]
      have hleft : (threads L s).left p = savedRegs s.hart.mem (L.ctx c) :: l.map fun d =>
          savedRegs s.hart.mem (L.ctx d) := by
        show (s.traps.ctxList p).map _ = _
        rw [hlist, List.map_cons]
      exact .answer ret hcur hleft
  | event ht hh => exact hinv.event ht hh

/-! ## The start -/

theorem start {harts : Nat} (hcore : syscore < harts) (hinit : trapsInit harts = .ok t)
    (hcur : h.mem L.cpusCurProc = L.curProcs) (hpriv : h.priv = .supervisor) : Inv L (startCore L t h) := by
  have htrap := TrapInv.init hcore hinit
  obtain ⟨-, hfixed⟩ := Traps.allocCpusContext_eq_ok hinit
  have hharts : t.harts = harts := by rw [hfixed]
  have hcode : t.code = .boot := by rw [hfixed]
  have hnone : t.curProc = none := by rw [hfixed]
  have hlists : t.ctxList = fun _ => [] := by rw [hfixed]
  have hprocs : t.procs = [] := by rw [hfixed]
  have hcpus : ((List.range t.harts).map t.cpusContext).Nodup := by
    have hnodup := htrap.contexts_nodup
    rw [Traps.contexts] at hnodup
    exact (List.nodup_append.mp (List.nodup_append.mp hnodup).1).2.1
  have hlt : ∀ i < t.harts, t.cpusContext i < nctxMax := by
    intro i hi
    refine List.mem_range.mp (htrap.conserved.mem_iff.mp ?_)
    rw [Traps.contexts]
    exact List.mem_append_left _ (List.mem_append_right _ (List.mem_map.mpr ⟨i, List.mem_range.mpr hi, rfl⟩))
  have hinj : ∀ i < t.harts, ∀ j < t.harts, t.cpusContext i = t.cpusContext j → i = j := by
    intro i hi j hj heq
    exact List.inj_on_of_nodup_map hcpus (List.mem_range.mpr hi) (List.mem_range.mpr hj) heq
  have hsup : (startCore L t h).hart.priv = .supervisor := initContexts_priv.trans hpriv
  have hnoproc : ∀ p, p ∉ (startCore L t h).traps.procs := by
    intro p hp
    rw [startCore, hprocs] at hp
    exact absurd hp List.not_mem_nil
  refine ⟨htrap, ?_, ?_, ?_, ?_, ?_, ?_, ?_, ?_, fun p hp => absurd hp (hnoproc p),
    fun p hp => absurd hp (hnoproc p)⟩
  · rw [startCore, Hart.csr_setCsr_self]
  · exact initContexts_hartid hlt hinj (hharts ▸ hcore)
  · intro c hc
    rw [startCore, hcode] at hc
    cases hc
  · intro p c hc
    rw [startCore, hlists] at hc
    exact absurd hc List.not_mem_nil
  · exact fun hne => absurd hnone hne
  · simp only [hsup]
    rw [startCore, hcode]
    simp
  · exact (initContexts_of_ne hlt L.curApart).trans hcur
  · intro p hp
    rw [startCore, hnone] at hp
    cases hp

/-! ## The trampolines -/

/-- Where an event can happen, the code for it does not fault. -/
theorem complete {e : TrapEvent} (hinv : Inv L s) (ht : trapStep s.traps e = .ok t)
    (hmem : ∀ p, e = .procAlloc p → p ∈ L.procs) :
    (e = .trap → ∀ cause target, trapTarget cause = some target → target ∈ handlers →
      ∃ h, HartStep L s t e h) ∧ (e ≠ .trap → s.hart.Masked → ∃ h, HartStep L s t e h) := by
  constructor
  · rintro rfl cause target htarget hhandler
    obtain ⟨p, x, l, hcur, -⟩ := Traps.prepareNestedTrap_eq_ok ht
    obtain ⟨h, hrun, -⟩ := hinv.entry hcur cause 0 0 target
    exact ⟨_, .trap htarget hhandler hrun⟩
  intro hne hm
  cases e with
  | trap => exact absurd rfl hne
  | exit =>
      simp only [trapStep] at ht
      split at ht
      next c hcode =>
        obtain ⟨p, l, -, hlist, -⟩ := hinv.traps.top_of_handler hcode
        have hres := (hinv.left p c (hlist ▸ List.mem_cons_self)).restorable
        have ha : (s.hart.set a0 (L.ctx c)).get a0 = L.ctx c := by
          rw [Hart.get_set, if_neg (by decide), if_pos rfl]
        obtain ⟨h, hrun, -⟩ := run_trapRet (h := s.hart.set a0 (L.ctx c)) hm ha (Layout.ctx_aligned c) hres
        exact ⟨h, .exit hcode hrun⟩
      next => cases ht
  | giveUp =>
      simp only [trapStep] at ht
      split at ht
      next d p hcode hcur =>
        obtain ⟨x, l, -, rfl⟩ := Traps.schedProcGiveUp_eq_ok ht
        have ha : ((s.hart.set a0 (L.ctx x)).set a1 0).get a0 = L.ctx x := by
          rw [Hart.get_set_of_ne _ (by decide), Hart.get_set, if_neg (by decide), if_pos rfl]
        have hfp := hinv.fpOn (by simp [hcur])
        obtain ⟨h, hrun, -⟩ := run_giveUp (h := (s.hart.set a0 (L.ctx x)).set a1 0) 0 hm hfp ha
          (Layout.ctx_aligned x)
        exact ⟨h, .giveUp hcur (Function.update_self ..) hrun⟩
      next => cases ht
  | schedProc => exact ⟨_, .schedProc⟩
  | dispatch p =>
      rw [trapStep] at ht
      split_ifs at ht with hguard
      obtain ⟨x, l, hlist, rfl⟩ := Traps.procRun_eq_ok ht
      have hx : x ∈ s.traps.ctxList p := hlist ▸ List.mem_cons_self
      have hres := restorable_load (p := p) (hinv.lt_of_mem hx) (hinv.left p x hx).restorable
      have ha : (((load L x p s.hart).set a0 (L.ctx x)).set a1 0).get a0 = L.ctx x := by
        rw [Hart.get_set_of_ne _ (by decide), Hart.get_set, if_neg (by decide), if_pos rfl]
      obtain ⟨h, hrun, -⟩ := run_trapRetSwitchAs (h := ((load L x p s.hart).set a0 (L.ctx x)).set a1 0) hm ha
        (Layout.ctx_aligned x) hres
      refine ⟨h, .dispatch 0 ?_⟩
      simp only [Function.update_self]
      exact hrun
  | procAlloc p =>
      have halloc : s.traps.procAlloc p = .ok t := by
        simp only [trapStep] at ht
        split at ht
        · split_ifs at ht
          exact ht
        · split_ifs at ht
          exact ht
        · cases ht
      obtain ⟨x, l, -, rfl⟩ := Traps.procReset_eq_ok halloc
      exact ⟨_, .procAlloc (hmem p rfl) (Function.update_self ..)⟩
  | procReset p =>
      simp only [trapStep] at ht
      split at ht
      · split_ifs at ht
        obtain ⟨x, l, -, rfl⟩ := Traps.procReset_eq_ok ht
        exact ⟨_, .procReset (Function.update_self ..)⟩
      · cases ht

end Inv

section Main

variable {harts : Nat} {as : List Act}

/-- Every state that is reached has the invariant, and its run is one of the stacks. -/
theorem run_refines (hcore : syscore < harts) (hinit : trapsInit harts = .ok t)
    (hcur : h.mem L.cpusCurProc = L.curProcs) (hpriv : h.priv = .supervisor)
    (hrun : Transitions (Step L) (startCore L t h) as s) :
    Inv L s ∧ Transitions (Threads.Step L) (threads L (startCore L t h)) as (threads L s) :=
  hrun.map (Inv.start hcore hinit hcur hpriv) fun _ _ _ hinv hstep => hinv.step hstep

/-- The boot hart with its memory at a reset. -/
def resetHart (L : Layout) : Hart where
  x _ := 0
  f _ := 0
  csr _ := 0
  pc := 0
  priv := .supervisor
  mem := Function.update (fun _ => 0) L.cpusCurProc L.curProcs

theorem resetHart_mem : (resetHart L).mem L.cpusCurProc = L.curProcs := by
  show Function.update (fun _ => (0 : Word)) L.cpusCurProc L.curProcs L.cpusCurProc = _
  rw [Function.update_self]

theorem masked_startCore (hm : h.Masked) : (startCore L t h).hart.Masked := by
  have hinit : ∀ n, (initContexts L t n h).Masked := by
    intro n
    induction n with
    | zero => exact hm
    | succ n ih => exact ih
  rw [startCore, Hart.masked_setCsr _ (by decide)]
  exact hinit _

/-- A process is allocated and dispatched, and its program is interrupted; its handler can be. -/
theorem small_run : ∃ t s, trapsInit 2 = .ok t ∧ (∃ c, s.traps.code = .handler c) ∧
    (∃ t', trapStep s.traps .trap = .ok t') ∧ Transitions (Step .small) (startCore .small t (resetHart .small))
      [.event (.procAlloc 1), .event .schedProc, .event (.dispatch 1), .event .trap] s := by
  have hcheck : ((trapsInit 2).bind fun t =>
      runEvents trapStep t [.procAlloc 1, .schedProc, .dispatch 1, .trap, .trap]).isOk = true := by
    decide +kernel
  obtain ⟨t₅, heq⟩ : ∃ t₅, (trapsInit 2).bind (fun t =>
      runEvents trapStep t [.procAlloc 1, .schedProc, .dispatch 1, .trap, .trap]) = .ok t₅ := by
    cases hrun : (trapsInit 2).bind fun t =>
        runEvents trapStep t [.procAlloc 1, .schedProc, .dispatch 1, .trap, .trap] with
    | ok t₅ => exact ⟨t₅, rfl⟩
    | error f =>
        rw [hrun] at hcheck
        cases hcheck
  obtain ⟨t, hinit, heq⟩ := except_bind_eq_ok.mp heq
  obtain ⟨t₁, halloc, heq⟩ := runEvents_cons_eq_ok.mp heq
  obtain ⟨t₂, hsched, heq⟩ := runEvents_cons_eq_ok.mp heq
  obtain ⟨t₃, hdispatch, heq⟩ := runEvents_cons_eq_ok.mp heq
  obtain ⟨t₄, htrap, heq⟩ := runEvents_cons_eq_ok.mp heq
  obtain ⟨t₅', htrap', -⟩ := runEvents_cons_eq_ok.mp heq
  have hinv := Inv.start (L := .small) (h := resetHart .small) (by decide) hinit resetHart_mem rfl
  -- the kernel has interrupts masked up to the dispatch
  obtain ⟨s₁, hs₁, hstep₁, hm₁⟩ : ∃ s₁ : Core, s₁.traps = t₁ ∧
      Step .small (.event (.procAlloc 1)) (startCore .small t (resetHart .small)) s₁ ∧ s₁.hart.Masked := by
    obtain ⟨-, hfixed⟩ := Traps.allocCpusContext_eq_ok hinit
    have hcode : t.code = .boot := by rw [hfixed]
    have halloc' := halloc
    simp only [trapStep, hcode] at halloc'
    split_ifs at halloc' with hguard
    obtain ⟨x, l, -, hres⟩ := Traps.procReset_eq_ok halloc'
    have hlist : t₁.ctxList 1 = [x] := by
      rw [hres]
      simp only [Function.update_self]
    refine ⟨⟨t₁, _⟩, rfl, .event halloc (.procAlloc (by decide) hlist), ?_⟩
    rw [masked_reset, Hart.masked_store]
    exact masked_startCore (by decide)
  subst hs₁
  obtain ⟨hinv₁, -⟩ := hinv.step hstep₁
  have hstep₂ : Step .small (.event .schedProc) s₁ ⟨t₂, s₁.hart⟩ := .event hsched .schedProc
  obtain ⟨hinv₂, -⟩ := hinv₁.step hstep₂
  obtain ⟨h₃, hh₃⟩ := (hinv₂.complete hdispatch (by simp)).2 (by simp) hm₁
  obtain ⟨hinv₃, -⟩ := hinv₂.event hdispatch hh₃
  obtain ⟨h₄, hh₄⟩ := (hinv₃.complete htrap (by simp)).1 rfl 8 .handleException rfl (by decide)
  obtain ⟨p, x, l, -, -, rfl⟩ := Traps.prepareNestedTrap_eq_ok htrap
  have hrun := ((Transitions.nil.snoc hstep₁).snoc hstep₂).snoc (.event hdispatch hh₃)
  exact ⟨t, _, hinit, ⟨_, rfl⟩, ⟨t₅', htrap'⟩, hrun.snoc (.event htrap hh₄)⟩

end Main

end Switching

end Jrinx
