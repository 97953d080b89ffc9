import Jrinx.Lib.Transitions
import Jrinx.Traps
import Jrinx.Trampoline

/-! # The hart across traps and switches

The contexts of `Traps` with the registers that `trampoline.S` saves in them.

* **`Layout`** — where the contexts are, and what the trampolines read besides.
* **`Core`**, **`Step`**, **`startCore`** — the hart with its memory, and the contexts as the C code handles
  them.
* **`Threads`**, **`Threads.Step`** — what it is for: each process has a stack of registers that its code left.
* **`threads`** — the stacks that are in the contexts. -/

namespace Jrinx

namespace Switching

open Rv64 Trampoline

/-- `sizeof(struct context)`: behind what is saved there are the links. -/
def ctxStride : Nat := ptCtxSize + 2 * rvXlen

/-- The identifier of the hart. -/
def hartid : Word := BitVec.ofNat 64 syscore

/-! ## Memory -/

/-- Addresses: `traps_context`, the variable `cpus_cur_proc`, the array that it points to, and the processes
that get memory, which begin with `tf_xstacktop`; and what does not change in a process. -/
structure Places where
  procs : List ProcId
  trapsContext : Word
  cpusCurProc : Word
  curProcs : Word
  procAddr : ProcId → Word
  entrypoint : ProcId → Word
  ustacktop : ProcId → Word
  xstacktop : ProcId → Word

namespace Places

variable (L : Places)

/-- `&traps_context[c]`. -/
def ctx (c : Ctx) : Word := L.trapsContext + BitVec.ofNat 64 (ctxStride * c)

/-- `&cpus_cur_proc[hrt_get_id()]`. -/
def slot : Word := L.curProcs + (hartid <<< 3)

def InContext (a : Word) : Prop := ∃ c < nctxMax, ∃ n < ctxStride, a = effective (L.ctx c) n

/-- What only the code of this model writes. -/
def Kept (a : Word) : Prop :=
  (∃ c < nctxMax, ∃ n < ptCtxSize, a = effective (L.ctx c) n) ∨ a = L.cpusCurProc ∨ a = L.slot ∨
    ∃ p ∈ L.procs, a = L.procAddr p

end Places

namespace Places

variable {L : Places} {c : Ctx} {n : Nat}

theorem toNat_cell (hfits : L.trapsContext.toNat + ctxStride * nctxMax ≤ 2 ^ 64) (hc : c < nctxMax)
    (hn : n < ctxStride) : (effective (L.ctx c) n).toNat = L.trapsContext.toNat + (ctxStride * c + n) := by
  have hle : ctxStride * c + ctxStride ≤ ctxStride * nctxMax := by
    rw [← Nat.mul_succ]
    exact Nat.mul_le_mul_left _ hc
  have hlt := L.trapsContext.isLt
  rw [effective, Places.ctx, BitVec.toNat_add, BitVec.toNat_add, BitVec.toNat_ofNat, BitVec.toNat_ofNat]
  omega

theorem not_inContext_of_lt (hfits : L.trapsContext.toNat + ctxStride * nctxMax ≤ 2 ^ 64) {a : Word}
    (ha : a.toNat < L.trapsContext.toNat) : ¬ L.InContext a := by
  rintro ⟨c, hc, n, hn, rfl⟩
  rw [toNat_cell hfits hc hn] at ha
  omega

end Places

/-- Objects that do not overlap. -/
structure Layout extends Places where
  fits : trapsContext.toNat + ctxStride * nctxMax ≤ 2 ^ 64
  ctxAligned : IsAligned trapsContext
  curAligned : IsAligned cpusCurProc
  slotAligned : IsAligned toPlaces.slot
  procAligned : ∀ p ∈ procs, IsAligned (procAddr p)
  curApart : ¬ toPlaces.InContext cpusCurProc
  slotApart : ¬ toPlaces.InContext toPlaces.slot
  procApart : ∀ p ∈ procs, ¬ toPlaces.InContext (procAddr p)
  slotNe : toPlaces.slot ≠ cpusCurProc
  procNe : ∀ p ∈ procs, procAddr p ≠ cpusCurProc ∧ procAddr p ≠ toPlaces.slot
  procInj : ∀ p ∈ procs, ∀ q ∈ procs, procAddr p = procAddr q → p = q

namespace Layout

variable {L : Layout} {c d : Ctx} {m n : Nat}

/-- Contexts do not overlap. -/
theorem cell_inj (hc : c < nctxMax) (hd : d < nctxMax) (hm : m < ctxStride) (hn : n < ctxStride)
    (heq : effective (L.ctx c) m = effective (L.ctx d) n) : c = d ∧ m = n := by
  have hnat := congrArg BitVec.toNat heq
  rw [Places.toNat_cell L.fits hc hm, Places.toNat_cell L.fits hd hn] at hnat
  have hsum : ctxStride * c + m = ctxStride * d + n := by omega
  have hdiv := congrArg (· / ctxStride) hsum
  have hmod := congrArg (· % ctxStride) hsum
  simp only [Nat.mul_add_div (show 0 < ctxStride by decide), Nat.div_eq_of_lt hm, Nat.div_eq_of_lt hn,
    Nat.add_zero] at hdiv
  simp only [Nat.mul_add_mod, Nat.mod_eq_of_lt hm, Nat.mod_eq_of_lt hn] at hmod
  exact ⟨hdiv, hmod⟩

theorem ctx_aligned (c : Ctx) : IsAligned (L.ctx c) := by
  have hstride : (ctxStride * c) % 8 = 0 := by
    show (8 * 72 * c) % 8 = 0
    rw [Nat.mul_assoc]
    exact Nat.mul_mod_right 8 _
  exact aligned_effective L.ctxAligned hstride

theorem cell_kept (hc : c < nctxMax) (hn : n < ptCtxSize) : L.Kept (effective (L.ctx c) n) :=
  .inl ⟨c, hc, n, hn, rfl⟩

/-- A small image, with memory for two processes. -/
def smallPlaces : Places where
  procs := [1, 2]
  trapsContext := 0x80000
  cpusCurProc := 0x1000
  curProcs := 0x2000
  procAddr p := BitVec.ofNat 64 (0x4000 + 0x100 * p)
  entrypoint _ := 0x10000
  ustacktop _ := 0x3f000000
  xstacktop p := BitVec.ofNat 64 (0x8000 + 0x1000 * p)

def small : Layout where
  toPlaces := smallPlaces
  fits := by decide
  ctxAligned := by decide
  curAligned := by decide
  slotAligned := by decide
  procAligned := by decide
  curApart := Places.not_inContext_of_lt (by decide) (by decide)
  slotApart := Places.not_inContext_of_lt (by decide) (by decide)
  procApart p hp := by
    have hlt : ∀ p ∈ smallPlaces.procs, (smallPlaces.procAddr p).toNat < smallPlaces.trapsContext.toNat := by
      decide
    exact Places.not_inContext_of_lt (by decide) (hlt p hp)
  slotNe := by decide
  procNe := by decide
  procInj := by decide

end Layout

/-! ## The hart -/

/-- The contexts, and the hart with its memory. -/
structure Core where
  traps : Traps
  hart : Hart

/-- The entry of `trap_vec` for a cause. -/
def trapTarget (cause : Word) : Option Target :=
  if cause.getLsbD 63 then trapVec[(setBit cause 63 false).toNat]? else some .handleException

/-- The handlers that do not stop the system. -/
def handlers : List Target := [.handleException, .handleIntTimer, .handleIntExternal]

/-- `sie` and `sstatus` of a process that starts: all interrupts, and `fs`, `spie` and `sum`. -/
def startSie : Word := 0x222
def startSstatus : Word := 0x42020

section Code

variable (L : Layout) (c : Ctx) (p : ProcId) (h : Hart)

/-- The end of `prepare_nested_trap`. -/
def prepare : Hart := (h.store (effective (L.ctx c) ptHartid) hartid).setCsr .sscratch (L.ctx c)

/-- `cpus_cur_proc` and `ctx_hartid`, in `sched_proc` and `proc_run`. -/
def load : Hart := (h.store L.slot (L.procAddr p)).store (effective (L.ctx c) ptHartid) hartid

/-- `memset` of a context. -/
def clear : Hart := { h with mem := fun a => if (a - L.ctx c).toNat < ctxStride then 0 else h.mem a }

/-- The context of a process in `proc_reset`. -/
def reset : Hart :=
  (((((clear L c h).store (effective (L.ctx c) ptSepc) (L.entrypoint p)).store
    (effective (L.ctx c) ptHartid) (-1)).store (effective (L.ctx c) ptSie) startSie).store
    (effective (L.ctx c) ptSstatus) startSstatus).store (effective (L.ctx c) (ptReg sp)) (L.ustacktop p)

end Code

/-- What an event does to the hart, when `t` are the contexts after it. -/
inductive HartStep (L : Layout) (s : Core) (t : Traps) : TrapEvent → Hart → Prop
  | trap {cause tval ret : Word} {target : Target} {h : Hart} : trapTarget cause = some target →
      target ∈ handlers →
      run (trapHandler L.cpusCurProc target ret) 0 (s.hart.takeTrap cause tval) = some (.called target, h) →
      HartStep L s t .trap (prepare L (t.cpusContext syscore) h)
  | exit {c : Ctx} {h : Hart} : s.traps.code = .handler c →
      run trapRet 0 (s.hart.set a0 (L.ctx c)) = some (.returned, h) →
      HartStep L s t .exit h
  | giveUp {p : ProcId} {c : Ctx} {l : List Ctx} {roundRobin ret : Word} {h : Hart} :
      s.traps.curProc = some p → t.ctxList p = c :: l →
      run (giveUp ret) 0 ((s.hart.set a0 (L.ctx c)).set a1 roundRobin) = some (.called .schedProc, h) →
      HartStep L s t .giveUp h
  | schedProc : HartStep L s t .schedProc s.hart
  | dispatch {p : ProcId} (satp : Word) {h : Hart} :
      run trapRetSwitchAs 0
        (((load L (t.cpusContext syscore) p s.hart).set a0 (L.ctx (t.cpusContext syscore))).set a1 satp) =
          some (.returned, h) →
      HartStep L s t (.dispatch p) h
  | procReset {p : ProcId} {c : Ctx} : t.ctxList p = [c] → HartStep L s t (.procReset p) (reset L c p s.hart)
  | procAlloc {p : ProcId} {c : Ctx} : p ∈ L.procs → t.ctxList p = [c] →
      HartStep L s t (.procAlloc p) (reset L c p (s.hart.store (L.procAddr p) (L.xstacktop p)))

/-- What happens. -/
inductive Act where
  /-- A program runs. -/
  | user
  /-- The kernel runs. -/
  | kernel
  /-- `ctx_sepc += sizeof(uint32_t)`. -/
  | advance
  /-- `ctx_regs.names.a0 = ret`. -/
  | answer (ret : Word)
  | event (e : TrapEvent)

/-- **The steps**: of a program, of the code of the kernel, of `do_syscall` on its context, and those that move
contexts. -/
inductive Step (L : Layout) : Act → Core → Core → Prop
  | user {s : Core} {h : Hart} : s.traps.code = .user → h.priv = .user → h.intp = s.hart.intp →
      h.csr .sie = s.hart.csr .sie → others (h.csr .sstatus) = others (s.hart.csr .sstatus) →
      h.csr .sscratch = s.hart.csr .sscratch → h.fpOn = s.hart.fpOn →
      (∀ a, L.Kept a → h.mem a = s.hart.mem a) → Step L .user s ⟨s.traps, h⟩
  | kernel {s : Core} {h : Hart} : s.traps.code ≠ .user → h.priv = .supervisor →
      h.csr .sscratch = s.hart.csr .sscratch → h.fpOn = s.hart.fpOn →
      (∀ a, L.Kept a → h.mem a = s.hart.mem a) → Step L .kernel s ⟨s.traps, h⟩
  | advance {s : Core} {c : Ctx} : s.traps.code = .handler c →
      Step L .advance s
        ⟨s.traps, s.hart.store (effective (L.ctx c) ptSepc) (s.hart.mem (effective (L.ctx c) ptSepc) + 4)⟩
  | answer {s : Core} {c : Ctx} (ret : Word) : s.traps.code = .handler c →
      Step L (.answer ret) s ⟨s.traps, s.hart.store (effective (L.ctx c) (ptReg a0)) ret⟩
  | event {s : Core} {t : Traps} {e : TrapEvent} {h : Hart} : trapStep s.traps e = .ok t → HartStep L s t e h →
      Step L (.event e) s ⟨t, h⟩

/-! ## At the start -/

/-- `traps_init` for the first `n` harts. -/
def initContexts (L : Layout) (t : Traps) : Nat → Hart → Hart
  | 0, h => h
  | n + 1, h =>
      (clear L (t.cpusContext n) (initContexts L t n h)).store
        (effective (L.ctx (t.cpusContext n)) ptHartid) (BitVec.ofNat 64 n)

/-- `traps_init` and `trap_init_vec`. -/
def startCore (L : Layout) (t : Traps) (h : Hart) : Core where
  traps := t
  hart := (initContexts L t t.harts h).setCsr .sscratch (L.ctx (t.cpusContext syscore))

/-! ## Stacks of registers -/

/-- **The purpose**: the registers of the running code, and for each process what its code has left, the
innermost first. -/
structure Threads where
  regs : Regs
  curProc : Option ProcId
  left : ProcId → List Regs

namespace Threads

/-- The registers that a process starts with. -/
def start (L : Layout) (p : ProcId) : Regs where
  x := Function.update (fun _ => 0) sp (L.ustacktop p)
  f := fun _ => 0
  pc := L.entrypoint p
  priv := .user
  intp := true
  sie := startSie
  status := others startSstatus

/-- Code leaves its registers, and finds them again on top. -/
inductive Step (L : Layout) : Act → Threads → Threads → Prop
  | user {s : Threads} {r : Regs} : s.regs.priv = .user → r.priv = .user → r.intp = s.regs.intp →
      r.sie = s.regs.sie → r.status = s.regs.status → Step L .user s { s with regs := r }
  | kernel {s : Threads} {r : Regs} : s.regs.priv = .supervisor → r.priv = .supervisor →
      Step L .kernel s { s with regs := r }
  | advance {s : Threads} {p : ProcId} {r : Regs} {l : List Regs} : s.curProc = some p → s.left p = r :: l →
      Step L .advance s { s with left := Function.update s.left p ({ r with pc := r.pc + 4 } :: l) }
  | answer {s : Threads} {p : ProcId} {r : Regs} {l : List Regs} (ret : Word) : s.curProc = some p →
      s.left p = r :: l →
      Step L (.answer ret) s
        { s with left := Function.update s.left p ({ r with x := Function.update r.x a0 ret } :: l) }
  /-- The handler is on the stack of the process, or on that of the handler it interrupts. -/
  | trap {s : Threads} {p : ProcId} {r : Regs} : s.curProc = some p → r.priv = .supervisor → r.intp = false →
      r.sie = s.regs.sie → r.status = s.regs.status → r.x tp = hartid →
      r.x sp = (if s.regs.priv = .user then L.xstacktop p else s.regs.x sp) →
      Step L (.event .trap) s { s with regs := r, left := Function.update s.left p (s.regs :: s.left p) }
  | exit {s : Threads} {p : ProcId} {r : Regs} {l : List Regs} : s.curProc = some p →
      s.regs.priv = .supervisor → s.left p = r :: l →
      Step L (.event .exit) s { s with regs := r, left := Function.update s.left p l }
  /-- The call comes back, with anything in the registers of its arguments. -/
  | giveUp {s : Threads} {p : ProcId} {r : Regs} (v w : Word) : s.curProc = some p →
      s.regs.priv = .supervisor → r.priv = .supervisor →
      Step L (.event .giveUp) s { s with
        regs := r
        left := Function.update s.left p
          ({ s.regs with
            x := Function.update (Function.update s.regs.x a1 w) a0 v
            pc := s.regs.x ra } :: s.left p) }
  | schedProc {s : Threads} : s.regs.priv = .supervisor → Step L (.event .schedProc) s s
  | dispatch {s : Threads} {p : ProcId} {r : Regs} {l : List Regs} : s.regs.priv = .supervisor →
      s.left p = r :: l →
      Step L (.event (.dispatch p)) s
        { s with regs := r, curProc := some p, left := Function.update s.left p l }
  | procAlloc {s : Threads} {p : ProcId} : s.curProc ≠ some p →
      Step L (.event (.procAlloc p)) s { s with left := Function.update s.left p [start L p] }
  | procReset {s : Threads} {p : ProcId} : s.curProc ≠ some p →
      Step L (.event (.procReset p)) s { s with left := Function.update s.left p [start L p] }

end Threads

/-- The stacks that are in the contexts. -/
def threads (L : Layout) (s : Core) : Threads where
  regs := s.hart.regs
  curProc := s.traps.curProc
  left p := (s.traps.ctxList p).map fun c => savedRegs s.hart.mem (L.ctx c)

/-- A step is one of the stacks when they are right in the end. -/
theorem Threads.Step.of_left {L : Layout} {a : Act} {u : Threads} {t : Traps} {h : Hart}
    {left : ProcId → List Regs} (hleft : (fun p => (t.ctxList p).map fun c => savedRegs h.mem (L.ctx c)) = left)
    (hstep : Threads.Step L a u ⟨h.regs, t.curProc, left⟩) : Threads.Step L a u (threads L ⟨t, h⟩) := by
  have heq : threads L ⟨t, h⟩ = ⟨h.regs, t.curProc, left⟩ := congrArg (Threads.mk h.regs t.curProc) hleft
  rw [heq]
  exact hstep

/-! ## Memory after each piece of code -/

variable {L : Layout} {t : Traps} {h : Hart} {c d : Ctx} {p : ProcId}

/-- A word of a context that is not written. -/
theorem prepare_mem {x : Ctx} {b : Word} (hb : b ≠ effective (L.ctx x) ptHartid) :
    (prepare L x h).mem b = h.mem b := by
  rw [prepare, Hart.mem_setCsr, Hart.mem_store, Function.update_of_ne hb]

theorem load_cell {n : Nat} (hd : d < nctxMax) (hn : n < ptCtxSize)
    (hne : effective (L.ctx d) n ≠ effective (L.ctx c) ptHartid) :
    (load L c p h).mem (effective (L.ctx d) n) = h.mem (effective (L.ctx d) n) := by
  have hslot : effective (L.ctx d) n ≠ L.slot :=
    fun heq => L.slotApart (heq ▸ ⟨d, hd, n, lt_trans hn (by decide), rfl⟩)
  rw [load, Hart.mem_store, Function.update_of_ne hne, Hart.mem_store, Function.update_of_ne hslot]

theorem restorable_load (hc : c < nctxMax) (hres : Restorable h.mem (L.ctx c)) :
    Restorable (load L c p h).mem (L.ctx c) := by
  have hne : effective (L.ctx c) ptSstatus ≠ effective (L.ctx c) ptHartid := by
    rw [Ne, effective_inj (by simp) (by simp)]
    decide
  have hstatus := load_cell (p := p) (h := h) hc (by decide) hne
  refine ⟨?_, ?_⟩
  · rw [hstatus]
    exact hres.masked
  · rw [hstatus]
    exact hres.fpOn

theorem load_out (hc : c < nctxMax) {b : Word} (hb : ¬ L.InContext b) (hne : b ≠ L.slot) :
    (load L c p h).mem b = h.mem b := by
  have hcell : b ≠ effective (L.ctx c) ptHartid := fun heq => hb ⟨c, hc, _, by decide, heq⟩
  rw [load, Hart.mem_store, Function.update_of_ne hcell, Hart.mem_store, Function.update_of_ne hne]

theorem clear_cell {n : Nat} (hn : n < ctxStride) :
    (clear L c h).mem (effective (L.ctx c) n) = 0 := by
  have hoff : effective (L.ctx c) n - L.ctx c = BitVec.ofNat 64 n := by
    rw [effective, BitVec.add_comm, BitVec.add_sub_cancel]
  have hlt : n < 2 ^ 64 := lt_trans hn (by decide)
  show (if _ then _ else _) = _
  rw [hoff, BitVec.toNat_ofNat, Nat.mod_eq_of_lt hlt, if_pos hn]

theorem clear_of_ne {b : Word} (hb : ∀ n < ctxStride, b ≠ effective (L.ctx c) n) :
    (clear L c h).mem b = h.mem b := by
  show (if _ then _ else _) = _
  refine if_neg fun hlt => hb _ hlt ?_
  rw [effective, BitVec.ofNat_toNat, BitVec.setWidth_eq, BitVec.add_comm, BitVec.sub_add_cancel]

/-- Only the context is written. -/
theorem reset_of_ne {b : Word} (hb : ∀ n < ctxStride, b ≠ effective (L.ctx c) n) :
    (reset L c p h).mem b = h.mem b := by
  have hne : ∀ n < ctxStride, ∀ (g : Hart) v, (g.store (effective (L.ctx c) n) v).mem b = g.mem b := by
    intro n hn g v
    rw [Hart.mem_store, Function.update_of_ne (hb n hn)]
  rw [reset, hne _ (by decide), hne _ (by decide), hne _ (by decide), hne _ (by decide), hne _ (by decide),
    clear_of_ne hb]

/-- What is in the first context of a process. -/
theorem reset_cell {n : Nat} (hn : n < ctxStride) :
    (reset L c p h).mem (effective (L.ctx c) n) = if n = ptReg sp then L.ustacktop p
      else if n = ptSstatus then startSstatus else if n = ptSie then startSie
      else if n = ptHartid then -1 else if n = ptSepc then L.entrypoint p else 0 := by
  have hcell : ∀ m < ctxStride, ∀ (g : Hart) v,
      (g.store (effective (L.ctx c) m) v).mem (effective (L.ctx c) n) =
        if n = m then v else g.mem (effective (L.ctx c) n) := by
    intro m hm g v
    have hinj := effective_inj (a := L.ctx c) (lt_trans hn (by decide)) (lt_trans hm (by decide))
    rw [Hart.mem_store, Function.update_apply]
    simp only [hinj]
  rw [reset, hcell _ (by decide), hcell _ (by decide), hcell _ (by decide), hcell _ (by decide),
    hcell _ (by decide), clear_cell hn]

theorem savedRegs_reset : savedRegs (reset L c p h).mem (L.ctx c) = Threads.start L p := by
  have hlt : ∀ n < 560, n < ctxStride := fun n hn => lt_trans hn (by decide)
  have hx : (fun r => if r = 0 then 0 else (reset L c p h).mem (effective (L.ctx c) (ptReg r))) =
      Function.update (fun _ => 0) sp (L.ustacktop p) := by
    funext r
    have hr := ptReg_lt r
    have hne : ∀ n, 256 ≤ n → ptReg r ≠ n := fun n hn => (lt_of_lt_of_le hr hn).ne
    rw [reset_cell (hlt _ (by omega)), Function.update_apply]
    by_cases hsp : r = sp
    · rw [hsp]
      rfl
    · have hreg : ptReg r ≠ ptReg sp := fun heq => hsp (Fin.ext (by rw [ptReg_eq, ptReg_eq] at heq; omega))
      rw [if_neg hreg, if_neg hsp, if_neg (hne _ (by decide)), if_neg (hne _ (by decide)),
        if_neg (hne _ (by decide)), if_neg (hne _ (by decide)), ite_self]
  have hf : (fun r => (reset L c p h).mem (effective (L.ctx c) (ptFreg r))) = fun _ => 0 := by
    funext r
    have hr := r.isLt
    have hlo : ptFreg r ≠ ptReg sp := by rw [ptFreg_eq, ptReg_eq]; omega
    have hne : ∀ n, 512 ≤ n → ptFreg r ≠ n := fun n hn => by rw [ptFreg_eq]; omega
    rw [reset_cell (hlt _ (by rw [ptFreg_eq]; omega)), if_neg hlo, if_neg (hne _ (by decide)),
      if_neg (hne _ (by decide)), if_neg (hne _ (by decide)), if_neg (hne _ (by decide))]
  have hpc : (reset L c p h).mem (effective (L.ctx c) ptSepc) = L.entrypoint p := reset_cell (by decide)
  have hsie : (reset L c p h).mem (effective (L.ctx c) ptSie) = startSie := reset_cell (by decide)
  have hstatus : (reset L c p h).mem (effective (L.ctx c) ptSstatus) = startSstatus := reset_cell (by decide)
  rw [savedRegs, hx, hf, hpc, hsie, hstatus]
  rfl

theorem csr_reset : (reset L c p h).csr = h.csr := by
  rw [reset, Hart.csr_store, Hart.csr_store, Hart.csr_store, Hart.csr_store, Hart.csr_store]
  rfl

theorem masked_reset : (reset L c p h).Masked ↔ h.Masked := by
  rw [reset, Hart.masked_store, Hart.masked_store, Hart.masked_store, Hart.masked_store, Hart.masked_store]
  rfl

theorem priv_reset : (reset L c p h).priv = h.priv := by
  rw [reset, Hart.priv_store, Hart.priv_store, Hart.priv_store, Hart.priv_store, Hart.priv_store]
  rfl

theorem regs_reset : (reset L c p h).regs = h.regs := by
  rw [reset, Hart.regs_store, Hart.regs_store, Hart.regs_store, Hart.regs_store, Hart.regs_store]
  rfl

theorem initContexts_of_ne {n : Nat} {b : Word} (hlt : ∀ i < n, t.cpusContext i < nctxMax)
    (hb : ¬ L.InContext b) : (initContexts L t n h).mem b = h.mem b := by
  induction n with
  | zero => rfl
  | succ n ih =>
      have hne : ∀ m < ctxStride, b ≠ effective (L.ctx (t.cpusContext n)) m :=
        fun m hm heq => hb ⟨_, hlt n (Nat.lt_succ_self n), m, hm, heq⟩
      rw [initContexts, Hart.mem_store, Function.update_of_ne (hne _ (by decide)), clear_of_ne hne]
      exact ih fun i hi => hlt i (Nat.lt_succ_of_lt hi)

/-- Every context of a hart has its name, as they are not the same. -/
theorem initContexts_hartid {n i : Nat} (hlt : ∀ i < n, t.cpusContext i < nctxMax)
    (hne : ∀ i < n, ∀ j < n, t.cpusContext i = t.cpusContext j → i = j) (hi : i < n) :
    (initContexts L t n h).mem (effective (L.ctx (t.cpusContext i)) ptHartid) = BitVec.ofNat 64 i := by
  induction n with
  | zero => exact absurd hi (Nat.not_lt_zero i)
  | succ n ih =>
      rw [initContexts, Hart.mem_store]
      by_cases hin : i = n
      · rw [hin, Function.update_self]
      · have hapart : ∀ m < ctxStride, effective (L.ctx (t.cpusContext i)) ptHartid ≠
            effective (L.ctx (t.cpusContext n)) m := by
          intro m hm heq
          have hcells := Layout.cell_inj (hlt i hi) (hlt n (Nat.lt_succ_self n)) (by decide) hm heq
          exact hin (hne i hi n (Nat.lt_succ_self n) hcells.1)
        rw [Function.update_of_ne (hapart _ (by decide)), clear_of_ne hapart]
        exact ih (fun j hj => hlt j (Nat.lt_succ_of_lt hj))
          (fun j hj k hk => hne j (Nat.lt_succ_of_lt hj) k (Nat.lt_succ_of_lt hk)) (by omega)

theorem initContexts_priv {n : Nat} : (initContexts L t n h).priv = h.priv := by
  induction n with
  | zero => rfl
  | succ n ih => exact ih

end Switching

end Jrinx
