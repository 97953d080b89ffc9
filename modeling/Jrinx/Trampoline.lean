import Jrinx.Lib.Rv64

/-! # The trampolines

`kern/traps/trampoline.S`: the entry to a trap, the way back, and the switch in `sched_proc_give_up`. All of it
runs with interrupts masked.

* **`trapVec`**, **`trapHandler`**, **`trapRet`**, **`trapRetSwitchAs`**, **`giveUp`** — the code.
* **`savedRegs`** — the registers in a context.
* **`run_trapHandler`**, **`run_trapRet`**, **`run_trapRetSwitchAs`**, **`run_giveUp`** — what it does. -/

namespace Jrinx

namespace Trampoline

open Rv64

/-! ## Names -/

abbrev ra : Reg := 1
abbrev sp : Reg := 2
abbrev tp : Reg := 4
abbrev t0 : Reg := 5
abbrev t1 : Reg := 6
abbrev t2 : Reg := 7
abbrev a0 : Reg := 10
abbrev a1 : Reg := 11

def rvXlen : Nat := 8

/-- `PT_REG0` and the others. -/
def ptReg (r : Reg) : Nat := rvXlen * r

/-- `PT_FREG0` and the others. -/
def ptFreg (r : Reg) : Nat := ptReg 31 + rvXlen + rvXlen * r

def ptSstatus : Nat := ptFreg 31 + rvXlen
def ptScause : Nat := ptSstatus + rvXlen
def ptSie : Nat := ptScause + rvXlen
def ptStval : Nat := ptSie + rvXlen
def ptSepc : Nat := ptStval + rvXlen
def ptHartid : Nat := ptSepc + rvXlen
def ptCtxSize : Nat := ptHartid + rvXlen

theorem ptReg_eq (r : Reg) : ptReg r = 8 * r := rfl

theorem ptFreg_eq (r : Reg) : ptFreg r = 256 + 8 * r := rfl

@[simp] theorem ptReg_a0 : ptReg a0 = 80 := rfl

@[simp] theorem ptSstatus_eq : ptSstatus = 512 := rfl

@[simp] theorem ptScause_eq : ptScause = 520 := rfl

@[simp] theorem ptSie_eq : ptSie = 528 := rfl

@[simp] theorem ptStval_eq : ptStval = 536 := rfl

@[simp] theorem ptSepc_eq : ptSepc = 544 := rfl

@[simp] theorem ptHartid_eq : ptHartid = 552 := rfl

/-- The targets of `call`. -/
inductive Target where
  | handleException
  | handleIntSoftware
  | handleIntTimer
  | handleIntExternal
  | handleIntReserved
  | schedProc
  deriving DecidableEq, Repr

/-! ## The code -/

/-- `SAVE_REGS`. -/
def saveRegs : List Insn :=
  ((List.finRange 32).filter (· ≠ a0)).map (fun r => .sd r (ptReg r) a0) ++
    (List.finRange 32).map fun r => .fsd r (ptFreg r) a0

/-- `RESTORE_REGS`. -/
def restoreRegs : List Insn :=
  ((List.finRange 32).filter fun r => r ≠ 0 ∧ r ≠ a0).map (fun r => .ld r (ptReg r) a0) ++
    (List.finRange 32).map fun r => .fld r (ptFreg r) a0

/-- `BUILD_TRAP_HANDLER`, behind `SAVE_REGS` and up to the test of `SPP`. -/
def saveCsrs : List Insn :=
  [.csrr t0 .sscratch, .sd t0 (ptReg a0) a0,
    .csrr t0 .sepc, .sd t0 ptSepc a0,
    .csrr t0 .stval, .sd t0 ptStval a0,
    .csrr t0 .sie, .sd t0 ptSie a0,
    .csrr t0 .scause, .sd t0 ptScause a0,
    .csrr t0 .sstatus, .sd t0 ptSstatus a0,
    .ld tp ptHartid a0,
    .andi t0 t0 (1#64 <<< 8)]

def trapEntry : List Insn := .csrrw a0 .sscratch a0 :: saveRegs ++ saveCsrs

/-- The stack of the process, from `cpus_cur_proc` at this address. -/
def loadXstack (cpusCurProc : Word) : List Insn :=
  [.ldSym t0 cpusCurProc, .slli t1 tp 3, .add t1 t0 t1, .ld t1 0 t1, .ld sp 0 t1]

def trapHandler (cpusCurProc : Word) (target : Target) (ret : Word) : List (Instr Target) :=
  trapEntry.map .op ++ .bnez t0 (loadXstack cpusCurProc).length ::
    ((loadXstack cpusCurProc).map .op ++ [.call target ret])

/-- `trap_vec`, by what its entries jump to. -/
def trapVec : List Target :=
  [.handleException, .handleIntSoftware, .handleIntReserved, .handleIntReserved, .handleIntReserved,
    .handleIntTimer, .handleIntReserved, .handleIntReserved, .handleIntReserved, .handleIntExternal,
    .handleIntReserved]

/-- `trap_ret`, up to `RESTORE_REGS`. -/
def loadCsrs : List Insn :=
  [.ld t0 ptSstatus a0, .csrw .sstatus t0,
    .ld t0 ptSie a0, .csrw .sie t0,
    .ld t0 ptStval a0, .csrw .stval t0,
    .ld t0 ptSepc a0, .csrw .sepc t0,
    .ld t0 (ptReg a0) a0, .csrw .sscratch t0]

def trapRet : List (Instr Target) :=
  (loadCsrs ++ (restoreRegs ++ [Insn.csrrw a0 .sscratch a0])).map .op ++ [.sret]

/-- The bit that is cleared in `sstatus` is 2, not that of `SIE`. -/
def switchAs : List Insn :=
  [.csrr t0 .sstatus, .andi t0 t0 (~~~(1#64 <<< 2)), .csrw .sstatus t0,
    .srli t0 a1 44, .li t1 0xffff, .and t0 t0 t1, .csrw .satp a1, .sfenceVma 0 t0]

def trapRetSwitchAs : List (Instr Target) := switchAs.map .op ++ trapRet

/-- `_sched_proc_give_up`, behind `SAVE_REGS` and up to its call. -/
def saveCaller : List Insn :=
  [.sd ra ptSepc a0,
    .csrr t0 .stval, .sd t0 ptStval a0,
    .csrr t0 .sie, .sd t0 ptSie a0,
    .csrr t0 .scause, .sd t0 ptScause a0,
    .csrr t0 .sstatus, .andi t1 t0 (1#64 <<< 1), .andi t2 t0 (~~~(1#64 <<< 5)), .slli t1 t1 4,
    .or t2 t2 t1, .ori t0 t2 (1#64 <<< 8), .sd t0 ptSstatus a0,
    .sd tp ptHartid a0,
    .mv a0 a1]

def giveUp (ret : Word) : List (Instr Target) := (saveRegs ++ saveCaller).map .op ++ [.call .schedProc ret]

/-! ## Contexts -/

/-- The registers in the context at `a`. -/
def savedRegs (mem : Word → Word) (a : Word) : Regs where
  x r := if r = 0 then 0 else mem (effective a (ptReg r))
  f r := mem (effective a (ptFreg r))
  pc := mem (effective a ptSepc)
  priv := if (mem (effective a ptSstatus)).getLsbD 8 then .supervisor else .user
  intp := (mem (effective a ptSstatus)).getLsbD 5
  sie := mem (effective a ptSie)
  status := others (mem (effective a ptSstatus))

/-- A context that can be restored: its `sstatus` masks the interrupts, and has the floating-point unit on. -/
structure Restorable (mem : Word → Word) (a : Word) : Prop where
  masked : (mem (effective a ptSstatus)).getLsbD 1 = false
  fpOn : (mem (effective a ptSstatus)).getLsbD 13 = true ∨ (mem (effective a ptSstatus)).getLsbD 14 = true

variable {h : Hart} {a : Word} {mem mem' : Word → Word}

@[simp] theorem ptReg_lt (r : Reg) : ptReg r < 256 := by
  have hr := r.isLt
  simp only [ptReg, rvXlen]
  omega

theorem ptReg_injective (a : Word) : Function.Injective fun r => effective a (ptReg r) := by
  intro r s hrs
  have hr := ptReg_lt r
  have hs := ptReg_lt s
  have heq := (effective_inj (by omega) (by omega)).mp hrs
  rw [ptReg_eq, ptReg_eq] at heq
  exact Fin.ext (by omega)

theorem ptFreg_injective (a : Word) : Function.Injective fun r => effective a (ptFreg r) := by
  intro r s hrs
  have hr := r.isLt
  have hs := s.isLt
  simp only [ptFreg_eq] at hrs
  have heq := (effective_inj (by omega) (by omega)).mp hrs
  exact Fin.ext (by omega)

theorem savedRegs_congr (hsame : ∀ n < ptHartid, mem' (effective a n) = mem (effective a n)) :
    savedRegs mem' a = savedRegs mem a := by
  have hx : ∀ r, mem' (effective a (ptReg r)) = mem (effective a (ptReg r)) := fun r =>
    hsame _ (Nat.lt_trans (ptReg_lt r) (by decide))
  have hf : ∀ r, mem' (effective a (ptFreg r)) = mem (effective a (ptFreg r)) := fun r =>
    hsame _ (by have hr := r.isLt; rw [ptFreg_eq, ptHartid_eq]; omega)
  simp only [savedRegs, hx, hf, hsame ptSepc (by decide), hsame ptSstatus (by decide), hsame ptSie (by decide)]

theorem savedRegs_store_sepc (v : Word) : savedRegs (h.store (effective a ptSepc) v).mem a =
    { savedRegs h.mem a with pc := v } := by
  have hne : ∀ n, n < 2 ^ 64 → n ≠ ptSepc →
      (h.store (effective a ptSepc) v).mem (effective a n) = h.mem (effective a n) :=
    fun n hn hne => Hart.mem_store_effective (by simp) hn hne v
  have hx : ∀ r, (h.store (effective a ptSepc) v).mem (effective a (ptReg r)) =
      h.mem (effective a (ptReg r)) := by
    intro r
    have hlt := ptReg_lt r
    exact hne _ (by omega) (by rw [ptSepc_eq]; omega)
  have hf : ∀ r, (h.store (effective a ptSepc) v).mem (effective a (ptFreg r)) =
      h.mem (effective a (ptFreg r)) := by
    intro r
    have hr := r.isLt
    exact hne _ (by rw [ptFreg_eq]; omega) (by rw [ptFreg_eq, ptSepc_eq]; omega)
  have hpc : (h.store (effective a ptSepc) v).mem (effective a ptSepc) = v := by
    rw [Hart.mem_store, Function.update_self]
  simp only [savedRegs, hx, hf, hpc, hne ptSstatus (by simp) (by simp), hne ptSie (by simp) (by simp)]

theorem savedRegs_store_a0 (v : Word) : savedRegs (h.store (effective a (ptReg a0)) v).mem a =
    { savedRegs h.mem a with x := Function.update (savedRegs h.mem a).x a0 v } := by
  have hne : ∀ n, n < 2 ^ 64 → n ≠ ptReg a0 →
      (h.store (effective a (ptReg a0)) v).mem (effective a n) = h.mem (effective a n) :=
    fun n hn hne => Hart.mem_store_effective (by simp) hn hne v
  have hf : ∀ r, (h.store (effective a (ptReg a0)) v).mem (effective a (ptFreg r)) =
      h.mem (effective a (ptFreg r)) := by
    intro r
    have hr := r.isLt
    exact hne _ (by rw [ptFreg_eq]; omega) (by rw [ptFreg_eq, ptReg_a0]; omega)
  have hx : (savedRegs (h.store (effective a (ptReg a0)) v).mem a).x =
      Function.update (savedRegs h.mem a).x a0 v := by
    funext r
    show (if r = 0 then 0 else (h.store (effective a (ptReg a0)) v).mem (effective a (ptReg r))) = _
    by_cases hr : r = a0
    · subst hr
      rw [if_neg (by decide), Function.update_self]
      exact Function.update_self ..
    · have hlt := ptReg_lt r
      rw [Function.update_of_ne hr, hne _ (by omega)]
      · rfl
      · intro heq
        exact hr (Fin.ext (by rw [ptReg_eq, ptReg_eq] at heq; omega))
  rw [← hx]
  simp only [savedRegs, hf, hne ptSepc (by simp) (by simp), hne ptSstatus (by simp) (by simp),
    hne ptSie (by simp) (by simp)]

/-- Memory after `SAVE_REGS`. -/
def savedMem (h : Hart) (a : Word) : Word → Word :=
  writes (writes h.mem ((List.finRange 32).filter (· ≠ a0)) (fun r => effective a (ptReg r)) h.get)
    (List.finRange 32) (fun r => effective a (ptFreg r)) h.f

theorem execs_saveRegs (hm : h.Masked) (hfp : h.fpOn = true) (ha : IsAligned (h.get a0)) :
    execs saveRegs h = some { h with mem := savedMem h (h.get a0) } := by
  have hx := execs_sd ptReg a0 hm ((List.finRange 32).filter (· ≠ a0))
    fun r _ => aligned_effective ha (by rw [ptReg_eq]; omega)
  rw [saveRegs, execs_append, hx]
  refine execs_fsd ptFreg a0 ?_ ?_ (List.finRange 32)
    fun r _ => aligned_effective (a := h.get a0) ha (by rw [ptFreg_eq]; omega)
  · exact hm
  · exact hfp

theorem savedMem_freg (r : Reg) : savedMem h a (effective a (ptFreg r)) = h.f r :=
  writes_of_mem _ _ _ _ (ptFreg_injective a) (List.mem_finRange r)

theorem savedMem_reg {r : Reg} (hr : r ≠ a0) : savedMem h a (effective a (ptReg r)) = h.get r := by
  have hapart : ∀ s ∈ List.finRange 32, effective a (ptReg r) ≠ effective a (ptFreg s) := by
    intro s _ heq
    have hlt := ptReg_lt r
    have hs := s.isLt
    rw [effective_inj (by omega) (by rw [ptFreg_eq]; omega), ptFreg_eq] at heq
    omega
  rw [savedMem, writes_of_ne _ _ _ _ hapart]
  exact writes_of_mem _ _ _ _ (ptReg_injective a) (by simp [hr])

theorem savedMem_of_ne {b : Word} (hb : ∀ n < 512, n ≠ ptReg a0 → b ≠ effective a n) :
    savedMem h a b = h.mem b := by
  rw [savedMem, writes_of_ne, writes_of_ne]
  · intro r hr
    refine hb _ (by have hlt := ptReg_lt r; omega) ?_
    intro heq
    have hne : r ≠ a0 := by simpa using hr
    rw [ptReg_eq, ptReg_eq] at heq
    exact hne (Fin.ext (by omega))
  · intro r _
    have hr := r.isLt
    exact hb _ (by rw [ptFreg_eq]; omega) (by rw [ptFreg_eq, ptReg_eq]; simp; omega)

/-- Memory after the control registers are saved. -/
def csrMem (h : Hart) (a : Word) : Word → Word :=
  (((((h.store (effective a (ptReg a0)) (h.csr .sscratch)).store (effective a ptSepc) (h.csr .sepc)).store
    (effective a ptStval) (h.csr .stval)).store (effective a ptSie) (h.csr .sie)).store
    (effective a ptScause) (h.csr .scause)).store (effective a ptSstatus) (h.csr .sstatus) |>.mem

theorem execs_saveCsrs (hm : h.Masked) (ha : IsAligned (h.get a0)) :
    ∃ x, execs saveCsrs h = some { h with x, mem := csrMem h (h.get a0) } ∧
      x t0 = h.csr .sstatus &&& (1#64 <<< 8) ∧ x tp = csrMem h (h.get a0) (effective (h.get a0) ptHartid) ∧
      ∀ r, r ≠ t0 → r ≠ tp → x r = h.x r := by
  have halign : ∀ n, n % 8 = 0 → IsAligned (effective (h.get a0) n) := fun n hn => aligned_effective ha hn
  refine ⟨Function.update (Function.update (Function.update h.x t0 (h.csr .sstatus)) tp
    (csrMem h (h.get a0) (effective (h.get a0) ptHartid))) t0 (h.csr .sstatus &&& (1#64 <<< 8)), ?_, ?_, ?_, ?_⟩
  · simp [saveCsrs, hm, halign, Hart.get_set, a0, t0, tp, ptReg_eq]
    simp [Hart.set, Hart.store, csrMem, ptReg_eq]
  · simp
  · simp [tp, t0]
  · intro r h0 hp
    simp [h0, hp]

theorem csrMem_of_ne {b : Word} (hb : ∀ n < ptHartid, b ≠ effective a n) : csrMem h a b = h.mem b := by
  have hne : ∀ n, n < 552 → b ≠ effective a n := hb
  simp [csrMem, hne]

theorem csrMem_reg {r : Reg} : csrMem h a (effective a (ptReg r)) =
    if r = a0 then h.csr .sscratch else h.mem (effective a (ptReg r)) := by
  have hlt := ptReg_lt r
  have hapart : ∀ n, 256 ≤ n → n < 2 ^ 64 → effective a (ptReg r) ≠ effective a n := by
    intro n hn hn'
    rw [Ne, effective_inj (by omega) hn']
    omega
  by_cases hr : r = a0
  · subst hr
    rw [ptReg_a0] at hapart
    simp [csrMem, hapart]
  · have hne : effective a (ptReg r) ≠ effective a 80 := fun heq => hr (ptReg_injective a heq)
    simp [csrMem, hapart, hne, hr]

/-- The stack of the process on the hart, and the addresses it is found through. -/
def xstackOf (mem : Word → Word) (cpusCurProc hartid : Word) : Word :=
  mem (mem (mem cpusCurProc + (hartid <<< 3)))

def xstackReads (mem : Word → Word) (cpusCurProc hartid : Word) : List Word :=
  [cpusCurProc, mem cpusCurProc + (hartid <<< 3), mem (mem cpusCurProc + (hartid <<< 3))]

theorem execs_loadXstack {cpusCurProc : Word} (hm : h.Masked)
    (hread : ∀ b ∈ xstackReads h.mem cpusCurProc (h.get tp), IsAligned b) :
    ∃ x, execs (loadXstack cpusCurProc) h = some { h with x } ∧
      x sp = xstackOf h.mem cpusCurProc (h.get tp) ∧ ∀ r, r ≠ t0 → r ≠ t1 → r ≠ sp → x r = h.x r := by
  obtain ⟨hsym, hslot, hproc, -⟩ : IsAligned cpusCurProc ∧ IsAligned (h.mem cpusCurProc + (h.get tp <<< 3)) ∧
      IsAligned (h.mem (h.mem cpusCurProc + (h.get tp <<< 3))) ∧ True := by
    simpa [xstackReads] using hread
  have hzero : ∀ w, effective w 0 = w := by
    intro w
    simp [effective]
  have hexec : execs (loadXstack cpusCurProc) h = some
      ((((h.set t0 (h.mem cpusCurProc)).set t1 (h.get tp <<< 3)).set t1
        (h.mem cpusCurProc + (h.get tp <<< 3))).set t1 (h.mem (h.mem cpusCurProc + (h.get tp <<< 3))) |>.set sp
          (xstackOf h.mem cpusCurProc (h.get tp))) := by
    simp [loadXstack, hm, hsym, hslot, hproc, hzero, Hart.get_set, t0, t1, tp, sp, xstackOf]
  refine ⟨_, hexec, Function.update_self .., fun r h0 h1 hsp => ?_⟩
  simp [h0, h1, hsp]

/-- After the first instruction. -/
def swapped (h : Hart) : Hart := (h.setCsr .sscratch (h.get a0)).set a0 (h.csr .sscratch)

@[simp] theorem mem_swapped : (swapped h).mem = h.mem := rfl

@[simp] theorem f_swapped : (swapped h).f = h.f := rfl

@[simp] theorem sscratch_swapped : (swapped h).csr .sscratch = h.get a0 := by
  simp [swapped]

theorem csr_swapped {c : Csr} (hc : c ≠ .sscratch) : (swapped h).csr c = h.csr c :=
  Hart.csr_setCsr_of_ne _ hc _

theorem get_swapped {r : Reg} (hr : r ≠ a0) : (swapped h).get r = h.get r :=
  Hart.get_set_of_ne _ hr _

/-- Memory at the test of `SPP`. -/
def entryMem (h : Hart) (a : Word) : Word → Word :=
  csrMem { swapped h with mem := savedMem (swapped h) a } a

theorem entryMem_of_ne {b : Word} (hb : ∀ n < ptHartid, b ≠ effective a n) : entryMem h a b = h.mem b := by
  have hsaved := savedMem_of_ne (h := swapped h) fun n hn _ => hb n (by simp; omega)
  rw [entryMem, csrMem_of_ne hb]
  show savedMem (swapped h) a b = h.mem b
  rw [hsaved, mem_swapped]

theorem entryMem_reg (r : Reg) : entryMem h a (effective a (ptReg r)) = h.get r := by
  rw [entryMem, csrMem_reg]
  by_cases hr : r = a0
  · simp [hr]
  · have hsaved := savedMem_reg (h := swapped h) (a := a) hr
    simp [hr, hsaved, get_swapped]

theorem entryMem_freg (r : Reg) : entryMem h a (effective a (ptFreg r)) = h.f r := by
  have hr := r.isLt
  have hapart : ∀ n, n < 256 ∨ 512 ≤ n → n < 2 ^ 64 → effective a (ptFreg r) ≠ effective a n := by
    intro n hn hn'
    rw [Ne, ptFreg_eq, effective_inj (by omega) hn']
    omega
  have hsaved := savedMem_freg (h := swapped h) (a := a) r
  simpa [entryMem, csrMem, hapart] using hsaved

/-- The control registers, place by place. -/
theorem entryMem_csr : entryMem h a (effective a ptSepc) = h.csr .sepc ∧
    entryMem h a (effective a ptSie) = h.csr .sie ∧ entryMem h a (effective a ptSstatus) = h.csr .sstatus := by
  simp [entryMem, csrMem, effective_inj, csr_swapped]

theorem savedRegs_entryMem : savedRegs (entryMem h a) a = h.returnRegs := by
  obtain ⟨hsepc, hsie, hsstatus⟩ := entryMem_csr (h := h) (a := a)
  have hx : (fun r => if r = 0 then 0 else entryMem h a (effective a (ptReg r))) = h.get := by
    funext r
    rw [entryMem_reg]
    split
    · rename_i hr
      rw [hr, Hart.get_zero]
    · rfl
  have hf : (fun r => entryMem h a (effective a (ptFreg r))) = h.f := funext entryMem_freg
  rw [savedRegs, hsepc, hsie, hsstatus, hx, hf, Hart.returnRegs]

theorem execs_trapEntry (hm : h.Masked) (hfp : h.fpOn = true) (halign : IsAligned (h.csr .sscratch)) :
    ∃ x, execs trapEntry h = some
        { h with x, csr := (h.setCsr .sscratch (h.get a0)).csr, mem := entryMem h (h.csr .sscratch) } ∧
      x t0 = h.csr .sstatus &&& (1#64 <<< 8) ∧ x tp = h.mem (effective (h.csr .sscratch) ptHartid) ∧
      ∀ r, r ≠ t0 → r ≠ tp → r ≠ a0 → x r = h.x r := by
  have hm₁ : (swapped h).Masked := by simpa [swapped, Hart.masked_setCsr] using hm
  have hfp₁ : (swapped h).fpOn = true := by simpa [swapped, Hart.fpOn_setCsr] using hfp
  have ha₁ : (swapped h).get a0 = h.csr .sscratch := by simp [swapped, Hart.get_set, a0]
  have hsave := execs_saveRegs hm₁ hfp₁ (ha₁.symm ▸ halign)
  rw [ha₁] at hsave
  obtain ⟨x, hcsrs, hx0, hxtp, hx⟩ := execs_saveCsrs
    (h := { swapped h with mem := savedMem (swapped h) (h.csr .sscratch) }) hm₁ (ha₁.symm ▸ halign)
  have ha₂ : Hart.get { swapped h with mem := savedMem (swapped h) (h.csr .sscratch) } a0 =
      h.csr .sscratch := ha₁
  rw [ha₂] at hcsrs hxtp
  refine ⟨x, ?_, ?_, ?_, ?_⟩
  · rw [trapEntry, List.cons_append, execs_csrrw_cons hm, execs_append]
    show ((execs saveRegs (swapped h)).bind _) = _
    rw [hsave, Option.bind_some, hcsrs]
    rfl
  · have hcsr := csr_swapped (h := h) (c := .sstatus) (by decide)
    rw [hx0]
    show (swapped h).csr .sstatus &&& _ = _
    rw [hcsr]
  · rw [hxtp]
    exact entryMem_of_ne (h := h) fun n hn heq => by
      rw [effective_inj] at heq <;> simp at * <;> omega
  · intro r h0 hp ha
    rw [hx r h0 hp]
    simp [swapped, ha]

/-- `SPP` as the test reads it. -/
theorem and_spp {w : Word} : w &&& (1#64 <<< 8) = 0 ↔ w.getLsbD 8 = false := by
  have htwo : w &&& (1#64 <<< 8) = if w.getLsbD 8 then BitVec.twoPow 64 8 else 0 := BitVec.and_twoPow w 8
  rw [htwo]
  cases w.getLsbD 8 <;> decide

/-- **The entry to a trap** saves the registers in the context of the hart and leaves the rest of the memory
alone. From a program, the stack is that of the process; a handler goes on with its own. -/
theorem run_trapHandler {cpusCurProc : Word} (target : Target) (ret : Word) (hm : h.Masked)
    (hfp : h.fpOn = true) (ha : h.csr .sscratch = a) (halign : IsAligned a)
    (hread : ∀ b ∈ xstackReads h.mem cpusCurProc (h.mem (effective a ptHartid)),
      IsAligned b ∧ ∀ n < ptHartid, b ≠ effective a n) :
    ∃ h', run (trapHandler cpusCurProc target ret) 0 h = some (.called target, h') ∧
      savedRegs h'.mem a = h.returnRegs ∧ h'.mem (effective a ptSstatus) = h.csr .sstatus ∧
      (∀ b, (∀ n < ptHartid, b ≠ effective a n) → h'.mem b = h.mem b) ∧
      h'.get tp = h.mem (effective a ptHartid) ∧
      h'.get sp = (if (h.csr .sstatus).getLsbD 8 then h.get sp
        else xstackOf h.mem cpusCurProc (h.mem (effective a ptHartid))) ∧
      h'.csr = (h.setCsr .sscratch (h.get a0)).csr ∧ h'.priv = h.priv := by
  subst ha
  obtain ⟨x, hentry, hx0, hxtp, hx⟩ := execs_trapEntry hm hfp halign
  obtain ⟨h₁, hh₁⟩ : ∃ h₁ : Hart, h₁ = { h with
      x, csr := (h.setCsr .sscratch (h.get a0)).csr, mem := entryMem h (h.csr .sscratch) } := ⟨_, rfl⟩
  rw [← hh₁] at hentry
  have hm₁ : h₁.Masked := by
    subst hh₁
    exact (h.masked_setCsr (by decide) _).mpr hm
  have hget : ∀ r, r ≠ 0 → h₁.get r = x r := by
    subst hh₁
    intro r hr
    simp [Hart.get, hr]
  have hmem₁ : ∀ b, (∀ n < ptHartid, b ≠ effective (h.csr .sscratch) n) → h₁.mem b = h.mem b := by
    subst hh₁
    intro b hb
    show entryMem h (h.csr .sscratch) b = h.mem b
    exact entryMem_of_ne hb
  have hx₁ : h₁.x = x := by rw [hh₁]
  have htp : h₁.get tp = h.mem (effective (h.csr .sscratch) ptHartid) := by rw [hget tp (by decide), hxtp]
  have hsp : h₁.get sp = h.get sp := by
    rw [hget sp (by decide), hx sp (by decide) (by decide) (by decide)]
    rfl
  -- what is left of the code
  obtain ⟨x', hrun, htp', hsp'⟩ : ∃ x', run (trapHandler cpusCurProc target ret) 0 h =
      some (.called target, Hart.set { h₁ with x := x' } ra ret) ∧
      x' tp = h.mem (effective (h.csr .sscratch) ptHartid) ∧
      x' sp = (if (h.csr .sstatus).getLsbD 8 then h.get sp
        else xstackOf h.mem cpusCurProc (h.mem (effective (h.csr .sscratch) ptHartid))) := by
    rw [trapHandler, run_ops, hentry, Option.bind_some, run, if_pos hm₁, hget t0 (by decide), hx0]
    by_cases hspp : (h.csr .sstatus).getLsbD 8 = true
    · have hskip := run_skip ((loadXstack cpusCurProc).map .op) [.call target ret] h₁
      rw [List.length_map] at hskip
      rw [if_neg (by rw [and_spp, hspp]; decide), hskip, run, if_pos hm₁, if_pos hspp]
      exact ⟨h₁.x, rfl, hx₁ ▸ hxtp, hsp⟩
    · have hsame := fun b hb => hmem₁ b (hread b hb).2
      simp only [xstackReads, List.forall_mem_cons] at hsame
      obtain ⟨hsym, hslot, hproc, -⟩ := hsame
      have hread₁ : xstackReads h₁.mem cpusCurProc (h₁.get tp) =
          xstackReads h.mem cpusCurProc (h.mem (effective (h.csr .sscratch) ptHartid)) := by
        rw [xstackReads, xstackReads, htp, hsym, hslot]
      obtain ⟨x₂, hload, hxsp, hx₂⟩ := execs_loadXstack hm₁ fun b hb => (hread b (hread₁ ▸ hb)).1
      rw [if_pos (by rw [and_spp]; simpa using hspp), run_ops, hload, Option.bind_some, run,
        if_pos (show Hart.Masked { h₁ with x := x₂ } from hm₁), if_neg hspp]
      refine ⟨x₂, rfl, ?_, ?_⟩
      · rw [hx₂ tp (by decide) (by decide) (by decide), ← htp]
        rfl
      · rw [hxsp, xstackOf, xstackOf, htp, hsym, hslot, hproc]
  have hmem : (Hart.set { h₁ with x := x' } ra ret).mem = entryMem h (h.csr .sscratch) := by rw [hh₁]; rfl
  refine ⟨_, hrun, ?_, ?_, ?_, ?_, ?_, ?_, ?_⟩
  · rw [hmem, savedRegs_entryMem]
  · rw [hmem, entryMem_csr.2.2]
  · rw [hmem]
    exact fun b hb => entryMem_of_ne (h := h) hb
  · simp [Hart.get, tp, ra, htp']
  · simp [Hart.get, sp, ra, hsp']
  · rw [hh₁]
    rfl
  · rw [hh₁]
    rfl

/-! ## The way back -/

theorem execs_loadCsrs (hm : h.Masked) (ha : IsAligned (h.get a0)) (hmem : Restorable h.mem (h.get a0)) :
    ∃ x csr, execs loadCsrs h = some { h with x, csr } ∧
      csr .sstatus = h.mem (effective (h.get a0) ptSstatus) ∧ csr .sie = h.mem (effective (h.get a0) ptSie) ∧
      csr .sepc = h.mem (effective (h.get a0) ptSepc) ∧
      csr .sscratch = h.mem (effective (h.get a0) (ptReg a0)) ∧ ∀ r, r ≠ t0 → x r = h.x r := by
  have halign : ∀ n, n % 8 = 0 → IsAligned (effective (h.get a0) n) := fun n hn => aligned_effective ha hn
  obtain ⟨b, hb⟩ : ∃ b, b = h.get a0 := ⟨_, rfl⟩
  rw [← hb] at halign hmem
  have hmasked : ∀ g : Hart, g.priv = .supervisor → (g.setCsr .sstatus (h.mem (effective b 512))).Masked :=
    fun g hg => g.masked_setCsr_sstatus.mpr ⟨hg, hmem.masked⟩
  have hexec : execs loadCsrs h = some
      (((((((((h.set t0 (h.mem (effective b 512))).setCsr .sstatus (h.mem (effective b 512))).set
        t0 (h.mem (effective b 528))).setCsr .sie (h.mem (effective b 528))).set
        t0 (h.mem (effective b 536))).setCsr .stval (h.mem (effective b 536))).set
        t0 (h.mem (effective b 544))).setCsr .sepc (h.mem (effective b 544))).set
        t0 (h.mem (effective b 80)) |>.setCsr .sscratch (h.mem (effective b 80))) := by
    have hb' : h.get 10 = b := hb.symm
    have hreg : ptReg 10 = 80 := rfl
    simp [loadCsrs, hm, halign, Hart.get_set, a0, t0, Hart.masked_setCsr, hmasked, hm.1, hb', hreg]
  rw [← hb]
  refine ⟨_, _, hexec, ?_, ?_, ?_, ?_, ?_⟩
  · simp [Hart.csr_setCsr_of_ne]
  · simp [Hart.csr_setCsr_of_ne]
  · simp
  · simp
  · intro r hr
    simp [hr]

theorem execs_restoreRegs (hm : h.Masked) (hfp : h.fpOn = true) (ha : IsAligned (h.get a0)) :
    ∃ x f status, execs restoreRegs h = some { h.setCsr .sstatus status with x, f } ∧
      (∀ r, r ≠ 0 → r ≠ a0 → x r = h.mem (effective (h.get a0) (ptReg r))) ∧ x a0 = h.x a0 ∧
      (∀ r, f r = h.mem (effective (h.get a0) (ptFreg r))) ∧
      (∀ j, j ∉ [13, 14, 63] → status.getLsbD j = (h.csr .sstatus).getLsbD j) ∧
      (status.getLsbD 13 = true ∨ status.getLsbD 14 = true) := by
  obtain ⟨b, hb⟩ : ∃ b, b = h.get a0 := ⟨_, rfl⟩
  rw [← hb] at ha
  have hx := execs_ld ptReg a0 hm ((List.finRange 32).filter fun r => r ≠ 0 ∧ r ≠ a0)
    (by simp) fun r _ => aligned_effective (hb ▸ ha) (by rw [ptReg_eq]; omega)
  rw [← hb] at hx
  obtain ⟨x, hxdef⟩ : ∃ x, x = writes h.x ((List.finRange 32).filter fun r => r ≠ 0 ∧ r ≠ a0) id
      (fun r => h.mem (effective b (ptReg r))) := ⟨_, rfl⟩
  rw [← hxdef] at hx
  have hxa0 : x a0 = h.x a0 := by
    rw [hxdef]
    refine writes_of_ne _ _ _ _ fun r hr heq => ?_
    obtain rfl : a0 = r := heq
    simp at hr
  have hget : Hart.get { h with x } a0 = b := by
    rw [hb, Hart.get, Hart.get]
    exact congrArg _ hxa0
  have hf := execs_fld (h := { h with x }) ptFreg a0 hm hfp (List.finRange 32)
    fun r _ => aligned_effective (hget.symm ▸ ha) (by rw [ptFreg_eq]; omega)
  rw [hget] at hf
  rw [restoreRegs, execs_append, hx, Option.bind_some, hf, ← hb]
  refine ⟨x, _, _, rfl, ?_, hxa0, ?_, ?_, ?_⟩
  · intro r hr hra
    rw [hxdef]
    have hmem : r ∈ (List.finRange 32).filter fun r => r ≠ 0 ∧ r ≠ a0 := by simp [hr, hra]
    exact writes_of_mem _ _ id _ Function.injective_id hmem
  · exact fun r => writes_of_mem _ _ id _ Function.injective_id (List.mem_finRange r)
  · intro j hj
    exact getLsbD_dirtied_iterate (by simpa using hj) _
  · exact fpOn_dirtied_iterate (Bool.or_eq_true_iff.mp hfp) _

/-- **The way back** loads the registers that are in the context, which is that of the hart again. -/
theorem run_trapRet (hm : h.Masked) (ha : h.get a0 = a) (halign : IsAligned a) (hmem : Restorable h.mem a) :
    ∃ h', run trapRet 0 h = some (.returned, h') ∧ h'.regs = savedRegs h.mem a ∧ h'.mem = h.mem ∧
      h'.csr .sscratch = a ∧ h'.fpOn = true := by
  subst ha
  obtain ⟨x₁, csr₁, hcsrs, hstatus, hsie, hsepc, hscratch, hx₁⟩ := execs_loadCsrs hm halign hmem
  obtain ⟨h₁, hh₁⟩ : ∃ h₁ : Hart, h₁ = { h with x := x₁, csr := csr₁ } := ⟨_, rfl⟩
  rw [← hh₁] at hcsrs
  have hm₁ : h₁.Masked := by
    subst hh₁
    refine ⟨hm.1, ?_⟩
    show (csr₁ .sstatus).getLsbD 1 = false
    rw [hstatus, hmem.masked]
  have hfp₁ : h₁.fpOn = true := by
    subst hh₁
    show ((csr₁ .sstatus).getLsbD 13 || (csr₁ .sstatus).getLsbD 14) = true
    rw [hstatus]
    exact Bool.or_eq_true_iff.mpr hmem.fpOn
  have ha₁ : h₁.get a0 = h.get a0 := by
    subst hh₁
    rw [Hart.get, Hart.get]
    exact congrArg _ (hx₁ a0 (by decide))
  obtain ⟨x₂, f₂, status, hrestore, hx₂, hxa0, hf₂, hbits, hon⟩ :=
    execs_restoreRegs hm₁ hfp₁ (ha₁.symm ▸ halign)
  have hm₂ : Hart.Masked { h₁.setCsr .sstatus status with x := x₂, f := f₂ } := by
    refine (h₁.masked_setCsr_sstatus (w := status)).mpr ⟨hm₁.1, ?_⟩
    rw [hbits 1 (by decide)]
    exact hm₁.2
  have hget₂ : Hart.get { h₁.setCsr .sstatus status with x := x₂, f := f₂ } a0 = h.get a0 := by
    rw [← ha₁, Hart.get, Hart.get]
    exact congrArg _ hxa0
  have hscratch₂ : (h₁.setCsr .sstatus status).csr .sscratch = h.mem (effective (h.get a0) (ptReg a0)) := by
    rw [h₁.csr_setCsr_of_ne (by decide), hh₁]
    exact hscratch
  have hexec : execs (loadCsrs ++ (restoreRegs ++ [Insn.csrrw a0 .sscratch a0])) h = some
      ((Hart.setCsr { h₁.setCsr .sstatus status with x := x₂, f := f₂ } .sscratch (h.get a0)).set a0
        (h.mem (effective (h.get a0) (ptReg a0)))) := by
    rw [execs_append, hcsrs, Option.bind_some, execs_append, hrestore, Option.bind_some,
      execs_csrrw_cons hm₂, execs_nil, hget₂, ← hscratch₂]
  obtain ⟨h₃, hh₃⟩ : ∃ h₃, h₃ = (Hart.setCsr { h₁.setCsr .sstatus status with x := x₂, f := f₂ } .sscratch
    (h.get a0)).set a0 (h.mem (effective (h.get a0) (ptReg a0))) := ⟨_, rfl⟩
  rw [← hh₃] at hexec
  have hcsr₃ : ∀ c, c ≠ .sscratch → c ≠ .sstatus → h₃.csr c = csr₁ c := by
    intro c hc hc'
    rw [hh₃, Hart.csr_set, Hart.csr_setCsr_of_ne _ hc]
    show (h₁.setCsr .sstatus status).csr c = csr₁ c
    rw [Hart.csr_setCsr_of_ne _ hc', hh₁]
  have hstatus₃ : h₃.csr .sstatus = status := by
    rw [hh₃, Hart.csr_set, Hart.csr_setCsr_of_ne _ (by decide)]
    exact h₁.csr_setCsr_self .sstatus status
  have hmem₃ : h₃.mem = h.mem := by
    rw [hh₃, hh₁]
    rfl
  have hx₃ : h₃.get = (savedRegs h.mem (h.get a0)).x := by
    funext r
    show _ = if r = 0 then 0 else _
    rw [hh₃, Hart.get_set]
    by_cases hr : r = 0
    · rw [if_pos hr, if_pos hr]
    · rw [if_neg hr, if_neg hr]
      split
      · rename_i hra
        rw [hra]
      · rename_i hra
        have hx := hx₂ r hr hra
        rw [ha₁] at hx
        rw [Hart.get_setCsr, Hart.get, if_neg hr, hh₁] at *
        exact hx
  have hf₃ : h₃.f = (savedRegs h.mem (h.get a0)).f := by
    rw [hh₃, Hart.f_set, Hart.f_setCsr]
    refine funext fun r => (hf₂ r).trans ?_
    rw [ha₁, hh₁]
    rfl
  have hbit : ∀ j, j ∉ [13, 14, 63] →
      status.getLsbD j = (h.mem (effective (h.get a0) ptSstatus)).getLsbD j := by
    intro j hj
    rw [hbits j hj, ← hstatus, hh₁]
  have hothers : others status = others (h.mem (effective (h.get a0) ptSstatus)) := by
    refine others_congr fun j hj => hbit j fun hj' => hj ?_
    simp only [List.mem_cons, List.not_mem_nil, or_false] at hj' ⊢
    omega
  have hm₃ : h₃.Masked := by
    rw [hh₃, Hart.masked_set, Hart.masked_setCsr _ (by decide)]
    exact hm₂
  rw [trapRet, run_ops, hexec, Option.bind_some, run, if_pos hm₃]
  refine ⟨_, rfl, ?_, hmem₃, ?_, ?_⟩
  · rw [Hart.regs_sret, Hart.returnRegs, hx₃, hf₃, hcsr₃ .sepc (by decide) (by decide),
      hcsr₃ .sie (by decide) (by decide), hstatus₃, hsepc, hsie, hbit 8 (by decide), hbit 5 (by decide),
      hothers]
    rfl
  · rw [Hart.csr_sret_of_ne _ (by decide), hh₃, Hart.csr_set]
    exact Hart.csr_setCsr_self _ .sscratch (h.get a0)
  · rw [Hart.fpOn_sret, Hart.fpOn, hstatus₃]
    exact Bool.or_eq_true_iff.mpr hon

/-- Interrupts are masked already when the address space is switched, whatever is cleared in `sstatus`. -/
theorem run_trapRetSwitchAs (hm : h.Masked) (ha : h.get a0 = a) (halign : IsAligned a)
    (hmem : Restorable h.mem a) :
    ∃ h', run trapRetSwitchAs 0 h = some (.returned, h') ∧ h'.regs = savedRegs h.mem a ∧ h'.mem = h.mem ∧
      h'.csr .sscratch = a ∧ h'.fpOn = true := by
  have hmasked : ∀ (g : Hart) (w : Word), g.priv = .supervisor →
      (g.setCsr .sstatus (h.csr .sstatus &&& w)).Masked := by
    intro g w hg
    refine g.masked_setCsr_sstatus.mpr ⟨hg, ?_⟩
    have hbit : (h.csr .sstatus).getLsbD 1 = false := hm.2
    rw [BitVec.getLsbD_and, hbit, Bool.false_and]
  obtain ⟨h₁, hexec, hm₁, ha₁, hmem₁⟩ : ∃ h₁, execs switchAs h = some h₁ ∧ h₁.Masked ∧ h₁.get a0 = a ∧
      h₁.mem = h.mem := by
    have ha' : h.get 10 = a := ha
    simp [switchAs, hm, hm.1, Hart.get_set, a0, a1, t0, t1, hmasked, Hart.masked_setCsr, ha']
  rw [trapRetSwitchAs, run_ops, hexec, Option.bind_some, ← hmem₁]
  exact run_trapRet hm₁ ha₁ halign (hmem₁ ▸ hmem)

/-! ## The switch -/

/-- `sstatus` as it is saved: `SPIE` is `SIE`, and `SPP` is set. -/
def givenStatus (status : Word) : Word :=
  (status &&& ~~~(1#64 <<< 5)) ||| ((status &&& (1#64 <<< 1)) <<< 4) ||| (1#64 <<< 8)

theorem getLsbD_givenStatus {w : Word} {j : Nat} : (givenStatus w).getLsbD j =
    if j = 5 then w.getLsbD 1 else if j = 8 then true else w.getLsbD j := by
  have hsie : (w &&& (1#64 <<< 1)) <<< 4 = if w.getLsbD 1 then BitVec.twoPow 64 5 else 0 := by
    have htwo : w &&& (1#64 <<< 1) = if w.getLsbD 1 then BitVec.twoPow 64 1 else 0 := BitVec.and_twoPow w 1
    rw [htwo]
    cases w.getLsbD 1 <;> decide
  have hspie : 1#64 <<< 5 = BitVec.twoPow 64 5 := rfl
  have hspp : 1#64 <<< 8 = BitVec.twoPow 64 8 := rfl
  rw [givenStatus, hsie, hspie, hspp]
  by_cases hj : j < 64
  · rw [BitVec.getLsbD_or, BitVec.getLsbD_or, BitVec.getLsbD_and, BitVec.getLsbD_not, BitVec.getLsbD_twoPow,
      BitVec.getLsbD_twoPow]
    cases w.getLsbD 1 <;> by_cases h5 : j = 5 <;> by_cases h8 : j = 8 <;>
      simp [hj, h5, h8, eq_comm]
  · rw [BitVec.getLsbD_of_ge _ _ (by omega), if_neg (by omega), if_neg (by omega),
      BitVec.getLsbD_of_ge _ _ (by omega)]

/-- Memory after the rest is saved. -/
def callerMem (h : Hart) (a : Word) : Word → Word :=
  (((((h.store (effective a ptSepc) (h.get ra)).store (effective a ptStval) (h.csr .stval)).store
    (effective a ptSie) (h.csr .sie)).store (effective a ptScause) (h.csr .scause)).store
    (effective a ptSstatus) (givenStatus (h.csr .sstatus))).store (effective a ptHartid) (h.get tp) |>.mem

theorem execs_saveCaller (hm : h.Masked) (ha : IsAligned (h.get a0)) :
    ∃ x, execs saveCaller h = some { h with x, mem := callerMem h (h.get a0) } := by
  have halign : ∀ n, n % 8 = 0 → IsAligned (effective (h.get 10) n) := fun n hn => aligned_effective ha hn
  have hexec : ∃ h', execs saveCaller h = some h' ∧ h'.mem = callerMem h (h.get a0) ∧ h'.f = h.f ∧
      h'.csr = h.csr ∧ h'.pc = h.pc ∧ h'.priv = h.priv := by
    simp [saveCaller, hm, halign, Hart.get_set, a0, a1, t0, t1, t2, ra, tp, callerMem, givenStatus]
  obtain ⟨⟨x, f, csr, pc, priv, mem⟩, hexec, rfl, rfl, rfl, rfl, rfl⟩ := hexec
  exact ⟨x, hexec⟩

/-- Memory at the call of `sched_proc`. -/
def givenMem (h : Hart) (a : Word) : Word → Word := callerMem { h with mem := savedMem h a } a

theorem givenMem_of_ne {b : Word} (hb : ∀ n < ptCtxSize, b ≠ effective a n) : givenMem h a b = h.mem b := by
  have hne : ∀ n, n < 560 → b ≠ effective a n := hb
  have hsaved := savedMem_of_ne (h := h) fun n hn _ => hne n (by omega)
  simp [givenMem, callerMem, hne, hsaved]

/-- What the switch saves in `a0` is what was there. -/
theorem givenMem_reg (r : Reg) : givenMem h a (effective a (ptReg r)) =
    if r = a0 then h.mem (effective a (ptReg a0)) else h.get r := by
  have hlt := ptReg_lt r
  have hapart : ∀ n, 256 ≤ n → n < 2 ^ 64 → effective a (ptReg r) ≠ effective a n := by
    intro n hn hn'
    rw [Ne, effective_inj (by omega) hn']
    omega
  have hgiven : givenMem h a (effective a (ptReg r)) = savedMem h a (effective a (ptReg r)) := by
    simp [givenMem, callerMem, hapart]
  rw [hgiven]
  split
  · rename_i hr
    rw [hr]
    refine savedMem_of_ne fun n hn hne heq => hne ?_
    rw [effective_inj (by simp) (by omega)] at heq
    exact heq.symm
  · rename_i hr
    exact savedMem_reg hr

theorem givenMem_freg (r : Reg) : givenMem h a (effective a (ptFreg r)) = h.f r := by
  have hr := r.isLt
  have hapart : ∀ n, 512 ≤ n → n < 2 ^ 64 → effective a (ptFreg r) ≠ effective a n := by
    intro n hn hn'
    rw [Ne, ptFreg_eq, effective_inj (by omega) hn']
    omega
  simp [givenMem, callerMem, hapart, savedMem_freg]

theorem givenMem_csr : givenMem h a (effective a ptSepc) = h.get ra ∧
    givenMem h a (effective a ptSie) = h.csr .sie ∧
    givenMem h a (effective a ptSstatus) = givenStatus (h.csr .sstatus) := by
  have hget : ∀ r, Hart.get { h with mem := savedMem h a } r = h.get r := fun _ => rfl
  simp [givenMem, callerMem, effective_inj, hget]

/-- Only `a0` is not that of the caller when the switch comes back. -/
theorem savedRegs_givenMem (hm : h.Masked) : savedRegs (givenMem h a) a =
    { h.regs with
      x := Function.update h.get a0 (h.mem (effective a (ptReg a0)))
      pc := h.get ra } := by
  obtain ⟨hsepc, hsie, hsstatus⟩ := givenMem_csr (h := h) (a := a)
  have hx : (fun r => if r = 0 then 0 else givenMem h a (effective a (ptReg r))) =
      Function.update h.get a0 (h.mem (effective a (ptReg a0))) := by
    funext r
    rw [givenMem_reg, Function.update_apply]
    by_cases hr : r = 0
    · simp [hr, a0]
    · simp [hr]
  have hf : (fun r => givenMem h a (effective a (ptFreg r))) = h.f := funext givenMem_freg
  have hothers : others (givenStatus (h.csr .sstatus)) = others (h.csr .sstatus) := by
    refine others_congr fun j hj => ?_
    have hne : j ≠ 5 ∧ j ≠ 8 := by
      simp only [List.mem_cons, List.not_mem_nil, or_false] at hj
      omega
    rw [getLsbD_givenStatus, if_neg hne.1, if_neg hne.2]
  have hspp : (givenStatus (h.csr .sstatus)).getLsbD 8 = true := by
    rw [getLsbD_givenStatus]
    rfl
  have hspie : (givenStatus (h.csr .sstatus)).getLsbD 5 = h.intp := by
    rw [getLsbD_givenStatus]
    rfl
  rw [savedRegs, hsepc, hsie, hsstatus, hx, hf, hothers, hspp, hspie, if_pos rfl, Hart.regs, hm.1]

theorem restorable_givenMem (hm : h.Masked) (hfp : h.fpOn = true) : Restorable (givenMem h a) a := by
  constructor
  · rw [givenMem_csr.2.2, getLsbD_givenStatus]
    exact hm.2
  · rw [givenMem_csr.2.2, getLsbD_givenStatus, getLsbD_givenStatus]
    exact Bool.or_eq_true_iff.mp hfp

/-- **The switch** saves the registers so that the way back ends behind the call. Only `a0` is not saved. -/
theorem run_giveUp (ret : Word) (hm : h.Masked) (hfp : h.fpOn = true) (ha : h.get a0 = a)
    (halign : IsAligned a) :
    ∃ h', run (giveUp ret) 0 h = some (.called .schedProc, h') ∧ h'.mem = givenMem h a ∧ h'.csr = h.csr ∧
      h'.priv = h.priv := by
  subst ha
  have hsave := execs_saveRegs hm hfp halign
  obtain ⟨x, hrest⟩ := execs_saveCaller (h := { h with mem := savedMem h (h.get a0) }) hm halign
  have hm' : Hart.Masked { h with x, mem := callerMem { h with mem := savedMem h (h.get a0) } (h.get a0) } := hm
  have hexec : execs (saveRegs ++ saveCaller) h =
      some { h with x, mem := callerMem { h with mem := savedMem h (h.get a0) } (h.get a0) } := by
    rw [execs_append, hsave, Option.bind_some]
    exact hrest
  rw [giveUp, run_ops, hexec, Option.bind_some, run, if_pos hm']
  exact ⟨_, rfl, rfl, rfl, rfl⟩

end Trampoline

end Jrinx
