import Mathlib.Algebra.GroupWithZero.Nat
import Mathlib.Logic.Function.Iterate
import Mathlib.Data.List.Nodup

/-! # Straight-line code of a 64-bit RISC-V hart

The instructions that an operating system saves and restores registers with, for code that runs in supervisor
mode with interrupts masked. Memory is read and written a doubleword at a time.

* **`Hart`**, **`Insn`**, **`Instr`**, **`run`** — a hart, its instructions, and what a piece of code does to
  it.
* **`Hart.takeTrap`**, **`Hart.sret`** — what the hardware does on a trap, and on the return from it.
* **`Regs`** — what a program sees of its hart.
* **`execs_sd`**, **`execs_fsd`**, **`execs_ld`**, **`execs_fld`** — registers are stored and loaded one by
  one. -/

namespace Jrinx

namespace Rv64

abbrev Word : Type := BitVec 64

abbrev Reg : Type := Fin 32

/-- Numerals name the registers. -/
scoped instance regNeZero : NeZero 32 := ⟨by decide⟩

/-- A word with another bit. -/
def setBit (w : Word) (i : Nat) (b : Bool) : Word :=
  if b then w ||| BitVec.twoPow 64 i else w &&& ~~~BitVec.twoPow 64 i

theorem getLsbD_setBit {w : Word} {i j : Nat} {b : Bool} (hi : i < 64) :
    (setBit w i b).getLsbD j = if j = i then b else w.getLsbD j := by
  by_cases hj : j < 64
  · by_cases hji : j = i
    · subst hji
      cases b <;> simp [setBit, hj]
    · cases b <;> simp [setBit, hj, hji, Bool.and_comm, Bool.or_comm]
  · have hji : j ≠ i := by omega
    simp [hji, BitVec.getLsbD_of_ge _ _ (Nat.le_of_not_lt hj)]

inductive Priv where
  | user
  | supervisor
  deriving DecidableEq, Repr

/-- Control and status registers. -/
inductive Csr where
  | sstatus
  | sie
  | sscratch
  | sepc
  | scause
  | stval
  | satp
  deriving DecidableEq, Repr

/-- A hart, with the doublewords of the memory by their addresses. -/
structure Hart where
  x : Reg → Word
  f : Reg → Word
  csr : Csr → Word
  pc : Word
  priv : Priv
  mem : Word → Word

namespace Hart

variable (h : Hart)

/-- `x0` is zero, whatever was written to it. -/
def get (r : Reg) : Word := if r = 0 then 0 else h.x r

def set (r : Reg) (v : Word) : Hart := { h with x := Function.update h.x r v }

def setCsr (c : Csr) (v : Word) : Hart := { h with csr := Function.update h.csr c v }

def store (a v : Word) : Hart := { h with mem := Function.update h.mem a v }

/-- `SIE`. -/
def intp : Bool := (h.csr .sstatus).getLsbD 1

/-- `FS` is not `Off`. -/
def fpOn : Bool := (h.csr .sstatus).getLsbD 13 || (h.csr .sstatus).getLsbD 14

/-- Nothing can come between. -/
def Masked : Prop := h.priv = .supervisor ∧ h.intp = false

instance : Decidable h.Masked := inferInstanceAs (Decidable (_ ∧ _))

/-- A trap: `SPP` and `SPIE` keep the mode and `SIE`. -/
def takeTrap (cause tval : Word) : Hart :=
  let status := setBit (h.csr .sstatus) 8 (decide (h.priv = .supervisor))
  let status := setBit (setBit status 5 h.intp) 1 false
  { (((h.setCsr .sepc h.pc).setCsr .scause cause).setCsr .stval tval).setCsr .sstatus status with
    priv := .supervisor }

/-- `sret`. -/
def sret : Hart :=
  let status := h.csr .sstatus
  { h.setCsr .sstatus (setBit (setBit (setBit status 1 (status.getLsbD 5)) 5 true) 8 false) with
    pc := h.csr .sepc
    priv := if status.getLsbD 8 then .supervisor else .user }

@[simp] theorem get_zero : h.get 0 = 0 := rfl

@[simp] theorem get_setCsr (c : Csr) (v : Word) (r : Reg) : (h.setCsr c v).get r = h.get r := rfl

@[simp] theorem get_store (a v : Word) (r : Reg) : (h.store a v).get r = h.get r := rfl

theorem get_set (r s : Reg) (v : Word) :
    (h.set r v).get s = if s = 0 then 0 else if s = r then v else h.get s := by
  by_cases hs : s = 0
  · simp [get, hs]
  · by_cases hr : s = r <;> simp [get, set, hs, hr]

theorem get_set_of_ne {r s : Reg} (hne : s ≠ r) (v : Word) : (h.set r v).get s = h.get s := by
  rw [get_set, if_neg hne, get]
  split <;> simp_all

@[simp] theorem x_set (r : Reg) (v : Word) : (h.set r v).x = Function.update h.x r v := rfl

@[simp] theorem x_setCsr (c : Csr) (v : Word) : (h.setCsr c v).x = h.x := rfl

@[simp] theorem x_store (a v : Word) : (h.store a v).x = h.x := rfl

@[simp] theorem csr_set (r : Reg) (v : Word) : (h.set r v).csr = h.csr := rfl

@[simp] theorem csr_store (a v : Word) : (h.store a v).csr = h.csr := rfl

@[simp] theorem csr_setCsr_self (c : Csr) (v : Word) : (h.setCsr c v).csr c = v := Function.update_self ..

theorem csr_setCsr_of_ne {c d : Csr} (hne : d ≠ c) (v : Word) : (h.setCsr c v).csr d = h.csr d :=
  Function.update_of_ne hne _ _

@[simp] theorem mem_set (r : Reg) (v : Word) : (h.set r v).mem = h.mem := rfl

@[simp] theorem mem_store (a v : Word) : (h.store a v).mem = Function.update h.mem a v := rfl

@[simp] theorem mem_setCsr (c : Csr) (v : Word) : (h.setCsr c v).mem = h.mem := rfl

@[simp] theorem f_set (r : Reg) (v : Word) : (h.set r v).f = h.f := rfl

@[simp] theorem f_setCsr (c : Csr) (v : Word) : (h.setCsr c v).f = h.f := rfl

@[simp] theorem f_store (a v : Word) : (h.store a v).f = h.f := rfl

@[simp] theorem priv_set (r : Reg) (v : Word) : (h.set r v).priv = h.priv := rfl

@[simp] theorem priv_setCsr (c : Csr) (v : Word) : (h.setCsr c v).priv = h.priv := rfl

@[simp] theorem pc_set (r : Reg) (v : Word) : (h.set r v).pc = h.pc := rfl

@[simp] theorem pc_setCsr (c : Csr) (v : Word) : (h.setCsr c v).pc = h.pc := rfl

@[simp] theorem pc_store (a v : Word) : (h.store a v).pc = h.pc := rfl

@[simp] theorem priv_store (a v : Word) : (h.store a v).priv = h.priv := rfl

@[simp] theorem masked_set (r : Reg) (v : Word) : (h.set r v).Masked ↔ h.Masked := Iff.rfl

@[simp] theorem masked_store (a v : Word) : (h.store a v).Masked ↔ h.Masked := Iff.rfl

@[simp] theorem fpOn_set (r : Reg) (v : Word) : (h.set r v).fpOn = h.fpOn := rfl

@[simp] theorem fpOn_store (a v : Word) : (h.store a v).fpOn = h.fpOn := rfl

theorem fpOn_setCsr {c : Csr} (hne : c ≠ .sstatus) (v : Word) : (h.setCsr c v).fpOn = h.fpOn := by
  simp only [fpOn, csr_setCsr_of_ne h (Ne.symm hne)]

theorem masked_setCsr {c : Csr} (hne : c ≠ .sstatus) (v : Word) : (h.setCsr c v).Masked ↔ h.Masked := by
  simp only [Masked, intp, csr_setCsr_of_ne h (Ne.symm hne)]
  rfl

theorem masked_setCsr_sstatus {w : Word} :
    (h.setCsr .sstatus w).Masked ↔ h.priv = .supervisor ∧ w.getLsbD 1 = false := by
  simp only [Masked, intp, csr_setCsr_self]
  rfl

theorem fpOn_setCsr_sstatus {w : Word} : (h.setCsr .sstatus w).fpOn = (w.getLsbD 13 || w.getLsbD 14) := by
  simp only [fpOn, csr_setCsr_self]

end Hart

/-! ## What a program sees -/

/-- `sstatus` without the bits that traps and loads of floating-point registers write: `SIE`, `SPIE`, `SPP`,
`FS` and `SD`. -/
def others (status : Word) : Word := status &&& 0x7fffffffffff9edd

theorem others_congr {w w' : Word} (h : ∀ j, j ∉ [1, 5, 8, 13, 14, 63] → w.getLsbD j = w'.getLsbD j) :
    others w = others w' := by
  apply BitVec.eq_of_getLsbD_eq
  intro j hj
  rw [others, others, BitVec.getLsbD_and, BitVec.getLsbD_and]
  by_cases hown : j ∈ [1, 5, 8, 13, 14, 63]
  · have hmask : ∀ j ∈ [1, 5, 8, 13, 14, 63], (0x7fffffffffff9edd : Word).getLsbD j = false := by decide
    rw [hmask j hown, Bool.and_false, Bool.and_false]
  · rw [h j hown]

theorem others_setBit {w : Word} {i : Nat} {b : Bool} (hi : i ∈ [1, 5, 8, 13, 14, 63]) :
    others (setBit w i b) = others w := by
  have hlt : ∀ i ∈ [1, 5, 8, 13, 14, 63], i < 64 := by decide
  apply others_congr
  intro j hj
  rw [getLsbD_setBit (hlt i hi), if_neg]
  rintro rfl
  exact hj hi

/-- The registers, the mode, and what is masked. -/
@[ext]
structure Regs where
  x : Reg → Word
  f : Reg → Word
  pc : Word
  priv : Priv
  intp : Bool
  sie : Word
  status : Word

def Hart.regs (h : Hart) : Regs where
  x := h.get
  f := h.f
  pc := h.pc
  priv := h.priv
  intp := h.intp
  sie := h.csr .sie
  status := others (h.csr .sstatus)

@[simp] theorem Hart.regs_store (h : Hart) (a v : Word) : (h.store a v).regs = h.regs := rfl

/-- What a trap has interrupted, and `sret` goes back to. -/
def Hart.returnRegs (h : Hart) : Regs where
  x := h.get
  f := h.f
  pc := h.csr .sepc
  priv := if (h.csr .sstatus).getLsbD 8 then .supervisor else .user
  intp := (h.csr .sstatus).getLsbD 5
  sie := h.csr .sie
  status := others (h.csr .sstatus)

theorem Hart.csr_sret_of_ne (h : Hart) {c : Csr} (hc : c ≠ .sstatus) : h.sret.csr c = h.csr c :=
  h.csr_setCsr_of_ne hc _

theorem Hart.sstatus_sret (h : Hart) : h.sret.csr .sstatus =
    setBit (setBit (setBit (h.csr .sstatus) 1 ((h.csr .sstatus).getLsbD 5)) 5 true) 8 false := by
  simp [sret]

theorem Hart.fpOn_sret (h : Hart) : h.sret.fpOn = h.fpOn := by
  have hbit : ∀ j ∈ [13, 14], (h.sret.csr .sstatus).getLsbD j = (h.csr .sstatus).getLsbD j := by
    intro j hj
    have hne : j ≠ 8 ∧ j ≠ 5 ∧ j ≠ 1 := by
      simp only [List.mem_cons, List.not_mem_nil, or_false] at hj
      omega
    rw [h.sstatus_sret, getLsbD_setBit (by decide), if_neg hne.1, getLsbD_setBit (by decide), if_neg hne.2.1,
      getLsbD_setBit (by decide), if_neg hne.2.2]
  rw [fpOn, fpOn, hbit 13 (by decide), hbit 14 (by decide)]

theorem Hart.regs_sret (h : Hart) : h.sret.regs = h.returnRegs := by
  have hstatus := h.sstatus_sret
  have hsie : h.sret.csr .sie = h.csr .sie := h.csr_sret_of_ne (by decide)
  have hintp : h.sret.intp = (h.csr .sstatus).getLsbD 5 := by
    rw [intp, hstatus, getLsbD_setBit (by decide), if_neg (by decide), getLsbD_setBit (by decide),
      if_neg (by decide), getLsbD_setBit (by decide), if_pos rfl]
  rw [regs, hstatus, hsie, hintp, others_setBit (by decide), others_setBit (by decide),
    others_setBit (by decide)]
  rfl

theorem Hart.sstatus_takeTrap (h : Hart) (cause tval : Word) : (h.takeTrap cause tval).csr .sstatus =
    setBit (setBit (setBit (h.csr .sstatus) 8 (decide (h.priv = .supervisor))) 5 h.intp) 1 false := by
  simp [takeTrap]

theorem Hart.csr_takeTrap_of_ne (h : Hart) {cause tval : Word} {c : Csr}
    (hc : c ∉ [Csr.sstatus, .sepc, .scause, .stval]) : (h.takeTrap cause tval).csr c = h.csr c := by
  simp only [List.mem_cons, List.not_mem_nil, or_false, not_or] at hc
  simp [takeTrap, csr_setCsr_of_ne, hc]

theorem Hart.fpOn_takeTrap (h : Hart) (cause tval : Word) : (h.takeTrap cause tval).fpOn = h.fpOn := by
  have hbit : ∀ j ∈ [13, 14],
      ((h.takeTrap cause tval).csr .sstatus).getLsbD j = (h.csr .sstatus).getLsbD j := by
    intro j hj
    have hne : j ≠ 1 ∧ j ≠ 5 ∧ j ≠ 8 := by
      simp only [List.mem_cons, List.not_mem_nil, or_false] at hj
      omega
    rw [h.sstatus_takeTrap, getLsbD_setBit (by decide), if_neg hne.1, getLsbD_setBit (by decide),
      if_neg hne.2.1, getLsbD_setBit (by decide), if_neg hne.2.2]
  rw [fpOn, fpOn, hbit 13 (by decide), hbit 14 (by decide)]

/-- The mode is kept in `SPP`, and in `SPIE` what was masked. -/
theorem Hart.returnRegs_takeTrap (h : Hart) (cause tval : Word) :
    (h.takeTrap cause tval).returnRegs = h.regs := by
  have hstatus := h.sstatus_takeTrap cause tval
  have hsepc : (h.takeTrap cause tval).csr .sepc = h.pc := by simp [takeTrap, csr_setCsr_of_ne]
  have hsie : (h.takeTrap cause tval).csr .sie = h.csr .sie := h.csr_takeTrap_of_ne (by decide)
  have hspp : ((h.takeTrap cause tval).csr .sstatus).getLsbD 8 = decide (h.priv = .supervisor) := by
    rw [hstatus, getLsbD_setBit (by decide), if_neg (by decide), getLsbD_setBit (by decide),
      if_neg (by decide), getLsbD_setBit (by decide), if_pos rfl]
  have hspie : ((h.takeTrap cause tval).csr .sstatus).getLsbD 5 = h.intp := by
    rw [hstatus, getLsbD_setBit (by decide), if_neg (by decide), getLsbD_setBit (by decide), if_pos rfl]
  have hpriv : (if decide (h.priv = .supervisor) then Priv.supervisor else Priv.user) = h.priv := by
    cases h.priv <;> rfl
  rw [returnRegs, hsepc, hsie, hspp, hspie, hpriv, hstatus, others_setBit (by decide),
    others_setBit (by decide), others_setBit (by decide)]
  rfl

theorem Hart.masked_takeTrap (h : Hart) (cause tval : Word) : (h.takeTrap cause tval).Masked := by
  refine ⟨rfl, ?_⟩
  rw [intp, h.sstatus_takeTrap, getLsbD_setBit (by decide), if_pos rfl]

/-! ## Instructions -/

/-- The instructions that only go on to the next. -/
inductive Insn where
  | sd (rs : Reg) (off : Nat) (base : Reg)
  | ld (rd : Reg) (off : Nat) (base : Reg)
  /-- From the address of a symbol. -/
  | ldSym (rd : Reg) (addr : Word)
  | fsd (rs : Reg) (off : Nat) (base : Reg)
  | fld (rd : Reg) (off : Nat) (base : Reg)
  | csrr (rd : Reg) (csr : Csr)
  | csrw (csr : Csr) (rs : Reg)
  | csrrw (rd : Reg) (csr : Csr) (rs : Reg)
  | li (rd : Reg) (imm : Word)
  | mv (rd rs : Reg)
  | andi (rd rs : Reg) (imm : Word)
  | ori (rd rs : Reg) (imm : Word)
  | and (rd rs rt : Reg)
  | or (rd rs rt : Reg)
  | add (rd rs rt : Reg)
  | slli (rd rs : Reg) (n : Nat)
  | srli (rd rs : Reg) (n : Nat)
  /-- Translations are not part of the hart. -/
  | sfenceVma (rs rt : Reg)
  deriving DecidableEq, Repr

/-- With the branches to labels `T` outside, and over the next `n` instructions. -/
inductive Instr (T : Type) where
  | op (o : Insn)
  | bnez (rs : Reg) (n : Nat)
  /-- The address behind it is `ret`. -/
  | call (target : T) (ret : Word)
  | sret

/-- How a piece of code is left. -/
inductive Exit (T : Type) where
  | fell
  | called (target : T)
  | returned
  deriving DecidableEq, Repr

def effective (base : Word) (off : Nat) : Word := base + BitVec.ofNat 64 off

def IsAligned (a : Word) : Prop := a.toNat % 8 = 0

instance (a : Word) : Decidable (IsAligned a) := inferInstanceAs (Decidable (_ = _))

theorem effective_inj {a : Word} {m n : Nat} (hm : m < 2 ^ 64) (hn : n < 2 ^ 64) :
    effective a m = effective a n ↔ m = n := by
  rw [effective, effective, BitVec.add_right_inj, ← BitVec.toNat_inj, BitVec.toNat_ofNat,
    BitVec.toNat_ofNat, Nat.mod_eq_of_lt hm, Nat.mod_eq_of_lt hn]

theorem Hart.mem_store_effective {h : Hart} {a : Word} {m n : Nat} (hm : m < 2 ^ 64) (hn : n < 2 ^ 64)
    (hne : n ≠ m) (v : Word) : (h.store (effective a m) v).mem (effective a n) = h.mem (effective a n) := by
  have hcell : effective a n ≠ effective a m := by
    rw [Ne, effective_inj hn hm]
    exact hne
  rw [mem_store, Function.update_of_ne hcell]

theorem aligned_effective {a : Word} {n : Nat} (ha : IsAligned a) (hn : n % 8 = 0) :
    IsAligned (effective a n) := by
  unfold IsAligned effective at *
  rw [BitVec.toNat_add, BitVec.toNat_ofNat]
  omega

/-- `FS` is `Dirty`. -/
def dirtied (status : Word) : Word := setBit (setBit (setBit status 13 true) 14 true) 63 true

/-- One instruction. It has no result where it traps. -/
def Insn.exec (h : Hart) : Insn → Option Hart
  | .sd rs off base =>
      let a := effective (h.get base) off
      if IsAligned a then some (h.store a (h.get rs)) else none
  | .ld rd off base =>
      let a := effective (h.get base) off
      if IsAligned a then some (h.set rd (h.mem a)) else none
  | .ldSym rd a => if IsAligned a then some (h.set rd (h.mem a)) else none
  | .fsd rs off base =>
      let a := effective (h.get base) off
      if IsAligned a ∧ h.fpOn then some (h.store a (h.f rs)) else none
  | .fld rd off base =>
      let a := effective (h.get base) off
      if IsAligned a ∧ h.fpOn then
        some { h.setCsr .sstatus (dirtied (h.csr .sstatus)) with f := Function.update h.f rd (h.mem a) }
      else none
  | .csrr rd csr => some (h.set rd (h.csr csr))
  | .csrw csr rs => some (h.setCsr csr (h.get rs))
  | .csrrw rd csr rs => some ((h.setCsr csr (h.get rs)).set rd (h.csr csr))
  | .li rd imm => some (h.set rd imm)
  | .mv rd rs => some (h.set rd (h.get rs))
  | .andi rd rs imm => some (h.set rd (h.get rs &&& imm))
  | .ori rd rs imm => some (h.set rd (h.get rs ||| imm))
  | .and rd rs rt => some (h.set rd (h.get rs &&& h.get rt))
  | .or rd rs rt => some (h.set rd (h.get rs ||| h.get rt))
  | .add rd rs rt => some (h.set rd (h.get rs + h.get rt))
  | .slli rd rs n => some (h.set rd (h.get rs <<< n))
  | .srli rd rs n => some (h.set rd (h.get rs >>> n))
  | .sfenceVma _ _ => some h

/-- Instructions one after the other, as long as nothing can come between. -/
def execs : List Insn → Hart → Option Hart
  | [], h => some h
  | o :: os, h => if h.Masked then (o.exec h).bind (execs os) else none

variable {T : Type}

/-- A piece of code, behind the instructions that a branch skips. -/
def run : List (Instr T) → Nat → Hart → Option (Exit T × Hart)
  | [], _, h => some (.fell, h)
  | _ :: is, n + 1, h => run is n h
  | .op o :: is, 0, h => if h.Masked then (o.exec h).bind (run is 0) else none
  | .bnez rs n :: is, 0, h => if h.Masked then run is (if h.get rs = 0 then 0 else n) h else none
  | .call target ret :: _, 0, h => if h.Masked then some (.called target, h.set 1 ret) else none
  | .sret :: _, 0, h => if h.Masked then some (.returned, h.sret) else none

variable {h h' : Hart} {os : List Insn} {is : List (Instr T)}

theorem execs_cons {o : Insn} (hm : h.Masked) (ho : o.exec h = some h') : execs (o :: os) h = execs os h' := by
  rw [execs, if_pos hm, ho]
  rfl

section One

variable {rd rs rt base : Reg} {off n : Nat} {c : Csr} {a : Word}

@[simp] theorem execs_nil : execs [] h = some h := rfl

@[simp] theorem execs_sd_cons (hm : h.Masked) (ha : IsAligned (effective (h.get base) off)) :
    execs (.sd rs off base :: os) h = execs os (h.store (effective (h.get base) off) (h.get rs)) :=
  execs_cons hm (if_pos ha)

@[simp] theorem execs_ld_cons (hm : h.Masked) (ha : IsAligned (effective (h.get base) off)) :
    execs (.ld rd off base :: os) h = execs os (h.set rd (h.mem (effective (h.get base) off))) :=
  execs_cons hm (if_pos ha)

@[simp] theorem execs_ldSym_cons (hm : h.Masked) (ha : IsAligned a) :
    execs (.ldSym rd a :: os) h = execs os (h.set rd (h.mem a)) :=
  execs_cons hm (if_pos ha)

@[simp] theorem execs_csrr_cons (hm : h.Masked) :
    execs (.csrr rd c :: os) h = execs os (h.set rd (h.csr c)) :=
  execs_cons hm rfl

@[simp] theorem execs_csrw_cons (hm : h.Masked) :
    execs (.csrw c rs :: os) h = execs os (h.setCsr c (h.get rs)) :=
  execs_cons hm rfl

@[simp] theorem execs_csrrw_cons (hm : h.Masked) :
    execs (.csrrw rd c rs :: os) h = execs os ((h.setCsr c (h.get rs)).set rd (h.csr c)) :=
  execs_cons hm rfl

@[simp] theorem execs_li_cons (hm : h.Masked) : execs (.li rd a :: os) h = execs os (h.set rd a) :=
  execs_cons hm rfl

@[simp] theorem execs_mv_cons (hm : h.Masked) : execs (.mv rd rs :: os) h = execs os (h.set rd (h.get rs)) :=
  execs_cons hm rfl

@[simp] theorem execs_andi_cons (hm : h.Masked) :
    execs (.andi rd rs a :: os) h = execs os (h.set rd (h.get rs &&& a)) :=
  execs_cons hm rfl

@[simp] theorem execs_ori_cons (hm : h.Masked) :
    execs (.ori rd rs a :: os) h = execs os (h.set rd (h.get rs ||| a)) :=
  execs_cons hm rfl

@[simp] theorem execs_and_cons (hm : h.Masked) :
    execs (.and rd rs rt :: os) h = execs os (h.set rd (h.get rs &&& h.get rt)) :=
  execs_cons hm rfl

@[simp] theorem execs_or_cons (hm : h.Masked) :
    execs (.or rd rs rt :: os) h = execs os (h.set rd (h.get rs ||| h.get rt)) :=
  execs_cons hm rfl

@[simp] theorem execs_add_cons (hm : h.Masked) :
    execs (.add rd rs rt :: os) h = execs os (h.set rd (h.get rs + h.get rt)) :=
  execs_cons hm rfl

@[simp] theorem execs_slli_cons (hm : h.Masked) :
    execs (.slli rd rs n :: os) h = execs os (h.set rd (h.get rs <<< n)) :=
  execs_cons hm rfl

@[simp] theorem execs_srli_cons (hm : h.Masked) :
    execs (.srli rd rs n :: os) h = execs os (h.set rd (h.get rs >>> n)) :=
  execs_cons hm rfl

@[simp] theorem execs_sfenceVma_cons (hm : h.Masked) : execs (.sfenceVma rs rt :: os) h = execs os h :=
  execs_cons hm rfl

end One

theorem execs_append (os os' : List Insn) (h : Hart) :
    execs (os ++ os') h = (execs os h).bind (execs os') := by
  induction os generalizing h with
  | nil => rfl
  | cons o os ih =>
      simp only [List.cons_append, execs]
      by_cases hm : h.Masked
      · simp only [hm, if_true]
        cases o.exec h with
        | none => rfl
        | some h' => exact ih h'
      · simp only [hm, if_false]
        rfl

/-- Instructions before the rest of a piece of code. -/
theorem run_ops (os : List Insn) (is : List (Instr T)) (h : Hart) :
    run (os.map .op ++ is) 0 h = (execs os h).bind (run is 0) := by
  induction os generalizing h with
  | nil => rfl
  | cons o os ih =>
      simp only [List.map_cons, List.cons_append, run, execs]
      by_cases hm : h.Masked
      · simp only [hm, if_true]
        cases o.exec h with
        | none => rfl
        | some h' => exact ih h'
      · simp only [hm, if_false]
        rfl

/-- Code that can be interrupted has no result. -/
theorem masked_of_run (hne : is ≠ []) {x : Exit T × Hart} (hrun : run is 0 h = some x) : h.Masked := by
  by_contra hm
  cases is with
  | nil => exact hne rfl
  | cons i is => cases i <;> simp [run, hm] at hrun

/-- What is skipped does not matter. -/
theorem run_skip (is' is : List (Instr T)) (h : Hart) : run (is' ++ is) is'.length h = run is 0 h := by
  induction is' with
  | nil => rfl
  | cons i is' ih => exact ih

/-! ## Registers one by one -/

section Family

variable {K V : Type*} [DecidableEq K] (m : K → V) (rs : List Reg) (k : Reg → K) (v : Reg → V)

/-- Values written one by one, each at its own place. -/
def writes : K → V := rs.foldl (fun m r => Function.update m (k r) (v r)) m

theorem writes_of_ne {a : K} (ha : ∀ r ∈ rs, a ≠ k r) : writes m rs k v a = m a := by
  unfold writes
  induction rs generalizing m with
  | nil => rfl
  | cons r rs ih =>
      obtain ⟨hr, hrs⟩ := List.forall_mem_cons.mp ha
      rw [List.foldl_cons, ih _ hrs, Function.update_of_ne hr]

theorem writes_of_mem (hk : Function.Injective k) {r : Reg} (hr : r ∈ rs) : writes m rs k v (k r) = v r := by
  unfold writes
  induction rs generalizing m with
  | nil => exact absurd hr List.not_mem_nil
  | cons s rs ih =>
      rw [List.foldl_cons]
      by_cases hmem : r ∈ rs
      · exact ih _ hmem
      · obtain rfl : r = s := (List.mem_cons.mp hr).resolve_right hmem
        have hne : ∀ s ∈ rs, k r ≠ k s := by
          intro s hs heq
          exact hmem (hk heq ▸ hs)
        have hrest := writes_of_ne (Function.update m (k r) (v r)) rs k v hne
        unfold writes at hrest
        rw [hrest, Function.update_self]

end Family

/-- The registers `rs` are stored. -/
theorem execs_sd (off : Reg → Nat) (base : Reg) (hm : h.Masked) (rs : List Reg)
    (halign : ∀ r ∈ rs, IsAligned (effective (h.get base) (off r))) :
    execs (rs.map fun r => .sd r (off r) base) h =
      some { h with mem := writes h.mem rs (fun r => effective (h.get base) (off r)) h.get } := by
  induction rs generalizing h with
  | nil => rfl
  | cons r rs ih =>
      obtain ⟨hr, hrs⟩ := List.forall_mem_cons.mp halign
      have hstep : (Insn.sd r (off r) base).exec h =
          some (h.store (effective (h.get base) (off r)) (h.get r)) := if_pos hr
      have hrest := ih (h := h.store (effective (h.get base) (off r)) (h.get r)) hm hrs
      rw [List.map_cons, execs_cons hm hstep]
      exact hrest

theorem execs_fsd (off : Reg → Nat) (base : Reg) (hm : h.Masked) (hfp : h.fpOn = true) (rs : List Reg)
    (halign : ∀ r ∈ rs, IsAligned (effective (h.get base) (off r))) :
    execs (rs.map fun r => .fsd r (off r) base) h =
      some { h with mem := writes h.mem rs (fun r => effective (h.get base) (off r)) h.f } := by
  induction rs generalizing h with
  | nil => rfl
  | cons r rs ih =>
      obtain ⟨hr, hrs⟩ := List.forall_mem_cons.mp halign
      have hstep : (Insn.fsd r (off r) base).exec h = some (h.store (effective (h.get base) (off r)) (h.f r)) :=
        if_pos ⟨hr, hfp⟩
      have hrest := ih (h := h.store (effective (h.get base) (off r)) (h.f r)) hm hfp hrs
      rw [List.map_cons, execs_cons hm hstep]
      exact hrest

/-- The registers `rs` are loaded, not that of the address among them. -/
theorem execs_ld (off : Reg → Nat) (base : Reg) (hm : h.Masked) (rs : List Reg) (hbase : base ∉ rs)
    (halign : ∀ r ∈ rs, IsAligned (effective (h.get base) (off r))) :
    execs (rs.map fun r => .ld r (off r) base) h =
      some { h with x := writes h.x rs id fun r => h.mem (effective (h.get base) (off r)) } := by
  induction rs generalizing h with
  | nil => rfl
  | cons r rs ih =>
      obtain ⟨hr, hrs⟩ := List.forall_mem_cons.mp halign
      obtain ⟨hne, hbase⟩ := not_or.mp (mt List.mem_cons.mpr hbase)
      have hstep : (Insn.ld r (off r) base).exec h = some (h.set r (h.mem (effective (h.get base) (off r)))) :=
        if_pos hr
      have heff : ∀ v s, effective ((h.set r v).get base) (off s) = effective (h.get base) (off s) := by
        intro v s
        rw [Hart.get_set_of_ne h hne]
      have hrest := ih (h := h.set r (h.mem (effective (h.get base) (off r)))) hm hbase
        (by simpa only [heff] using hrs)
      rw [List.map_cons, execs_cons hm hstep, hrest]
      simp only [heff]
      rfl

theorem getLsbD_dirtied {w : Word} {j : Nat} :
    (dirtied w).getLsbD j = (decide (j = 13 ∨ j = 14 ∨ j = 63) || w.getLsbD j) := by
  rw [dirtied, getLsbD_setBit (by decide), getLsbD_setBit (by decide), getLsbD_setBit (by decide)]
  split_ifs <;> simp_all

theorem Hart.masked_dirtied (hm : h.Masked) : (h.setCsr .sstatus (dirtied (h.csr .sstatus))).Masked := by
  have hbit : (dirtied (h.csr .sstatus)).getLsbD 1 = h.intp := by
    rw [getLsbD_dirtied]
    rfl
  exact h.masked_setCsr_sstatus.mpr ⟨hm.1, hbit.trans hm.2⟩

theorem Hart.fpOn_dirtied : (h.setCsr .sstatus (dirtied (h.csr .sstatus))).fpOn = true := by
  rw [Hart.fpOn_setCsr_sstatus, getLsbD_dirtied]
  rfl

theorem getLsbD_dirtied_iterate {w : Word} {j : Nat} (hj : j ≠ 13 ∧ j ≠ 14 ∧ j ≠ 63) (n : Nat) :
    (Nat.iterate dirtied n w).getLsbD j = w.getLsbD j := by
  induction n generalizing w with
  | zero => rfl
  | succ n ih =>
      rw [Function.iterate_succ_apply, ih, getLsbD_dirtied]
      simp [hj]

theorem fpOn_dirtied_iterate {w : Word} (hw : w.getLsbD 13 = true ∨ w.getLsbD 14 = true) (n : Nat) :
    (Nat.iterate dirtied n w).getLsbD 13 = true ∨ (Nat.iterate dirtied n w).getLsbD 14 = true := by
  induction n generalizing w with
  | zero => exact hw
  | succ n ih =>
      apply ih
      left
      rw [getLsbD_dirtied]
      rfl

/-- The floating-point registers `rs` are loaded, which `FS` says. -/
theorem execs_fld (off : Reg → Nat) (base : Reg) (hm : h.Masked) (hfp : h.fpOn = true) (rs : List Reg)
    (halign : ∀ r ∈ rs, IsAligned (effective (h.get base) (off r))) :
    execs (rs.map fun r => .fld r (off r) base) h =
      some { h.setCsr .sstatus (Nat.iterate dirtied rs.length (h.csr .sstatus)) with
        f := writes h.f rs id fun r => h.mem (effective (h.get base) (off r)) } := by
  induction rs generalizing h with
  | nil => simp [writes, Hart.setCsr]
  | cons r rs ih =>
      obtain ⟨hr, hrs⟩ := List.forall_mem_cons.mp halign
      obtain ⟨h', hh'⟩ : ∃ h' : Hart, h' = { h.setCsr .sstatus (dirtied (h.csr .sstatus)) with
          f := Function.update h.f r (h.mem (effective (h.get base) (off r))) } := ⟨_, rfl⟩
      have hstep : (Insn.fld r (off r) base).exec h = some h' := hh' ▸ if_pos ⟨hr, hfp⟩
      have hm' : h'.Masked := by
        subst hh'
        exact Hart.masked_dirtied hm
      have hfp' : h'.fpOn = true := by
        subst hh'
        exact Hart.fpOn_dirtied
      have heff : ∀ s, effective (h'.get base) (off s) = effective (h.get base) (off s) := by
        intro s
        rw [hh']
        rfl
      rw [List.map_cons, execs_cons hm hstep, ih hm' hfp' (by simpa only [heff] using hrs)]
      simp only [heff]
      subst hh'
      simp [Hart.setCsr, writes]

end Rv64

end Jrinx
