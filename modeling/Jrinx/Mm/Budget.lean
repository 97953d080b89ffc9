import Jrinx.Lib.Runs
import Jrinx.Mm.Charges

/-! # The memory budget of a partition

A partition has `pa_mem_req` bytes; `pa_mem_rem` says what is left. `part_pt_alloc` checks and charges
every page. `proc_alloc` checks the user stack, and then charges the user stack and the kernel stack.

* **`MemEvent`**, **`memStep`** — the operations that charge a partition.
* **`InBudget`** — what is left and what was given add up to what was requested.
* **`budget_iff`** — the runs in which all partitions stay within their budgets. -/

namespace Jrinx

open Op

/-! ## The operations -/

/-- The operations. -/
inductive MemEvent where
  /-- `part_create`. -/
  | partCreate (memoryReq : UInt64) (prog : Prog)
  /-- `do_create_process` by a process of the partition, after the checks that concern no memory. -/
  | createProcess (pt : PartId) (stackSize : UInt64)
  /-- `do_pagefault` in the partition. -/
  | pagefault (pt : PartId) (va : Nat) (super store : Bool)

/-- One operation. A failed `part_create` stops the boot; the others are for registered partitions. -/
def memStep (m : Mem) : MemEvent → Except Unit Mem
  | .partCreate memoryReq prog => (Op.panicE (partCreate memoryReq.toNat prog) m).settled
  | .createProcess pt stackSize =>
      if pt ∈ m.partIds then
        if ustkSizeMax < stackSize.toNat then .ok m
        else (procAllocMem pt stackSize.toNat m).settled
      else .error ()
  | .pagefault pt va super store =>
      if pt ∈ m.partIds then (doPagefault pt va super store m).settled else .error ()

/-! ## Budgets -/

/-- **A partition within its budget.** -/
structure InBudget (p : PartMem) : Prop where
  /-- The budget left is never above the request. -/
  rem_le : p.paMemRem ≤ p.paMemReq
  /-- Nothing wrapped: what is left is what was not given. -/
  rem_add : p.paMemRem + pgSize * p.paGiven = p.paMemReq
  /-- The frames that were given fit in the request. -/
  given_le : pgSize * p.paGiven ≤ p.paMemReq

theorem inBudget_of_add {p : PartMem} (h : p.paMemRem + pgSize * p.paGiven = p.paMemReq) :
    InBudget p :=
  ⟨by omega, h, by omega⟩

/-- All registered partitions are within their budgets. -/
def AllInBudget (m : Mem) : Prop := ∀ pt ∈ m.partIds, InBudget (m.parts pt)

/-- The budget left does not end between the user stack and the kernel stack of a process. -/
def StacksFit (rem stackSize : Nat) : Prop :=
  rem < alignUp stackSize pgSize ∨ alignUp stackSize pgSize + kstkSize ≤ rem

/-- The pages of a program. -/
def Prog.pages (prog : Prog) : Nat := (prog.loads.map fun phdr => (elf64LoadProg phdr).length).sum

/-- The operation does not create a process whose user stack fits in the budget while its two stacks do
not. -/
def MemEvent.Fits (m : Mem) : MemEvent → Prop
  | .partCreate memoryReq prog =>
      StacksFit (memoryReq.toNat - pgSize * prog.pages) (ustkLimit - prog.mainProcStacktop)
  | .createProcess pt stackSize =>
      ustkSizeMax < stackSize.toNat ∨ StacksFit (m.parts pt).paMemRem stackSize.toNat
  | .pagefault _ _ _ _ => True

/-! ## Pages of stacks -/

theorem pgSize_dvd_alignUp (x : Nat) : pgSize ∣ alignUp x pgSize := Nat.dvd_sub_mod _

theorem pgSize_mul_pageSteps {n : Nat} (h : pgSize ∣ n) : pgSize * (pageSteps 0 n).length = n := by
  obtain ⟨k, rfl⟩ := h
  rw [length_pageSteps, Nat.sub_zero, Nat.mul_add_div (by decide)]
  rfl

theorem pgSize_mul_kstk : pgSize * (pageSteps 0 kstkSize).length = kstkSize :=
  pgSize_mul_pageSteps (by decide)

/-! ## What the operations charge -/

section Charges

variable {pt : PartId} {m m' : Mem}

/-- A charge of some pages of the budget, all of which were given. -/
structure Spent (pt : PartId) (n : Nat) (m m' : Mem) : Prop where
  fits : pgSize * n ≤ (m.parts pt).paMemRem
  charged : Charged pt ((m.parts pt).paMemRem - pgSize * n) ((m.parts pt).paGiven + n) m m'

theorem Spent.none (h : SameParts m m') : Spent pt 0 m m' :=
  ⟨by simp, (h.charged pt).congr (by simp) rfl⟩

theorem Spent.trans {m₁ : Mem} {n n' : Nat} (h : Spent pt n m m₁) (h' : Spent pt n' m₁ m') :
    Spent pt (n + n') m m' := by
  have hfits := h'.fits
  have hrem := h.charged.paMemRem
  have hle := h.fits
  refine ⟨by rw [Nat.mul_add]; omega, (h.charged.trans h'.charged).congr ?_ ?_⟩
  · rw [Nat.mul_add]
    omega
  · rw [h.charged.paGiven]
    omega

theorem Spent.page {va : Nat} {perm : Perm} {f : Ppn} (h : partPtAlloc pt va perm m = .ok f m') :
    Spent pt 1 m m' := by
  obtain ⟨hle, hcharged⟩ := partPtAlloc_ok h
  refine ⟨by simpa using hle, hcharged.congr ?_ rfl⟩
  rw [wordSub_of_le hle, Nat.mul_one]

/-- What is spent keeps a partition within its budget. -/
theorem Spent.inBudget {n : Nat} (h : Spent pt n m m') (hp : InBudget (m.parts pt)) :
    InBudget (m'.parts pt) := by
  apply inBudget_of_add
  have hfits := h.fits
  have hadd := hp.rem_add
  rw [h.charged.paMemRem, h.charged.paGiven, h.charged.paMemReq, Nat.mul_add]
  omega

/-- A loop spends what its rounds spend. -/
theorem Spent.forM {β : Type} {l : List β} {body : β → Op Mem Unit} {n : β → Nat} {u : Unit}
    (hbody : ∀ b {m m' : Mem} {u : Unit}, body b m = .ok u m' → Spent pt (n b) m m')
    (h : l.forM body m = .ok u m') : Spent pt (l.map n).sum m m' := by
  refine forM_induct (P := fun l m m' => Spent pt (l.map n).sum m m') (fun m => .none (.refl m)) ?_ h
  intro b l m m₁ m' u hb ih
  rw [List.map_cons, List.sum_cons]
  exact (hbody b hb).trans ih

/-- A segment is loaded page by page. -/
theorem segment_ok (perm : Perm) (l : List Nat) {m m' : Mem} {u : Unit}
    (h : (l.forM fun va => do let _ ← partPtAlloc pt va perm; pure () : Op Mem Unit) m = .ok u m') :
    Spent pt l.length m m' := by
  have hpage : ∀ va {m m' : Mem} {u : Unit},
      (do let _ ← partPtAlloc pt va perm; pure () : Op Mem Unit) m = .ok u m' → Spent pt 1 m m' := by
    intro va m m' u hva
    obtain ⟨f, m₁, hf, hend⟩ := bind_eq_ok.mp hva
    obtain ⟨-, rfl⟩ := pure_eq_ok.mp hend
    exact Spent.page hf
  have hspent := Spent.forM hpage h
  rwa [List.map_const', List.sum_replicate_nat, Nat.mul_one] at hspent

/-- **`part_load_prog`** charges the pages of the program. -/
theorem partLoadProg_ok {prog : Prog} {u : Unit} (h : partLoadProg pt prog m = .ok u m') :
    Spent pt prog.pages m m' ∧
      (m'.parts pt).paMainProcStacksize = ustkLimit - prog.mainProcStacktop := by
  unfold partLoadProg at h
  obtain ⟨_, m₁, hloads, h⟩ := bind_eq_ok.mp h
  split at h
  · exact (fail_eq_ok.mp h).elim
  rw [← modify_eq_ok.mp h]
  have hspent : Spent pt prog.pages m m₁ := Spent.forM (fun phdr => segment_ok _ _) hloads
  refine ⟨⟨hspent.fits, (hspent.charged.trans (charged_updPart m₁ pt ?_ ?_)).congr ?_ ?_⟩, ?_⟩
  · rfl
  · rfl
  · exact hspent.charged.paMemRem
  · exact hspent.charged.paGiven
  · simp [Mem.updPart]

/-- **`do_pagefault`** charges a page, or nothing. -/
theorem doPagefault_ok {va : Nat} {super store : Bool} {u : Unit}
    (h : doPagefault pt va super store m = .ok u m') : ∃ n, Spent pt n m m' := by
  have hmark : ∀ {a : PteAddr} {m₁ : Mem}, SameParts m₁ (markAccess a store m₁) :=
    fun {_ _} => ⟨rfl, rfl, rfl, rfl, rfl, rfl⟩
  unfold doPagefault at h
  obtain ⟨_, _, hg, h⟩ := bind_eq_ok.mp h
  obtain ⟨rfl, rfl⟩ := get_eq_ok.mp hg
  obtain ⟨pte, m₁, hlookup, h⟩ := bind_eq_ok.mp h
  have hsame₁ := sameParts_ptLookup _ va (.refl m) (panicE_eq_ok.mp hlookup)
  cases pte with
  | some a =>
      rw [← modify_eq_ok.mp h]
      exact ⟨0, (Spent.none hsame₁).trans (Spent.none hmark)⟩
  | none =>
      dsimp only at h
      split at h
      · obtain ⟨f, m₂, hf, h⟩ := bind_eq_ok.mp h
        obtain ⟨pte, m₃, hlookup, h⟩ := bind_eq_ok.mp h
        have hsame₃ := sameParts_ptLookup _ va (.refl m₂) (panicE_eq_ok.mp hlookup)
        have hspent := (Spent.none hsame₁).trans
          ((Spent.page (panicE_eq_ok.mp hf)).trans (Spent.none hsame₃))
        cases pte with
        | some a =>
            rw [← modify_eq_ok.mp h]
            exact ⟨_, hspent.trans (Spent.none hmark)⟩
        | none => exact (halt_eq_ok.mp h).elim
      · exact (halt_eq_ok.mp h).elim

theorem doPagefault_ne_err {va : Nat} {super store : Bool} : doPagefault pt va super store m ≠ .err m' := by
  intro h
  unfold doPagefault at h
  rcases bind_eq_err.mp h with hg | ⟨_, _, hg, h⟩
  · simp [Op.get] at hg
  rcases bind_eq_err.mp h with hlookup | ⟨pte, m₁, -, h⟩
  · exact panicE_ne_err hlookup
  cases pte with
  | some a => simp [Op.modify] at h
  | none =>
      dsimp only at h
      split at h
      · rcases bind_eq_err.mp h with hpage | ⟨_, m₂, -, h⟩
        · exact panicE_ne_err hpage
        rcases bind_eq_err.mp h with hlookup | ⟨pte, m₃, -, h⟩
        · exact panicE_ne_err hlookup
        cases pte with
        | some a => simp [Op.modify] at h
        | none => simp [Op.halt] at h
      · simp [Op.halt] at h

/-- A process is created within the budget exactly when both stacks fit. -/
theorem procAllocMem_inBudget {stackSize : Nat} {stk : Stacks}
    (h : procAllocMem pt stackSize m = .ok stk m') (hp : InBudget (m.parts pt)) :
    InBudget (m'.parts pt) ↔ StacksFit (m.parts pt).paMemRem stackSize := by
  obtain ⟨hle, hcharged⟩ := procAllocMem_ok h
  have hadd := hp.rem_add
  have hu := pgSize_mul_pageSteps (pgSize_dvd_alignUp stackSize)
  have hk := pgSize_mul_kstk
  constructor
  · intro hin
    have hgiven := hin.given_le
    rw [hcharged.paGiven, hcharged.paMemReq, Nat.mul_add, Nat.mul_add, hu, hk] at hgiven
    right
    omega
  · rintro (hlt | hfit)
    · omega
    · apply inBudget_of_add
      rw [hcharged.paMemRem, hcharged.paGiven, hcharged.paMemReq, Nat.mul_add, Nat.mul_add, hu, hk,
        wordSub_of_le hle, wordSub_of_le (by omega)]
      omega

/-- A process is refused where its user stack does not fit. -/
theorem procAllocMem_refused {stackSize : Nat} (h : procAllocMem pt stackSize m = .err m') :
    (m.parts pt).paMemRem < alignUp stackSize pgSize := by
  by_contra hfit
  unfold procAllocMem at h
  rcases bind_eq_err.mp h with hg | ⟨_, _, hg, h⟩
  · simp [Op.get] at hg
  obtain ⟨rfl, rfl⟩ := get_eq_ok.mp hg
  rw [if_neg hfit] at h
  rcases bind_eq_err.mp h with hu | ⟨_, m₁, -, h⟩
  · exact panicE_ne_err hu
  rcases bind_eq_err.mp h with hx | ⟨_, m₂, -, h⟩
  · exact panicE_ne_err hx
  · simp [pure, Op.pure] at h

end Charges

/-! ## Steps and runs -/

/-- All registered partitions are within their budgets, and the next identifier is not one of theirs. -/
structure Ledger (m : Mem) : Prop where
  lt_next : ∀ pt ∈ m.partIds, pt < m.nxtPartId
  inBudget : AllInBudget m

section Steps

variable {pt : PartId} {rem given : Nat} {m m' : Mem}

/-- A charge of one partition concerns the budget of that partition only. -/
theorem Ledger.charged (hi : Ledger m) (hpt : pt ∈ m.partIds) (hc : Charged pt rem given m m') :
    (∀ q ∈ m'.partIds, q < m'.nxtPartId) ∧ (AllInBudget m' ↔ InBudget (m'.parts pt)) := by
  refine ⟨?_, fun hall => hall pt (hc.partIds ▸ hpt), fun hin q hq => ?_⟩
  · rw [hc.partIds, hc.nxtPartId]
    exact hi.lt_next
  · by_cases hqpt : q = pt
    · rw [hqpt]
      exact hin
    · rw [hc.other q hqpt]
      exact hi.inBudget q (hc.partIds ▸ hq)

theorem Ledger.spent {n : Nat} (hi : Ledger m) (hpt : pt ∈ m.partIds) (hs : Spent pt n m m') :
    Ledger m' := by
  obtain ⟨hlt, hiff⟩ := hi.charged hpt hs.charged
  exact ⟨hlt, hiff.mpr (hs.inBudget (hi.inBudget pt hpt))⟩

/-- **`part_alloc`** registers a partition with its whole budget. -/
theorem Ledger.partAlloc {memoryReq : Nat} (hi : Ledger m)
    (h : Jrinx.partAlloc memoryReq m = .ok pt m') :
    Ledger m' ∧ pt ∈ m'.partIds ∧ (m'.parts pt).paMemRem = memoryReq := by
  unfold Jrinx.partAlloc at h
  obtain ⟨frame, m₁, hframe, h⟩ := bind_eq_ok.mp h
  obtain ⟨_, _, hg, h⟩ := bind_eq_ok.mp h
  obtain ⟨rfl, rfl⟩ := get_eq_ok.mp hg
  obtain ⟨_, m₂, hm₂, h⟩ := bind_eq_ok.mp h
  obtain ⟨rfl, rfl⟩ := pure_eq_ok.mp h
  rw [← modify_eq_ok.mp hm₂]
  have hsame := sameParts_phyFrameAlloc (.refl m) hframe
  have hlt : ∀ q ∈ m₁.partIds, q < m₁.nxtPartId := by
    rw [hsame.partIds, hsame.nxtPartId]
    exact hi.lt_next
  refine ⟨⟨fun q hq => ?_, fun q hq => ?_⟩, by simp, by simp⟩
  · rcases List.mem_append.mp hq with hq | hq
    · exact Nat.lt_succ_of_lt (hlt q hq)
    · rw [List.mem_singleton.mp hq]
      exact Nat.lt_succ_self _
  · rcases List.mem_append.mp hq with hq | hq
    · dsimp only
      rw [Function.update_of_ne (hlt q hq).ne, hsame.parts]
      exact hi.inBudget q (hsame.partIds ▸ hq)
    · rw [List.mem_singleton.mp hq]
      apply inBudget_of_add
      simp

/-- **`part_create`** stays within the budget exactly when both stacks of the main process fit in what
the program leaves. -/
theorem Ledger.partCreate {memoryReq : UInt64} {prog : Prog} {x : PartId × Stacks} (hi : Ledger m)
    (h : Jrinx.partCreate memoryReq.toNat prog m = .ok x m') :
    (∀ q ∈ m'.partIds, q < m'.nxtPartId) ∧
      (AllInBudget m' ↔ (MemEvent.partCreate memoryReq prog).Fits m) := by
  unfold Jrinx.partCreate at h
  obtain ⟨pt, m₁, hpart, h⟩ := bind_eq_ok.mp h
  obtain ⟨_, m₂, hload, h⟩ := bind_eq_ok.mp h
  obtain ⟨_, _, hg, h⟩ := bind_eq_ok.mp h
  obtain ⟨rfl, rfl⟩ := get_eq_ok.mp hg
  obtain ⟨stk, m₃, hproc, h⟩ := bind_eq_ok.mp h
  obtain ⟨-, rfl⟩ := pure_eq_ok.mp h
  obtain ⟨hi₁, hpt₁, hrem₁⟩ := hi.partAlloc hpart
  obtain ⟨hspent, hstack⟩ := partLoadProg_ok (panicE_eq_ok.mp hload)
  have hi₂ := hi₁.spent hpt₁ hspent
  have hpt₂ : pt ∈ m₂.partIds := hspent.charged.partIds ▸ hpt₁
  obtain ⟨hlt, hiff⟩ := hi₂.charged hpt₂ (procAllocMem_ok hproc).2
  refine ⟨hlt, hiff.trans ((procAllocMem_inBudget hproc (hi₂.inBudget pt hpt₂)).trans ?_)⟩
  rw [hstack, hspent.charged.paMemRem, hrem₁]
  rfl

/-- **The step lemma.** -/
theorem Ledger.step {e : MemEvent} (hi : Ledger m) (h : memStep m e = .ok m') :
    (∀ q ∈ m'.partIds, q < m'.nxtPartId) ∧ (AllInBudget m' ↔ e.Fits m) := by
  cases e with
  | partCreate memoryReq prog =>
      rcases Res.settled_eq_ok h with ⟨x, hx⟩ | hx
      · exact hi.partCreate (panicE_eq_ok.mp hx)
      · exact absurd hx panicE_ne_err
  | createProcess pt stackSize =>
      rw [memStep] at h
      split at h
      · rename_i hpt
        split at h
        · rename_i hbig
          rw [← Except.ok.inj h]
          exact ⟨hi.lt_next, fun _ => Or.inl hbig, fun _ => hi.inBudget⟩
        · rename_i hsmall
          -- past the check of `CREATE_PROCESS` only the stacks decide
          have hfits : (MemEvent.createProcess pt stackSize).Fits m ↔
              StacksFit (m.parts pt).paMemRem stackSize.toNat :=
            ⟨fun hf => hf.resolve_left hsmall, Or.inr⟩
          rcases Res.settled_eq_ok h with ⟨stk, hx⟩ | hx
          · obtain ⟨hlt, hiff⟩ := hi.charged hpt (procAllocMem_ok hx).2
            refine ⟨hlt, ?_⟩
            rw [hiff, hfits]
            exact procAllocMem_inBudget hx (hi.inBudget pt hpt)
          · have hrefused := procAllocMem_refused hx
            rw [procAllocMem_err hx, hfits]
            exact ⟨hi.lt_next, fun _ => Or.inl hrefused, fun _ => hi.inBudget⟩
      · exact absurd h (by simp)
  | pagefault pt va super store =>
      rw [memStep] at h
      split at h
      · rename_i hpt
        rcases Res.settled_eq_ok h with ⟨u, hx⟩ | hx
        · obtain ⟨n, hspent⟩ := doPagefault_ok hx
          have hi' := hi.spent hpt hspent
          exact ⟨hi'.lt_next, fun _ => trivial, fun _ => hi'.inBudget⟩
        · exact absurd hx doPagefault_ne_err
      · exact absurd h (by simp)

end Steps

/-- **All partitions stay within their budgets** in exactly those runs in which no process is created
whose user stack fits in the budget that is left while its two stacks do not. -/
theorem budget_iff {m₀ m : Mem} {tr : List (Mem × MemEvent)} (hnone : m₀.partIds = [])
    (hrun : Exec memStep m₀ tr m) :
    Throughout AllInBudget tr m ↔ AllSteps (fun m e => e.Fits m) tr := by
  have hstart : Ledger m₀ := ⟨by simp [hnone], by simp [AllInBudget, hnone]⟩
  apply hrun.forall_iff hstart
  · exact fun _ hi => hi.inBudget
  · intro m e m' hi hfits hstep
    obtain ⟨hlt, hiff⟩ := hi.step hstep
    exact ⟨hlt, hiff.mpr hfits⟩
  · intro m e m' hi hnot hstep
    exact fun hall => hnot ((hi.step hstep).2.mp hall)

/-- A memory with free frames and no partitions. -/
def bootMem : Mem :=
  { Mem.none with
    mems := [⟨0x80000000, 0x10000000⟩]
    pfFreeList := [(List.range 64).map (0x80010 + ·)]
    kernPgdir := 0x80000 }

/-- A program of one page, with a main stack of one page. -/
def smallProg : Prog where
  loads := [⟨0x400000, 0x1000, 0x1000, true, false, true⟩]
  mainProcStacktop := 0x1ffffff000
  eEntry := 0x400000

/-- A partition that requests two pages is given eighteen: its program and the user stack of its main
process fit, and the kernel stack is not checked. -/
theorem budget_exceeded : ¬ ∀ (m₀ m : Mem) (tr : List (Mem × MemEvent)), m₀.partIds = [] →
    Exec memStep m₀ tr m → Throughout AllInBudget tr m := by
  intro hall
  obtain ⟨m, hrun, hcheck⟩ := Exec.of_checkRun memStep bootMem [.partCreate 0x2000 smallProg]
    (fun m => decide (1 ∈ m.partIds ∧ (m.parts 1).paMemReq < pgSize * (m.parts 1).paGiven))
    (by decide +kernel)
  obtain ⟨hpt, hlt⟩ := of_decide_eq_true hcheck
  have hin := (hall bootMem m _ rfl hrun).2 1 hpt
  exact absurd hin.given_le (Nat.not_le.mpr hlt)

/-- A partition with two processes and a communication page. -/
theorem budget_twoProcesses : ∃ tr m, Exec memStep bootMem tr m ∧ tr.length = 3 ∧
    (Throughout AllInBudget tr m ↔ AllSteps (fun m e => e.Fits m) tr) := by
  obtain ⟨m, hrun, -⟩ := Exec.of_checkRun memStep bootMem
    [.partCreate 0x30000 smallProg, .createProcess 1 0x800, .pagefault 1 commBase true true]
    (fun _ => true) (by decide +kernel)
  exact ⟨_, m, hrun, by decide +kernel, budget_iff rfl hrun⟩

end Jrinx
