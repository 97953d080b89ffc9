import Jrinx.Lib.Regions
import Jrinx.Mm.Budget
import Jrinx.Mm.PageFaults
import Jrinx.Mm.PageRuns

/-! # The stacks of the processes

`proc_alloc` takes the user stack and the kernel stack of a process from two pointers of its partition, which
move down by the stack and one page more; the loops that map the pages still use the old pointers.

* **`TaskFrame`**, **`taskReset`** — the initial stack pointers of a process, and `proc_reset`.
* **`StackRun`** — the processes that a partition gets, with anything else in between.
* **`StackInv`** — the invariant of the two pointers: every stack has a slot of its own, with its guard page.
* **`stacks_apart`** — the stacks of a partition never meet. -/

namespace Jrinx

open Op

/-! ## The initial context -/

/-- The fields of `struct context` that `proc_reset` sets; it clears the others. -/
structure Context where
  ctxRegs : Nat → Nat
  ctxSepc : Nat
  ctxHartid : Nat
  ctxSie : Nat
  ctxSstatus : Nat

/-- The register `sp` of a context. -/
def Context.sp (c : Context) : Nat := c.ctxRegs 2

/-- What of `struct proc` belongs to its stacks. -/
structure TaskFrame where
  prUstacktop : Nat
  prUstacksize : Nat
  prEntrypoint : Nat
  tfXstacktop : Nat
  /-- `tf_ctx_list`. -/
  tfCtxList : List Context

/-- The context that `proc_reset` makes. -/
def resetContext (entrypoint ustacktop : Nat) : Context where
  ctxRegs := Function.update (fun _ => 0) 2 ustacktop
  ctxSepc := entrypoint
  ctxHartid := wordSize - 1
  -- `sei`, `ssi` and `sti`
  ctxSie := 0x222
  -- `fs`, `spie`, `spp` and `sum`
  ctxSstatus := 0x42020

/-- `proc_reset`: all contexts are freed, and the process has one again. -/
def taskReset (t : TaskFrame) : TaskFrame :=
  { t with tfCtxList := [resetContext t.prEntrypoint t.prUstacktop] }

/-- The record that `proc_alloc` fills, before its call of `proc_reset`. -/
def taskFrame (stk : Stacks) (entrypoint : Nat) : TaskFrame where
  prUstacktop := stk.prUstacktop
  prUstacksize := stk.prUstacksize
  prEntrypoint := entrypoint
  tfXstacktop := stk.tfXstacktop
  tfCtxList := []

/-- The record after `proc_alloc` and `n` further calls of `proc_reset`. -/
def taskAfter (stk : Stacks) (entrypoint : Nat) : Nat → TaskFrame
  | 0 => taskReset (taskFrame stk entrypoint)
  | n + 1 => taskReset (taskAfter stk entrypoint n)

/-- A reset changes neither of the two stack pointers. -/
theorem taskAfter_eq (stk : Stacks) (entrypoint n : Nat) : taskAfter stk entrypoint n =
    { taskFrame stk entrypoint with tfCtxList := [resetContext entrypoint stk.prUstacktop] } := by
  induction n with
  | zero => rfl
  | succ n ih =>
      rw [taskAfter, ih]
      rfl

/-! ## Ranges -/

/-- The bytes of a stack of the given size that ends at `top`. -/
def stackBytes (top size : Nat) : Set Nat := Set.Ico (top - size) top

/-- The bytes of the page at `va`. -/
def vaBytes (va : Nat) : Set Nat := Set.Ico va (va + pgSize)

/-- The bytes of the page below a stack. -/
def guardBytes (top size : Nat) : Set Nat := Set.Ico (top - size - pgSize) (top - size)

/-- A stack with its guard page. -/
def stackSlot (top size : Nat) : Region := ⟨top - (size + pgSize), size + pgSize⟩

section Ranges

variable {top size : Nat}

theorem mem_stackSlot {x : Nat} (h : size + pgSize ≤ top) :
    x ∈ (stackSlot top size).bytes ↔ top - (size + pgSize) ≤ x ∧ x < top := by
  rw [Region.mem_bytes]
  show top - (size + pgSize) ≤ x ∧ x < top - (size + pgSize) + (size + pgSize) ↔ _
  rw [Nat.sub_add_cancel h]

theorem stackBytes_subset (h : size + pgSize ≤ top) : stackBytes top size ⊆ (stackSlot top size).bytes := by
  rintro x ⟨hle, hlt⟩
  exact (mem_stackSlot h).mpr ⟨by omega, hlt⟩

theorem guardBytes_subset (h : size + pgSize ≤ top) : guardBytes top size ⊆ (stackSlot top size).bytes := by
  rintro x ⟨hle, hlt⟩
  exact (mem_stackSlot h).mpr ⟨by omega, by omega⟩

theorem disjoint_guardBytes (top size : Nat) : Disjoint (guardBytes top size) (stackBytes top size) := by
  rw [Set.disjoint_left]
  rintro x ⟨-, hlt⟩ ⟨hle, -⟩
  omega

/-- **The pages that are mapped are those of the stack.** -/
theorem mem_stackBytes_iff (hdvd : pgSize ∣ size) (hle : size ≤ top) (x : Nat) :
    x ∈ stackBytes top size ↔ ∃ va ∈ stackVas top size, x ∈ vaBytes va := by
  obtain ⟨n, rfl⟩ := hdvd
  have hpages : (pgSize * n - 0 + (pgSize - 1)) / pgSize = n := by
    unfold pgSize
    omega
  -- the counter of the loop, and the page that is mapped in the round
  have hva : ∀ k < n, wordSub (wordSub top (0 + k * pgSize)) pgSize = top - (k + 1) * pgSize := by
    intro k hk
    have hmul : (k + 1) * pgSize ≤ pgSize * n := by
      rw [Nat.mul_comm pgSize]
      exact Nat.mul_le_mul_right _ hk
    rw [Nat.succ_mul] at hmul ⊢
    have hi : wordSub top (0 + k * pgSize) = top - k * pgSize := by
      rw [wordSub_of_le (by omega), Nat.zero_add]
    rw [hi, wordSub_of_le (by omega)]
    omega
  simp only [stackVas, pageSteps, List.mem_map, List.mem_range, exists_exists_and_eq_and, hpages]
  constructor
  · rintro ⟨hlo, hhi⟩
    refine ⟨(top - 1 - x) / pgSize, ?_, ?_⟩
    · unfold pgSize at *
      omega
    · have hk : (top - 1 - x) / pgSize < n := by
        unfold pgSize at *
        omega
      rw [hva _ hk, vaBytes, Set.mem_Ico]
      unfold pgSize at *
      omega
  · rintro ⟨k, hk, hx⟩
    rw [hva k hk, vaBytes, Set.mem_Ico] at hx
    have hmul : (k + 1) * pgSize ≤ pgSize * n := by
      rw [Nat.mul_comm pgSize]
      exact Nat.mul_le_mul_right _ hk
    rw [Nat.succ_mul] at hx hmul
    exact ⟨by omega, by omega⟩

end Ranges

/-! ## The pointers -/

section Tops

variable {pt : PartId} {m m' : Mem}

/-- An operation that moves neither of the two pointers of a partition. -/
structure SameTops (pt : PartId) (m m' : Mem) : Prop where
  user : (m'.parts pt).paUstasktop = (m.parts pt).paUstasktop
  kernel : (m'.parts pt).paXstacktop = (m.parts pt).paXstacktop

theorem SameTops.refl (pt : PartId) (m : Mem) : SameTops pt m m := ⟨rfl, rfl⟩

theorem SameTops.trans {m₁ : Mem} (h : SameTops pt m m₁) (h' : SameTops pt m₁ m') : SameTops pt m m' :=
  ⟨h'.user.trans h.user, h'.kernel.trans h.kernel⟩

theorem SameParts.sameTops (h : SameParts m m') (pt : PartId) : SameTops pt m m' :=
  ⟨by rw [h.parts], by rw [h.parts]⟩

/-- A page of a stack is mapped without a change of the pointers. -/
theorem sameTops_stackPage {va : Nat} {perm : Perm} {u : Unit} (h : stackPage pt va perm m = .ok u m') :
    SameTops pt m m' := by
  obtain ⟨f, m₁, m₂, halloc, hmap, rfl⟩ := stackPage_eq_ok.mp h
  have hsame := sameParts_ptMap _ va f perm (sameParts_phyFrameAlloc (.refl m) halloc) hmap
  refine (hsame.sameTops pt).trans ⟨?_, ?_⟩
  · rw [parts_updPart]
  · rw [parts_updPart]

/-- A loop moves no pointer if no round does. -/
theorem sameTops_forM {β : Type} {body : β → Op Mem Unit}
    (hbody : ∀ b {m m' : Mem} {u : Unit}, body b m = .ok u m' → SameTops pt m m') (l : List β) {u : Unit}
    (h : l.forM body m = .ok u m') : SameTops pt m m' :=
  forM_induct (P := fun _ m m' => SameTops pt m m') (SameTops.refl pt)
    (fun b _ _ _ _ _ hb ih => (hbody b hb).trans ih) h

/-- **`proc_alloc`** takes both stacks at the pointers and moves them past a guard page. -/
theorem procAllocMem_tops {stacksize : Nat} {stk : Stacks} (h : procAllocMem pt stacksize m = .ok stk m') :
    stk = ⟨(m.parts pt).paUstasktop, alignUp stacksize pgSize, (m.parts pt).paXstacktop⟩ ∧
      (m'.parts pt).paUstasktop =
        wordSub (m.parts pt).paUstasktop ((alignUp stacksize pgSize + pgSize) % wordSize) ∧
      (m'.parts pt).paXstacktop = wordSub (m.parts pt).paXstacktop (kstkSize + pgSize) := by
  obtain ⟨-, utop, m₂, xtop, hu, hx, rfl⟩ := procAllocMem_eq_ok.mp h
  obtain ⟨u, m₁, hpages, rfl, rfl⟩ := procUstackSetup_eq_ok.mp hu
  obtain ⟨u', m₃, hpages', rfl, rfl⟩ := procXstackSetup_eq_ok.mp hx
  have h₁ := sameTops_forM (fun _ => sameTops_stackPage) _ hpages
  have h₃ := sameTops_forM (fun _ => sameTops_stackPage) _ hpages'
  refine ⟨?_, ?_, ?_⟩
  · rw [parts_updPart]
    show _ = Stacks.mk _ _ _
    rw [← h₁.kernel]
    rfl
  · rw [parts_updPart]
    show (m₃.parts pt).paUstasktop = _
    rw [h₃.user, parts_updPart, ← h₁.user]
    rfl
  · rw [parts_updPart]
    show wordSub (m₃.parts pt).paXstacktop _ = _
    rw [h₃.kernel, parts_updPart, ← h₁.kernel]
    rfl

/-! ## Other operations -/

theorem sameTops_updPart {g : PartMem → PartMem}
    (hu : (g (m.parts pt)).paUstasktop = (m.parts pt).paUstasktop)
    (hx : (g (m.parts pt)).paXstacktop = (m.parts pt).paXstacktop) : SameTops pt m (m.updPart pt g) :=
  ⟨by rw [parts_updPart, hu], by rw [parts_updPart, hx]⟩

theorem sameTops_partPtAlloc {va : Nat} {perm : Perm} {f : Ppn} (h : partPtAlloc pt va perm m = .ok f m') :
    SameTops pt m m' := by
  obtain ⟨-, m₁, m₂, halloc, hmap, rfl⟩ := partPtAlloc_eq_ok.mp h
  have hpay : SameTops pt m (m.payPage pt) := sameTops_updPart rfl rfl
  have hsame := sameParts_ptMap _ va f perm (sameParts_phyFrameAlloc (.refl _) halloc) hmap
  exact hpay.trans ((hsame.sameTops pt).trans (sameTops_updPart rfl rfl))

theorem sameTops_partLoadProg {prog : Prog} {u : Unit} (h : partLoadProg pt prog m = .ok u m') :
    SameTops pt m m' := by
  unfold partLoadProg at h
  obtain ⟨_, m₁, hloads, h⟩ := bind_eq_ok.mp h
  split at h
  · exact (fail_eq_ok.mp h).elim
  rw [← modify_eq_ok.mp h]
  have hsame : SameTops pt m m₁ := by
    refine sameTops_forM (fun phdr _ _ _ hseg => sameTops_forM (fun va _ _ _ hva => ?_) _ hseg) _ hloads
    obtain ⟨f, m₂, hf, hend⟩ := bind_eq_ok.mp hva
    obtain ⟨-, rfl⟩ := pure_eq_ok.mp hend
    exact sameTops_partPtAlloc hf
  exact hsame.trans (sameTops_updPart rfl rfl)

/-- A page fault moves no pointer of any partition. -/
theorem sameTops_doPagefault {q : PartId} {va : Nat} {super store : Bool} {u : Unit}
    (h : doPagefault q va super store m = .ok u m') : SameTops pt m m' := by
  by_cases hq : pt = q
  · subst hq
    cases hfound : found m (pageOf (m.parts pt).paPgdir va) with
    | some ae =>
        obtain ⟨a, e⟩ := ae
        rw [doPagefault_of_found hfound, Res.ok.injEq] at h
        rw [← h.2]
        exact ⟨rfl, rfl⟩
    | none =>
        obtain ⟨-, f, m₁, a, halloc, -, rfl⟩ := (doPagefault_of_unmapped store hfound).mp h
        exact (sameTops_partPtAlloc halloc).trans ⟨rfl, rfl⟩
  · obtain ⟨n, hspent⟩ := doPagefault_ok h
    have hparts := hspent.charged.other pt hq
    exact ⟨by rw [hparts], by rw [hparts]⟩

end Tops

/-! ## Processes of a partition -/

/-- The stacks of a process, and the pages that the loops of `proc_alloc` map for them. -/
structure StackEntry where
  stk : Stacks
  vas : List Nat

namespace StackEntry

/-- The user stack. -/
def user (e : StackEntry) : Set Nat := stackBytes e.stk.prUstacktop e.stk.prUstacksize

/-- The kernel stack. -/
def kernel (e : StackEntry) : Set Nat := stackBytes e.stk.tfXstacktop kstkSize

/-- The user stack with its guard page. -/
def userSlot (e : StackEntry) : Region := stackSlot e.stk.prUstacktop e.stk.prUstacksize

/-- The kernel stack with its guard page. -/
def kernelSlot (e : StackEntry) : Region := stackSlot e.stk.tfXstacktop kstkSize

/-- The guard page of the user stack. -/
def userGuard (e : StackEntry) : Set Nat := guardBytes e.stk.prUstacktop e.stk.prUstacksize

/-- The guard page of the kernel stack. -/
def kernelGuard (e : StackEntry) : Set Nat := guardBytes e.stk.tfXstacktop kstkSize

end StackEntry

/-- The successful calls of `proc_alloc` for a partition from `part_alloc` on, with anything in between that
leaves the two pointers alone. -/
inductive StackRun (pt : PartId) : List StackEntry → Mem → Prop where
  | start {memoryReq : Nat} {m m' : Mem} (h : partAlloc memoryReq m = .ok pt m') : StackRun pt [] m'
  | alloc {es : List StackEntry} {m m' : Mem} {stacksize : Nat} {stk : Stacks} (hrun : StackRun pt es m)
      (h : procAllocMem pt stacksize m = .ok stk m') :
      StackRun pt (es ++ [⟨stk, procVas m pt stacksize⟩]) m'
  | other {es : List StackEntry} {m m' : Mem} (hrun : StackRun pt es m) (h : SameTops pt m m') :
      StackRun pt es m'

section Runs

variable {pt : PartId} {m m' : Mem} {es es' : List StackEntry}

/-- **`part_alloc`** sets the two pointers of the new partition to the limits of the layout. -/
theorem partAlloc_parts {memoryReq : Nat} (h : partAlloc memoryReq m = .ok pt m') :
    pt = m.nxtPartId ∧ (∀ q, q ≠ pt → m'.parts q = m.parts q) ∧
      (m'.parts pt).paUstasktop = ustkLimit ∧ (m'.parts pt).paXstacktop = xstkLimit := by
  unfold partAlloc at h
  obtain ⟨frame, m₁, hframe, h⟩ := bind_eq_ok.mp h
  obtain ⟨_, _, hg, h⟩ := bind_eq_ok.mp h
  obtain ⟨rfl, rfl⟩ := get_eq_ok.mp hg
  obtain ⟨_, m₂, hm₂, h⟩ := bind_eq_ok.mp h
  obtain ⟨rfl, rfl⟩ := pure_eq_ok.mp h
  rw [← modify_eq_ok.mp hm₂]
  have hsame := sameParts_phyFrameAlloc (.refl m) hframe
  refine ⟨hsame.nxtPartId, fun q hq => ?_, ?_, ?_⟩
  · show Function.update m₁.parts m₁.nxtPartId _ q = _
    rw [Function.update_of_ne hq, hsame.parts]
  · show (Function.update m₁.parts m₁.nxtPartId _ m₁.nxtPartId).paUstasktop = _
    rw [Function.update_self]
  · show (Function.update m₁.parts m₁.nxtPartId _ m₁.nxtPartId).paXstacktop = _
    rw [Function.update_self]

/-- What `part_create` does for the new partition. -/
theorem stackRun_partCreate {memoryReq : Nat} {prog : Prog} {x : PartId × Stacks}
    (h : partCreate memoryReq prog m = .ok x m') : ∃ vas, StackRun x.1 [⟨x.2, vas⟩] m' := by
  unfold partCreate at h
  obtain ⟨pt, m₁, hpart, h⟩ := bind_eq_ok.mp h
  obtain ⟨_, m₂, hload, h⟩ := bind_eq_ok.mp h
  obtain ⟨_, _, hg, h⟩ := bind_eq_ok.mp h
  obtain ⟨rfl, rfl⟩ := get_eq_ok.mp hg
  obtain ⟨stk, m₃, hproc, h⟩ := bind_eq_ok.mp h
  obtain ⟨rfl, rfl⟩ := pure_eq_ok.mp h
  exact ⟨_, ((StackRun.start hpart).other (sameTops_partLoadProg (panicE_eq_ok.mp hload))).alloc hproc⟩

/-- A new partition has another identifier. -/
theorem sameTops_partCreate {memoryReq : Nat} {prog : Prog} {x : PartId × Stacks} (hpt : pt < m.nxtPartId)
    (h : partCreate memoryReq prog m = .ok x m') : SameTops pt m m' := by
  unfold partCreate at h
  obtain ⟨q, m₁, hpart, h⟩ := bind_eq_ok.mp h
  obtain ⟨_, m₂, hload, h⟩ := bind_eq_ok.mp h
  obtain ⟨_, _, hg, h⟩ := bind_eq_ok.mp h
  obtain ⟨rfl, rfl⟩ := get_eq_ok.mp hg
  obtain ⟨stk, m₃, hproc, h⟩ := bind_eq_ok.mp h
  obtain ⟨rfl, rfl⟩ := pure_eq_ok.mp h
  obtain ⟨hq, hparts, -⟩ := partAlloc_parts hpart
  have hne : pt ≠ q := by
    rw [hq]
    exact hpt.ne
  have hload' := (partLoadProg_ok (panicE_eq_ok.mp hload)).1.charged.other pt hne
  have hproc' := (procAllocMem_ok hproc).2.other pt hne
  have hsame := hproc'.trans (hload'.trans (hparts pt hne))
  exact ⟨by rw [hsame], by rw [hsame]⟩

/-- **Every operation of the kernel continues the run** of a partition: it is a call of `proc_alloc` for the
partition, or it leaves the pointers of the partition alone. -/
theorem StackRun.memStep {e : MemEvent} (hrun : StackRun pt es m) (hpt : pt < m.nxtPartId)
    (h : Jrinx.memStep m e = .ok m') : ∃ es', StackRun pt (es ++ es') m' := by
  have hsame : SameTops pt m m' → ∃ es', StackRun pt (es ++ es') m' := by
    intro hsame
    refine ⟨[], ?_⟩
    rw [List.append_nil]
    exact hrun.other hsame
  cases e with
  | partCreate memoryReq prog =>
      apply hsame
      rcases Res.settled_eq_ok h with ⟨x, hx⟩ | hx
      · exact sameTops_partCreate hpt (panicE_eq_ok.mp hx)
      · exact absurd hx panicE_ne_err
  | createProcess q stackSize =>
      rw [Jrinx.memStep] at h
      split at h
      · split at h
        · obtain rfl := Except.ok.inj h
          exact hsame (SameTops.refl pt m)
        · rcases Res.settled_eq_ok h with ⟨stk, hx⟩ | hx
          · -- a process of another partition gets a stack of that partition
            by_cases hq : pt = q
            · subst hq
              exact ⟨_, hrun.alloc hx⟩
            · have hparts := (procAllocMem_ok hx).2.other pt hq
              exact hsame ⟨by rw [hparts], by rw [hparts]⟩
          · obtain rfl := procAllocMem_err hx
            exact hsame (SameTops.refl pt m')
      · exact absurd h (by simp)
  | pagefault q va super store =>
      rw [Jrinx.memStep] at h
      split at h
      · rcases Res.settled_eq_ok h with ⟨u, hx⟩ | hx
        · exact hsame (sameTops_doPagefault hx)
        · exact absurd hx doPagefault_ne_err
      · exact absurd h (by simp)

/-! ## The invariant -/

/-- What the user stacks take, with their guard pages. -/
def userNeed (es : List StackEntry) : Nat := (es.map fun e => e.stk.prUstacksize + pgSize).sum

/-- What the kernel stacks take. -/
def kernelNeed (es : List StackEntry) : Nat := es.length * (kstkSize + pgSize)

/-- The stacks fit between the limits of the layout: the kernel stacks end above `USTKLIMIT`. -/
structure FitLayout (es : List StackEntry) : Prop where
  user : userNeed es ≤ ustkLimit
  kernel : kernelNeed es ≤ xstkLimit - ustkLimit

theorem userNeed_append (es es' : List StackEntry) : userNeed (es ++ es') = userNeed es + userNeed es' := by
  rw [userNeed, List.map_append, List.sum_append]
  rfl

theorem kernelNeed_append (es es' : List StackEntry) :
    kernelNeed (es ++ es') = kernelNeed es + kernelNeed es' := by
  rw [kernelNeed, List.length_append, Nat.add_mul]
  rfl

theorem userNeed_singleton (e : StackEntry) : userNeed [e] = e.stk.prUstacksize + pgSize := Nat.add_zero _

theorem kernelNeed_singleton (e : StackEntry) : kernelNeed [e] = kstkSize + pgSize := Nat.one_mul _

theorem FitLayout.of_append (h : FitLayout (es ++ es')) : FitLayout es := by
  have huser := h.user
  have hkernel := h.kernel
  rw [userNeed_append] at huser
  rw [kernelNeed_append] at hkernel
  exact ⟨by omega, by omega⟩

/-- **The invariant**: what was taken and the pointer make up the area, and every stack has a slot of its own
above the pointer. -/
structure StackInv (pt : PartId) (es : List StackEntry) (m : Mem) : Prop where
  userTop : (m.parts pt).paUstasktop + userNeed es = ustkLimit
  kernelTop : (m.parts pt).paXstacktop + kernelNeed es = xstkLimit
  user : Separate (es.map StackEntry.userSlot) (m.parts pt).paUstasktop ustkLimit
  kernel : Separate (es.map StackEntry.kernelSlot) (m.parts pt).paXstacktop xstkLimit
  aligned : ∀ e ∈ es, pgSize ∣ e.stk.prUstacksize
  userRoom : ∀ e ∈ es, e.stk.prUstacksize + pgSize ≤ e.stk.prUstacktop
  kernelRoom : ∀ e ∈ es, kstkSize + pgSize ≤ e.stk.tfXstacktop
  pages : ∀ e ∈ es,
    e.vas = stackVas e.stk.prUstacktop e.stk.prUstacksize ++ stackVas e.stk.tfXstacktop kstkSize

theorem StackInv.start {memoryReq : Nat} (h : partAlloc memoryReq m = .ok pt m') : StackInv pt [] m' where
  userTop := (partAlloc_parts h).2.2.1
  kernelTop := (partAlloc_parts h).2.2.2
  user := ⟨List.Pairwise.nil, fun _ hr => absurd hr List.not_mem_nil⟩
  kernel := ⟨List.Pairwise.nil, fun _ hr => absurd hr List.not_mem_nil⟩
  aligned _ he := absurd he List.not_mem_nil
  userRoom _ he := absurd he List.not_mem_nil
  kernelRoom _ he := absurd he List.not_mem_nil
  pages _ he := absurd he List.not_mem_nil

/-- The invariant looks at the two pointers only. -/
theorem StackInv.other (hi : StackInv pt es m) (h : SameTops pt m m') : StackInv pt es m' where
  userTop := by rw [h.user, hi.userTop]
  kernelTop := by rw [h.kernel, hi.kernelTop]
  user := by
    rw [h.user]
    exact hi.user
  kernel := by
    rw [h.kernel]
    exact hi.kernel
  aligned := hi.aligned
  userRoom := hi.userRoom
  kernelRoom := hi.kernelRoom
  pages := hi.pages

/-- **The step lemma**: the new stacks lie below all others, and the pointers move to the lower ends of their
guard pages. -/
theorem StackInv.snoc {e : StackEntry} (hi : StackInv pt es m) (hfit : FitLayout (es ++ [e]))
    (htop : e.stk.prUstacktop = (m.parts pt).paUstasktop)
    (htop' : e.stk.tfXstacktop = (m.parts pt).paXstacktop)
    (haligned : pgSize ∣ e.stk.prUstacksize)
    (hvas : e.vas = stackVas e.stk.prUstacktop e.stk.prUstacksize ++ stackVas e.stk.tfXstacktop kstkSize)
    (hu : (m'.parts pt).paUstasktop =
      wordSub (m.parts pt).paUstasktop ((e.stk.prUstacksize + pgSize) % wordSize))
    (hx : (m'.parts pt).paXstacktop = wordSub (m.parts pt).paXstacktop (kstkSize + pgSize)) :
    StackInv pt (es ++ [e]) m' := by
  have huser : userNeed es + (e.stk.prUstacksize + pgSize) ≤ ustkLimit := by
    have hsum := hfit.user
    rwa [userNeed_append, userNeed_singleton] at hsum
  have hkernel : kernelNeed es + (kstkSize + pgSize) ≤ xstkLimit - ustkLimit := by
    have hsum := hfit.kernel
    rwa [kernelNeed_append, kernelNeed_singleton] at hsum
  have hut := hi.userTop
  have hxt := hi.kernelTop
  have hlimit : ustkLimit < wordSize := by
    rw [wordSize_eq]
    decide
  have hle : ustkLimit ≤ xstkLimit := by decide
  -- neither of the pointers wraps
  have hroom : e.stk.prUstacksize + pgSize ≤ (m.parts pt).paUstasktop := by omega
  have hroom' : kstkSize + pgSize ≤ (m.parts pt).paXstacktop := by omega
  rw [Nat.mod_eq_of_lt (by omega), wordSub_of_le hroom] at hu
  rw [wordSub_of_le hroom'] at hx
  have hlast : ∀ {P : StackEntry → Prop}, (∀ e' ∈ es, P e') → P e → ∀ e' ∈ es ++ [e], P e' := by
    intro P hall hnew e' he
    rcases List.mem_append.mp he with he | he
    · exact hall e' he
    · rw [List.mem_singleton.mp he]
      exact hnew
  constructor
  · rw [hu, userNeed_append, userNeed_singleton]
    omega
  · rw [hx, kernelNeed_append, kernelNeed_singleton]
    omega
  · rw [hu, List.map_append, List.map_singleton, StackEntry.userSlot, htop]
    exact hi.user.below (by omega) hroom
  · rw [hx, List.map_append, List.map_singleton, StackEntry.kernelSlot, htop']
    exact hi.kernel.below (by omega) hroom'
  · exact hlast hi.aligned haligned
  · exact hlast hi.userRoom (by rwa [htop])
  · exact hlast hi.kernelRoom (by rwa [htop'])
  · exact hlast hi.pages hvas

theorem StackInv.alloc {stacksize : Nat} {stk : Stacks} (hi : StackInv pt es m)
    (h : procAllocMem pt stacksize m = .ok stk m')
    (hfit : FitLayout (es ++ [⟨stk, procVas m pt stacksize⟩])) :
    StackInv pt (es ++ [⟨stk, procVas m pt stacksize⟩]) m' := by
  obtain ⟨rfl, hu, hx⟩ := procAllocMem_tops h
  exact hi.snoc hfit rfl rfl (pgSize_dvd_alignUp stacksize) rfl hu hx

/-- **The run lemma.** -/
theorem StackRun.inv (hrun : StackRun pt es m) (hfit : FitLayout es) : StackInv pt es m := by
  induction hrun with
  | start h => exact StackInv.start h
  | alloc _ h ih => exact (ih hfit.of_append).alloc h hfit
  | other _ h ih => exact (ih hfit).other h

/-! ## The result -/

/-- **The stacks of a partition never meet**, what lies below each of them is never mapped for a stack, and
the stack pointers of the processes start at the upper ends. -/
structure StacksApart (es : List StackEntry) : Prop where
  user : es.Pairwise fun e e' => Disjoint e.user e'.user
  kernel : es.Pairwise fun e e' => Disjoint e.kernel e'.kernel
  mapped : ∀ e ∈ es, ∀ x, (∃ va ∈ e.vas, x ∈ vaBytes va) ↔ x ∈ e.user ∪ e.kernel
  /-- There is room for a whole page below each stack. -/
  room : ∀ e ∈ es, e.stk.prUstacksize + pgSize ≤ e.stk.prUstacktop ∧ kstkSize + pgSize ≤ e.stk.tfXstacktop
  guarded : ∀ e ∈ es, ∀ e' ∈ es, ∀ va ∈ e'.vas, Disjoint (e.userGuard ∪ e.kernelGuard) (vaBytes va)
  pointers : ∀ e ∈ es, ∀ entrypoint n : Nat, ∃ sp xtop,
    (taskAfter e.stk entrypoint n).tfCtxList.map Context.sp = [sp] ∧
    (taskAfter e.stk entrypoint n).tfXstacktop = xtop ∧
    e.user = stackBytes sp e.stk.prUstacksize ∧ e.kernel = stackBytes xtop kstkSize

namespace StackInv

variable {e e' : StackEntry}

theorem mapped (hi : StackInv pt es m) (he : e ∈ es) (x : Nat) :
    (∃ va ∈ e.vas, x ∈ vaBytes va) ↔ x ∈ e.user ∪ e.kernel := by
  have hroom := hi.userRoom e he
  have hroom' := hi.kernelRoom e he
  rw [hi.pages e he, Set.mem_union, StackEntry.user, StackEntry.kernel,
    mem_stackBytes_iff (hi.aligned e he) (by omega), mem_stackBytes_iff (by decide) (by omega)]
  simp only [List.mem_append, or_and_right, exists_or]

theorem userSlots (hi : StackInv pt es m) :
    es.Pairwise fun e e' => Disjoint e.userSlot.bytes e'.userSlot.bytes := by
  have hdisj := hi.user.disjoint
  rwa [List.pairwise_map] at hdisj

theorem kernelSlots (hi : StackInv pt es m) :
    es.Pairwise fun e e' => Disjoint e.kernelSlot.bytes e'.kernelSlot.bytes := by
  have hdisj := hi.kernel.disjoint
  rwa [List.pairwise_map] at hdisj

/-- The slots of the user stacks end below those of the kernel stacks. -/
theorem disjoint_slots (hi : StackInv pt es m) (hfit : FitLayout es) (he : e ∈ es) (he' : e' ∈ es) :
    Disjoint e.userSlot.bytes e'.kernelSlot.bytes := by
  rw [Set.disjoint_left]
  intro x hx hx'
  have hlt := (hi.user.inside _ (List.mem_map_of_mem he) hx).2
  have hle := (hi.kernel.inside _ (List.mem_map_of_mem he') hx').1
  have hxt := hi.kernelTop
  have hneed := hfit.kernel
  have hlimit : ustkLimit ≤ xstkLimit := by decide
  omega

/-- A guard page lies in the slot of its own stack, where nothing else is. -/
theorem disjoint_guards (hi : StackInv pt es m) (hfit : FitLayout es) (he : e ∈ es) (he' : e' ∈ es) :
    Disjoint (e.userGuard ∪ e.kernelGuard) (e'.user ∪ e'.kernel) := by
  have hu : ∀ e ∈ es, e.userGuard ⊆ e.userSlot.bytes := fun e he => guardBytes_subset (hi.userRoom e he)
  have hx : ∀ e ∈ es, e.kernelGuard ⊆ e.kernelSlot.bytes := fun e he => guardBytes_subset (hi.kernelRoom e he)
  have hu' : ∀ e ∈ es, e.user ⊆ e.userSlot.bytes := fun e he => stackBytes_subset (hi.userRoom e he)
  have hx' : ∀ e ∈ es, e.kernel ⊆ e.kernelSlot.bytes := fun e he => stackBytes_subset (hi.kernelRoom e he)
  rw [Set.disjoint_union_left, Set.disjoint_union_right, Set.disjoint_union_right]
  refine ⟨⟨?_, ?_⟩, ?_, ?_⟩
  · exact disjoint_of_slots hi.userSlots hu hu' (fun e _ => disjoint_guardBytes _ _) he he'
  · exact (hi.disjoint_slots hfit he he').mono (hu e he) (hx' e' he')
  · exact (hi.disjoint_slots hfit he' he).symm.mono (hx e he) (hu' e' he')
  · exact disjoint_of_slots hi.kernelSlots hx hx' (fun e _ => disjoint_guardBytes _ _) he he'

/-- **The invariant separates the stacks.** -/
theorem stacksApart (hi : StackInv pt es m) (hfit : FitLayout es) : StacksApart es where
  user := hi.userSlots.imp_of_mem fun he he' hdisj =>
    hdisj.mono (stackBytes_subset (hi.userRoom _ he)) (stackBytes_subset (hi.userRoom _ he'))
  kernel := hi.kernelSlots.imp_of_mem fun he he' hdisj =>
    hdisj.mono (stackBytes_subset (hi.kernelRoom _ he)) (stackBytes_subset (hi.kernelRoom _ he'))
  mapped e he x := hi.mapped he x
  room e he := ⟨hi.userRoom e he, hi.kernelRoom e he⟩
  guarded e he e' he' va hva := by
    -- the page is a part of the two stacks it was mapped for
    refine (hi.disjoint_guards hfit he he').mono_right fun x hx => ?_
    exact (hi.mapped he' x).mp ⟨va, hva, hx⟩
  pointers e he entrypoint n := by
    refine ⟨e.stk.prUstacktop, e.stk.tfXstacktop, ?_, ?_, rfl, rfl⟩
    · rw [taskAfter_eq]
      rfl
    · rw [taskAfter_eq]
      rfl

end StackInv

/-- **Stacks never meet**: whatever processes a partition gets from its allocation on, with whatever stack
sizes, as long as the stacks and their guard pages fit between the limits of the layout. -/
theorem stacks_apart (hrun : StackRun pt es m) (hfit : FitLayout es) : StacksApart es :=
  (hrun.inv hfit).stacksApart hfit

/-- A second process with a stack of no bytes. -/
theorem stacks_apart_twoProcesses : ∃ es m, StackRun 1 es m ∧ es.length = 2 ∧ StacksApart es := by
  -- the stacks that the two calls return
  let first : PartId × Stacks := (1, ⟨ustkLimit, 0x1000, xstkLimit⟩)
  let second : Stacks := ⟨ustkLimit - 0x2000, 0, xstkLimit - 0x11000⟩
  have hcheck : ((partCreate 0x30000 smallProg bootMem).okAnd fun x m =>
      decide (x = first) && (procAllocMem 1 0 m).okAnd fun stk _ => decide (stk = second)) = true := by
    decide +kernel
  obtain ⟨x, m, hx, hcheck⟩ := Res.okAnd_eq_true.mp hcheck
  rw [Bool.and_eq_true, decide_eq_true_eq] at hcheck
  obtain ⟨rfl, hcheck⟩ := hcheck
  obtain ⟨stk, m', hstk, hcheck⟩ := Res.okAnd_eq_true.mp hcheck
  obtain rfl := of_decide_eq_true hcheck
  obtain ⟨vas, hrun⟩ := stackRun_partCreate hx
  have hrun' := hrun.alloc hstk
  refine ⟨_, m', hrun', rfl, stacks_apart hrun' ⟨?_, ?_⟩⟩
  · rw [userNeed_append, userNeed_singleton, userNeed_singleton]
    show 0x1000 + pgSize + (0 + pgSize) ≤ ustkLimit
    decide
  · rw [kernelNeed_append, kernelNeed_singleton, kernelNeed_singleton]
    decide

end Runs

end Jrinx
