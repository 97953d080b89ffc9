import Jrinx.WaitAgreement
import Jrinx.Mm.HeapRuns
import Jrinx.Mm.PageRuns

/-! # Creating objects when memory is short

The creations of `kern/traps/syscalls.c` with the memory of the kernel that they take: the records and
the names from the heap, and the context of a new process. The bytes of a record are left out.

* **`Stock`** — the heap and the free contexts.
* **`CreateCall`**, **`create`** — the services, with the ways in which a call stops the system.
* **`create_refines`** — a call that returns does what the service does.
* **`Supplied`**, **`creation_returns`** — when a call that passes the checks returns. -/

namespace Jrinx

namespace Stocked

/-! ## Records and names -/

/-- `sizeof(struct proc)`. -/
def procSize : Nat := 248

/-- `sizeof(struct buffer)`. -/
def bufferSize : Nat := 168

/-- `sizeof(struct blackboard)`. -/
def blackboardSize : Nat := 136

/-- `sizeof(struct queuing_port)`. -/
def queuingPortSize : Nat := 72

/-- The heap of the kernel, and the length of `traps_ctx_free_list`. -/
structure Stock where
  heap : KHeap
  ctxs : Nat

/-- What stops a call: a failed `panic_e` or `assert`, a store through `NULL`, or a loop that does not
end. -/
inductive CreateFault where
  | panic | null | hang
  deriving DecidableEq, Repr

/-- `kalloc`, and a store through its result without a test of it. -/
def kallocStore (rounds : Nat) (h : KHeap) (size : Nat) : Except CreateFault (Nat × KHeap) :=
  match kalloc rounds h size with
  | none => .error .hang
  | some (ptr, h) => if ptr = 0 then .error .null else .ok (ptr, h)

/-- The bytes of a name, with the zero at its end. -/
def nameSize (name : String) : Nat := name.utf8ByteSize + 1

/-- `kalloc` and `memset` of a record, and then `kalloc` and `strcpy` of its name. -/
def recordAlloc (rounds : Nat) (h : KHeap) (size : Nat) (name : String) :
    Except CreateFault (Nat × Nat × KHeap) := do
  let (tmp, h) ← kallocStore rounds h size
  let (nm, h) ← kallocStore rounds h (nameSize name)
  .ok (tmp, nm, h)

/-- `kfree` in a creation. -/
def recordFree (P : KallocPool) (rounds : Nat) (h : KHeap) (ptr : Nat) : Except CreateFault KHeap :=
  match kfree P rounds h ptr with
  | .error .assertion => .error .panic
  | .error .hang => .error .hang
  | .ok h => .ok h

/-! ## The allocations of the objects -/

variable (P : KallocPool) (rounds : Nat)

/-- `proc_alloc`. The budget is tested first; `proc_reset` takes a context at the end. -/
def procAlloc (k : Kernel) (s : Stock) (pt : PartId) (a : ProcessAttribute) :
    Except CreateFault (Option ProcId × Kernel × Stock) :=
  if (k.mem.parts pt).paMemRem < alignUp a.stackSize pgSize then .ok (none, k, s)
  else do
    let (_, _, h) ← recordAlloc rounds s.heap procSize a.name
    match Jrinx.procAlloc k pt a with
    | .error _ => .error .panic
    | .ok (made, k) =>
        if s.ctxs = 0 then .error .panic
        else .ok (made, k, ⟨h, s.ctxs - 1⟩)

/-- The end of `buffer_alloc` and `blackboard_alloc`: when there is no room for the object, its name
and its record are released. -/
def commAlloc (s : Stock) (size : Nat) (name : String) (alloc : Option Nat × Kernel) :
    Except CreateFault (Option Nat × Kernel × Stock) := do
  let (tmp, nm, h) ← recordAlloc rounds s.heap size name
  match alloc with
  | (some id, k) => .ok (some id, k, { s with heap := h })
  | (none, k) => do
      let h ← recordFree P rounds h nm
      let h ← recordFree P rounds h tmp
      .ok (none, k, { s with heap := h })

/-- `buffer_alloc`. -/
def bufferAlloc (k : Kernel) (s : Stock) (pt : PartId) (name : String) (maxMsgSize maxNbMsg : Nat)
    (queDisc : QueDisc) : Except CreateFault (Option BufId × Kernel × Stock) :=
  commAlloc P rounds s bufferSize name (Jrinx.bufferAlloc k pt name maxMsgSize maxNbMsg queDisc)

/-- `blackboard_alloc`. -/
def blackboardAlloc (k : Kernel) (s : Stock) (pt : PartId) (name : String) (maxMsgSize : Nat) :
    Except CreateFault (Option BbId × Kernel × Stock) :=
  commAlloc P rounds s blackboardSize name (Jrinx.blackboardAlloc k pt name maxMsgSize)

/-- `queuing_port_alloc`: the channel is looked up first. -/
def queuingPortAlloc (k : Kernel) (s : Stock) (pt : PartId) (name : String) (direction : PortDir)
    (disc : QueDisc) : Except CreateFault (Option PortId × Kernel × Stock) :=
  match Jrinx.queuingPortAlloc k pt name direction disc with
  | (none, k) => .ok (none, k, s)
  | (some port, k) => do
      let (_, _, h) ← recordAlloc rounds s.heap queuingPortSize name
      .ok (some port, k, { s with heap := h })

/-! ## The services -/

/-- The code that a creation returns. -/
def madeCode : Option Nat → RetCode
  | none => .invalidConfig
  | some _ => .noError

/-- Return the code of an allocation. -/
def retMade (r : Except CreateFault (Option Nat × Kernel × Stock)) :
    Except CreateFault (RetCode × Kernel × Stock) :=
  r.map fun x => (madeCode x.1, x.2)

/-- A creation with its arguments. -/
inductive CreateCall where
  | process (attributes : ProcessAttribute)
  | buffer (name : String) (maxMessageSize maxNbMessage : Nat) (queuingDiscipline : QueDisc)
  | blackboard (name : String) (maxMessageSize : Nat)
  | queuingPort (name : String) (maxMessageSize maxNbMessage : Nat) (direction : Option PortDir)
      (queuingDiscipline : QueDisc)
  deriving DecidableEq, Repr

namespace CreateCall

/-- The call as a service. -/
def service : CreateCall → Service
  | process a => .createProcess a
  | buffer name sz nb disc => .createBuffer name sz nb disc
  | blackboard name sz => .createBlackboard name sz
  | queuingPort name sz nb dir disc => .createQueuingPort name sz nb dir disc

def name : CreateCall → String
  | process a => a.name
  | buffer name .. => name
  | blackboard name _ => name
  | queuingPort name .. => name

/-- The checks of the service, in their order: the code of the first that fails. -/
def refused (k : Kernel) : CreateCall → Option RetCode
  | process a =>
      let part := k.parts k.curPart
      if (partGetProcByName k k.curPart a.name).isSome then some .noAction
      else if ustkSizeMax < a.stackSize then some .invalidConfig
      else if a.period < systemTimeInfiniteVal ∧ a.period.tmod part.paPeriod ≠ 0 then
        some .invalidConfig
      else if a.period < systemTimeInfiniteVal ∧ a.period < a.timeCapacity then some .invalidConfig
      else if part.paOpMode = .normal then some .invalidMode
      else none
  | buffer name sz _ _ =>
      if (partGetBufByName k k.curPart name).isSome then some .noAction
      else if sz = 0 then some .invalidParam
      else if (k.parts k.curPart).paOpMode = .normal then some .invalidMode
      else none
  | blackboard name sz =>
      if (partGetBbByName k k.curPart name).isSome then some .noAction
      else if sz = 0 then some .invalidParam
      else if (k.parts k.curPart).paOpMode = .normal then some .invalidMode
      else none
  | queuingPort name sz nb dir _ =>
      if ¬ queuingPortConfValidate k k.curPart name dir sz nb then some .invalidConfig
      else if (queuingPortFromName k name).isSome then some .noAction
      else if (k.parts k.curPart).paOpMode = .normal then some .invalidMode
      else none

/-- The allocation of a call that passes the checks. No configuration has a direction outside the
enumeration. -/
def alloc (k : Kernel) (s : Stock) : CreateCall → Except CreateFault (Option Nat × Kernel × Stock)
  | process a => procAlloc rounds k s k.curPart a
  | buffer name sz nb disc => bufferAlloc P rounds k s k.curPart name sz nb disc
  | blackboard name sz => blackboardAlloc P rounds k s k.curPart name sz
  | queuingPort _ _ _ none _ => .ok (none, k, s)
  | queuingPort name _ _ (some dir) disc => queuingPortAlloc rounds k s k.curPart name dir disc

end CreateCall

/-- `do_create_process`, `do_create_buffer`, `do_create_blackboard` and `do_create_queuing_port`. -/
def create (k : Kernel) (s : Stock) (c : CreateCall) : Except CreateFault (RetCode × Kernel × Stock) :=
  match c.refused k with
  | some code => .ok (code, k, s)
  | none => retMade (c.alloc P rounds k s)

variable {P rounds} {k k' : Kernel} {s s' : Stock} {made : Option Nat}

/-- What an allocation makes is what it makes when memory is not short. -/
theorem procAlloc_refines {pt : PartId} {a : ProcessAttribute}
    (h : procAlloc rounds k s pt a = .ok (made, k', s')) : Jrinx.procAlloc k pt a = .ok (made, k') := by
  unfold procAlloc at h
  split at h
  · rename_i hlt
    cases h
    have hfail : procAllocMem pt a.stackSize k.mem = .err k.mem := by
      unfold procAllocMem
      exact Op.bind_eq_err.mpr (Or.inr ⟨_, _, rfl, by rw [if_pos hlt]; rfl⟩)
    rw [Jrinx.procAlloc, hfail]
  · obtain ⟨⟨tmp, nm, h₁⟩, -, h⟩ := except_bind_eq_ok.mp h
    dsimp only at h
    cases hproc : Jrinx.procAlloc k pt a with
    | error e => simp [hproc] at h
    | ok r =>
        obtain ⟨made₁, k₁⟩ := r
        simp only [hproc] at h
        split at h
        · cases h
        · cases h
          rfl

theorem commAlloc_refines {size : Nat} {name : String} {alloc : Option Nat × Kernel}
    (h : commAlloc P rounds s size name alloc = .ok (made, k', s')) : alloc = (made, k') := by
  obtain ⟨⟨tmp, nm, h₁⟩, -, h⟩ := except_bind_eq_ok.mp h
  obtain ⟨_ | id, k₁⟩ := alloc
  · obtain ⟨h₂, -, h⟩ := except_bind_eq_ok.mp h
    obtain ⟨h₃, -, h⟩ := except_bind_eq_ok.mp h
    cases h
    rfl
  · cases h
    rfl

theorem queuingPortAlloc_refines {pt : PartId} {name : String} {dir : PortDir} {disc : QueDisc}
    (h : queuingPortAlloc rounds k s pt name dir disc = .ok (made, k', s')) :
    Jrinx.queuingPortAlloc k pt name dir disc = (made, k') := by
  unfold queuingPortAlloc at h
  cases halloc : Jrinx.queuingPortAlloc k pt name dir disc with
  | mk made₁ k₁ =>
      rw [halloc] at h
      cases made₁ with
      | none =>
          cases h
          rfl
      | some port =>
          obtain ⟨⟨tmp, nm, h₁⟩, -, h⟩ := except_bind_eq_ok.mp h
          cases h
          rfl

/-- A call that fails a check changes nothing. -/
theorem refused_service {c : CreateCall} {code : RetCode} {env : Env} {p : ProcId}
    (h : c.refused k = some code) : doSyscall k env p c.service = retCode k code := by
  cases c with
  | process a =>
      simp only [CreateCall.refused] at h
      simp only [CreateCall.service, doSyscall, doCreateProcess]
      split_ifs at h ⊢ <;> cases h <;> rfl
  | buffer name sz nb disc =>
      simp only [CreateCall.refused] at h
      simp only [CreateCall.service, doSyscall, doCreateBuffer]
      split_ifs at h ⊢ <;> cases h <;> rfl
  | blackboard name sz =>
      simp only [CreateCall.refused] at h
      simp only [CreateCall.service, doSyscall, doCreateBlackboard]
      split_ifs at h ⊢ <;> cases h <;> rfl
  | queuingPort name sz nb dir disc =>
      simp only [CreateCall.refused] at h
      simp only [CreateCall.service, doSyscall, doCreateQueuingPort]
      split_ifs at h ⊢ <;> cases h <;> rfl

theorem retMade_eq_ok {r : Except CreateFault (Option Nat × Kernel × Stock)} {code : RetCode} :
    retMade r = .ok (code, k', s') ↔ ∃ made, r = .ok (made, k', s') ∧ madeCode made = code := by
  obtain _ | ⟨made, k₁, s₁⟩ := r
  · simp [retMade, Except.map]
  · simp only [retMade, Except.map, Except.ok.injEq, Prod.mk.injEq]
    constructor
    · rintro ⟨hcode, rfl, rfl⟩
      exact ⟨made, ⟨rfl, rfl, rfl⟩, hcode⟩
    · rintro ⟨_, ⟨rfl, rfl, rfl⟩, hcode⟩
      exact ⟨hcode, rfl, rfl⟩

/-- **The code and the kernel** that a call leaves are those of the service. -/
theorem create_refines {c : CreateCall} {code : RetCode} (env : Env) (p : ProcId)
    (h : create P rounds k s c = .ok (code, k', s')) :
    ∃ out, doSyscall k env p c.service = .ok (.ret code out, k') := by
  unfold create at h
  cases hchk : c.refused k with
  | some code' =>
      rw [hchk] at h
      cases h
      exact ⟨.none, refused_service hchk⟩
  | none =>
      rw [hchk] at h
      obtain ⟨made, hmade, rfl⟩ := retMade_eq_ok.mp h
      -- what the creation takes from the heap is not part of the state of the kernel
      cases c with
      | process a =>
          simp only [CreateCall.refused] at hchk
          simp only [CreateCall.service, doSyscall, doCreateProcess]
          split_ifs at hchk ⊢
          rw [procAlloc_refines hmade]
          cases made <;> exact ⟨_, rfl⟩
      | buffer name sz nb disc =>
          simp only [CreateCall.refused] at hchk
          simp only [CreateCall.service, doSyscall, doCreateBuffer]
          split_ifs at hchk ⊢
          rw [commAlloc_refines hmade]
          cases made <;> exact ⟨_, rfl⟩
      | blackboard name sz =>
          simp only [CreateCall.refused] at hchk
          simp only [CreateCall.service, doSyscall, doCreateBlackboard]
          split_ifs at hchk ⊢
          rw [commAlloc_refines hmade]
          cases made <;> exact ⟨_, rfl⟩
      | queuingPort name sz nb dir disc =>
          simp only [CreateCall.refused] at hchk
          simp only [CreateCall.service, doSyscall, doCreateQueuingPort]
          split_ifs at hchk ⊢
          cases dir with
          | none =>
              cases hmade
              exact ⟨_, rfl⟩
          | some dir =>
              simp only [queuingPortAlloc_refines hmade]
              cases made <;> exact ⟨_, rfl⟩

/-! ## The heap -/

section Heap

variable {h h' : KHeap} {live : List (Nat × Nat)} {bs : List Block} {n n' : Nat}

/-- The block that a request is cut from: the first free block that is large enough. -/
def firstFit (bs : List Block) (n : Nat) : Option Block := bs.find? fun b => b.Fits (blockNeed n)

/-- There is room for a request. -/
def Room (bs : List Block) (n : Nat) : Prop := blockNeed n ≤ kallocMaxSize ∧ (firstFit bs n).isSome

/-- There is room for a second request: another free block is large enough, or the half of the first
block that is left over. -/
def RoomAfter (bs : List Block) (n n' : Nat) : Prop :=
  blockNeed n' ≤ kallocMaxSize ∧ ∃ b, firstFit bs n = some b ∧
    ((∃ c ∈ bs, c ≠ b ∧ c.Fits (blockNeed n')) ∨ blockNeed n ≤ b.size / 2 ∧ blockNeed n' ≤ b.size / 2)

theorem firstFit_isSome : (firstFit bs n).isSome ↔ ∃ b ∈ bs, b.Fits (blockNeed n) := by
  simp [firstFit]

/-- **A request** is served exactly if there is room for it, and what it leaves is known. -/
theorem kallocStore_cases (hi : HeapInv P ⟨h, live⟩ bs) (hk : kallocRounds ≤ rounds) (hn : n < 2 ^ 63) :
    (¬ Room bs n ∧ kallocStore rounds h n = .error .null) ∨
      (Room bs n ∧ ∃ ptr h' bs', kallocStore rounds h n = .ok (ptr, h') ∧
        HeapInv P ⟨h', (ptr, n) :: live⟩ bs' ∧ (∀ x ∈ live, x.1 ≠ ptr) ∧
        ∀ n', Room bs' n' ↔ RoomAfter bs n n') := by
  rcases hi.holdsFrom.kalloc hk (need_of_lt hn) with
    ⟨hres, hwhy⟩ | ⟨h', l, b, r, b', frees, hres, rfl, hmax, hfits, hh, hstart, hused, hge, hle, hfrees,
      hfst, hroom⟩
  · refine Or.inl ⟨?_, ?_⟩
    · rintro ⟨hsmall, hfit⟩
      rcases hwhy with hlarge | hnone
      · exact absurd hsmall (not_le.mpr hlarge)
      · obtain ⟨b, hb, hfits⟩ := firstFit_isSome.mp hfit
        exact hnone b hb hfits
    · rw [kallocStore, hres]
      rfl
  · have hptr : P.addr b + buddyBlockSize = (P.payload b').start := by
      simp only [KallocPool.payload, KallocPool.addr, hstart]
    have hne : P.addr b + buddyBlockSize ≠ 0 := by simp [buddyBlockSize]
    -- the block that is taken is the first one that fits
    have hfirst : firstFit (l ++ b :: r) n = some b := by
      rw [firstFit, List.find?_append, List.find?_eq_none.mpr (by simpa using hfst), Option.none_or,
        List.find?_cons_of_pos (by simpa using hfits)]
    refine Or.inr ⟨⟨hmax, by simp [hfirst]⟩, (P.payload b').start, h', _, ?_,
      hi.kalloc (n := n) hfits.1 hh hused hle ((blockNeed_eq (noWrap_of_lt hn)).2.1.trans hge)
        (fun c hc => (hfrees c hc).1),
      ?_, ?_⟩
    · rw [kallocStore, hres, ← hptr]
      exact if_neg hne
    · rw [← hptr]
      exact hi.not_live (by simp) hfits.1
    · intro n'
      rw [Room, firstFit_isSome, RoomAfter]
      refine and_congr_right fun _ => ?_
      have hleft := hroom (blockNeed n')
      constructor
      · rintro ⟨c, hc, hcfits⟩
        refine ⟨b, hfirst, ?_⟩
        simp only [List.mem_append, List.mem_cons] at hc
        -- a free block afterwards: left of the taken one, itself, one of its upper halves, or right of it
        rcases hc with hc | rfl | hc | hc
        · refine Or.inl ⟨c, by simp [hc], ?_, hcfits⟩
          rintro rfl
          exact absurd (hi.tiles.stop_le hc) (not_le.mpr c.start_lt_stop)
        · exact absurd hcfits.1 (by simp [hused])
        · exact Or.inr (hleft.mp ⟨c, hc, hcfits.2⟩)
        · refine Or.inl ⟨c, by simp [hc], ?_, hcfits⟩
          rintro rfl
          exact absurd (hi.tiles.le_start hc) (not_le.mpr c.start_lt_stop)
      · rintro ⟨d, hd, hcase⟩
        obtain rfl : b = d := Option.some.inj (hfirst.symm.trans hd)
        rcases hcase with ⟨c, hc, hne, hcfits⟩ | hhalf
        · refine ⟨c, ?_, hcfits⟩
          simp only [List.mem_append, List.mem_cons] at hc ⊢
          rcases hc with hc | hc | hc
          · exact Or.inl hc
          · exact absurd hc hne
          · exact Or.inr (Or.inr (Or.inr hc))
        · obtain ⟨c, hc, hsize⟩ := hleft.mpr hhalf
          exact ⟨c, by simp [hc], (hfrees c hc).1, hsize⟩

/-- There is room for a record and its name. -/
def RoomFor (bs : List Block) (size : Nat) (name : String) : Prop :=
  Room bs size ∧ RoomAfter bs size (nameSize name)

/-- **A record and its name** are made exactly if there is room for both. -/
theorem recordAlloc_cases {name : String} (hi : HeapInv P ⟨h, live⟩ bs)
    (hk : kallocRounds ≤ rounds) (hn : n < 2 ^ 63) (hname : nameSize name < 2 ^ 63) :
    (¬ RoomFor bs n name ∧ recordAlloc rounds h n name = .error .null) ∨
      (RoomFor bs n name ∧ ∃ tmp nm h' bs', recordAlloc rounds h n name = .ok (tmp, nm, h') ∧
        HeapInv P ⟨h', (nm, nameSize name) :: (tmp, n) :: live⟩ bs' ∧ tmp ≠ nm) := by
  unfold recordAlloc
  rcases kallocStore_cases hi hk hn with ⟨hfull, hres⟩ | ⟨hroom, tmp, h₁, bs₁, hres, hi₁, -, hafter⟩
  · exact Or.inl ⟨fun hboth => hfull hboth.1, by rw [hres]; rfl⟩
  rcases kallocStore_cases hi₁ hk hname with ⟨hfull, hres₁⟩ | ⟨hroom₁, nm, h₂, bs₂, hres₁, hi₂, hne, -⟩
  · refine Or.inl ⟨fun hboth => hfull ((hafter _).mpr hboth.2), ?_⟩
    rw [hres]
    simp only [bind, Except.bind, hres₁]
  · refine Or.inr ⟨⟨hroom, (hafter _).mp hroom₁⟩, tmp, nm, h₂, bs₂, ?_, hi₂, hne _ List.mem_cons_self⟩
    rw [hres]
    simp only [bind, Except.bind, hres₁]

theorem recordAlloc_returns {name : String} (hi : HeapInv P ⟨h, live⟩ bs)
    (hk : kallocRounds ≤ rounds) (hn : n < 2 ^ 63) (hname : nameSize name < 2 ^ 63) :
    (∃ x, recordAlloc rounds h n name = .ok x) ↔ RoomFor bs n name := by
  rcases recordAlloc_cases hi hk hn hname with ⟨hfull, hres⟩ | ⟨hroom, tmp, nm, h₁, bs₁, hres, -, -⟩
  · exact iff_of_false (by simp [hres]) hfull
  · exact iff_of_true ⟨_, hres⟩ hroom

/-- Live memory is released. -/
theorem recordFree_ok {p : Nat} (hi : HeapInv P ⟨h, live⟩ bs) (hk : kallocRounds ≤ rounds)
    (hlive : ∃ x ∈ live, x.1 = p) : ∃ h' bs', recordFree P rounds h p = .ok h' ∧
      HeapInv P ⟨h', live.filter fun x => x.1 ≠ p⟩ bs' := by
  obtain ⟨s', bs', hstep, hi'⟩ := hi.step hk (show HeapOp.Allowed ⟨h, live⟩ (.kfree p) from hlive)
  rw [heapStep] at hstep
  unfold recordFree
  cases hfree : kfree P rounds h p with
  | error e => simp only [hfree] at hstep; cases hstep
  | ok h' =>
      simp only [hfree] at hstep
      cases hstep
      exact ⟨h', bs', rfl, hi'⟩

end Heap

/-! ## When a creation returns -/

section Supply

variable {live : List (Nat × Nat)} {bs : List Block} {R : Finset Ppn} {c : CreateCall}

/-- The channel of the first configuration with this name. -/
def portChannel (k : Kernel) (name : String) : Option ChanId :=
  (k.portConfs.find? fun c => c.qpcName = name).bind QueuingPortConf.qpcChannel

/-- The kernel has what a call takes. The free blocks hold the record and the name; for a process there is
a context, and frames for its stacks, which go where nothing is mapped. A call that is refused by the
budget or for its channel takes nothing. -/
def Supplied (k : Kernel) (ctxs : Nat) (bs : List Block) : CreateCall → Prop
  | .process a =>
      (k.mem.parts k.curPart).paMemRem < alignUp a.stackSize pgSize ∨
        (RoomFor bs procSize a.name ∧ 0 < ctxs ∧ StacksClear k.mem k.curPart a.stackSize ∧
          Enough k.mem (k.mem.parts k.curPart).paPgdir (procVas k.mem k.curPart a.stackSize))
  | .buffer name _ _ _ => RoomFor bs bufferSize name
  | .blackboard name _ => RoomFor bs blackboardSize name
  | .queuingPort name _ _ _ _ => portChannel k name = none ∨ RoomFor bs queuingPortSize name

/-- Nothing is mapped yet where the stacks of a new process go. -/
def NewStacks (k : Kernel) : CreateCall → Prop
  | .process a => StacksClear k.mem k.curPart a.stackSize
  | _ => True

theorem commAlloc_returns {size : Nat} {name : String} {alloc : Option Nat × Kernel}
    (hi : HeapInv P ⟨s.heap, live⟩ bs) (hk : kallocRounds ≤ rounds) (hsize : size < 2 ^ 63)
    (hname : nameSize name < 2 ^ 63) :
    (∃ r, commAlloc P rounds s size name alloc = .ok r) ↔ RoomFor bs size name := by
  rcases recordAlloc_cases hi hk hsize hname with ⟨hfull, hres⟩ | ⟨hroom, tmp, nm, h₁, bs₁, hres, hi₁, hne⟩
  · refine iff_of_false ?_ hfull
    rintro ⟨r, hr⟩
    obtain ⟨x, hx, -⟩ := except_bind_eq_ok.mp hr
    rw [hres] at hx
    cases hx
  · refine iff_of_true ?_ hroom
    unfold commAlloc
    rw [hres]
    obtain ⟨_ | id, k₁⟩ := alloc
    · -- the name and the record are live until they are released
      obtain ⟨h₂, bs₂, hfree, hi₂⟩ := recordFree_ok hi₁ hk ⟨_, List.mem_cons_self, rfl⟩
      obtain ⟨h₃, bs₃, hfree', -⟩ := recordFree_ok (p := tmp) hi₂ hk
        ⟨(tmp, size), List.mem_filter.mpr ⟨by simp, by simpa using hne⟩, rfl⟩
      refine ⟨(none, k₁, { s with heap := h₃ }), except_bind_eq_ok.mpr ⟨_, rfl, ?_⟩⟩
      exact except_bind_eq_ok.mpr ⟨h₂, hfree, except_bind_eq_ok.mpr ⟨h₃, hfree', rfl⟩⟩
    · exact ⟨_, except_bind_eq_ok.mpr ⟨_, rfl, rfl⟩⟩

theorem procAlloc_returns {pt : PartId} {a : ProcessAttribute} (hi : HeapInv P ⟨s.heap, live⟩ bs)
    (hk : kallocRounds ≤ rounds) (hname : nameSize a.name < 2 ^ 63) :
    (∃ r, procAlloc rounds k s pt a = .ok r) ↔
      (k.mem.parts pt).paMemRem < alignUp a.stackSize pgSize ∨
        (RoomFor bs procSize a.name ∧ 0 < s.ctxs ∧ (procAllocMem pt a.stackSize).Succeeds k.mem) := by
  unfold procAlloc
  by_cases hrem : (k.mem.parts pt).paMemRem < alignUp a.stackSize pgSize
  · rw [if_pos hrem]
    exact iff_of_true ⟨_, rfl⟩ (Or.inl hrem)
  rw [if_neg hrem, or_iff_right hrem]
  -- the record, the name, the memory and the context are taken in this order
  rcases recordAlloc_cases hi hk (n := procSize) (by decide) hname with
    ⟨hfull, hres⟩ | ⟨hroom, tmp, nm, h₁, bs₁, hres, -, -⟩
  · refine iff_of_false ?_ fun hall => hfull hall.1
    rintro ⟨r, hr⟩
    obtain ⟨x, hx, -⟩ := except_bind_eq_ok.mp hr
    rw [hres] at hx
    cases hx
  rw [and_iff_right hroom, hres]
  cases hmem : procAllocMem pt a.stackSize k.mem with
  | fatal =>
      refine iff_of_false ?_ ?_
      · rintro ⟨r, hr⟩
        simp [bind, Except.bind, Jrinx.procAlloc, hmem] at hr
      · rintro ⟨-, stk, m, hok⟩
        rw [hmem] at hok
        cases hok
  | err m => exact absurd hmem (procAllocMem_ne_err (not_lt.mp hrem))
  | ok stk m =>
      have hsucc : (procAllocMem pt a.stackSize).Succeeds k.mem := ⟨stk, m, hmem⟩
      by_cases hctx : s.ctxs = 0
      · refine iff_of_false ?_ fun hall => absurd hctx hall.1.ne'
        rintro ⟨r, hr⟩
        simp [bind, Except.bind, Jrinx.procAlloc, hmem, hctx] at hr
      · refine iff_of_true ?_ ⟨Nat.pos_of_ne_zero hctx, hsucc⟩
        simp [bind, Except.bind, Jrinx.procAlloc, hmem, hctx]

theorem queuingPortAlloc_returns {pt : PartId} {name : String} {dir : PortDir} {disc : QueDisc}
    (hi : HeapInv P ⟨s.heap, live⟩ bs) (hk : kallocRounds ≤ rounds) (hname : nameSize name < 2 ^ 63) :
    (∃ r, queuingPortAlloc rounds k s pt name dir disc = .ok r) ↔
      portChannel k name = none ∨ RoomFor bs queuingPortSize name := by
  unfold queuingPortAlloc Jrinx.queuingPortAlloc
  rw [← portChannel]
  cases portChannel k name with
  | none => exact iff_of_true ⟨_, rfl⟩ (Or.inl rfl)
  | some chan =>
      rw [or_iff_right (by simp)]
      have hiff := recordAlloc_returns hi hk (n := queuingPortSize) (by decide) hname
      rw [← hiff]
      constructor
      · rintro ⟨r, hr⟩
        obtain ⟨x, hx, -⟩ := except_bind_eq_ok.mp hr
        exact ⟨x, hx⟩
      · rintro ⟨x, hx⟩
        exact ⟨_, except_bind_eq_ok.mpr ⟨x, hx, rfl⟩⟩

/-- A call that passes the checks returns exactly if its allocation does. -/
theorem create_returns (hpass : c.refused k = none) :
    (∃ r, create P rounds k s c = .ok r) ↔ ∃ r, c.alloc P rounds k s = .ok r := by
  unfold create
  rw [hpass]
  constructor
  · rintro ⟨⟨code, k', s'⟩, hr⟩
    obtain ⟨made, hmade, -⟩ := retMade_eq_ok.mp hr
    exact ⟨_, hmade⟩
  · rintro ⟨⟨made, k', s'⟩, hr⟩
    exact ⟨_, retMade_eq_ok.mpr ⟨made, hr, rfl⟩⟩

/-- A record that was made is live. -/
theorem recordAlloc_ok {h h' : KHeap} {size tmp nm : Nat} {name : String} (hi : HeapInv P ⟨h, live⟩ bs)
    (hk : kallocRounds ≤ rounds) (hsize : size < 2 ^ 63) (hname : nameSize name < 2 ^ 63)
    (hok : recordAlloc rounds h size name = .ok (tmp, nm, h')) :
    (∃ bs', HeapInv P ⟨h', (nm, nameSize name) :: (tmp, size) :: live⟩ bs') ∧ tmp ≠ nm := by
  rcases recordAlloc_cases hi hk hsize hname with ⟨-, hres⟩ | ⟨-, tmp', nm', h₁, bs₁, hres, hi₁, hne⟩
  · rw [hres] at hok
    cases hok
  · rw [hres] at hok
    cases hok
    exact ⟨⟨bs₁, hi₁⟩, hne⟩

theorem commAlloc_keeps {size : Nat} {name : String} {alloc : Option Nat × Kernel}
    (hi : HeapInv P ⟨s.heap, live⟩ bs) (hk : kallocRounds ≤ rounds) (hsize : size < 2 ^ 63)
    (hname : nameSize name < 2 ^ 63) (h : commAlloc P rounds s size name alloc = .ok (made, k', s')) :
    ∃ live' bs', HeapInv P ⟨s'.heap, live'⟩ bs' := by
  obtain ⟨⟨tmp, nm, h₁⟩, hrec, h⟩ := except_bind_eq_ok.mp h
  obtain ⟨⟨bs₁, hi₁⟩, hne⟩ := recordAlloc_ok hi hk hsize hname hrec
  obtain ⟨_ | id, k₁⟩ := alloc
  · obtain ⟨h₂, hfree, h⟩ := except_bind_eq_ok.mp h
    obtain ⟨h₃, hfree', h⟩ := except_bind_eq_ok.mp h
    cases h
    obtain ⟨h₂', bs₂, hres, hi₂⟩ := recordFree_ok hi₁ hk ⟨_, List.mem_cons_self, rfl⟩
    obtain rfl : h₂' = h₂ := Except.ok.inj (hres.symm.trans hfree)
    obtain ⟨h₃', bs₃, hres', hi₃⟩ := recordFree_ok (p := tmp) hi₂ hk
      ⟨(tmp, size), List.mem_filter.mpr ⟨by simp, by simpa using hne⟩, rfl⟩
    obtain rfl : h₃' = h₃ := Except.ok.inj (hres'.symm.trans hfree')
    exact ⟨_, bs₃, hi₃⟩
  · cases h
    exact ⟨_, bs₁, hi₁⟩

/-- **A creation keeps the heap in order**, so that what is said of the next one holds too. -/
theorem create_keeps {code : RetCode} (hi : HeapInv P ⟨s.heap, live⟩ bs) (hk : kallocRounds ≤ rounds)
    (hname : nameSize c.name < 2 ^ 63) (h : create P rounds k s c = .ok (code, k', s')) :
    ∃ live' bs', HeapInv P ⟨s'.heap, live'⟩ bs' := by
  unfold create at h
  cases hchk : c.refused k with
  | some code' =>
      rw [hchk] at h
      cases h
      exact ⟨live, bs, hi⟩
  | none =>
      rw [hchk] at h
      obtain ⟨made, hmade, -⟩ := retMade_eq_ok.mp h
      -- a creation takes from the heap and gives nothing back
      cases c with
      | process a =>
          rw [CreateCall.alloc, procAlloc] at hmade
          split at hmade
          · cases hmade
            exact ⟨live, bs, hi⟩
          obtain ⟨⟨tmp, nm, h₁⟩, hrec, hmade⟩ := except_bind_eq_ok.mp hmade
          obtain ⟨⟨bs₁, hi₁⟩, -⟩ := recordAlloc_ok hi hk (by decide) hname hrec
          dsimp only at hmade
          split at hmade
          · cases hmade
          split at hmade
          · cases hmade
          · cases hmade
            exact ⟨_, bs₁, hi₁⟩
      | buffer name sz nb disc => exact commAlloc_keeps hi hk (by decide) hname hmade
      | blackboard name sz => exact commAlloc_keeps hi hk (by decide) hname hmade
      | queuingPort name sz nb dir disc =>
          cases dir with
          | none =>
              cases hmade
              exact ⟨live, bs, hi⟩
          | some dir =>
              rw [CreateCall.alloc, queuingPortAlloc] at hmade
              split at hmade
              · cases hmade
                exact ⟨live, bs, hi⟩
              · obtain ⟨⟨tmp, nm, h₁⟩, hrec, hmade⟩ := except_bind_eq_ok.mp hmade
                obtain ⟨⟨bs₁, hi₁⟩, -⟩ := recordAlloc_ok hi hk (by decide) hname hrec
                cases hmade
                exact ⟨_, bs₁, hi₁⟩

end Supply

/-- A partition in cold start, with an empty root table and one free frame. -/
def startingSystem : Kernel :=
  { smallSystem 1 .fifo [] with
    mem :=
      { rootMem [0x80002] with
        parts := fun _ => { PartMem.blank with paPgdir := 0x80000, paCommBase := commBase } }
    parts := fun pt =>
      { (smallSystem 1 .fifo []).parts pt with paOpMode := .coldStart, paBufs := [] } }

theorem tidy_startingSystem : Tidy {0x80000} startingSystem.mem :=
  (tidy_rootMem (List.nodup_singleton _)
    (fun f hf => by rw [List.mem_singleton.mp hf]; exact ⟨by decide, by decide⟩) (by decide)).congr
    rfl rfl rfl rfl

end Stocked

end Jrinx
