import Jrinx.RoundRobin

/-! # Elections that interrupts strike

`sched_elect_next_proc` list step by list step, with the interrupts that `sched_proc` and the services admit
while it runs. An interrupt that ends in `sched_proc` does not come back; the election it struck stays on the
list of contexts of its process, with its variables, and goes on when that process is dispatched.

* **`Scan`**, **`Scan.next`** — the variables of an election, and one step of it.
* **`Flow`**, **`Interleaved`** — what the hart executes, and what was left in the contexts of the processes.
* **`interleavedStep`** — calls, steps of elections and timer interrupts, in any order. -/

namespace Jrinx

/-! ## The election, step by step -/

/-- The variables of `sched_elect_next_proc`, where its loops are. -/
inductive Scan where
  /-- At the head of the outer loop, with `next_proc` null. -/
  | round
  /-- In the first loop of the round-robin branch, at `proc`. -/
  | rest (curPri : Nat) (proc : Option ProcId)
  /-- In the second loop of the round-robin branch, at `proc`. -/
  | again (curPri : Nat) (proc : Option ProcId)
  /-- In the loop of the priority branch, at `proc`. -/
  | best (proc nextProc : Option ProcId)
  /-- The outer loop is left. -/
  | found (nextProc : ProcId)
  deriving DecidableEq, Repr

/-- The variable `proc`. -/
def Scan.proc : Scan → Option ProcId
  | .rest _ p => p
  | .again _ p => p
  | .best p _ => p
  | _ => none

/-- The variable `next_proc`. -/
def Scan.nextProc : Scan → Option ProcId
  | .best _ b => b
  | .found q => some q
  | _ => none

/-- `pr_sched_link.next`. -/
def schedLinkNext (k : Kernel) (p : ProcId) : Option ProcId :=
  (listAfter p (k.parts (k.procs p).prPartId).paProcList).head?

/-- The test of the round-robin branch. -/
def atLeast (k : Kernel) (curPri : Nat) (p : ProcId) : Bool :=
  eligible k p && decide (curPri ≤ (k.procs p).prCurPri)

/-- One step of the election: the process at `proc` is looked at, and the link to the next one followed. -/
def Scan.next (k : Kernel) (roundRobin : Bool) : Scan → Scan
  | .round =>
      if roundRobin then
        match k.curProc with
        | none => .round
        | some cur => .rest (k.procs cur).prCurPri (schedLinkNext k cur)
      else .best (procList k).head? none
  | .rest curPri none => .again curPri (procList k).head?
  | .rest curPri (some p) => if atLeast k curPri p then .found p else .rest curPri (schedLinkNext k p)
  | .again _ none => .round
  | .again curPri (some p) => if atLeast k curPri p then .found p else .again curPri (schedLinkNext k p)
  | .best none none => .round
  | .best none (some b) => .found b
  | .best (some p) b => .best (schedLinkNext k p) (betterOf k b p)
  | .found p => .found p

section Scan

variable {k : Kernel} {roundRobin : Bool} {sc : Scan} {p q : ProcId}

theorem mem_of_schedLinkNext (hown : OwnProc k p) (h : schedLinkNext k p = some q) : q ∈ procList k := by
  rw [schedLinkNext, show (k.procs p).prPartId = k.curPart from hown] at h
  exact mem_of_mem_listAfter (List.mem_of_mem_head? h)

theorem atLeast_eligible {curPri : Nat} (h : atLeast k curPri p = true) : eligible k p = true :=
  ((Bool.and_eq_true _ _).mp h).1

/-- The election goes from one list of the current partition to the other, and along them. -/
theorem Scan.proc_next (h : (sc.next k roundRobin).proc = some q) : q ∈ procList k ∨
    ∃ p, (sc.proc = some p ∨ roundRobin = true ∧ k.curProc = some p) ∧ schedLinkNext k p = some q := by
  have hhead : (procList k).head? = some q → q ∈ procList k := List.mem_of_mem_head?
  -- `again` and `best` only follow a list; `round` and `rest` may also begin with its head
  cases sc with
  | round =>
      rw [Scan.next] at h
      split at h
      · rename_i hrr
        cases hcur : k.curProc with
        | none =>
            rw [hcur] at h
            cases h
        | some cur =>
            rw [hcur] at h
            exact Or.inr ⟨cur, Or.inr ⟨hrr, rfl⟩, h⟩
      · exact Or.inl (hhead h)
  | rest curPri p =>
      cases p with
      | none => exact Or.inl (hhead h)
      | some p =>
          rw [Scan.next] at h
          split at h
          · cases h
          · exact Or.inr ⟨p, Or.inl rfl, h⟩
  | again curPri p =>
      cases p with
      | none => cases h
      | some p =>
          rw [Scan.next] at h
          split at h
          · cases h
          · exact Or.inr ⟨p, Or.inl rfl, h⟩
  | best p b =>
      cases p with
      | none => cases b <;> cases h
      | some p => exact Or.inr ⟨p, Or.inl rfl, h⟩
  | found p => cases h

/-- A process is chosen when it is looked at, and can run then. -/
theorem Scan.nextProc_next (h : (sc.next k roundRobin).nextProc = some q) :
    sc.nextProc = some q ∨ sc.proc = some q ∧ eligible k q = true := by
  -- the passes that look for one priority choose what they look at, and the last one keeps the best so far
  cases sc with
  | round =>
      rw [Scan.next] at h
      split at h
      · cases hcur : k.curProc with
        | none =>
            rw [hcur] at h
            cases h
        | some cur =>
            rw [hcur] at h
            cases h
      · cases h
  | rest curPri p =>
      cases p with
      | none => cases h
      | some p =>
          rw [Scan.next] at h
          split at h
          · rename_i htest
            cases h
            exact Or.inr ⟨rfl, atLeast_eligible htest⟩
          · cases h
  | again curPri p =>
      cases p with
      | none => cases h
      | some p =>
          rw [Scan.next] at h
          split at h
          · rename_i htest
            cases h
            exact Or.inr ⟨rfl, atLeast_eligible htest⟩
          · cases h
  | best p b =>
      cases p with
      | none =>
          cases b with
          | none => cases h
          | some b => exact Or.inl h
      | some p =>
          -- the process that is looked at, or the one that was the best before
          have hbetter : betterOf k b p = some q := h
          unfold betterOf at hbetter
          split at hbetter
          · rename_i hruns
            cases b with
            | none =>
                cases hbetter
                exact Or.inr ⟨rfl, hruns⟩
            | some b =>
                dsimp only at hbetter
                split at hbetter
                · cases hbetter
                  exact Or.inr ⟨rfl, hruns⟩
                · exact Or.inl hbetter
          · exact Or.inl hbetter
  | found p => exact Or.inl h

end Scan

/-! ## The state -/

/-- What the hart executes, or what the registers in a context go on with. -/
inductive Flow where
  /-- The program of a process. -/
  | user
  /-- `sched_proc_give_up`, in its election; `proc` is its variable. -/
  | giveUp (proc : ProcId) (roundRobin : Bool) (scan : Scan)
  /-- A service, after `sched_proc_give_up`. -/
  | back
  /-- `sched_proc`, in its election. -/
  | elect (roundRobin : Bool) (scan : Scan)
  deriving DecidableEq, Repr

/-- The hart with what it left unfinished. -/
structure Interleaved where
  kernel : Kernel
  /-- What the contexts in `tf_ctx_list` go on with, the newest first. -/
  saved : ProcId → List Flow
  flow : Flow

/-- What happens next. -/
inductive FlowEvent where
  /-- The program on the hart makes a service call. -/
  | call (env : Env) (s : Service)
  /-- The service on the hart goes on after `sched_proc_give_up`. -/
  | resume (env : Env)
  /-- One step of the election on the hart. -/
  | scan
  /-- The election on the hart is over, and its caller goes on. -/
  | elected
  /-- A timer interrupt; `clk` gives the readings of the clock. -/
  | timer (clk : Nat → Int)

namespace Interleaved

variable (h : Interleaved)

/-- What the hart executes is put aside, on the list of `p`. -/
def push (p : ProcId) (f : Flow) : Interleaved :=
  { h with saved := Function.update h.saved p (f :: h.saved p) }

/-- The newest context of `p` is loaded. -/
def pop (p : ProcId) : Except Fault Interleaved :=
  match h.saved p with
  | [] => .error .panic
  | f :: l => .ok { h with saved := Function.update h.saved p l, flow := f }

/-- A service of `p` came to the end of a segment. -/
def serviceEnd (p : ProcId) : Next → Except Fault Interleaved
  | .ret _ _ => h.pop p
  | .giveUp roundRobin _ => .ok { h with flow := .giveUp p roundRobin .round }

end Interleaved

/-! ## Steps -/

/-- The process that a call resets: `do_delayed_start` went past its checks. -/
def resetBy (k : Kernel) : Service → Option ProcId
  | .start id => started id 0
  | .delayedStart id delayTime => started id delayTime
  | _ => none
where
  started (id : ProcId) (delayTime : Int) : Option ProcId :=
    match curPartProc k id with
    | none => none
    | some pr =>
        if pr.prState ≠ .dormant then none
        else if delayTime = systemTimeInfiniteVal then none
        else if procIsPeriod pr ∧ pr.prPeriod ≤ delayTime then none
        else some id

/-- `proc_reset` leaves one context, which starts the program. -/
def resetSaved (saved : ProcId → List Flow) : Option ProcId → ProcId → List Flow
  | none => saved
  | some p => Function.update saved p [.user]

/-- One step. -/
def interleavedStep (h : Interleaved) : FlowEvent → Except Fault Interleaved
  | .call env s =>
      match h.flow, h.kernel.curProc with
      | .user, some p => do
          let (n, k) ← doSyscall h.kernel env p s
          let h := h.push p .user
          { h with kernel := settle p (n, k), saved := resetSaved h.saved (resetBy h.kernel s) }.serviceEnd p n
      | _, _ => .error .disabled
  | .resume env =>
      match h.flow, h.kernel.curProc with
      | .back, some p =>
          match h.kernel.conts p with
          | none => .error .disabled
          | some c => do
              let (n, k) ← resumeCont (h.kernel.setWoken p false) env p c
              { h with kernel := settle p (n, k) }.serviceEnd p n
      | _, _ => .error .disabled
  | .scan =>
      match h.flow with
      | .giveUp p roundRobin sc => .ok { h with flow := .giveUp p roundRobin (sc.next h.kernel roundRobin) }
      | .elect roundRobin sc => .ok { h with flow := .elect roundRobin (sc.next h.kernel roundRobin) }
      | _ => .error .disabled
  | .elected =>
      match h.flow with
      | .giveUp p roundRobin (.found q) =>
          if p = q then .ok { h with flow := .back }
          else .ok { h.push p .back with kernel := schedProcSt h.kernel, flow := .elect roundRobin .round }
      | .elect _ (.found q) => { h with kernel := schedProcEd h.kernel q }.pop q
      | _ => .error .disabled
  | .timer clk =>
      match h.kernel.curProc with
      -- all interrupts are masked until the first dispatch
      | none => .error .disabled
      | some p => do
          let (r, k) ← timeEventAction h.kernel clk
          if r.part || r.proc then
            .ok { h.push p h.flow with kernel := schedProcSt k, flow := .elect false .round }
          else
            -- the handler returns to what it struck
            .ok { h with kernel := k }

/-- The state at the call of `sched_proc` at boot: nobody has run yet. -/
structure AtBoot (h : Interleaved) : Prop where
  quiet : Quiet h.kernel
  idle : ∀ p, (h.kernel.procs p).prState ≠ .running
  curProc : h.kernel.curProc = none
  /-- A process is linked once in its partition. -/
  once : ∀ pt, (h.kernel.parts pt).paProcList.Nodup
  /-- Also a process that is created later begins with its program. -/
  saved : ∀ p, h.saved p = [.user]
  flow : h.flow = .elect false .round

end Jrinx
