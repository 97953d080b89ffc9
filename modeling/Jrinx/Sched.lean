import Jrinx.Timer

/-! # The scheduler

`kern/multitask/sched.c`, and the part of `time_event_action` that calls it. `sched_proc` and
`sched_global` do not return; what they do to the state of the kernel is split at the election, during
which interrupts are enabled.

* **`schedModuleAdd`**, **`schedLaunch`** — the module table and its first timers.
* **`schedElectNextProc`** — the election, for a state that does not change under it.
* **`schedProcSt`**, **`schedProcEd`** — `sched_proc` before and after its election.
* **`schedGlobal`**, **`timeEventAction`** — the partition switch and the timer interrupt. -/

namespace Jrinx

/-! ## The module table -/

/-- `sched_module_add`: windows are added in order and must not overlap the one before. -/
def schedModuleAdd (k : Kernel) (part : PartId) (offset duration : Int) : Option Kernel :=
  let mod : SchedModule :=
    { smPart := part, smOffset := offset, smDuration := duration, smPrevActTime := 0 }
  match k.schedModules.getLast? with
  | none => some { k with schedModules := k.schedModules ++ [mod] }
  | some last =>
      if offset < last.smOffset + last.smDuration then none
      else some { k with schedModules := k.schedModules ++ [mod] }

/-- The major frame: the least common multiple of the periods of the partitions. -/
def majorFrame (k : Kernel) : Int :=
  k.schedParts.foldl (fun acc pt => (Int.lcm acc (k.parts pt).paPeriod : Int)) 1

/-- The loop of `sched_launch` over the modules: every module but the first gets its timer. -/
def launchModules (now : Int) : Bool → List SchedModule → Kernel → Kernel
  | _, [], k => k
  | first, m :: ms, k =>
      launchModules now false ms
        (if first then k else timeEventAlloc k (now + m.smOffset) .partitionActivate)

/-- `sched_launch`, at the time `now`. -/
def schedLaunch (k : Kernel) (now : Int) : Option Kernel :=
  let frame := majorFrame k
  if k.schedParts = [] then none
  else if k.schedModules.any (fun m => decide (frame < m.smOffset + m.smDuration)) then none
  else
    let k := launchModules now true k.schedModules { k with schedMajorFrame := frame }
    some { k with
      schedModules := k.schedModules.map fun m => { m with smPrevActTime := now + m.smOffset } }

/-! ## The election -/

/-- The test of the election for a single process. -/
def eligible (k : Kernel) (p : ProcId) : Bool :=
  (k.procs p).prState = .ready || (k.procs p).prState = .running

/-- The part of a process list that follows a process. -/
def listAfter (p : ProcId) : List ProcId → List ProcId
  | [] => []
  | q :: l => if q = p then l else listAfter p l

/-- The search of the round-robin branch. -/
def firstAtLeast (k : Kernel) (pri : Nat) (l : List ProcId) : Option ProcId :=
  l.find? (fun q => eligible k q && decide (pri ≤ (k.procs q).prCurPri))

/-- One step of the search of the priority branch: the best process so far. -/
def betterOf (k : Kernel) (best : Option ProcId) (q : ProcId) : Option ProcId :=
  if eligible k q then
    match best with
    | none => some q
    | some b => if (k.procs b).prCurPri < (k.procs q).prCurPri then some q else some b
  else best

/-- One round of `sched_elect_next_proc`; `none` means that the loop goes round again. -/
def schedElectNextProc (k : Kernel) (roundRobin : Bool) : Option ProcId :=
  let procList := (k.parts k.curPart).paProcList
  if roundRobin then
    match k.curProc with
    | none => none
    | some cur =>
        let curPri := (k.procs cur).prCurPri
        let own := (k.parts (k.procs cur).prPartId).paProcList
        (firstAtLeast k curPri (listAfter cur own)).or (firstAtLeast k curPri procList)
  else
    procList.foldl (betterOf k) none

/-- `sched_proc` before its election. -/
def schedProcSt (k : Kernel) : Kernel :=
  match k.curProc with
  | none => k
  | some cur =>
      if (k.procs cur).prState = .running then
        k.setState cur .ready
      else k

/-- `sched_proc` after its election, up to `proc_run`. -/
def schedProcEd (k : Kernel) (next : ProcId) : Kernel :=
  { k with curProc := some next }.setState next .running

/-! ## The partition switch -/

/-- The position of the module that follows the current one. -/
def nextMod (k : Kernel) : Nat :=
  match k.schedCurMod with
  | none => 0
  | some i => if i + 1 < k.schedModules.length then i + 1 else 0

/-- `sched_global`, up to its call of `sched_proc`. -/
def schedGlobal (k : Kernel) : Except Fault Kernel :=
  match k.schedModules with
  | [] =>
      match k.schedParts with
      | [] => .error .panic
      | pt :: _ => .ok { k with curPart := pt }
  | m₀ :: ms =>
      let i := nextMod k
      let m := (m₀ :: ms).getD i m₀
      let next := m.smPrevActTime + k.schedMajorFrame
      let k := { k with schedCurMod := some i }
      let k := timeEventAlloc k next .partitionActivate
      .ok { k with
        schedModules := k.schedModules.set i { m with smPrevActTime := next }
        curPart := m.smPart }

/-- `time_event_action`, up to its calls of `sched_proc`: what it asks for and the state. -/
def timeEventAction (k : Kernel) (clk : Nat → Int) : Except Fault (Resched × Kernel) := do
  let (r, k) := timeEventLoop clk k.teq 0 ⟨false, false⟩ k
  if r.part then
    let k ← schedGlobal k
    .ok (r, k)
  else
    .ok (r, k)

/-! ## What they do -/

variable {k k' : Kernel}

/-- `sched_proc` first takes the processor from the process on the hart. -/
theorem schedProcSt_cases (k : Kernel) :
    schedProcSt k = k ∨ ∃ cur, k.curProc = some cur ∧ (k.procs cur).prState = .running ∧
      schedProcSt k = k.setState cur .ready := by
  unfold schedProcSt
  split
  · exact Or.inl rfl
  · rename_i cur hcur
    split
    · rename_i hrun
      exact Or.inr ⟨cur, hcur, hrun, rfl⟩
    · exact Or.inl rfl

/-- `sched_global` changes the current partition and, where there are modules, sets the next switch. -/
theorem schedGlobal_eq_ok (h : schedGlobal k = .ok k') :
    (∃ pt, k' = { k with curPart := pt }) ∨
      ∃ time mods pt, k' = { timeEventAlloc { k with schedCurMod := some (nextMod k) } time .partitionActivate with
        schedModules := mods, curPart := pt } := by
  unfold schedGlobal at h
  split at h
  · split at h
    · exact absurd h (by simp)
    · exact Or.inl ⟨_, (Except.ok.inj h).symm⟩
  · exact Or.inr ⟨_, _, _, (Except.ok.inj h).symm⟩

end Jrinx
