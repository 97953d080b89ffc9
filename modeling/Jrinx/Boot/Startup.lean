import Jrinx.Spinlocks
import Jrinx.Traps
import Jrinx.Mm.Pmm
import Mathlib.Data.Finset.Card

/-! # The start of the harts

`_start`, `kernel_init` and `cpus_probe`: the hart that finds `cpus_stacktop` empty is the master, sets the
kernel up and starts the others; all of them add one to `init_state` under its lock, and wait until it is
`cpus_valid_count`. The lock is that of `Spinlocks`, so its accesses are steps of their own here too.

* **`Board`**, **`Pc`**, **`State`**, **`Step`** — the harts of a board, where they are, what they share, and
  their steps.
* **`Counted`** — `init_state` is the number of the harts that have counted.
* **`Staged`** — the master sets up alone, and the others go on when it has counted.
* **`Inv`** — both of them; `Inv.step` is that a step keeps them. -/

namespace Jrinx

namespace Startup

/-- What is given: the `reg` of the nodes that `cpus_check` accepts, whether the board's hart 0 is skipped,
the hart that the firmware starts, and the symbols `kern_end` and `kern_master_stacktop`. The tables have an
entry for an identifier below the number of the nodes. -/
structure Board where
  ids : List Nat
  skipCpu0 : Bool
  boot : Nat
  kernEnd : Nat
  kernMasterStacktop : Nat
  nodup : ids.Nodup
  lt : ∀ id ∈ ids, id < ids.length
  few : ids.length + 1 < wordSize

namespace Board

variable (b : Board)

/-- `cpus_valid_count`. -/
def validCount : Nat := if b.skipCpu0 then wordSub b.ids.length 1 else b.ids.length

/-- The nodes that the loop does not `continue` over. -/
def visited : List Nat := b.ids.filter fun id => decide ¬ (id = 0 ∧ b.skipCpu0 = true)

/-- The harts that are ever started. -/
def harts : Finset Nat := insert b.boot b.visited.toFinset

end Board

/-- Where a hart is. -/
inductive Pc where
  | off
  /-- `_start`, and the test of `kernel_init`. -/
  | entry
  /-- The master, up to the tables of `cpus_probe`. -/
  | early
  /-- The loop of `cpus_probe`, with the nodes that are left. -/
  | probe (ids : List Nat)
  /-- Up to `vmm_setup_kern`. -/
  | setup
  /-- `vmm_start`, by the master. -/
  | vmmStart
  /-- `time_event_init`, `traps_init` and `sched_init`. -/
  | late
  /-- `while (init_state == 0)`. -/
  | waitInit
  /-- `vmm_start`, by another hart. -/
  | slaveVmmStart
  | lkAcquire
  | take
  /-- `init_state++` reads, and writes. -/
  | load
  | store (n : Nat)
  | lkRelease
  | drop
  /-- `while (init_state != cpus_get_valid_count())`. -/
  | barrier
  /-- `args_action`, `channel_mem_setup` and `sched_launch`. -/
  | action
  | trapInitVec
  /-- `sched_global`, or `kernel_suspend`. -/
  | running
  | panicked
  deriving DecidableEq, Repr

/-- What the harts share: where they are, their stack pointers, `cpus_stacktop`, `freemem_base`,
`init_state`, whether `kern_pgdir` is filled, and which harts use it. -/
structure State where
  pc : Nat → Pc
  sp : Nat → Nat
  cpusStacktop : Option (Nat → Nat)
  freememBase : Nat
  initState : Nat
  kernPgdir : Bool
  vm : Nat → Bool

namespace State

/-- The hart goes on. -/
def goTo (c : State) (i : Nat) (x : Pc) : State := { c with pc := Function.update c.pc i x }

/-- The operation of `lk_acquire` or `lk_release` that the hart is at. -/
def wants (c : State) (i : Nat) : Option (LockOp Unit) :=
  match c.pc i with
  | .lkAcquire => some (.holds ())
  | .take => some (.take ())
  | .lkRelease => some (.holds ())
  | .drop => some (.drop ())
  | _ => none

/-- The operation is done; an error of `lk_acquire` or `lk_release` is a panic. -/
def answer (c : State) (i : Nat) (b : Bool) : State :=
  match c.pc i with
  | .lkAcquire => c.goTo i (if b then .panicked else .take)
  | .take => c.goTo i .load
  | .lkRelease => c.goTo i (if b then .drop else .panicked)
  | .drop => c.goTo i .barrier
  | _ => c

/-- The `palloc` of the three tables of `cpus_probe`. -/
def tables (b : Board) (freememBase : Nat) : Nat :=
  let stacktop := palloc b.kernEnd freememBase (8 * b.ids.length) 8
  let intpLayer := palloc b.kernEnd stacktop.2 (8 * b.ids.length) 8
  (palloc b.kernEnd intpLayer.2 (4 * b.ids.length) 4).2

/-- The `palloc` of a stack. -/
def stack (b : Board) (freememBase : Nat) : Nat × Nat := palloc b.kernEnd freememBase kstkSize pgSize

end State

open State

/-- **The steps** of a hart that use no lock. A hart that waits for `init_state` has none until it is over. -/
inductive Step (b : Board) (i : Nat) : State → State → Prop
  /-- `cpus_stacktop` is `NULL`. -/
  | master {c : State} : c.pc i = .entry → c.cpusStacktop = none →
      Step b i c { c.goTo i .early with sp := Function.update c.sp i b.kernMasterStacktop }
  | slave {c : State} {t : Nat → Nat} : c.pc i = .entry → c.cpusStacktop = some t →
      Step b i c { c.goTo i .waitInit with sp := Function.update c.sp i (t i) }
  /-- The tables, with whatever the memory holds. -/
  | tables {c : State} (t : Nat → Nat) : c.pc i = .early →
      Step b i c { c.goTo i (.probe b.visited) with
        cpusStacktop := some t
        freememBase := tables b c.freememBase }
  /-- The node of the master. -/
  | probeSelf {c : State} {ids : List Nat} {t : Nat → Nat} : c.pc i = .probe (i :: ids) →
      c.cpusStacktop = some t →
      Step b i c { c.goTo i (.probe ids) with
        cpusStacktop := some (Function.update t i b.kernMasterStacktop) }
  /-- `sbi_hart_start` of a hart that is off. -/
  | probeStart {c : State} {id : Nat} {ids : List Nat} {t : Nat → Nat} : c.pc i = .probe (id :: ids) →
      id ≠ i → c.cpusStacktop = some t → c.pc id = .off →
      Step b i c { (c.goTo id .entry).goTo i (.probe ids) with
        cpusStacktop := some (Function.update t id ((stack b c.freememBase).1 + kstkSize))
        freememBase := (stack b c.freememBase).2 }
  /-- `sbi_hart_start` of a hart that is on is an error. -/
  | probeFail {c : State} {id : Nat} {ids : List Nat} : c.pc i = .probe (id :: ids) → id ≠ i →
      c.pc id ≠ .off → Step b i c (c.goTo i .panicked)
  | probed {c : State} : c.pc i = .probe [] → Step b i c (c.goTo i .setup)
  /-- The other probes and the page table take memory. -/
  | setup {c : State} (freememBase : Nat) : c.pc i = .setup →
      Step b i c { c.goTo i .vmmStart with kernPgdir := true, freememBase := freememBase }
  | vmmStart {c : State} : c.pc i = .vmmStart →
      Step b i c { c.goTo i .late with vm := Function.update c.vm i true }
  | late {c : State} : c.pc i = .late → Step b i c (c.goTo i .lkAcquire)
  | waitInit {c : State} : c.pc i = .waitInit → c.initState ≠ 0 →
      Step b i c (c.goTo i .slaveVmmStart)
  | slaveVmmStart {c : State} : c.pc i = .slaveVmmStart →
      Step b i c { c.goTo i .lkAcquire with vm := Function.update c.vm i true }
  | load {c : State} : c.pc i = .load → Step b i c (c.goTo i (.store c.initState))
  | store {c : State} {n : Nat} : c.pc i = .store n →
      Step b i c { c.goTo i .lkRelease with initState := (n + 1) % wordSize }
  | barrier {c : State} : c.pc i = .barrier → c.initState = b.validCount →
      Step b i c (c.goTo i (if i = syscore then .action else .trapInitVec))
  | action {c : State} : c.pc i = .action → Step b i c (c.goTo i .trapInitVec)
  | trapInitVec {c : State} : c.pc i = .trapInitVec → Step b i c (c.goTo i .running)

theorem wants_congr {c c' : State} {j : Nat} (h : c'.pc j = c.pc j) : c'.wants j = c.wants j := by
  simp only [wants, h]

theorem goTo_pc_of_ne {c : State} {i j : Nat} {x : Pc} (h : j ≠ i) : (c.goTo i x).pc j = c.pc j :=
  Function.update_of_ne h _ _

/-- The harts as threads with the lock of `init_state`. -/
def harts (b : Board) : Client Nat Unit State where
  wants := wants
  answer := answer
  step := Step b
  wants_answer := by
    intro c i j r h
    apply wants_congr
    unfold answer
    split <;> simp [goTo_pc_of_ne h]
  wants_step := by
    intro c c' i j hstep h
    cases hstep
    case probeStart id ids t hpc hne ht hoff =>
      by_cases hj : j = id
      · subst hj
        simp [wants, goTo, hoff, h]
      · apply wants_congr
        exact (goTo_pc_of_ne h).trans (goTo_pc_of_ne hj)
    all_goals exact wants_congr (goTo_pc_of_ne h)

/-! ## Where the harts are -/

namespace Pc

/-- `init_state` has been counted up. -/
def passed : Pc → Bool
  | .lkRelease | .drop | .barrier | .action | .trapInitVec | .running => true
  | _ => false

/-- The hart has the lock. -/
def holding : Pc → Bool
  | .load | .store _ | .lkRelease | .drop => true
  | _ => false

/-- The hart has left the barrier. -/
def released : Pc → Bool
  | .action | .trapInitVec | .running => true
  | _ => false

/-- Only the master comes here. -/
def master : Pc → Bool
  | .early | .probe _ | .setup | .vmmStart | .late => true
  | _ => false

/-- The master does not come here. -/
def slave : Pc → Bool
  | .off | .waitInit | .slaveVmmStart => true
  | _ => false

/-- `cpus_probe` is over, at least for a master. -/
def probed : Pc → Bool
  | .off | .entry | .early | .probe _ => false
  | _ => true

/-- The hart has seen that `init_state` is not zero, or is a master behind its setup. -/
def joined : Pc → Bool
  | .slaveVmmStart | .lkAcquire | .take | .load | .store _ | .lkRelease | .drop | .barrier | .action
  | .trapInitVec | .running => true
  | _ => false

/-- The hart is behind its `vmm_start`. -/
def paged : Pc → Bool
  | .late | .lkAcquire | .take | .load | .store _ | .lkRelease | .drop | .barrier | .action
  | .trapInitVec | .running => true
  | _ => false

end Pc

variable {b : Board} {s t : Atomic Nat Unit State} {i : Nat} {y : Pc}

/-- What a step with the lock taken at once does. -/
theorem step_cases (h : Atomic.Step (harts b) s t) :
    (∃ i, Step b i s.client t.client ∧ t.owner = s.owner) ∨
    (∃ i, s.client.pc i = .lkAcquire ∧
      t = ⟨s.owner, s.client.goTo i (if s.owner () = some i then .panicked else .take)⟩) ∨
    (∃ i, s.client.pc i = .take ∧ s.owner () = none ∧
      t = ⟨fun _ => some i, s.client.goTo i .load⟩) ∨
    (∃ i, s.client.pc i = .lkRelease ∧
      t = ⟨s.owner, s.client.goTo i (if s.owner () = some i then .drop else .panicked)⟩) ∨
    (∃ i, s.client.pc i = .drop ∧ t = ⟨fun _ => none, s.client.goTo i .barrier⟩) := by
  have hupd : ∀ (o : Unit → Option Nat) (x : Option Nat), Function.update o () x = fun _ => x := by
    intro o x
    funext u
    simp
  cases h with
  | @holds i l hw =>
      cases hpc : s.client.pc i <;> simp [harts, wants, hpc] at hw
      · exact .inr (.inl ⟨i, hpc, by simp [harts, answer, hpc]⟩)
      · exact .inr (.inr (.inr (.inl ⟨i, hpc, by simp [harts, answer, hpc]⟩)))
  | @take i l hw hfree =>
      cases hpc : s.client.pc i <;> simp [harts, wants, hpc] at hw
      exact .inr (.inr (.inl ⟨i, hpc, hfree, by simp [harts, answer, hpc, hupd]⟩))
  | @drop i l hw hmine =>
      cases hpc : s.client.pc i <;> simp [harts, wants, hpc] at hw
      exact .inr (.inr (.inr (.inr ⟨i, hpc, by simp [harts, answer, hpc, hupd]⟩)))
  | @init i l hw hfree =>
      cases hpc : s.client.pc i <;> simp [harts, wants, hpc] at hw
  | own hw hstep => exact .inl ⟨_, hstep, rfl⟩

/-! ## The lock and the counter -/

/-- The harts that have counted up. -/
def counted (b : Board) (c : State) : Finset Nat := b.harts.filter fun h => (c.pc h).passed = true

@[simp] theorem mem_counted {c : State} {j : Nat} :
    j ∈ counted b c ↔ j ∈ b.harts ∧ (c.pc j).passed = true := by
  simp [counted]

/-- The hart that has the lock is inside the section, nobody counts a stale number, and `init_state` is the
number of those that have counted. -/
structure Counted (b : Board) (s : Atomic Nat Unit State) : Prop where
  owner : ∀ h, s.owner () = some h ↔ (s.client.pc h).holding = true
  stored : ∀ h n, s.client.pc h = .store n → n = s.client.initState
  count : s.client.initState = (counted b s.client).card
  off : ∀ h, h ∉ b.harts → s.client.pc h = .off

namespace Counted

/-- A hart that is on is one of the board. -/
theorem mem_harts (h : Counted b s) (hi : s.client.pc i ≠ .off) : i ∈ b.harts :=
  not_not.mp fun hout => hi (h.off i hout)

/-- Moves that have nothing to do with the lock or the counter. -/
theorem move (h : Counted b s) {c : State} (hpc : c.pc = Function.update s.client.pc i y)
    (hinit : c.initState = s.client.initState) (hhold : y.holding = (s.client.pc i).holding)
    (hpass : y.passed = (s.client.pc i).passed) (hstore : ∀ n, y = .store n → n = s.client.initState)
    (hi : i ∈ b.harts) : Counted b ⟨s.owner, c⟩ := by
  have hat : ∀ h, c.pc h = if h = i then y else s.client.pc h := by simp [hpc, Function.update_apply]
  constructor
  · intro j
    rw [h.owner j, hat j]
    split
    · rename_i hj
      rw [hj, hhold]
    · rfl
  · intro j n hj
    rw [hat j] at hj
    split at hj
    · exact (hstore n hj).trans hinit.symm
    · exact (h.stored j n hj).trans hinit.symm
  · show c.initState = _
    rw [hinit, h.count]
    congr 1
    apply Finset.filter_congr
    intro j _
    rw [hat j]
    split
    · rename_i hj
      rw [hj, hpass]
    · rfl
  · intro j hj
    have hne : j ≠ i := fun hji => hj (hji ▸ hi)
    simp only [hat j, hne, if_false]
    exact h.off j hj

end Counted

/-! ## The master and the others -/

/-- The master alone sets up; the others are started by its loop, and go on when it has counted. -/
structure Staged (b : Board) (c : State) : Prop where
  master : ∀ h, (c.pc h).master = true → h = b.boot
  boot : (c.pc b.boot).slave = false
  alive : ∀ h, c.pc h ≠ .panicked
  table : c.cpusStacktop = none ↔ c.pc b.boot = .entry ∨ c.pc b.boot = .early
  empty : c.cpusStacktop = none → ∀ h ≠ b.boot, c.pc h = .off
  todo : ∀ ids, c.pc b.boot = .probe ids → ids.Nodup ∧ (∀ h ∈ ids, h ∈ b.visited) ∧
    (∀ h ∈ ids, h ≠ b.boot → c.pc h = .off) ∧ ∀ h ∈ b.visited, h ∉ ids → c.pc h ≠ .off
  started : (c.pc b.boot).probed = true → ∀ h ∈ b.visited, c.pc h ≠ .off
  first : c.initState ≠ 0 → (c.pc b.boot).passed = true
  waited : ∀ h ≠ b.boot, (c.pc h).joined = true → c.initState ≠ 0

namespace Staged

variable {c c' : State}

/-- Moves behind the loop of `cpus_probe`. -/
theorem move (h : Staged b c) (hpc : c'.pc = Function.update c.pc i y)
    (htable : c'.cpusStacktop = c.cpusStacktop) (hinit : c.initState ≠ 0 → c'.initState ≠ 0)
    (hfirst : c'.initState ≠ 0 → (c.pc b.boot).passed = true ∨ i = b.boot ∧ y.passed = true)
    (hon : c.pc i ≠ .off) (hmaster : y.master = true → i = b.boot)
    (hslave : y.slave = true → i ≠ b.boot) (hprobed : y.probed = true) (halive : y ≠ .panicked)
    (hboot : i = b.boot → (c.pc i).probed = true)
    (hpassed : (c.pc i).passed = true → y.passed = true)
    (hjoined : y.joined = true → i ≠ b.boot → c'.initState ≠ 0) : Staged b c' := by
  have hat : ∀ h, c'.pc h = if h = i then y else c.pc h := by simp [hpc, Function.update_apply]
  have hyoff : y ≠ .off := by
    rintro rfl
    simp [Pc.probed] at hprobed
  obtain ⟨hm, hb, ha, ht, he, htodo, hst, hf, hw⟩ := h
  -- while the table is empty nobody is behind the loop
  have hsome : c.cpusStacktop ≠ none := by
    intro hnone
    by_cases hi : i = b.boot
    · have hin := hboot hi
      rw [hi] at hin
      rcases ht.mp hnone with hpc | hpc <;> simp [hpc, Pc.probed] at hin
    · exact hon (he hnone i hi)
  constructor
  · intro j
    rw [hat j]
    split
    · rename_i hj
      exact fun hy => hj.trans (hmaster hy)
    · exact hm j
  · rw [hat]
    split
    · rename_i hj
      cases hy : y.slave with
      | false => rfl
      | true => exact absurd hj.symm (hslave hy)
    · exact hb
  · intro j
    rw [hat j]
    split
    · exact halive
    · exact ha j
  · refine ⟨fun hnone => absurd (htable ▸ hnone) hsome, fun hpre => ?_⟩
    rw [hat] at hpre
    split at hpre
    · rcases hpre with rfl | rfl <;> simp [Pc.probed] at hprobed
    · exact htable.trans (ht.mpr hpre)
  · exact fun hnone => absurd (htable ▸ hnone) hsome
  · intro ids hids
    rw [hat] at hids
    split at hids
    · rw [hids] at hprobed
      simp [Pc.probed] at hprobed
    · obtain ⟨hnodup, hvis, hoff, hstarted⟩ := htodo ids hids
      refine ⟨hnodup, hvis, ?_, ?_⟩
      · intro j hj hne
        rw [hat j]
        split
        · rename_i hji
          exact absurd (hji ▸ hoff j hj hne) hon
        · exact hoff j hj hne
      · intro j hj hnot
        rw [hat j]
        split
        · exact hyoff
        · exact hstarted j hj hnot
  · intro hp j hj
    rw [hat j]
    split
    · exact hyoff
    · apply hst _ j hj
      rw [hat] at hp
      split at hp
      · rename_i hb'
        exact hb' ▸ hboot hb'.symm
      · exact hp
  · intro hne
    rw [hat]
    split
    · rename_i hbi
      rcases hfirst hne with hp | ⟨-, hp⟩
      · exact hpassed (hbi ▸ hp)
      · exact hp
    · rename_i hbi
      rcases hfirst hne with hp | ⟨hi, -⟩
      · exact hp
      · exact absurd hi.symm hbi
  · intro j hj
    rw [hat j]
    split
    · rename_i hji
      exact fun hy => hjoined hy (hji ▸ hj)
    · exact fun hy => hinit (hw j hj hy)

/-- Moves of a hart that has joined. -/
theorem moveJoined (h : Staged b c) {x : Pc} (hx : c.pc i = x)
    (hpc : c'.pc = Function.update c.pc i y) (htable : c'.cpusStacktop = c.cpusStacktop)
    (hinit : c'.initState = c.initState) (hxj : x.joined = true) (hyj : y.joined = true)
    (hslave : y.slave = false) (hpassed : x.passed = true → y.passed = true) : Staged b c' := by
  subst hx
  apply h.move hpc htable (hinit.symm ▸ id) (fun hne => .inl (h.first (hinit ▸ hne)))
  · intro hoff
    simp [hoff, Pc.joined] at hxj
  · intro hm
    cases y <;> simp [Pc.joined, Pc.master] at hyj hm
  · intro hs
    simp [hslave] at hs
  · cases y <;> simp [Pc.joined, Pc.probed] at hyj ⊢
  · rintro rfl
    simp [Pc.joined] at hyj
  · intro _
    cases hy : c.pc i <;> simp [hy, Pc.joined, Pc.probed] at hxj ⊢
  · exact hpassed
  · exact fun _ hi => hinit.symm ▸ h.waited i hi hxj

/-- The loop of `cpus_probe` is only in the master. -/
theorem eq_boot (h : Staged b c) (hi : (c.pc i).master = true) : i = b.boot := h.master i hi

/-- While the master is in the loop, nobody has counted. -/
theorem initState_of_probe (h : Staged b c) (hp : (c.pc b.boot).probed = false) : c.initState = 0 := by
  by_contra hne
  have hpassed := h.first hne
  cases hpc : c.pc b.boot <;> simp [hpc, Pc.probed, Pc.passed] at hp hpassed

/-- The master finds the table empty. -/
theorem step_master (h : Staged b c) (hpc : c.pc i = .entry) (hnone : c.cpusStacktop = none) :
    Staged b { c.goTo i .early with sp := Function.update c.sp i b.kernMasterStacktop } := by
  have hoff := h.empty hnone
  have hi : i = b.boot := by
    by_contra hne
    simp [hoff i hne] at hpc
  subst hi
  have hinit := h.initState_of_probe (by simp [hpc, Pc.probed])
  have hat : ∀ h, (c.goTo b.boot .early).pc h = if h = b.boot then .early else c.pc h := by
    simp [goTo, Function.update_apply]
  constructor
  · exact fun j hj => by_contra fun hne => by simp [hat, hne, hoff j hne, Pc.master] at hj
  · simp [hat, Pc.slave]
  · intro j
    by_cases hj : j = b.boot
    · simp [hat, hj]
    · simp [hat, hj, hoff j hj]
  · exact ⟨fun _ => by simp [hat], fun _ => hnone⟩
  · exact fun _ j hj => by simp [hat, hj, hoff j hj]
  · simp [hat]
  · simp [hat, Pc.probed]
  · exact fun hne => absurd hinit hne
  · exact fun j hj => by simp [hat, hj, hoff j hj, Pc.joined]

/-- The master has the tables. -/
theorem step_tables (h : Staged b c) (hpc : c.pc i = .early) (t : Nat → Nat) :
    Staged b { c.goTo i (.probe b.visited) with
      cpusStacktop := some t
      freememBase := tables b c.freememBase } := by
  obtain rfl : i = b.boot := h.master i (by simp [hpc, Pc.master])
  have hoff := h.empty (h.table.mpr (.inr hpc))
  have hinit := h.initState_of_probe (by simp [hpc, Pc.probed])
  have hat : ∀ h, (c.goTo b.boot (.probe b.visited)).pc h =
      if h = b.boot then .probe b.visited else c.pc h := by
    simp [goTo, Function.update_apply]
  constructor
  · exact fun j hj => by_contra fun hne => by simp [hat, hne, hoff j hne, Pc.master] at hj
  · simp [hat, Pc.slave]
  · intro j
    by_cases hj : j = b.boot
    · simp [hat, hj]
    · simp [hat, hj, hoff j hj]
  · simp [hat]
  · exact fun hnone => by simp at hnone
  · intro ids hids
    obtain rfl : b.visited = ids := by simpa [hat] using hids
    refine ⟨b.nodup.filter _, fun _ hj => hj, fun j _ hne => ?_, fun j hj hnot => absurd hj hnot⟩
    simp [hat, hne, hoff j hne]
  · simp [hat, Pc.probed]
  · exact fun hne => absurd hinit hne
  · exact fun j hj => by simp [hat, hj, hoff j hj, Pc.joined]

/-- A round of the loop: the first node is the master's, or that of a hart that is started. -/
theorem step_probe (h : Staged b c) {id : Nat} {ids : List Nat} {t : Nat → Nat}
    (hpc : c.pc i = .probe (id :: ids)) (ht : c'.cpusStacktop = some t)
    (hinit : c'.initState = c.initState)
    (hat : ∀ h, c'.pc h = if h = i then .probe ids else if h = id then .entry else c.pc h) :
    Staged b c' := by
  obtain rfl : i = b.boot := h.master i (by simp [hpc, Pc.master])
  obtain ⟨hnodup, hvis, hoff, hon⟩ := h.todo _ hpc
  have hzero := h.initState_of_probe (by simp [hpc, Pc.probed])
  have hrest : ∀ j ≠ b.boot, j ≠ id → c'.pc j = c.pc j := by
    intro j hj hid
    simp [hat, hj, hid]
  constructor
  · intro j hj
    by_contra hne
    rw [hat, if_neg hne] at hj
    split at hj
    · simp [Pc.master] at hj
    · exact hne (h.master j hj)
  · simp [hat, Pc.slave]
  · intro j
    rw [hat]
    split
    · simp
    split
    · simp
    · exact h.alive j
  · simp [hat, ht]
  · exact fun hnone => by simp [ht] at hnone
  · intro ids' hids
    obtain rfl : ids = ids' := by simpa [hat] using hids
    refine ⟨hnodup.of_cons, fun j hj => hvis j (List.mem_cons_of_mem _ hj), ?_, ?_⟩
    · intro j hj hne
      have hid : j ≠ id := fun he => (List.nodup_cons.mp hnodup).1 (he ▸ hj)
      rw [hrest j hne hid]
      exact hoff j (List.mem_cons_of_mem _ hj) hne
    · intro j hj hnot
      rw [hat]
      split
      · simp
      split
      · simp
      · rename_i hid
        exact hon j hj fun hmem => (List.mem_cons.mp hmem).elim hid hnot
  · simp [hat, Pc.probed]
  · exact fun hne => absurd (hinit.trans hzero) hne
  · intro j hj hjoined
    rw [hat, if_neg hj] at hjoined
    split at hjoined
    · simp [Pc.joined] at hjoined
    · exact absurd hzero (h.waited j hj hjoined)

/-- The loop is over. -/
theorem step_probed (h : Staged b c) (hpc : c.pc i = .probe []) : Staged b (c.goTo i .setup) := by
  obtain rfl : i = b.boot := h.master i (by simp [hpc, Pc.master])
  obtain ⟨-, -, -, hon⟩ := h.todo _ hpc
  have hzero := h.initState_of_probe (by simp [hpc, Pc.probed])
  have hat : ∀ h, (c.goTo b.boot .setup).pc h = if h = b.boot then .setup else c.pc h := by
    simp [goTo, Function.update_apply]
  have hsome : c.cpusStacktop ≠ none := by
    intro hnone
    rcases h.table.mp hnone with hpre | hpre <;> simp [hpc] at hpre
  constructor
  · intro j hj
    by_contra hne
    rw [hat, if_neg hne] at hj
    exact hne (h.master j hj)
  · simp [hat, Pc.slave]
  · intro j
    rw [hat]
    split
    · simp
    · exact h.alive j
  · refine ⟨fun hnone => absurd hnone hsome, fun hpre => ?_⟩
    simp [hat] at hpre
  · exact fun hnone => absurd hnone hsome
  · simp [hat]
  · intro _ j hj
    rw [hat]
    split
    · simp
    · exact hon j hj List.not_mem_nil
  · exact fun hne => absurd hzero hne
  · intro j hj hjoined
    rw [hat, if_neg hj] at hjoined
    exact absurd hzero (h.waited j hj hjoined)

/-- The steps that use no lock. -/
theorem step (h : Staged b c) (hstep : Step b i c c')
    (hstored : ∀ n, c.pc i = .store n → (n + 1) % wordSize ≠ 0) : Staged b c' := by
  have hwait : ∀ {x : Pc}, c.pc i = x → x.joined = true → i ≠ b.boot → c.initState ≠ 0 := by
    rintro x rfl hx hne
    exact h.waited i hne hx
  have hboot : ∀ {x : Pc}, c.pc i = x → x.slave = true → i ≠ b.boot := by
    rintro x rfl hx rfl
    simp [h.boot] at hx
  cases hstep with
  | master hpc hnone => exact h.step_master hpc hnone
  | @slave t hpc ht =>
      have hne : i ≠ b.boot := by
        rintro rfl
        simp [h.table.mpr (.inl hpc)] at ht
      apply h.move (i := i) (y := .waitInit) <;>
        simp [goTo, hpc, hne, Pc.master, Pc.probed, Pc.passed, Pc.joined]
      exact h.first
  | tables t hpc => exact h.step_tables hpc t
  | @probeSelf ids t hpc ht =>
      apply h.step_probe hpc
      · rfl
      · rfl
      · intro j
        by_cases hj : j = i
        · simp [goTo, hj]
        · simp [goTo, hj]
  | @probeStart id ids t hpc hne ht hoff =>
      apply h.step_probe hpc
      · rfl
      · rfl
      · exact fun j => by simp only [goTo, Function.update_apply]
  | @probeFail id ids hpc hne hoff =>
      obtain rfl := h.eq_boot (i := i) (by simp [hpc, Pc.master])
      obtain ⟨-, -, htodo, -⟩ := h.todo _ hpc
      exact absurd (htodo id List.mem_cons_self hne) hoff
  | probed hpc => exact h.step_probed hpc
  | setup f hpc =>
      obtain rfl := h.eq_boot (i := i) (by simp [hpc, Pc.master])
      have hzero : c.initState = 0 := by
        by_contra hne
        simpa [hpc, Pc.passed] using h.first hne
      apply h.move (i := b.boot) (y := .vmmStart) <;>
        simp [goTo, hpc, hzero, Pc.master, Pc.probed, Pc.passed, Pc.slave]
  | vmmStart hpc =>
      obtain rfl := h.eq_boot (i := i) (by simp [hpc, Pc.master])
      have hzero : c.initState = 0 := by
        by_contra hne
        simpa [hpc, Pc.passed] using h.first hne
      apply h.move (i := b.boot) (y := .late) <;>
        simp [goTo, hpc, hzero, Pc.master, Pc.probed, Pc.passed, Pc.slave]
  | late hpc =>
      obtain rfl := h.eq_boot (i := i) (by simp [hpc, Pc.master])
      have hzero : c.initState = 0 := by
        by_contra hne
        simpa [hpc, Pc.passed] using h.first hne
      apply h.move (i := b.boot) (y := .lkAcquire) <;>
        simp [goTo, hpc, hzero, Pc.master, Pc.probed, Pc.passed, Pc.slave]
  | waitInit hpc hne =>
      have hi := hboot hpc rfl
      apply h.move (i := i) (y := .slaveVmmStart) <;>
        simp [goTo, hpc, hi, hne, Pc.master, Pc.probed, Pc.passed]
      exact h.first hne
  | slaveVmmStart hpc => exact h.moveJoined hpc rfl rfl rfl rfl rfl rfl nofun
  | load hpc => exact h.moveJoined hpc rfl rfl rfl rfl rfl rfl nofun
  | @store n hpc =>
      have hne := hstored n hpc
      apply h.move (i := i) (y := .lkRelease) <;>
        simp [goTo, hpc, hne, Pc.master, Pc.probed, Pc.slave, Pc.passed]
      by_cases hi : i = b.boot
      · exact .inr hi
      · exact .inl (h.first (hwait hpc rfl hi))
  | barrier hpc heq =>
      split
      · exact h.moveJoined hpc rfl rfl rfl rfl rfl rfl fun _ => rfl
      · exact h.moveJoined hpc rfl rfl rfl rfl rfl rfl fun _ => rfl
  | action hpc => exact h.moveJoined hpc rfl rfl rfl rfl rfl rfl fun _ => rfl
  | trapInitVec hpc => exact h.moveJoined hpc rfl rfl rfl rfl rfl rfl fun _ => rfl

end Staged

namespace Counted

/-- The board has few harts. -/
theorem card_harts_lt (b : Board) : b.harts.card < wordSize := by
  have hvisited : b.visited.toFinset.card ≤ b.ids.length :=
    (List.toFinset_card_le _).trans (List.length_filter_le _ _)
  have hinsert : b.harts.card ≤ b.visited.toFinset.card + 1 := Finset.card_insert_le _ _
  exact lt_of_le_of_lt (hinsert.trans (Nat.add_le_add_right hvisited 1)) b.few

/-- The hart that stores is one more. -/
theorem counted_store (h : Counted b s) {n : Nat} (hpc : s.client.pc i = .store n) :
    (n + 1) % wordSize = (counted b (s.client.goTo i .lkRelease)).card ∧ (n + 1) % wordSize ≠ 0 := by
  have hi : i ∈ b.harts := h.mem_harts (by simp [hpc])
  have hnew : counted b (s.client.goTo i .lkRelease) = insert i (counted b s.client) := by
    ext j
    by_cases hj : j = i
    · simp [goTo, hj, hi, Pc.passed]
    · simp [goTo, hj]
  have hnot : i ∉ counted b s.client := by simp [hpc, Pc.passed]
  have hcard : (counted b (s.client.goTo i .lkRelease)).card = n + 1 := by
    rw [hnew, Finset.card_insert_of_notMem hnot, h.stored i n hpc, h.count]
  have hle : n + 1 ≤ b.harts.card := hcard ▸ Finset.card_filter_le _ _
  have hmod : (n + 1) % wordSize = n + 1 :=
    Nat.mod_eq_of_lt (lt_of_le_of_lt hle (card_harts_lt b))
  rw [hmod, hcard]
  exact ⟨rfl, Nat.succ_ne_zero n⟩

/-- The hart that has the lock is the only one inside. -/
theorem eq_of_holding (h : Counted b s) {j : Nat} (hi : (s.client.pc i).holding = true)
    (hj : (s.client.pc j).holding = true) : j = i :=
  Option.some.inj (((h.owner j).mpr hj).symm.trans ((h.owner i).mpr hi))

theorem step_store (h : Counted b s) {n : Nat} (hpc : s.client.pc i = .store n) :
    Counted b ⟨s.owner, { s.client.goTo i .lkRelease with initState := (n + 1) % wordSize }⟩ := by
  have hi : i ∈ b.harts := h.mem_harts (by simp [hpc])
  have hholding : (s.client.pc i).holding = true := by simp [hpc, Pc.holding]
  constructor
  · intro j
    rw [h.owner j]
    by_cases hj : j = i
    · simp [goTo, hj, hpc, Pc.holding]
    · simp [goTo, hj]
  · intro j m hj
    by_cases hji : j = i
    · simp [goTo, hji] at hj
    · have hjm : s.client.pc j = .store m := by simpa [goTo, hji] using hj
      exact absurd (h.eq_of_holding hholding (by simp [hjm, Pc.holding])) hji
  · exact (h.counted_store hpc).1
  · intro j hj
    have hne : j ≠ i := fun hji => hj (hji ▸ hi)
    simpa [goTo, hne] using h.off j hj

/-- The steps that use no lock. -/
theorem step (h : Counted b s) (hst : Staged b s.client) {c : State} (hstep : Step b i s.client c) :
    Counted b ⟨s.owner, c⟩ := by
  have hin : ∀ {x : Pc}, s.client.pc i = x → x ≠ .off → i ∈ b.harts := by
    rintro x rfl
    exact h.mem_harts
  have hplain : ∀ {x y : Pc} {c : State}, s.client.pc i = x → c.pc = Function.update s.client.pc i y →
      c.initState = s.client.initState → y.holding = x.holding → y.passed = x.passed →
      (∀ n, y = .store n → n = s.client.initState) → x ≠ .off → Counted b ⟨s.owner, c⟩ := by
    rintro x y c rfl hpc hinit hhold hpass hstore hx
    exact h.move hpc hinit hhold hpass hstore (hin rfl hx)
  cases hstep with
  | master hpc => exact hplain hpc rfl rfl rfl rfl nofun nofun
  | slave hpc => exact hplain hpc rfl rfl rfl rfl nofun nofun
  | tables t hpc => exact hplain hpc rfl rfl rfl rfl nofun nofun
  | probeSelf hpc => exact hplain hpc rfl rfl rfl rfl nofun nofun
  | @probeStart id ids t hpc hne ht hoff =>
      obtain rfl := hst.master i (by simp [hpc, Pc.master])
      obtain ⟨-, hvis, -⟩ := hst.todo _ hpc
      have hid : id ∈ b.harts := by simp [Board.harts, hvis id List.mem_cons_self]
      have hstarted : Counted b ⟨s.owner, s.client.goTo id .entry⟩ :=
        h.move rfl rfl (by rw [hoff]; rfl) (by rw [hoff]; rfl) nofun hid
      have hthere : (s.client.goTo id .entry).pc b.boot = .probe (id :: ids) := by
        simpa [goTo, Ne.symm hne] using hpc
      refine hstarted.move (i := b.boot) (y := .probe ids) rfl rfl ?_ ?_ nofun (hin hpc nofun)
      · exact (congrArg Pc.holding hthere).symm
      · exact (congrArg Pc.passed hthere).symm
  | probeFail hpc => exact hplain hpc rfl rfl rfl rfl nofun nofun
  | probed hpc => exact hplain hpc rfl rfl rfl rfl nofun nofun
  | setup f hpc => exact hplain hpc rfl rfl rfl rfl nofun nofun
  | vmmStart hpc => exact hplain hpc rfl rfl rfl rfl nofun nofun
  | late hpc => exact hplain hpc rfl rfl rfl rfl nofun nofun
  | waitInit hpc => exact hplain hpc rfl rfl rfl rfl nofun nofun
  | slaveVmmStart hpc => exact hplain hpc rfl rfl rfl rfl nofun nofun
  | load hpc =>
      refine hplain hpc rfl rfl rfl rfl ?_ nofun
      rintro n ⟨⟩
      rfl
  | store hpc => exact h.step_store hpc
  | barrier hpc heq =>
      split
      · exact hplain hpc rfl rfl rfl rfl nofun nofun
      · exact hplain hpc rfl rfl rfl rfl nofun nofun
  | action hpc => exact hplain hpc rfl rfl rfl rfl nofun nofun
  | trapInitVec hpc => exact hplain hpc rfl rfl rfl rfl nofun nofun

/-- The lock is taken, or dropped: the owner is who is inside. -/
theorem move_owner (h : Counted b s) {o : Option Nat} (hi : i ∈ b.harts)
    (hpass : y.passed = (s.client.pc i).passed) (hstore : ∀ n, y ≠ .store n)
    (howner : ∀ j, o = some j ↔ j = i ∧ y.holding = true)
    (hothers : ∀ j ≠ i, (s.client.pc j).holding = false) :
    Counted b ⟨fun _ => o, s.client.goTo i y⟩ := by
  constructor
  · intro j
    rw [howner j]
    by_cases hj : j = i
    · simp [goTo, hj]
    · simp [goTo, hj, hothers j hj]
  · intro j m hj
    by_cases hji : j = i
    · exact absurd (by simpa [goTo, hji] using hj) (hstore m)
    · exact h.stored j m (by simpa [goTo, hji] using hj)
  · show s.client.initState = _
    rw [h.count]
    congr 1
    ext j
    by_cases hj : j = i
    · simp [goTo, hj, hpass]
    · simp [goTo, hj]
  · intro j hj
    have hne : j ≠ i := fun hji => hj (hji ▸ hi)
    simpa [goTo, hne] using h.off j hj

/-- The operations of `lk_acquire` and `lk_release`: neither is an error. -/
theorem client_cases (h : Counted b s) (hstep : Atomic.Step (harts b) s t) :
    (∃ i, Step b i s.client t.client) ∨
      ∃ i x y, s.client.pc i = x ∧ t.client = s.client.goTo i y ∧
        (x, y) ∈ [(Pc.lkAcquire, .take), (.take, .load), (.lkRelease, .drop), (.drop, .barrier)] := by
  rcases step_cases hstep with ⟨i, hown, -⟩ | ⟨i, hpc, rfl⟩ | ⟨i, hpc, -, rfl⟩ | ⟨i, hpc, rfl⟩ |
    ⟨i, hpc, rfl⟩
  · exact .inl ⟨i, hown⟩
  · have hnot : s.owner () ≠ some i := by simp [h.owner i, hpc, Pc.holding]
    exact .inr ⟨i, _, .take, hpc, by rw [if_neg hnot], by simp⟩
  · exact .inr ⟨i, _, _, hpc, rfl, by simp⟩
  · have hmine : s.owner () = some i := by simp [h.owner i, hpc, Pc.holding]
    exact .inr ⟨i, _, .drop, hpc, by rw [if_pos hmine], by simp⟩
  · exact .inr ⟨i, _, _, hpc, rfl, by simp⟩

end Counted

/-- **The invariant** of the lock, the counter and the places. -/
structure Inv (b : Board) (s : Atomic Nat Unit State) : Prop where
  counted : Counted b s
  staged : Staged b s.client

/-- How the firmware leaves the board: one hart is at `_start`. -/
structure Booting (b : Board) (c : State) : Prop where
  boot : c.pc b.boot = .entry
  off : ∀ h ≠ b.boot, c.pc h = .off
  cpusStacktop : c.cpusStacktop = none
  initState : c.initState = 0
  vm : ∀ h, c.vm h = false

theorem Booting.inv (h : Booting b s.client) (howner : s.owner () = none) : Inv b s where
  counted := by
    have hpc : ∀ j, s.client.pc j = .entry ∨ s.client.pc j = .off := by
      intro j
      by_cases hj : j = b.boot
      · exact .inl (hj ▸ h.boot)
      · exact .inr (h.off j hj)
    constructor
    · intro j
      rcases hpc j with hj | hj <;> simp [howner, hj, Pc.holding]
    · intro j n hj
      rcases hpc j with hj' | hj' <;> simp [hj'] at hj
    · rw [h.initState]
      symm
      apply Finset.card_eq_zero.mpr
      ext j
      rcases hpc j with hj | hj <;> simp [hj, Pc.passed]
    · intro j hj
      apply h.off
      rintro rfl
      simp [Board.harts] at hj
  staged := by
    constructor
    · intro j hj
      by_contra hne
      simp [h.off j hne, Pc.master] at hj
    · simp [h.boot, Pc.slave]
    · intro j
      by_cases hj : j = b.boot
      · simp [hj, h.boot]
      · simp [h.off j hj]
    · simp [h.cpusStacktop, h.boot]
    · exact fun _ => h.off
    · simp [h.boot]
    · simp [h.boot, Pc.probed]
    · exact fun hne => absurd h.initState hne
    · exact fun j hj => by simp [h.off j hj, Pc.joined]

/-- **The step lemma.** -/
theorem Inv.step (h : Inv b s) (hstep : Atomic.Step (harts b) s t) : Inv b t := by
  obtain ⟨hc, hs⟩ := h
  obtain ⟨owner, client⟩ := t
  rcases step_cases hstep with ⟨i, hown, rfl⟩ | ⟨i, hpc, heq⟩ | ⟨i, hpc, hfree, heq⟩ |
    ⟨i, hpc, heq⟩ | ⟨i, hpc, heq⟩
  · exact ⟨hc.step hs hown, hs.step hown fun n hpc => (hc.counted_store hpc).2⟩
  · have hnot : s.owner () ≠ some i := by simp [hc.owner i, hpc, Pc.holding]
    rw [if_neg hnot] at heq
    obtain ⟨rfl, rfl⟩ := (Atomic.mk.injEq ..).mp heq
    refine ⟨?_, hs.moveJoined hpc rfl rfl rfl rfl rfl rfl nofun⟩
    exact hc.move rfl rfl (by rw [hpc]; rfl) (by rw [hpc]; rfl) nofun (hc.mem_harts (by simp [hpc]))
  · obtain ⟨rfl, rfl⟩ := (Atomic.mk.injEq ..).mp heq
    refine ⟨?_, hs.moveJoined hpc rfl rfl rfl rfl rfl rfl nofun⟩
    refine hc.move_owner (y := .load) (hc.mem_harts (by simp [hpc])) (by rw [hpc]; rfl) nofun ?_ ?_
    · simp [Pc.holding, eq_comm]
    · intro j hj
      have hnot : s.owner () ≠ some j := by simp [hfree]
      simpa [hc.owner j] using hnot
  · have hmine : s.owner () = some i := by simp [hc.owner i, hpc, Pc.holding]
    rw [if_pos hmine] at heq
    obtain ⟨rfl, rfl⟩ := (Atomic.mk.injEq ..).mp heq
    refine ⟨?_, hs.moveJoined hpc rfl rfl rfl rfl rfl rfl fun _ => rfl⟩
    exact hc.move rfl rfl (by rw [hpc]; rfl) (by rw [hpc]; rfl) nofun (hc.mem_harts (by simp [hpc]))
  · obtain ⟨rfl, rfl⟩ := (Atomic.mk.injEq ..).mp heq
    refine ⟨?_, hs.moveJoined hpc rfl rfl rfl rfl rfl rfl fun _ => rfl⟩
    refine hc.move_owner (y := .barrier) (hc.mem_harts (by simp [hpc])) (by rw [hpc]; rfl) nofun ?_ ?_
    · simp [Pc.holding]
    · intro j hj
      cases hhold : (s.client.pc j).holding with
      | false => rfl
      | true => exact absurd (hc.eq_of_holding (i := i) (by simp [hpc, Pc.holding]) hhold) hj

theorem Inv.run (h : Inv b s) (hrun : Relation.ReflTransGen (Atomic.Step (harts b)) s t) : Inv b t := by
  induction hrun with
  | refl => exact h
  | tail _ hstep ih => exact ih.step hstep

/-- The harts drop only their own lock. -/
theorem Inv.proper (h : Inv b s) : Atomic.Proper (harts b) s := by
  intro t hrun i l hw
  have ht := (h.run hrun).counted
  cases hpc : t.client.pc i <;> simp [harts, wants, hpc] at hw
  exact (ht.owner i).mpr (by simp [hpc, Pc.holding])

end Startup

end Jrinx
