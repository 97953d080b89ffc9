import Jrinx.Boot.Barrier
import Mathlib.Algebra.Order.BigOperators.Group.Finset

/-! # The start comes to its end

A start of harts that wait for each other in loops could hang. It does not, where `cpus_valid_count` is right:
from every state that an interleaving reaches, all harts can still come to their end. What is left of the
start is a number, and some hart can always make it smaller.

* **`Pc.left`**, **`left`** — what is left, of a hart and of all of them.
* **`exists_next_lt`** — some hart goes on.
* **`startup_completes_iff`** — when the start comes to its end. -/

namespace Jrinx

namespace Startup

open State

variable {b : Board} {m m' : Machine Nat Unit State} {i : Nat}

/-! ## What is left -/

/-- The moves that a hart has before it, at most. -/
def Pc.left (b : Board) : Pc → Nat
  | .running => 0
  | .panicked => 0
  | .trapInitVec => 1
  | .action => 2
  | .barrier => 3
  | .drop => 4
  | .lkRelease => 5
  | .store _ => 6
  | .load => 7
  | .take => 8
  | .lkAcquire => 9
  | .late => 10
  | .slaveVmmStart => 10
  | .vmmStart => 11
  | .waitInit => 11
  | .setup => 12
  | .probe ids => 13 + ids.length
  | .early => 14 + b.visited.length
  | .entry => 15 + b.visited.length
  | .off => 16 + b.visited.length

/-- The accesses to the words of the lock in between. -/
def stageLeft : Stage Unit → Nat
  | .start => 1
  | .seen _ => 0
  | .swapped _ => 0
  | .disowned _ => 2

/-- What is left of the start for a hart. -/
def hartLeft (b : Board) (m : Machine Nat Unit State) (i : Nat) : Nat :=
  3 * (m.client.pc i).left b + stageLeft (m.stage i)

/-- **What is left of the start.** -/
def left (b : Board) (m : Machine Nat Unit State) : Nat := ∑ i ∈ b.harts, hartLeft b m i

/-- One hart has less before it, and no other has more. -/
theorem left_lt (hi : i ∈ b.harts) (hless : hartLeft b m' i < hartLeft b m i)
    (hothers : ∀ j ≠ i, hartLeft b m' j ≤ hartLeft b m j) : left b m' < left b m := by
  apply Finset.sum_lt_sum
  · intro j _
    by_cases hj : j = i
    · exact hj ▸ hless.le
    · exact hothers j hj
  · exact ⟨i, hi, hless⟩

/-- A step without locks is a move of the hart, and no other has more before it. -/
theorem left_of_step {c c' : State} (hstep : Step b i c c') :
    (c'.pc i).left b < (c.pc i).left b ∧ ∀ j ≠ i, (c'.pc j).left b ≤ (c.pc j).left b := by
  have hone : ∀ {x y : Pc} {c' : State}, c.pc i = x → c'.pc = Function.update c.pc i y →
      y.left b < x.left b →
      (c'.pc i).left b < (c.pc i).left b ∧ ∀ j ≠ i, (c'.pc j).left b ≤ (c.pc j).left b := by
    rintro x y c' rfl hpc hless
    rw [hpc]
    refine ⟨by simpa using hless, fun j hj => ?_⟩
    simp [hj]
  cases hstep with
  | master hpc => exact hone hpc rfl (by simp [Pc.left])
  | slave hpc => exact hone hpc rfl (by simp only [Pc.left]; omega)
  | tables t hpc => exact hone hpc rfl (by simp [Pc.left])
  | probeSelf hpc => exact hone hpc rfl (by simp [Pc.left])
  | @probeStart id ids t hpc hne ht hoff =>
      constructor
      · simp [goTo, hpc, Pc.left]
      · intro j hj
        by_cases hid : j = id
        · simp [goTo, hid, hne, hoff, Pc.left]
        · simp [goTo, hid, hj]
  | probeFail hpc => exact hone hpc rfl (by simp [Pc.left])
  | probed hpc => exact hone hpc rfl (by simp [Pc.left])
  | setup f hpc => exact hone hpc rfl (by simp [Pc.left])
  | vmmStart hpc => exact hone hpc rfl (by simp [Pc.left])
  | late hpc => exact hone hpc rfl (by simp [Pc.left])
  | waitInit hpc => exact hone hpc rfl (by simp [Pc.left])
  | slaveVmmStart hpc => exact hone hpc rfl (by simp [Pc.left])
  | load hpc => exact hone hpc rfl (by simp [Pc.left])
  | store hpc => exact hone hpc rfl (by simp [Pc.left])
  | barrier hpc =>
      apply hone hpc rfl
      split <;> simp [Pc.left]
  | action hpc => exact hone hpc rfl (by simp [Pc.left])
  | trapInitVec hpc => exact hone hpc rfl (by simp [Pc.left])

/-- An operation of the lock that is done is a move of the hart. -/
theorem left_of_answer {c : State} (hw : c.wants i ≠ none) (r : Bool) :
    ((c.answer i r).pc i).left b < (c.pc i).left b ∧ ∀ j ≠ i, (c.answer i r).pc j = c.pc j := by
  unfold wants at hw
  split at hw
  · rename_i hpc
    cases r <;> simp +contextual [answer, goTo, hpc, Pc.left]
  · rename_i hpc
    simp +contextual [answer, goTo, hpc, Pc.left]
  · rename_i hpc
    cases r <;> simp +contextual [answer, goTo, hpc, Pc.left]
  · rename_i hpc
    simp +contextual [answer, goTo, hpc, Pc.left]
  · exact absurd rfl hw

theorem wants_ne_init {c : State} {l : Unit} : c.wants i ≠ some (.init l) := by
  unfold wants
  split <;> simp

/-- **Less is left after every step** that is not a round of a spin loop. -/
theorem left_lt_of_step (hwf : m.Wf (harts b)) (hstep : Machine.Step (harts b) i m m')
    (hspin : ∀ l, ¬ m.Spins (harts b) i l) (hi : i ∈ b.harts) : left b m' < left b m := by
  -- the hart moves on, and may be at another access
  have hmove : ∀ {m' : Machine Nat Unit State} {r : Bool} {x : Stage Unit}, m.client.wants i ≠ none →
      m'.client = m.client.answer i r → m'.stage = Function.update m.stage i x →
      stageLeft x < 3 + stageLeft (m.stage i) → left b m' < left b m := by
    intro m' r x hw hclient hstage hx
    obtain ⟨hless, hothers⟩ := left_of_answer (b := b) hw r
    apply left_lt hi
    · simp only [hartLeft, hclient, hstage, Function.update_self]
      omega
    · intro j hj
      simp [hartLeft, hclient, hstage, hothers j hj, hj]
  -- only the place of the hart changes
  have haccess : ∀ {m' : Machine Nat Unit State} {x : Stage Unit}, m'.client = m.client →
      m'.stage = Function.update m.stage i x → stageLeft x < stageLeft (m.stage i) →
      left b m' < left b m := by
    intro m' x hclient hstage hx
    apply left_lt hi
    · simp only [hartLeft, hclient, hstage, Function.update_self]
      omega
    · intro j hj
      simp [hartLeft, hclient, hstage, hj]
  have hplace := hwf.place i
  cases hstep with
  | readUnlocked hs hw hl =>
      have hw' : m.client.wants i ≠ none := by simp [show m.client.wants i = _ from hw]
      exact hmove (x := .start) hw' rfl (by simp [Machine.done, ← hs]) (by simp [hs, stageLeft])
  | readLocked hs hw hl => exact haccess rfl rfl (by simp [hs, stageLeft])
  | readHartid hs =>
      simp only [Machine.At, hs] at hplace
      have hw' : m.client.wants i ≠ none := by simp [show m.client.wants i = _ from hplace]
      exact hmove hw' rfl rfl (by simp [hs, stageLeft])
  | spin hs hw hl => exact absurd ⟨hs, hw, hl⟩ (hspin _)
  | swap hs hw hl => exact haccess rfl rfl (by simp [hs, stageLeft])
  | setHartid hs =>
      simp only [Machine.At, hs] at hplace
      have hw' : m.client.wants i ≠ none := by simp [show m.client.wants i = _ from hplace.2]
      exact hmove hw' rfl rfl (by simp [hs, stageLeft])
  | clearHartid hs hw =>
      have hw' : m.client.wants i ≠ none := by simp [show m.client.wants i = _ from hw]
      exact hmove hw' rfl rfl (by simp [hs, stageLeft])
  | unlock hs => exact haccess rfl rfl (by simp [hs, stageLeft])
  | init hs hw => exact absurd hw wants_ne_init
  | own hs hw hstep =>
      obtain ⟨hless, hothers⟩ := left_of_step hstep
      apply left_lt hi
      · simp only [hartLeft]
        omega
      · intro j hj
        have hle := hothers j hj
        simp only [hartLeft]
        omega

/-! ## Somebody goes on -/

/-- A hart that is off is not at the lock. -/
theorem stage_of_run (hm : Starting b m) (hrun : Relation.ReflTransGen (Machine.Next (harts b)) m m')
    {j : Nat} (hj : j ∉ b.harts) : m'.stage j = .start := by
  induction hrun with
  | refl => exact hm.stage j
  | @tail m₁ m₂ hrun hnext ih =>
      obtain ⟨i, hstep⟩ := hnext
      obtain ⟨-, hsafe⟩ := hm.run hrun
      have hoff : m₁.client.pc j = .off := hsafe.counted.off j hj
      exact hstep.stage_of_idle ih (by simp [harts, wants, hoff])

/-- A hart goes on: it has a step that is not a round of a spin loop. -/
def GoesOn (b : Board) (m : Machine Nat Unit State) (i : Nat) : Prop :=
  (∃ m', Machine.Step (harts b) i m m') ∧ ∀ l, ¬ m.Spins (harts b) i l

/-- A step without locks. -/
theorem goesOn_of_step {c : State} (hs : m.stage i = .start) (hw : m.client.wants i = none)
    (hstep : Step b i m.client c) : GoesOn b m i := by
  refine ⟨⟨_, .own hs hw hstep⟩, ?_⟩
  rintro l ⟨-, hw', -⟩
  have hw'' : m.client.wants i = _ := hw'
  simp [hw] at hw''

/-- An operation of the lock, unless it spins. -/
theorem goesOn_of_wants {o : LockOp Unit} (hs : m.stage i = .start) (hw : m.client.wants i = some o)
    (hspin : ∀ l, ¬ m.Spins (harts b) i l) : GoesOn b m i := by
  refine ⟨Machine.exists_step_of_wants hs hw ?_ hspin, hspin⟩
  rintro l rfl
  exact wants_ne_init hw

/-- A hart that has counted is not at its end, and goes on: at the barrier when all have counted. -/
theorem goesOn_of_passed (hs : m.stage i = .start) (hpassed : (m.client.pc i).passed = true)
    (hnot : m.client.pc i ≠ .running)
    (hbarrier : m.client.pc i = .barrier → m.client.initState = b.validCount) : GoesOn b m i := by
  have hspin : m.client.pc i ≠ .take → ∀ l, ¬ m.Spins (harts b) i l := by
    rintro hne l ⟨-, hw, -⟩
    have hw' : m.client.wants i = _ := hw
    cases hpc : m.client.pc i <;> simp [wants, hpc] at hw'
    exact hne hpc
  cases hpc : m.client.pc i <;> simp [hpc, Pc.passed] at hpassed
  case lkRelease =>
    exact goesOn_of_wants hs (by simp only [wants, hpc]; rfl) (hspin (by simp [hpc]))
  case drop => exact goesOn_of_wants hs (by simp only [wants, hpc]; rfl) (hspin (by simp [hpc]))
  case barrier => exact goesOn_of_step hs (by simp [wants, hpc]) (.barrier hpc (hbarrier hpc))
  case action => exact goesOn_of_step hs (by simp [wants, hpc]) (.action hpc)
  case trapInitVec => exact goesOn_of_step hs (by simp [wants, hpc]) (.trapInitVec hpc)
  case running => exact absurd hpc hnot

/-- A hart in the section goes on. -/
theorem goesOn_of_holding (hs : m.stage i = .start) (hhold : (m.client.pc i).holding = true) :
    GoesOn b m i := by
  cases hpc : m.client.pc i <;> simp [hpc, Pc.holding] at hhold
  case load => exact goesOn_of_step hs (by simp [wants, hpc]) (.load hpc)
  case store n => exact goesOn_of_step hs (by simp [wants, hpc]) (.store hpc)
  case lkRelease =>
    exact goesOn_of_passed hs (by simp [hpc, Pc.passed]) (by simp [hpc]) (by simp [hpc])
  case drop => exact goesOn_of_passed hs (by simp [hpc, Pc.passed]) (by simp [hpc]) (by simp [hpc])

/-- The loop of `cpus_probe` goes on. -/
theorem goesOn_of_probe {ids : List Nat} (hs : m.stage i = .start) (hpc : m.client.pc i = .probe ids)
    (hsome : m.client.cpusStacktop ≠ none) : GoesOn b m i := by
  have hw : m.client.wants i = none := by simp [wants, hpc]
  obtain ⟨t, ht⟩ := Option.ne_none_iff_exists'.mp hsome
  cases ids with
  | nil => exact goesOn_of_step hs hw (.probed hpc)
  | cons id ids =>
      by_cases hid : id = i
      · subst hid
        exact goesOn_of_step hs hw (.probeSelf hpc ht)
      · by_cases hoff : m.client.pc id = .off
        · exact goesOn_of_step hs hw (.probeStart hpc hid ht hoff)
        · exact goesOn_of_step hs hw (.probeFail hpc hid hoff)

/-- Whoever has not counted goes on, or waits for the lock of one who goes on, if it is the master or the
master has counted. -/
theorem exists_goesOn_of_not_passed (hwf : m.Wf (harts b)) (hsafe : Safe b m.atomic)
    (hs : ∀ j, m.stage j = .start) (hi : i ∈ b.harts) (hnot : (m.client.pc i).passed = false)
    (hmaster : i = b.boot ∨ (m.client.pc b.boot).passed = true) : ∃ j ∈ b.harts, GoesOn b m j := by
  have hst : Staged b m.client := hsafe.staged
  have hc : Counted b m.atomic := hsafe.counted
  cases hpc : m.client.pc i <;> simp [hpc, Pc.passed] at hnot
  case off =>
    exfalso
    rcases hmaster with rfl | hboot
    · simpa [hpc, Pc.slave] using hst.boot
    · have hvis : i ∈ b.visited := by
        have hmem := Finset.mem_insert.mp hi
        rcases hmem with rfl | hvis
        · simp [hpc, Pc.passed] at hboot
        · exact List.mem_toFinset.mp hvis
      have hprobed : (m.client.pc b.boot).probed = true := by
        cases hb : m.client.pc b.boot <;> simp [hb, Pc.passed, Pc.probed] at hboot ⊢
      exact hst.started hprobed i hvis hpc
  case entry =>
    refine ⟨i, hi, ?_⟩
    cases ht : m.client.cpusStacktop with
    | none => exact goesOn_of_step (hs i) (by simp [wants, hpc]) (.master hpc ht)
    | some t => exact goesOn_of_step (hs i) (by simp [wants, hpc]) (.slave hpc ht)
  case early =>
    exact ⟨i, hi, goesOn_of_step (hs i) (by simp [wants, hpc]) (.tables (fun _ => 0) hpc)⟩
  case probe ids =>
    obtain rfl := hst.master i (by simp [hpc, Pc.master])
    have hsome : m.client.cpusStacktop ≠ none := by simp [hst.table, hpc]
    exact ⟨_, hi, goesOn_of_probe (hs _) hpc hsome⟩
  case setup => exact ⟨i, hi, goesOn_of_step (hs i) (by simp [wants, hpc]) (.setup 0 hpc)⟩
  case vmmStart => exact ⟨i, hi, goesOn_of_step (hs i) (by simp [wants, hpc]) (.vmmStart hpc)⟩
  case late => exact ⟨i, hi, goesOn_of_step (hs i) (by simp [wants, hpc]) (.late hpc)⟩
  case waitInit =>
    rcases hmaster with rfl | hboot
    · simpa [hpc, Pc.slave] using hst.boot
    · have hmem : b.boot ∈ counted b m.client := by
        simp [hboot, Board.harts]
      have hne : m.client.initState ≠ 0 := by
        have hcount : m.client.initState = (counted b m.client).card := hc.count
        rw [hcount]
        exact Finset.card_ne_zero_of_mem hmem
      exact ⟨i, hi, goesOn_of_step (hs i) (by simp [wants, hpc]) (.waitInit hpc hne)⟩
  case slaveVmmStart =>
    exact ⟨i, hi, goesOn_of_step (hs i) (by simp [wants, hpc]) (.slaveVmmStart hpc)⟩
  case lkAcquire =>
    refine ⟨i, hi, goesOn_of_wants (hs i) (by simp only [wants, hpc]; rfl) ?_⟩
    rintro l ⟨-, hw, -⟩
    have hw' : m.client.wants i = _ := hw
    simp [wants, hpc] at hw'
  case take =>
    cases hl : m.lkState () with
    | false =>
        refine ⟨i, hi, goesOn_of_wants (hs i) (by simp only [wants, hpc]; rfl) ?_⟩
        rintro l ⟨-, -, hl'⟩
        simp [hl] at hl'
    | true =>
        -- the lock is that of a hart in the section
        obtain ⟨j, hj⟩ := (hwf.locked ()).mp hl
        have hname : m.lkHartid () = some j := (Machine.inside_of_start (hs j)).mp hj
        have hhold : (m.client.pc j).holding = true := (hc.owner j).mp hname
        refine ⟨j, hc.mem_harts ?_, goesOn_of_holding (hs j) hhold⟩
        intro hoff
        simp [show m.client.pc j = _ from hoff, Pc.holding] at hhold
  case load => exact ⟨i, hi, goesOn_of_holding (hs i) (by simp [hpc, Pc.holding])⟩
  case store n => exact ⟨i, hi, goesOn_of_holding (hs i) (by simp [hpc, Pc.holding])⟩
  case panicked => exact absurd hpc (hst.alive i)

/-- **Somebody goes on** while one hart is not at its end. -/
theorem exists_goesOn (hwf : m.Wf (harts b)) (hsafe : Safe b m.atomic)
    (hvalid : b.validCount = b.harts.card) (hstage : ∀ j, j ∉ b.harts → m.stage j = .start)
    (hnot : ∃ h ∈ b.harts, m.client.pc h ≠ .running) : ∃ j ∈ b.harts, GoesOn b m j := by
  by_cases hmid : ∃ j, m.stage j ≠ .start
  · obtain ⟨j, hj⟩ := hmid
    have hmem : j ∈ b.harts := by_contra fun hout => hj (hstage j hout)
    exact ⟨j, hmem, Machine.exists_step_of_stage hj, fun l hspin => hj hspin.1⟩
  have hs : ∀ j, m.stage j = .start := not_exists_not.mp hmid
  by_cases hall : ∀ g ∈ b.harts, (m.client.pc g).passed = true
  · obtain ⟨h, hh, hrun⟩ := hnot
    refine ⟨h, hh, goesOn_of_passed (hs h) (hall h hh) hrun fun _ => ?_⟩
    have hfull : counted b m.client = b.harts :=
      Finset.filter_true_of_mem hall
    have hcount : m.client.initState = (counted b m.client).card := hsafe.counted.count
    rw [hcount, hfull, hvalid]
  · simp only [not_forall] at hall
    obtain ⟨g, hg, hgnot⟩ := hall
    by_cases hboot : (m.client.pc b.boot).passed = true
    · exact exists_goesOn_of_not_passed hwf hsafe hs hg (by simpa using hgnot) (.inr hboot)
    · exact exists_goesOn_of_not_passed hwf hsafe hs (by simp [Board.harts]) (by simpa using hboot)
        (.inl rfl)

/-! ## The end of the start -/

/-- All harts are at their end. -/
def Complete (b : Board) (m : Machine Nat Unit State) : Prop :=
  ∀ h ∈ b.harts, m.client.pc h = .running

/-- From every state that is reached, the end can be. -/
theorem exists_complete {m₀ : Machine Nat Unit State} (hm : Starting b m₀)
    (hvalid : b.validCount = b.harts.card)
    (hrun : Relation.ReflTransGen (Machine.Next (harts b)) m₀ m) :
    ∃ m', Relation.ReflTransGen (Machine.Next (harts b)) m m' ∧ Complete b m' := by
  induction hn : left b m using Nat.strongRecOn generalizing m with
  | ind n ih =>
      by_cases hend : Complete b m
      · exact ⟨m, .refl, hend⟩
      · obtain ⟨hwf, hsafe⟩ := hm.run hrun
        have hnot : ∃ h ∈ b.harts, m.client.pc h ≠ .running := by
          simpa [Complete] using hend
        obtain ⟨j, hj, ⟨m₁, hstep⟩, hspin⟩ :=
          exists_goesOn hwf hsafe hvalid (fun j hj => stage_of_run hm hrun hj) hnot
        have hless := left_lt_of_step hwf hstep hspin hj
        obtain ⟨m', hrest, hcomplete⟩ := ih (left b m₁) (hn ▸ hless) (hrun.tail ⟨j, hstep⟩) rfl
        exact ⟨m', .head ⟨j, hstep⟩ hrest, hcomplete⟩

/-- The end is reached only with the right number. -/
theorem validCount_of_complete (hsafe : Safe b m.atomic) (hend : Complete b m) :
    b.validCount = b.harts.card := by
  have hboot : m.client.pc b.boot = .running := hend b.boot (by simp [Board.harts])
  obtain ⟨T, hT, hcard, hmem⟩ := hsafe.released ⟨b.boot, by
    show (m.client.pc b.boot).released = true
    simp [hboot, Pc.released]⟩
  have hall : b.harts ⊆ T := by
    intro h hh
    apply hmem
    show (m.client.pc h).released = true
    simp [hend h hh, Pc.released]
  have heq : T = b.harts := (hT.trans (Finset.filter_subset _ _)).antisymm hall
  rw [← hcard, heq]

end Startup

end Jrinx
