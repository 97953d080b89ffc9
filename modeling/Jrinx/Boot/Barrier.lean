import Jrinx.Boot.Startup

/-! # The barrier of the start

What holds in every interleaving of the start: no count is lost, no hart uses the page table of the kernel
before it is filled, and no hart leaves the barrier before all have come to it. The last needs that
`cpus_valid_count` is the number of the harts that are started.

* **`Paged`**, **`Released`** — the invariants.
* **`startup_safe`** — every reachable state.
* **`validCount_eq_iff`** — when the number is right. -/

namespace Jrinx

namespace Startup

open State

variable {b : Board} {s t : Atomic Nat Unit State} {c c' : State} {i : Nat} {y : Pc}

/-- The place of the master when `kern_pgdir` is filled. -/
def Pc.built : Pc → Bool
  | .off | .entry | .early | .probe _ | .setup => false
  | _ => true

/-! ## The page table -/

/-- The page table is filled before it is used. -/
structure Paged (b : Board) (c : State) : Prop where
  vm : ∀ h, c.vm h = true → c.kernPgdir = true
  paged : ∀ h, (c.pc h).paged = true → c.vm h = true
  built : (c.pc b.boot).built = true → c.kernPgdir = true

namespace Paged

/-- Moves that have nothing to do with the page table. -/
theorem move (h : Paged b c) {x : Pc} (hx : c.pc i = x) (hpc : c'.pc = Function.update c.pc i y)
    (hvm : c'.vm = c.vm) (hdir : c'.kernPgdir = c.kernPgdir) (hpaged : y.paged = true → x.paged = true)
    (hbuilt : i = b.boot → y.built = true → x.built = true) : Paged b c' := by
  subst hx
  have hat : ∀ h, c'.pc h = if h = i then y else c.pc h := by simp [hpc, Function.update_apply]
  constructor
  · intro j hj
    rw [hdir]
    exact h.vm j (hvm ▸ hj)
  · intro j hj
    rw [hvm]
    apply h.paged j
    rw [hat] at hj
    split at hj
    · rename_i hji
      exact hji ▸ hpaged hj
    · exact hj
  · intro hj
    rw [hdir]
    apply h.built
    rw [hat] at hj
    split at hj
    · rename_i hji
      exact hji ▸ hbuilt hji.symm hj
    · exact hj

/-- `vmm_start`, when the page table is filled. -/
theorem vmmStart (h : Paged b c) (hdir : c.kernPgdir = true) (i : Nat) (y : Pc) :
    Paged b { c.goTo i y with vm := Function.update c.vm i true } := by
  refine ⟨fun _ _ => hdir, fun j hj => ?_, fun _ => hdir⟩
  by_cases hji : j = i
  · simp [hji]
  · have hpaged : (c.pc j).paged = true := by simpa [goTo, hji] using hj
    simpa [goTo, hji] using h.paged j hpaged

/-- Whoever has joined finds it filled. -/
theorem of_joined (h : Paged b c) (hs : Staged b c) (hj : (c.pc i).joined = true) :
    c.kernPgdir = true := by
  apply h.built
  by_cases hi : i = b.boot
  · subst hi
    cases hpc : c.pc b.boot <;> simp [hpc, Pc.joined, Pc.built] at hj ⊢
  · have hpassed := hs.first (hs.waited i hi hj)
    cases hpc : c.pc b.boot <;> simp [hpc, Pc.passed, Pc.built] at hpassed ⊢

theorem step (h : Paged b c) (hs : Staged b c) (hstep : Step b i c c') : Paged b c' := by
  cases hstep with
  | master hpc => exact h.move hpc rfl rfl rfl (by simp [Pc.paged]) (by simp [Pc.built])
  | @slave t hpc ht =>
      refine h.move hpc rfl rfl rfl (by simp [Pc.paged]) ?_
      rintro rfl
      simp [hs.table.mpr (.inl hpc)] at ht
  | tables t hpc => exact h.move hpc rfl rfl rfl (by simp [Pc.paged]) (by simp [Pc.built])
  | probeSelf hpc => exact h.move hpc rfl rfl rfl (by simp [Pc.paged]) (by simp [Pc.built])
  | @probeStart id ids t hpc hne ht hoff =>
      have hstarted : Paged b (c.goTo id .entry) := h.move hoff rfl rfl rfl (by simp [Pc.paged]) (by simp [Pc.built])
      have hthere : (c.goTo id .entry).pc i = .probe (id :: ids) := by
        simpa [goTo, Ne.symm hne] using hpc
      exact hstarted.move hthere rfl rfl rfl (by simp [Pc.paged]) (by simp [Pc.built])
  | @probeFail id ids hpc hne hoff =>
      obtain rfl := hs.master i (by simp [hpc, Pc.master])
      obtain ⟨-, -, htodo, -⟩ := hs.todo _ hpc
      exact absurd (htodo id List.mem_cons_self hne) hoff
  | probed hpc => exact h.move hpc rfl rfl rfl (by simp [Pc.paged]) (by simp [Pc.built])
  | setup f hpc =>
      refine ⟨fun _ _ => rfl, fun j hj => ?_, fun _ => rfl⟩
      by_cases hji : j = i
      · simp [goTo, hji, Pc.paged] at hj
      · exact h.paged j (by simpa [goTo, hji] using hj)
  | vmmStart hpc =>
      obtain rfl := hs.master i (by simp [hpc, Pc.master])
      exact h.vmmStart (h.built (by simp [hpc, Pc.built])) _ _
  | late hpc => exact h.move hpc rfl rfl rfl (fun _ => rfl) fun _ _ => rfl
  | waitInit hpc => exact h.move hpc rfl rfl rfl (by simp [Pc.paged]) fun _ _ => rfl
  | slaveVmmStart hpc => exact h.vmmStart (h.of_joined (i := i) hs (by simp [hpc, Pc.joined])) _ _
  | load hpc => exact h.move hpc rfl rfl rfl (fun _ => rfl) fun _ _ => rfl
  | store hpc => exact h.move hpc rfl rfl rfl (fun _ => rfl) fun _ _ => rfl
  | barrier hpc => exact h.move hpc rfl rfl rfl (fun _ => rfl) fun _ _ => rfl
  | action hpc => exact h.move hpc rfl rfl rfl (fun _ => rfl) fun _ _ => rfl
  | trapInitVec hpc => exact h.move hpc rfl rfl rfl (fun _ => rfl) fun _ _ => rfl

end Paged

/-! ## The barrier -/

/-- Whoever has left the barrier had counted when `init_state` was `cpus_valid_count`. -/
def Released (b : Board) (c : State) : Prop :=
  (∃ h, (c.pc h).released = true) →
    ∃ T ⊆ counted b c, T.card = b.validCount ∧ ∀ h, (c.pc h).released = true → h ∈ T

theorem passed_of_released {x : Pc} (h : x.released = true) : x.passed = true := by
  cases x <;> simp [Pc.released, Pc.passed] at h ⊢

namespace Released

/-- Moves that do not leave the barrier, nor what comes before it. -/
theorem move (h : Released b c) (hreleased : ∀ j, (c'.pc j).released = true → (c.pc j).released = true)
    (hpassed : ∀ j, (c.pc j).passed = true → (c'.pc j).passed = true) : Released b c' := by
  rintro ⟨j, hj⟩
  obtain ⟨T, hT, hcard, hmem⟩ := h ⟨j, hreleased j hj⟩
  refine ⟨T, fun k hk => ?_, hcard, fun k hk => hmem k (hreleased k hk)⟩
  obtain ⟨hk, hkp⟩ := mem_counted.mp (hT hk)
  exact mem_counted.mpr ⟨hk, hpassed k hkp⟩

theorem move_one (h : Released b c) {x : Pc} (hx : c.pc i = x) (hpc : c'.pc = Function.update c.pc i y)
    (hreleased : y.released = true → x.released = true) (hpassed : x.passed = true → y.passed = true) :
    Released b c' := by
  subst hx
  apply h.move
  · intro j hj
    rw [hpc] at hj
    by_cases hji : j = i
    · subst hji
      exact hreleased (by simpa using hj)
    · simpa [hji] using hj
  · intro j hj
    rw [hpc]
    by_cases hji : j = i
    · subst hji
      simpa using hpassed hj
    · simpa [hji] using hj

/-- The barrier is left. -/
theorem step_barrier {owner : Unit → Option Nat} (hc : Counted b ⟨owner, c⟩) (hpc : c.pc i = .barrier)
    (heq : c.initState = b.validCount) (hy : y.passed = true) : Released b (c.goTo i y) := by
  intro _
  have hmem : ∀ j, (c.pc j).passed = true → j ∈ counted b c := by
    intro j hj
    refine mem_counted.mpr ⟨hc.mem_harts ?_, hj⟩
    intro hoff
    have hoff' : c.pc j = .off := hoff
    simp [hoff', Pc.passed] at hj
  refine ⟨counted b c, ?_, hc.count.symm.trans heq, ?_⟩
  · intro j hj
    obtain ⟨hjh, hjp⟩ := mem_counted.mp hj
    refine mem_counted.mpr ⟨hjh, ?_⟩
    by_cases hji : j = i
    · simpa [goTo, hji] using hy
    · simpa [goTo, hji] using hjp
  · intro j hj
    apply hmem
    by_cases hji : j = i
    · simp [hji, hpc, Pc.passed]
    · exact passed_of_released (by simpa [goTo, hji] using hj)

theorem step (h : Released b c) {owner : Unit → Option Nat}
    (hc : Counted b ⟨owner, c⟩) (hstep : Step b i c c') : Released b c' := by
  cases hstep with
  | master hpc => exact h.move_one hpc rfl nofun nofun
  | slave hpc => exact h.move_one hpc rfl nofun nofun
  | tables t hpc => exact h.move_one hpc rfl nofun nofun
  | probeSelf hpc => exact h.move_one hpc rfl nofun nofun
  | @probeStart id ids t hpc hne ht hoff =>
      have hstarted : Released b (c.goTo id .entry) := h.move_one hoff rfl nofun nofun
      have hthere : (c.goTo id .entry).pc i = .probe (id :: ids) := by
        simpa [goTo, Ne.symm hne] using hpc
      exact hstarted.move_one hthere rfl nofun nofun
  | probeFail hpc => exact h.move_one hpc rfl nofun nofun
  | probed hpc => exact h.move_one hpc rfl nofun nofun
  | setup f hpc => exact h.move_one hpc rfl nofun nofun
  | vmmStart hpc => exact h.move_one hpc rfl nofun nofun
  | late hpc => exact h.move_one hpc rfl nofun nofun
  | waitInit hpc => exact h.move_one hpc rfl nofun nofun
  | slaveVmmStart hpc => exact h.move_one hpc rfl nofun nofun
  | load hpc => exact h.move_one hpc rfl nofun nofun
  | store hpc => exact h.move_one hpc rfl nofun nofun
  | barrier hpc heq =>
      apply step_barrier hc hpc heq
      split <;> rfl
  | action hpc => exact h.move_one hpc rfl (fun _ => rfl) fun _ => rfl
  | trapInitVec hpc => exact h.move_one hpc rfl (fun _ => rfl) fun _ => rfl

end Released

/-! ## All of it -/

/-- **The invariant.** -/
structure Safe (b : Board) (s : Atomic Nat Unit State) : Prop extends Inv b s where
  paged : Paged b s.client
  released : Released b s.client

/-- **The step lemma.** -/
theorem Safe.step (h : Safe b s) (hstep : Atomic.Step (harts b) s t) : Safe b t := by
  refine ⟨h.toInv.step hstep, ?_, ?_⟩
  · rcases h.counted.client_cases hstep with ⟨i, hown⟩ | ⟨i, x, y, hpc, hclient, hxy⟩
    · exact h.paged.step h.staged hown
    · rw [hclient]
      have hboth : x.paged = true ∧ x.built = true := by
        rcases (by simpa using hxy) with ⟨rfl, -⟩ | ⟨rfl, -⟩ | ⟨rfl, -⟩ | ⟨rfl, -⟩ <;>
          exact ⟨rfl, rfl⟩
      exact h.paged.move hpc rfl rfl rfl (fun _ => hboth.1) fun _ _ => hboth.2
  · rcases h.counted.client_cases hstep with ⟨i, hown⟩ | ⟨i, x, y, hpc, hclient, hxy⟩
    · exact h.released.step h.counted hown
    · rw [hclient]
      have hboth : y.released = false ∧ (x.passed = true → y.passed = true) := by
        rcases (by simpa using hxy) with ⟨rfl, rfl⟩ | ⟨rfl, rfl⟩ | ⟨rfl, rfl⟩ | ⟨rfl, rfl⟩ <;>
          exact ⟨rfl, by decide⟩
      exact h.released.move_one hpc rfl (by simp [hboth.1]) hboth.2

theorem Safe.run (h : Safe b s) (hrun : Relation.ReflTransGen (Atomic.Step (harts b)) s t) :
    Safe b t := by
  induction hrun with
  | refl => exact h
  | tail _ hstep ih => exact ih.step hstep

theorem Booting.safe (h : Booting b s.client) (howner : s.owner () = none) : Safe b s where
  toInv := h.inv howner
  paged := by
    have hpc : ∀ j, s.client.pc j = .entry ∨ s.client.pc j = .off := by
      intro j
      by_cases hj : j = b.boot
      · exact .inl (hj ▸ h.boot)
      · exact .inr (h.off j hj)
    refine ⟨fun j hj => by simp [h.vm j] at hj, fun j hj => ?_, by simp [h.boot, Pc.built]⟩
    rcases hpc j with hj' | hj' <;> simp [hj', Pc.paged] at hj
  released := by
    rintro ⟨j, hj⟩
    by_cases hjb : j = b.boot
    · simp [hjb, h.boot, Pc.released] at hj
    · simp [h.off j hjb, Pc.released] at hj

/-- The start of the machine. -/
structure Starting (b : Board) (m : Machine Nat Unit State) : Prop extends m.Initial where
  booting : Booting b m.client

/-- The board as the firmware hands it over. -/
def handover (b : Board) : Machine Nat Unit State where
  lkState _ := false
  lkHartid _ := none
  stage _ := .start
  client :=
    { pc := Function.update (fun _ => .off) b.boot .entry
      sp := fun _ => 0
      cpusStacktop := none
      freememBase := 0
      initState := 0
      kernPgdir := false
      vm := fun _ => false }

theorem starting_handover (b : Board) : Starting b (handover b) where
  lkState _ := rfl
  lkHartid _ := rfl
  stage _ := rfl
  booting :=
    { boot := by simp [handover]
      off := fun h hne => by simp [handover, hne]
      cpusStacktop := rfl
      initState := rfl
      vm := fun _ => rfl }

/-- A board of two harts. -/
def Board.two : Board where
  ids := [0, 1]
  skipCpu0 := false
  boot := 0
  kernEnd := 0x80300000
  kernMasterStacktop := 0x80280000
  nodup := by decide
  lt := by decide
  few := by simp [wordSize_eq]

theorem Starting.run {m m' : Machine Nat Unit State} (hm : Starting b m)
    (hrun : Relation.ReflTransGen (Machine.Next (harts b)) m m') :
    m'.Wf (harts b) ∧ Safe b m'.atomic := by
  have hsafe : Safe b m.atomic := hm.booting.safe (s := m.atomic) (hm.lkHartid ())
  obtain ⟨hwf, hatomic⟩ := Machine.refines hm.toInitial hsafe.proper hrun
  exact ⟨hwf, hsafe.run hatomic⟩

/-- **The start is safe** in every interleaving: `init_state` is the number of the harts that have counted;
a hart that has seen it, and any that uses the page table of the kernel, comes after the master; nobody
meets an error of the lock; and where `cpus_valid_count` is the number of the harts, all of them have counted
and use the page table before one leaves the barrier. -/
theorem startup_safe {m m' : Machine Nat Unit State} (hm : Starting b m)
    (hrun : Relation.ReflTransGen (Machine.Next (harts b)) m m') :
    m'.client.initState = (counted b m'.client).card ∧
    (∀ h ≠ b.boot, (m'.client.pc h).joined = true → (m'.client.pc b.boot).passed = true) ∧
    (∀ h, m'.client.vm h = true → m'.client.kernPgdir = true) ∧
    (∀ h, m'.client.pc h ≠ .panicked) ∧
    (b.validCount = b.harts.card → (∃ h, (m'.client.pc h).released = true) →
      ∀ g ∈ b.harts, (m'.client.pc g).passed = true ∧ m'.client.vm g = true) := by
  obtain ⟨-, hsafe⟩ := hm.run hrun
  refine ⟨hsafe.counted.count, ?_, hsafe.paged.vm, hsafe.staged.alive, ?_⟩
  · exact fun h hne hj => hsafe.staged.first (hsafe.staged.waited h hne hj)
  · intro hvalid hout g hg
    obtain ⟨T, hT, hcard, -⟩ := hsafe.released hout
    have hall : T = b.harts :=
      Finset.eq_of_subset_of_card_le (hT.trans (Finset.filter_subset _ _)) (hvalid ▸ hcard.ge)
    have hpassed := (mem_counted.mp (hT (hall.symm ▸ hg))).2
    refine ⟨hpassed, hsafe.paged.paged g ?_⟩
    cases hpc : m'.client.pc g <;> simp [Machine.atomic, hpc, Pc.passed, Pc.paged] at hpassed ⊢

/-- The master of two harts has come to its setup. -/
theorem startup_safe_two : ∃ m' : Machine Nat Unit State, m'.client.pc 0 = .early ∧
    m'.client.initState = (counted .two m'.client).card ∧
    (∀ h ≠ Board.two.boot, (m'.client.pc h).joined = true →
      (m'.client.pc Board.two.boot).passed = true) ∧
    (∀ h, m'.client.vm h = true → m'.client.kernPgdir = true) ∧
    (∀ h, m'.client.pc h ≠ .panicked) ∧
    (Board.two.validCount = Board.two.harts.card → (∃ h, (m'.client.pc h).released = true) →
      ∀ g ∈ Board.two.harts, (m'.client.pc g).passed = true ∧ m'.client.vm g = true) :=
  ⟨_, rfl, startup_safe (starting_handover .two) (.single ⟨0, .own rfl rfl (.master rfl rfl)⟩)⟩

/-! ## The number of the harts -/

/-- Where there are nodes at all, there is one for hart 0: the identifiers are those below their number. -/
theorem Board.zero_mem (b : Board) (hne : b.ids ≠ []) : 0 ∈ b.ids := by
  have hsub : b.ids.toFinset ⊆ Finset.range b.ids.length := by
    intro id hid
    exact Finset.mem_range.mpr (b.lt id (List.mem_toFinset.mp hid))
  have hcard : (Finset.range b.ids.length).card ≤ b.ids.toFinset.card := by
    rw [Finset.card_range, List.toFinset_card_of_nodup b.nodup]
  have heq := Finset.eq_of_subset_of_card_le hsub hcard
  have hzero : 0 ∈ Finset.range b.ids.length :=
    Finset.mem_range.mpr (List.length_pos_of_ne_nil hne)
  exact List.mem_toFinset.mp (heq ▸ hzero)

/-- The loop of `cpus_probe` visits as many nodes as `cpus_valid_count` says. -/
theorem Board.length_visited (b : Board) (hne : b.ids ≠ []) : b.visited.length = b.validCount := by
  have hpos := List.length_pos_of_ne_nil hne
  cases hskip : b.skipCpu0 with
  | false => simp [Board.visited, Board.validCount, hskip]
  | true =>
      have herase : b.visited = b.ids.erase 0 := by
        rw [b.nodup.erase_eq_filter]
        apply List.filter_congr
        intro id _
        by_cases hid : id = 0
        · simp [hskip, hid]
        · simp [hskip, hid]
      rw [herase, List.length_erase_of_mem (b.zero_mem hne), Board.validCount, hskip, if_pos rfl,
        wordSub_of_le hpos]

/-- **The number is right** exactly where the firmware starts a hart whose node the loop visits. -/
theorem validCount_eq_iff (b : Board) : b.validCount = b.harts.card ↔ b.boot ∈ b.visited := by
  have hfin : b.visited.toFinset.card = b.visited.length :=
    List.toFinset_card_of_nodup (b.nodup.filter _)
  by_cases hne : b.ids = []
  · have hvis : b.visited = [] := by simp [Board.visited, hne]
    have hone : b.harts.card = 1 := by simp [Board.harts, hvis]
    have hvalid : b.validCount ≠ 1 := by
      cases hskip : b.skipCpu0 <;> simp [Board.validCount, hskip, hne, wordSub, wordSize_eq]
    simp [hone, hvalid, hvis]
  · rw [← b.length_visited hne, ← hfin]
    by_cases hboot : b.boot ∈ b.visited
    · have hmem : b.boot ∈ b.visited.toFinset := List.mem_toFinset.mpr hboot
      simp [Board.harts, Finset.insert_eq_of_mem hmem, hboot]
    · have hnot : b.boot ∉ b.visited.toFinset := fun hmem => hboot (List.mem_toFinset.mp hmem)
      simp [Board.harts, Finset.card_insert_of_notMem hnot, hboot]

end Startup

end Jrinx
