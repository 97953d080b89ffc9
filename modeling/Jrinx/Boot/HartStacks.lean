import Jrinx.Boot.Barrier

/-! # The stacks of the harts

`cpus_probe` gives every hart a stack, and `_start` loads it: no hart runs on the stack of another.

* **`Stacked`** — the invariant: the entries of `cpus_stacktop` for the harts that are on.
* **`hart_stacks_apart`** — every reachable state. -/

namespace Jrinx

namespace Startup

open State

variable {b : Board} {s t : Atomic Nat Unit State} {c c' : State} {i : Nat} {y : Pc}

/-- The hart has its stack pointer. -/
def Pc.started : Pc → Bool
  | .off | .entry => false
  | _ => true

/-- What `palloc` loses and takes for a stack. -/
def stackNeed : Nat := pgSize + kstkSize

/-- What the tables and the stacks of `cpus_probe` take at most. -/
def probeNeed (b : Board) : Nat := 3 * (8 * b.ids.length + 8) + b.visited.length * stackNeed

/-- Two stacks, each below its top, do not overlap. -/
def StacksApart (x y : Nat) : Prop := x + kstkSize ≤ y ∨ y + kstkSize ≤ x

/-- **The invariant**: the stacks that the loop has given lie behind the kernel and apart, below the memory
that is left, which is enough for the rest. -/
structure Stacked (b : Board) (c : State) : Prop where
  early : c.cpusStacktop = none →
    pallocBase b.kernEnd c.freememBase + probeNeed b ≤ wordSize ∧
      b.kernEnd ≤ pallocBase b.kernEnd c.freememBase
  room : ∀ ids, c.pc b.boot = .probe ids →
    pallocBase b.kernEnd c.freememBase + ids.length * stackNeed ≤ wordSize ∧
      b.kernEnd ≤ pallocBase b.kernEnd c.freememBase
  below : ∀ t ids, c.cpusStacktop = some t → c.pc b.boot = .probe ids →
    ∀ h ≠ b.boot, c.pc h ≠ .off → t h ≤ pallocBase b.kernEnd c.freememBase
  behind : ∀ t, c.cpusStacktop = some t → ∀ h ≠ b.boot, c.pc h ≠ .off → b.kernEnd + kstkSize ≤ t h
  apart : ∀ t, c.cpusStacktop = some t → ∀ g ≠ b.boot, ∀ h ≠ b.boot, g ≠ h →
    c.pc g ≠ .off → c.pc h ≠ .off → StacksApart (t g) (t h)
  sp : ∀ h, (c.pc h).started = true →
    if h = b.boot then c.sp h = b.kernMasterStacktop else ∃ t, c.cpusStacktop = some t ∧ c.sp h = t h

namespace Stacked

/-- Moves that have nothing to do with the stacks. -/
theorem move (h : Stacked b c) {x : Pc} (hx : c.pc i = x) (hpc : c'.pc = Function.update c.pc i y)
    (htable : c'.cpusStacktop = c.cpusStacktop) (hsp : c'.sp = c.sp)
    (hfree : c'.freememBase = c.freememBase ∨ i = b.boot ∧ c.cpusStacktop ≠ none)
    (hon : x.started = true) (hprobe : ∀ ids, y ≠ .probe ids) :
    Stacked b c' := by
  subst hx
  have hat : ∀ h, c'.pc h = if h = i then y else c.pc h := by simp [hpc, Function.update_apply]
  have hon' : ∀ h, c'.pc h ≠ .off → c.pc h ≠ .off := by
    intro j hj hoff
    rw [hat] at hj
    split at hj
    · rename_i hji
      simp [← hji, hoff, Pc.started] at hon
    · exact hj hoff
  -- the master is in the loop only if it was, and then somebody else moves
  have hin : ∀ ids, c'.pc b.boot = .probe ids →
      c.pc b.boot = .probe ids ∧ c'.freememBase = c.freememBase := by
    intro ids hids
    rw [hat] at hids
    split at hids
    · exact absurd hids (hprobe ids)
    · rename_i hb
      exact ⟨hids, hfree.resolve_right fun hi => hb hi.1.symm⟩
  constructor
  · intro hnone
    rw [htable] at hnone
    rw [hfree.resolve_right fun hi => hi.2 hnone]
    exact h.early hnone
  · intro ids hids
    obtain ⟨hids, hf⟩ := hin ids hids
    rw [hf]
    exact h.room ids hids
  · intro t ids ht hids j hj hjon
    obtain ⟨hids, hf⟩ := hin ids hids
    rw [hf]
    exact h.below t ids (htable ▸ ht) hids j hj (hon' j hjon)
  · exact fun t ht j hj hjon => h.behind t (htable ▸ ht) j hj (hon' j hjon)
  · intro t ht g hg k hk hgk hgon hkon
    exact h.apart t (htable ▸ ht) g hg k hk hgk (hon' g hgon) (hon' k hkon)
  · intro j hj
    rw [htable, hsp]
    apply h.sp
    rw [hat] at hj
    split at hj
    · rename_i hji
      exact hji ▸ hon
    · exact hj

/-- `palloc` of a stack. -/
theorem stack_spec {f : Nat} (hroom : pallocBase b.kernEnd f + stackNeed ≤ wordSize) :
    pallocBase b.kernEnd f ≤ (stack b f).1 ∧ (stack b f).1 + kstkSize =
      pallocBase b.kernEnd (stack b f).2 ∧
      pallocBase b.kernEnd (stack b f).2 ≤ pallocBase b.kernEnd f + stackNeed := by
  have hneed : pallocBase b.kernEnd f + pgSize + kstkSize ≤ wordSize := by
    rw [Nat.add_assoc]
    exact hroom
  obtain ⟨hle, hlt, -⟩ := le_alignUp_pgSize (x := pallocBase b.kernEnd f) (by omega)
  have hbase := pallocBase_palloc hneed
  refine ⟨hle, hbase.symm, ?_⟩
  have hstack : pallocBase b.kernEnd (stack b f).2 = alignUp (pallocBase b.kernEnd f) pgSize + kstkSize := hbase
  rw [hstack, stackNeed]
  omega

/-- `palloc` goes on behind the block that it gives. -/
theorem palloc_le (kernEnd f size align : Nat) (halign : 0 < align) (hle : align ≤ 8)
    (h : pallocBase kernEnd f + size + 8 ≤ wordSize) :
    pallocBase kernEnd f ≤ pallocBase kernEnd (palloc kernEnd f size align).2 ∧
      pallocBase kernEnd (palloc kernEnd f size align).2 ≤ pallocBase kernEnd f + size + 8 := by
  have hup : pallocBase kernEnd f ≤ alignUp (pallocBase kernEnd f) align ∧
      alignUp (pallocBase kernEnd f) align < pallocBase kernEnd f + align := by
    have hmod := Nat.mod_lt (pallocBase kernEnd f + (align - 1)) halign
    unfold alignUp alignDown
    rw [Nat.mod_eq_of_lt (by omega : pallocBase kernEnd f + (align - 1) < wordSize)]
    omega
  have hsum : (palloc kernEnd f size align).2 = alignUp (pallocBase kernEnd f) align + size :=
    Nat.mod_eq_of_lt (by omega)
  rw [hsum]
  unfold pallocBase at *
  split_ifs at * <;> omega

/-- The memory that is left behind the tables. -/
theorem tables_le {f : Nat} (h : pallocBase b.kernEnd f + probeNeed b ≤ wordSize) :
    pallocBase b.kernEnd f ≤ pallocBase b.kernEnd (tables b f) ∧
      pallocBase b.kernEnd (tables b f) + b.visited.length * stackNeed ≤ wordSize := by
  rw [probeNeed] at h
  obtain ⟨h₁, h₁'⟩ := palloc_le b.kernEnd f (8 * b.ids.length) 8 (by decide) le_rfl (by omega)
  obtain ⟨h₂, h₂'⟩ := palloc_le b.kernEnd (palloc b.kernEnd f (8 * b.ids.length) 8).2
    (8 * b.ids.length) 8 (by decide) le_rfl (by omega)
  obtain ⟨h₃, h₃'⟩ := palloc_le b.kernEnd
    (palloc b.kernEnd (palloc b.kernEnd f (8 * b.ids.length) 8).2 (8 * b.ids.length) 8).2
    (4 * b.ids.length) 4 (by decide) (by decide) (by omega)
  simp only [tables]
  exact ⟨h₁.trans (h₂.trans h₃), by omega⟩

/-- A hart loads its stack pointer. -/
theorem step_load (h : Stacked b c) {x : Nat} (hpc : c.pc i = .entry)
    (hprobe : ∀ ids, y ≠ .probe ids)
    (hx : if i = b.boot then x = b.kernMasterStacktop else ∃ t, c.cpusStacktop = some t ∧ x = t i) :
    Stacked b { c.goTo i y with sp := Function.update c.sp i x } := by
  have hon : ∀ j, (c.goTo i y).pc j ≠ .off → c.pc j ≠ .off := by
    intro j hj hoff
    by_cases hji : j = i
    · subst hji
      simp [hpc] at hoff
    · exact hj (by simpa [goTo, hji] using hoff)
  have hin : ∀ ids, (c.goTo i y).pc b.boot = .probe ids → c.pc b.boot = .probe ids := by
    intro ids hids
    by_cases hb : b.boot = i
    · exact absurd (by simpa [goTo, hb] using hids) (hprobe ids)
    · simpa [goTo, hb] using hids
  constructor
  · exact h.early
  · exact fun ids hids => h.room ids (hin ids hids)
  · exact fun t ids ht hids j hj hjon => h.below t ids ht (hin ids hids) j hj (hon j hjon)
  · exact fun t ht j hj hjon => h.behind t ht j hj (hon j hjon)
  · exact fun t ht g hg k hk hgk hgon hkon => h.apart t ht g hg k hk hgk (hon g hgon) (hon k hkon)
  · intro j hj
    by_cases hji : j = i
    · subst hji
      simpa [goTo] using hx
    · have hjs : (c.pc j).started = true := by simpa [goTo, hji] using hj
      simpa [hji, goTo] using h.sp j hjs

/-- The tables are there, and no other hart is on. -/
theorem step_tables (h : Stacked b c) (hst : Staged b c) (hpc : c.pc i = .early) (t : Nat → Nat) :
    Stacked b { c.goTo i (.probe b.visited) with
      cpusStacktop := some t
      freememBase := tables b c.freememBase } := by
  obtain rfl : i = b.boot := hst.master i (by simp [hpc, Pc.master])
  have hnone := hst.table.mpr (.inr hpc)
  have hoff := hst.empty hnone
  obtain ⟨hneed, hkern⟩ := h.early hnone
  obtain ⟨hle, hroom⟩ := tables_le hneed
  have halone : ∀ j ≠ b.boot, (c.goTo b.boot (.probe b.visited)).pc j = .off := by
    intro j hj
    simp [goTo, hj, hoff j hj]
  constructor
  · simp
  · intro ids hids
    obtain rfl : b.visited = ids := by simpa [goTo] using hids
    exact ⟨hroom, hkern.trans hle⟩
  · exact fun _ _ _ _ j hj hjon => absurd (halone j hj) hjon
  · exact fun _ _ j hj hjon => absurd (halone j hj) hjon
  · exact fun _ _ g hg _ _ _ hgon => absurd (halone g hg) hgon
  · intro j hj
    by_cases hjb : j = b.boot
    · subst hjb
      have hsp := h.sp b.boot (by simp [hpc, Pc.started])
      simpa [goTo] using hsp
    · simp [halone j hjb, Pc.started] at hj

/-- The node of the master. -/
theorem step_probeSelf (h : Stacked b c) {ids : List Nat} {t : Nat → Nat}
    (hpc : c.pc b.boot = .probe (b.boot :: ids)) (ht : c.cpusStacktop = some t) (x : Nat) :
    Stacked b { c.goTo b.boot (.probe ids) with cpusStacktop := some (Function.update t b.boot x) } := by
  have hat : ∀ j ≠ b.boot, (c.goTo b.boot (.probe ids)).pc j = c.pc j := fun j hj => goTo_pc_of_ne hj
  have htab : ∀ t', some (Function.update t b.boot x) = some t' → ∀ j ≠ b.boot, t' j = t j := by
    rintro _ ⟨⟩ j hj
    exact Function.update_of_ne hj _ _
  have hroom : ∀ ids', (c.goTo b.boot (.probe ids)).pc b.boot = .probe ids' → ids' = ids := by
    intro ids' hids
    simpa [goTo, eq_comm] using hids
  constructor
  · simp
  · intro ids' hids
    obtain rfl := hroom ids' hids
    obtain ⟨hneed, hkern⟩ := h.room _ hpc
    rw [List.length_cons, Nat.add_mul] at hneed
    exact ⟨by show pallocBase b.kernEnd c.freememBase + _ ≤ _; omega, hkern⟩
  · intro t' _ ht' _ j hj hon
    rw [htab t' ht' j hj]
    exact h.below t _ ht hpc j hj (hat j hj ▸ hon)
  · intro t' ht' j hj hon
    rw [htab t' ht' j hj]
    exact h.behind t ht j hj (hat j hj ▸ hon)
  · intro t' ht' g hg k hk hgk hgon hkon
    rw [htab t' ht' g hg, htab t' ht' k hk]
    exact h.apart t ht g hg k hk hgk (hat g hg ▸ hgon) (hat k hk ▸ hkon)
  · intro j hj
    by_cases hjb : j = b.boot
    · subst hjb
      have hsp := h.sp b.boot (by simp [hpc, Pc.started])
      simpa [goTo] using hsp
    · obtain ⟨t', ht', hsp⟩ := by simpa [hjb] using h.sp j (hat j hjb ▸ hj)
      obtain rfl : t = t' := Option.some.inj (ht.symm.trans ht')
      rw [if_neg hjb]
      exact ⟨_, rfl, hsp.trans (htab _ rfl j hjb).symm⟩

/-- The new stack lies above all that there are. -/
theorem step_probeStart (h : Stacked b c) {id : Nat} {ids : List Nat} {t : Nat → Nat}
    (hpc : c.pc b.boot = .probe (id :: ids)) (hne : id ≠ b.boot) (ht : c.cpusStacktop = some t) :
    Stacked b { (c.goTo id .entry).goTo b.boot (.probe ids) with
      cpusStacktop := some (Function.update t id ((stack b c.freememBase).1 + kstkSize))
      freememBase := (stack b c.freememBase).2 } := by
  obtain ⟨hneed, hkern⟩ := h.room _ hpc
  rw [List.length_cons, Nat.add_mul, Nat.one_mul] at hneed
  obtain ⟨hlow, htop, hhigh⟩ := stack_spec (b := b) (f := c.freememBase) (by omega)
  have hat : ∀ j, j ≠ b.boot → j ≠ id →
      ((c.goTo id .entry).goTo b.boot (.probe ids)).pc j = c.pc j := by
    intro j hj hjid
    simp [goTo, hj, hjid]
  -- what the table has now for the harts that are on
  have htab : ∀ t', some (Function.update t id ((stack b c.freememBase).1 + kstkSize)) = some t' →
      t' id = (stack b c.freememBase).1 + kstkSize ∧ ∀ j ≠ id, t' j = t j := by
    rintro _ ⟨⟩
    exact ⟨Function.update_self .., fun j hj => Function.update_of_ne hj _ _⟩
  have hbelow : ∀ j, j ≠ b.boot → j ≠ id →
      ((c.goTo id .entry).goTo b.boot (.probe ids)).pc j ≠ .off →
        t j ≤ pallocBase b.kernEnd c.freememBase :=
    fun j hj hjid hon => h.below t _ ht hpc j hj (hat j hj hjid ▸ hon)
  constructor
  · simp
  · intro ids' hids
    obtain rfl : ids = ids' := by simpa [goTo] using hids
    exact ⟨by show pallocBase b.kernEnd (stack b c.freememBase).2 + _ ≤ _; omega,
      by show _ ≤ pallocBase b.kernEnd (stack b c.freememBase).2; omega⟩
  · intro t' _ ht' _ j hj hon
    obtain ⟨hself, hothers⟩ := htab t' ht'
    show t' j ≤ pallocBase b.kernEnd (stack b c.freememBase).2
    by_cases hjid : j = id
    · rw [hjid, hself, htop]
    · rw [hothers j hjid]
      have hj' := hbelow j hj hjid hon
      omega
  · intro t' ht' j hj hon
    obtain ⟨hself, hothers⟩ := htab t' ht'
    by_cases hjid : j = id
    · rw [hjid, hself]
      omega
    · rw [hothers j hjid]
      exact h.behind t ht j hj (hat j hj hjid ▸ hon)
  · intro t' ht' g hg k hk hgk hgon hkon
    obtain ⟨hself, hothers⟩ := htab t' ht'
    by_cases hgid : g = id
    · subst hgid
      have hk' := hbelow k hk (Ne.symm hgk) hkon
      rw [hself, hothers k (Ne.symm hgk)]
      exact .inr (by omega)
    · by_cases hkid : k = id
      · subst hkid
        have hg' := hbelow g hg hgid hgon
        rw [hself, hothers g hgid]
        exact .inl (by omega)
      · rw [hothers g hgid, hothers k hkid]
        exact h.apart t ht g hg k hk hgk (hat g hg hgid ▸ hgon) (hat k hk hkid ▸ hkon)
  · intro j hj
    by_cases hjb : j = b.boot
    · subst hjb
      have hsp := h.sp b.boot (by simp [hpc, Pc.started])
      simpa [goTo] using hsp
    · have hjid : j ≠ id := by
        rintro rfl
        simp [goTo, hjb, Pc.started] at hj
      obtain ⟨t', ht', hsp⟩ := by simpa [hjb] using h.sp j (hat j hjb hjid ▸ hj)
      obtain rfl : t = t' := Option.some.inj (ht.symm.trans ht')
      rw [if_neg hjb]
      exact ⟨_, rfl, hsp.trans ((htab _ rfl).2 j hjid).symm⟩

/-- The steps that use no lock. -/
theorem step (h : Stacked b c) (hst : Staged b c) (hstep : Step b i c c') : Stacked b c' := by
  cases hstep with
  | master hpc hnone =>
      obtain rfl : i = b.boot := by
        by_contra hne
        simp [hst.empty hnone i hne] at hpc
      exact h.step_load hpc (by simp) (by simp)
  | @slave t hpc ht =>
      have hne : i ≠ b.boot := by
        rintro rfl
        simp [hst.table.mpr (.inl hpc)] at ht
      exact h.step_load hpc (by simp) (by simp [hne, ht])
  | tables t hpc => exact h.step_tables hst hpc t
  | @probeSelf ids t hpc ht =>
      obtain rfl := hst.master i (by simp [hpc, Pc.master])
      exact h.step_probeSelf hpc ht _
  | @probeStart id ids t hpc hne ht hoff =>
      obtain rfl := hst.master i (by simp [hpc, Pc.master])
      exact h.step_probeStart hpc hne ht
  | probeFail hpc => exact h.move hpc rfl rfl rfl (.inl rfl) rfl (by simp)
  | probed hpc => exact h.move hpc rfl rfl rfl (.inl rfl) rfl (by simp)
  | setup f hpc =>
      obtain rfl := hst.master i (by simp [hpc, Pc.master])
      have hsome : c.cpusStacktop ≠ none := by simp [hst.table, hpc]
      exact h.move hpc rfl rfl rfl (.inr ⟨rfl, hsome⟩) rfl (by simp)
  | vmmStart hpc => exact h.move hpc rfl rfl rfl (.inl rfl) rfl (by simp)
  | late hpc => exact h.move hpc rfl rfl rfl (.inl rfl) rfl (by simp)
  | waitInit hpc => exact h.move hpc rfl rfl rfl (.inl rfl) rfl (by simp)
  | slaveVmmStart hpc => exact h.move hpc rfl rfl rfl (.inl rfl) rfl (by simp)
  | load hpc => exact h.move hpc rfl rfl rfl (.inl rfl) rfl (by simp)
  | store hpc => exact h.move hpc rfl rfl rfl (.inl rfl) rfl (by simp)
  | barrier hpc =>
      split
      · exact h.move hpc rfl rfl rfl (.inl rfl) rfl (by simp)
      · exact h.move hpc rfl rfl rfl (.inl rfl) rfl (by simp)
  | action hpc => exact h.move hpc rfl rfl rfl (.inl rfl) rfl (by simp)
  | trapInitVec hpc => exact h.move hpc rfl rfl rfl (.inl rfl) rfl (by simp)

/-- The steps with the lock taken at once. -/
theorem atomic_step (h : Stacked b s.client) (hinv : Inv b s) (hstep : Atomic.Step (harts b) s t) :
    Stacked b t.client := by
  rcases hinv.counted.client_cases hstep with ⟨i, hown⟩ | ⟨i, x, y, hpc, hclient, hxy⟩
  · exact h.step hinv.staged hown
  · rw [hclient]
    have hboth : x.started = true ∧ ∀ ids, y ≠ .probe ids := by
      rcases (by simpa using hxy) with ⟨rfl, rfl⟩ | ⟨rfl, rfl⟩ | ⟨rfl, rfl⟩ | ⟨rfl, rfl⟩ <;>
        exact ⟨rfl, by simp⟩
    exact h.move hpc rfl rfl rfl (.inl rfl) hboth.1 hboth.2

theorem run (h : Stacked b s.client) (hinv : Inv b s)
    (hrun : Relation.ReflTransGen (Atomic.Step (harts b)) s t) : Stacked b t.client := by
  induction hrun with
  | refl => exact h
  | tail hrun hstep ih => exact ih.atomic_step (hinv.run hrun) hstep

end Stacked

/-- The memory behind the kernel is enough for the tables and the stacks. -/
structure Roomy (b : Board) (c : State) : Prop where
  need : pallocBase b.kernEnd c.freememBase + probeNeed b ≤ wordSize
  kern : b.kernEnd ≤ pallocBase b.kernEnd c.freememBase
  master : b.kernMasterStacktop ≤ b.kernEnd

theorem Roomy.stacked (h : Roomy b c) (hb : Booting b c) : Stacked b c := by
  have hoff : ∀ j ≠ b.boot, ¬ c.pc j ≠ .off := fun j hj hon => hon (hb.off j hj)
  constructor
  · exact fun _ => ⟨h.need, h.kern⟩
  · simp [hb.boot]
  · exact fun _ _ _ _ j hj hon => absurd hon (hoff j hj)
  · exact fun _ _ j hj hon => absurd hon (hoff j hj)
  · exact fun _ _ g hg _ _ _ hon => absurd hon (hoff g hg)
  · intro j hj
    by_cases hjb : j = b.boot
    · simp [hjb, hb.boot, Pc.started] at hj
    · simp [hb.off j hjb, Pc.started] at hj

/-- **No hart runs on the stack of another**, in every interleaving of the start: the stacks of two harts that
have loaded their stack pointers do not overlap, and only that of the master is within the kernel. -/
theorem hart_stacks_apart {m m' : Machine Nat Unit State} (hm : Starting b m) (hroom : Roomy b m.client)
    (hrun : Relation.ReflTransGen (Machine.Next (harts b)) m m') :
    (∀ g h, g ≠ h → (m'.client.pc g).started = true → (m'.client.pc h).started = true →
      StacksApart (m'.client.sp g) (m'.client.sp h)) ∧
    ∀ h ≠ b.boot, (m'.client.pc h).started = true → b.kernEnd + kstkSize ≤ m'.client.sp h := by
  have hsafe : Safe b m.atomic := hm.booting.safe (s := m.atomic) (hm.lkHartid ())
  have hstacked : Stacked b m.atomic.client := hroom.stacked hm.booting
  obtain ⟨-, hatomic⟩ := Machine.refines hm.toInitial hsafe.proper hrun
  have h : Stacked b m'.client := hstacked.run hsafe.toInv hatomic
  have hon : ∀ {x : Pc}, x.started = true → x ≠ .off := by
    rintro x hx rfl
    simp [Pc.started] at hx
  have hmaster : (m'.client.pc b.boot).started = true → m'.client.sp b.boot ≤ b.kernEnd := by
    intro hb
    have hsp := h.sp b.boot hb
    rw [if_pos rfl] at hsp
    exact hsp.le.trans hroom.master
  have hslave : ∀ k ≠ b.boot, (m'.client.pc k).started = true →
      b.kernEnd + kstkSize ≤ m'.client.sp k ∧
        ∃ t, m'.client.cpusStacktop = some t ∧ m'.client.sp k = t k := by
    intro k hk hkon
    have hsp := h.sp k hkon
    rw [if_neg hk] at hsp
    obtain ⟨t, ht, hspk⟩ := hsp
    exact ⟨hspk ▸ h.behind t ht k hk (hon hkon), t, ht, hspk⟩
  refine ⟨fun g k hgk hgon hkon => ?_, fun k hk hkon => (hslave k hk hkon).1⟩
  by_cases hg : g = b.boot
  · subst hg
    have hlow := hmaster hgon
    have hhigh := (hslave k (Ne.symm hgk) hkon).1
    exact .inl (by omega)
  · obtain ⟨hghigh, t, ht, hgsp⟩ := hslave g hg hgon
    by_cases hk : k = b.boot
    · subst hk
      have hlow := hmaster hkon
      exact .inr (by omega)
    · obtain ⟨-, t', ht', hksp⟩ := hslave k hk hkon
      obtain rfl : t = t' := Option.some.inj (ht.symm.trans ht')
      rw [hgsp, hksp]
      exact h.apart t ht g hg k hk hgk (hon hgon) (hon hkon)

/-- Both harts of two have loaded their stack pointers. -/
theorem hart_stacks_apart_two : ∃ m' : Machine Nat Unit State,
    (m'.client.pc 0).started = true ∧ (m'.client.pc 1).started = true ∧
    (∀ g h, g ≠ h → (m'.client.pc g).started = true → (m'.client.pc h).started = true →
      StacksApart (m'.client.sp g) (m'.client.sp h)) ∧
    ∀ h ≠ Board.two.boot, (m'.client.pc h).started = true →
      Board.two.kernEnd + kstkSize ≤ m'.client.sp h := by
  have hroom : Roomy .two (handover .two).client :=
    ⟨by simp [handover, Board.two, pallocBase, probeNeed, Board.visited, stackNeed, pgSize, kstkSize,
        wordSize_eq],
      by simp [handover, Board.two, pallocBase], by decide⟩
  refine ⟨_, ?_, ?_, hart_stacks_apart (starting_handover .two) hroom <|
    .head ⟨0, .own rfl rfl (.master rfl rfl)⟩ <| .head ⟨0, .own rfl rfl (.tables (fun _ => 0) rfl)⟩ <|
    .head ⟨0, .own rfl rfl (.probeSelf rfl rfl)⟩ <|
    .head ⟨0, .own rfl rfl (.probeStart rfl (by decide) rfl rfl)⟩ <|
    .single ⟨1, .own rfl rfl (.slave rfl rfl)⟩⟩
  · rfl
  · rfl

end Startup

end Jrinx
