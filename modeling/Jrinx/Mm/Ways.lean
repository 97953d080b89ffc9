import Jrinx.Mm.FailedPages

/-! # Page tables along some ways

The root of a partition shares tables with the kernel, which maps all frames. What an operation needs of the
tables is a property of the ways to the addresses that it touches.

* **`OpenWays`** — the tables on the ways to some addresses are different frames, and none of them is free.
* **`OpenWays.walk`** — a walk that creates tables leaves the ways open, and all pages as they were.
* **`OpenWays.page`** — a data page for an unmapped address: one page changes. -/

namespace Jrinx

open Op

variable {m m' : Mem} {r f t : Ppn} {va : Nat} {V : Set Nat} {pt : PartId}

/-- The places of the tables on the ways to the addresses of `V`. -/
def onWays (r : Ppn) (V : Set Nat) : Set TableSlot := {p | ∃ va ∈ V, p ∈ onWay r va}

/-- **The ways to some addresses are open**: free frames are listed once, the tables on the ways are not
free, and those of different places are different frames. -/
structure OpenWays (m : Mem) (r : Ppn) (V : Set Nat) : Prop where
  nodup : m.pfFreeList.flatten.Nodup
  noTable : ∀ p ∈ onWays r V, ∀ t, tableAt m p = some t → ¬ m.Free t
  levels : ∀ p ∈ onWays r V, ∀ q ∈ onWays r V, ∀ t, tableAt m p = some t → tableAt m q = some t → p = q

theorem root_mem_onWays (hva : va ∈ V) : .root r ∈ onWays r V := ⟨va, hva, by simp [onWay]⟩

theorem mid_mem_onWays (hva : va ∈ V) : .mid r (vpn2 va) ∈ onWays r V := ⟨va, hva, by simp [onWay]⟩

theorem slot_mem_onWays (hva : va ∈ V) : (pageOf r va).slot ∈ onWays r V := ⟨va, hva, by simp [onWay]⟩

/-- Open ways of other memory with the same tables. -/
theorem OpenWays.congr (h : OpenWays m r V) (hnodup : m'.pfFreeList.flatten.Nodup)
    (hfree : ∀ f, m'.Free f → m.Free f) (htables : ∀ p ∈ onWays r V, tableAt m' p = tableAt m p) :
    OpenWays m' r V := by
  refine ⟨hnodup, fun p hp t ht hf => ?_, fun p hp q hq t hpt hqt => ?_⟩
  · rw [htables p hp] at ht
    exact h.noTable p hp t ht (hfree t hf)
  · rw [htables p hp] at hpt
    rw [htables q hq] at hqt
    exact h.levels p hp q hq t hpt hqt

/-- The tables on the ways and the pages look the same if the entries on the ways do. -/
theorem onWays_congr
    (hpte : ∀ p ∈ onWays r V, ∀ t k, tableAt m p = some t → m'.pte ⟨t, k⟩ = m.pte ⟨t, k⟩) :
    (∀ p ∈ onWays r V, tableAt m' p = tableAt m p) ∧
      ∀ va ∈ V, found m' (pageOf r va) = found m (pageOf r va) := by
  have hway : ∀ va ∈ V, ∀ p ∈ onWay r va, tableAt m' p = tableAt m p := fun va hva =>
    onWay_congr (hpte _ (root_mem_onWays hva) r _ rfl)
      fun t ht => hpte _ (mid_mem_onWays hva) t _ ht
  refine ⟨fun p ⟨va, hva, hp⟩ => hway va hva p hp, fun va hva => ?_⟩
  exact found_congr (hway va hva _ (by simp [onWay])) fun t ht => hpte _ (slot_mem_onWays hva) t _ ht

/-- A frame is taken: it is no table of the ways, and they look the same. -/
theorem OpenWays.alloc (h : OpenWays m r V) (halloc : phyFrameAlloc m = .ok f m') :
    OpenWays m' r V ∧ (∀ p ∈ onWays r V, tableAt m' p = tableAt m p) ∧
      (∀ va ∈ V, found m' (pageOf r va) = found m (pageOf r va)) ∧
      (∀ k, m'.pte ⟨f, k⟩ = Pte.zero) ∧ m.Free f ∧ ¬ m'.Free f ∧ (∀ g, m'.Free g → m.Free g) ∧
      ∀ p ∈ onWays r V, tableAt m p ≠ some f := by
  obtain ⟨free, htake, rfl⟩ := phyFrameAlloc_eq_ok halloc
  have hflat := (takeFrame_eq_some htake).1
  have hfree : m.Free f := free_of_takeFrame htake
  have hnodup : (f :: free.flatten).Nodup := hflat ▸ h.nodup
  have hrest : ∀ g, g ∈ free.flatten → m.Free g := by
    intro g hg
    rw [Mem.Free, hflat]
    exact List.mem_cons_of_mem f hg
  have hno : ∀ p ∈ onWays r V, tableAt m p ≠ some f := fun p hp ht => h.noTable p hp f ht hfree
  let after : Mem := { m with pfFreeList := free, ram := Function.update m.ram f fun _ => Pte.zero }
  have hsame : (∀ p ∈ onWays r V, tableAt after p = tableAt m p) ∧
      ∀ va ∈ V, found after (pageOf r va) = found m (pageOf r va) := onWays_congr ?_
  · refine ⟨h.congr hnodup.of_cons hrest hsame.1, hsame.1, hsame.2, fun k => ?_, hfree,
      (List.nodup_cons.mp hnodup).1, hrest, hno⟩
    simp [Mem.pte]
  · intro p hp t k ht
    have hne : t ≠ f := fun heq => hno p hp (heq ▸ ht)
    simp [after, Mem.pte, hne]

/-! ## A new table -/

theorem Pte.target_eq_none {e : Pte} : e.target = none ↔ e.perm.v = false := by
  rw [Pte.target]
  split <;> simp_all

/-- One table more on the ways, at the place `q`; the pages are mapped as before. -/
structure LinkedOn (m m' : Mem) (r : Ppn) (V : Set Nat) (q : TableSlot) (f : Ppn) : Prop where
  tables : ∀ p ∈ onWays r V, tableAt m' p = if p = q then some f else tableAt m p
  found : ∀ va ∈ V, found m' (pageOf r va) = found m (pageOf r va)

/-- The ways stay open when a frame is linked that is neither free nor a table. -/
theorem LinkedOn.openWays {q : TableSlot} (hl : LinkedOn m m' r V q f) (h : OpenWays m r V)
    (hlist : m'.pfFreeList = m.pfFreeList) (hnot : ¬ m.Free f)
    (hfresh : ∀ p ∈ onWays r V, tableAt m p ≠ some f) : OpenWays m' r V := by
  have hfree : ∀ g, m'.Free g ↔ m.Free g := fun g => by rw [Mem.Free, Mem.Free, hlist]
  refine ⟨hlist ▸ h.nodup, fun p hp t ht => ?_, fun p hp p' hp' t ht ht' => ?_⟩
  · rw [hfree]
    rw [hl.tables p hp] at ht
    split at ht
    · rwa [← Option.some.inj ht]
    · exact h.noTable p hp t ht
  · rw [hl.tables p hp] at ht
    rw [hl.tables p' hp'] at ht'
    split at ht <;> split at ht'
    · next h₁ h₂ => rw [h₁, h₂]
    · exact absurd (ht'.trans ht.symm) (hfresh p' hp')
    · exact absurd (ht.trans ht'.symm) (hfresh p hp)
    · exact h.levels p hp p' hp' t ht ht'

/-- The assignment below the root. -/
theorem OpenWays.linkMid (h : OpenWays m r V) (hva : va ∈ V) (hinv : (m.pte ⟨r, vpn2 va⟩).perm.v = false)
    (hfresh : ∀ p ∈ onWays r V, tableAt m p ≠ some f) (hzero : ∀ k, m.pte ⟨f, k⟩ = Pte.zero) :
    LinkedOn m (m.setPte ⟨r, vpn2 va⟩ (tablePte f)) r V (.mid r (vpn2 va)) f := by
  have hroot := root_mem_onWays (r := r) hva
  have hfr : f ≠ r := fun heq => hfresh _ hroot (by rw [heq]; rfl)
  -- the entries of other tables are untouched
  have hpte : ∀ p ∈ onWays r V, p ≠ .root r → ∀ t k, tableAt m p = some t →
      (m.setPte ⟨r, vpn2 va⟩ (tablePte f)).pte ⟨t, k⟩ = m.pte ⟨t, k⟩ := by
    intro p hp hne t k ht
    rw [Mem.pte_setPte, if_neg]
    intro heq
    have htr : t = r := congrArg PteAddr.table heq
    exact hne (h.levels p hp _ hroot r (htr ▸ ht) rfl)
  have hnew : ∀ k, (m.setPte ⟨r, vpn2 va⟩ (tablePte f)).pte ⟨f, k⟩ = Pte.zero := by
    intro k
    rw [Mem.pte_setPte, if_neg (by simp [hfr]), hzero]
  have htables : ∀ p ∈ onWays r V, tableAt (m.setPte ⟨r, vpn2 va⟩ (tablePte f)) p =
      if p = .mid r (vpn2 va) then some f else tableAt m p := by
    rintro p ⟨va', hva', hp⟩
    simp only [onWay, List.mem_cons, List.not_mem_nil, or_false] at hp
    rcases hp with rfl | rfl | rfl
    · rw [if_neg (by simp)]
      rfl
    · simp only [tableAt, Mem.pte_setPte, PteAddr.mk.injEq, TableSlot.mid.injEq, true_and]
      split <;> simp
    · rw [if_neg (by simp [Page.slot])]
      show ((m.setPte ⟨r, vpn2 va⟩ (tablePte f)).pte ⟨r, vpn2 va'⟩).target.bind _ =
        (m.pte ⟨r, vpn2 va'⟩).target.bind _
      by_cases heq : vpn2 va' = vpn2 va
      · -- the new table is empty, where there was none
        rw [Mem.pte_setPte, if_pos (by rw [heq]), target_tablePte, Option.bind_some, hnew, heq,
          Pte.target_of_invalid hinv]
        rfl
      · rw [Mem.pte_setPte, if_neg (by simpa using heq)]
        cases ht : (m.pte ⟨r, vpn2 va'⟩).target with
        | none => rfl
        | some t =>
            rw [Option.bind_some, Option.bind_some, hpte _ (mid_mem_onWays hva') (by simp) t _ ht]
  refine ⟨htables, fun va' hva' => found_congr ?_ fun t ht => ?_⟩
  · rw [htables _ (slot_mem_onWays hva'), if_neg (by simp [Page.slot])]
  · exact hpte _ (slot_mem_onWays hva') (by simp [Page.slot]) t _ ht

/-- The assignment below a middle table. -/
theorem OpenWays.linkLeaf (h : OpenWays m r V) (hva : va ∈ V)
    (hmid : tableAt m (.mid r (vpn2 va)) = some t) (hinv : (m.pte ⟨t, vpn1 va⟩).perm.v = false)
    (hfresh : ∀ p ∈ onWays r V, tableAt m p ≠ some f) (hzero : ∀ k, m.pte ⟨f, k⟩ = Pte.zero) :
    LinkedOn m (m.setPte ⟨t, vpn1 va⟩ (tablePte f)) r V (pageOf r va).slot f := by
  have hmidWay := mid_mem_onWays (r := r) hva
  have hft : f ≠ t := fun heq => hfresh _ hmidWay (heq ▸ hmid)
  have hpte : ∀ p ∈ onWays r V, p ≠ .mid r (vpn2 va) → ∀ t' k, tableAt m p = some t' →
      (m.setPte ⟨t, vpn1 va⟩ (tablePte f)).pte ⟨t', k⟩ = m.pte ⟨t', k⟩ := by
    intro p hp hne t' k ht
    rw [Mem.pte_setPte, if_neg]
    intro heq
    have htt : t' = t := congrArg PteAddr.table heq
    exact hne (h.levels p hp _ hmidWay t (htt ▸ ht) hmid)
  have hnew : ∀ k, (m.setPte ⟨t, vpn1 va⟩ (tablePte f)).pte ⟨f, k⟩ = Pte.zero := by
    intro k
    rw [Mem.pte_setPte, if_neg (by simp [hft]), hzero]
  have hold : tableAt m (pageOf r va).slot = none := by
    show ((m.pte ⟨r, vpn2 va⟩).target.bind fun t => (m.pte ⟨t, vpn1 va⟩).target) = none
    rw [show (m.pte ⟨r, vpn2 va⟩).target = some t from hmid, Option.bind_some, Pte.target_of_invalid hinv]
  -- the entries of the root are untouched
  have hrootPte : ∀ k, (m.setPte ⟨t, vpn1 va⟩ (tablePte f)).pte ⟨r, k⟩ = m.pte ⟨r, k⟩ :=
    fun k => hpte _ (root_mem_onWays hva) (by simp) r k rfl
  have htables : ∀ p ∈ onWays r V, tableAt (m.setPte ⟨t, vpn1 va⟩ (tablePte f)) p =
      if p = (pageOf r va).slot then some f else tableAt m p := by
    rintro p ⟨va', hva', hp⟩
    simp only [onWay, List.mem_cons, List.not_mem_nil, or_false] at hp
    rcases hp with rfl | rfl | rfl
    · rw [if_neg (by simp [Page.slot])]
      rfl
    · rw [if_neg (by simp [Page.slot]), tableAt, tableAt, hrootPte]
    · show ((m.setPte ⟨t, vpn1 va⟩ (tablePte f)).pte ⟨r, vpn2 va'⟩).target.bind _ = _
      rw [hrootPte]
      cases ht : (m.pte ⟨r, vpn2 va'⟩).target with
      | none =>
          have hslot : tableAt m (pageOf r va').slot = none := by
            show (m.pte ⟨r, vpn2 va'⟩).target.bind _ = none
            rw [ht, Option.bind_none]
          rw [Option.bind_none, if_neg, hslot]
          intro heq
          have hi : vpn2 va' = vpn2 va := ((TableSlot.leaf.injEq _ _ _ _ _ _).mp heq).2.1
          rw [hi] at ht
          exact absurd (hmid.symm.trans ht) (by simp)
      | some t' =>
          have hslot : tableAt m (pageOf r va').slot = (m.pte ⟨t', vpn1 va'⟩).target := by
            show ((m.pte ⟨r, vpn2 va'⟩).target.bind fun t => (m.pte ⟨t, vpn1 va'⟩).target) = _
            rw [ht, Option.bind_some]
          rw [Option.bind_some, hslot]
          by_cases hi : vpn2 va' = vpn2 va
          · obtain rfl : t' = t := by
              rw [hi] at ht
              exact Option.some.inj (ht.symm.trans hmid)
            simp only [Mem.pte_setPte, PteAddr.mk.injEq, true_and, pageOf, Page.slot,
              TableSlot.leaf.injEq, hi]
            split <;> simp
          · have hne : (pageOf r va').slot ≠ (pageOf r va).slot := fun heq =>
              hi ((TableSlot.leaf.injEq _ _ _ _ _ _).mp heq).2.1
            rw [if_neg hne, hpte _ (mid_mem_onWays hva') (by simpa using hi) t' _ ht]
            rfl
  refine ⟨htables, fun va' hva' => ?_⟩
  by_cases hslot : (pageOf r va').slot = (pageOf r va).slot
  · -- the page hangs on the new table, which is empty
    have hafter : tableAt (m.setPte ⟨t, vpn1 va⟩ (tablePte f)) (pageOf r va').slot = some f := by
      rw [htables _ (slot_mem_onWays hva'), if_pos hslot]
    have hbefore : tableAt m (pageOf r va').slot = none := by rw [hslot, hold]
    rw [found_of_none hbefore, found_of_some hafter, hnew]
    rfl
  · refine found_congr ?_ fun t' ht => hpte _ (slot_mem_onWays hva') (by simp [Page.slot]) t' _ ht
    rw [htables _ (slot_mem_onWays hva'), if_neg hslot]

/-! ## Walks and pages -/

/-- What a walk leaves that creates tables: open ways to the same pages, and no new free frame. -/
structure Walked (m m' : Mem) (r : Ppn) (V : Set Nat) : Prop where
  ways : OpenWays m' r V
  found : ∀ va ∈ V, found m' (pageOf r va) = found m (pageOf r va)
  free : ∀ f, m'.Free f → m.Free f

theorem Walked.trans {m₁ : Mem} (h : Walked m m₁ r V) (h' : Walked m₁ m' r V) : Walked m m' r V :=
  ⟨h'.ways, fun va hva => (h'.found va hva).trans (h.found va hva), fun f hf => h.free f (h'.free f hf)⟩

/-- A table frame is taken. -/
theorem OpenWays.ptFrameAlloc (h : OpenWays m r V) (halloc : ptFrameAlloc m = .ok f m') :
    Walked m m' r V ∧ (∀ p ∈ onWays r V, tableAt m' p = tableAt m p) ∧ (∀ k, m'.pte ⟨f, k⟩ = Pte.zero) ∧
      ¬ m'.Free f ∧ ∀ p ∈ onWays r V, tableAt m' p ≠ some f := by
  unfold Jrinx.ptFrameAlloc at halloc
  obtain ⟨f', m₁, htake, hrest⟩ := bind_eq_ok.mp halloc
  obtain ⟨_, m₂, hinc, hend⟩ := bind_eq_ok.mp hrest
  obtain ⟨rfl, rfl⟩ := pure_eq_ok.mp hend
  obtain ⟨hways, htables, hfound, hzero, -, hnot, hfree, hno⟩ := h.alloc htake
  have hm₂ := modify_eq_ok.mp (panicE_eq_ok.mp hinc)
  subst hm₂
  refine ⟨⟨hways.congr hways.nodup (fun _ hf => hf) fun p _ => tableAt_of_ram rfl p,
    fun va hva => (found_of_ram rfl _).trans (hfound va hva), hfree⟩,
    fun p hp => (tableAt_of_ram rfl p).trans (htables p hp), hzero, hnot, fun p hp ht => ?_⟩
  exact hno p hp ((htables p hp).symm.trans ((tableAt_of_ram rfl p).symm.trans ht))

/-- The second half of a walk. -/
theorem OpenWays.walkMid (h : OpenWays m r V) (hva : va ∈ V) {mid pa1 : Ppn} {a : PteAddr}
    (hmid : tableAt m (.mid r (vpn2 va)) = some mid) (hw : ptWalkMid mid va true pa1 m = .ok (some a) m') :
    Walked m m' r V ∧ ∃ t, a = ⟨t, vpn0 va⟩ ∧ tableAt m' (pageOf r va).slot = some t := by
  unfold ptWalkMid PtOps.walkMid at hw
  obtain ⟨_, _, hg, hw⟩ := bind_eq_ok.mp hw
  obtain ⟨rfl, rfl⟩ := get_eq_ok.mp hg
  -- the table of the page is the one that the middle table points to
  have hslot : tableAt m (pageOf r va).slot = (m.pte ⟨mid, vpn1 va⟩).target := by
    show (tableAt m (.mid r (vpn2 va))).bind _ = _
    rw [hmid, Option.bind_some]
    rfl
  by_cases hv : (m.pte ⟨mid, vpn1 va⟩).perm.v = true
  · simp only [hv, if_true] at hw
    obtain ⟨ha, rfl⟩ := pure_eq_ok.mp hw
    refine ⟨⟨h, fun _ _ => rfl, fun _ hf => hf⟩, _, (Option.some.inj ha).symm, ?_⟩
    rw [hslot, Pte.target, if_pos hv]
  · simp only [hv, if_false, Bool.false_eq_true, if_true] at hw
    obtain ⟨f, m₁, halloc, hw⟩ := bind_eq_ok.mp hw
    obtain ⟨_, m₂, hset, hw⟩ := bind_eq_ok.mp hw
    obtain ⟨ha, rfl⟩ := pure_eq_ok.mp hw
    have halloc' := catchE_eq_ok_of_fails (ptPhyOps.undo_fails pa1) halloc
    obtain ⟨hwalked, htables, hzero, hnot, hno⟩ := h.ptFrameAlloc halloc'
    rw [modify_eq_ok] at hset
    subst hset
    have hmidWay := mid_mem_onWays (r := r) hva
    -- taking a frame changed no table on the ways, so that the entry is as before
    have hinv : (m₁.pte ⟨mid, vpn1 va⟩).perm.v = false := by
      have hsame := htables _ (slot_mem_onWays hva)
      have hslot₁ : tableAt m₁ (pageOf r va).slot = (m₁.pte ⟨mid, vpn1 va⟩).target := by
        show (tableAt m₁ (.mid r (vpn2 va))).bind _ = _
        rw [htables _ hmidWay, hmid, Option.bind_some]
        rfl
      have hempty : (m.pte ⟨mid, vpn1 va⟩).target = none := Pte.target_eq_none.mpr (by simpa using hv)
      exact Pte.target_eq_none.mp (hslot₁.symm.trans (hsame.trans (hslot.trans hempty)))
    have hlinked := hwalked.ways.linkLeaf hva ((htables _ hmidWay).trans hmid) hinv hno hzero
    have hways := hlinked.openWays hwalked.ways rfl hnot hno
    refine ⟨hwalked.trans ⟨hways, hlinked.found, fun _ hf => hf⟩, f, (Option.some.inj ha).symm, ?_⟩
    rw [hlinked.tables _ (slot_mem_onWays hva), if_pos rfl]

/-- **A walk that creates tables** leaves the ways open, and all pages as they were. -/
theorem OpenWays.walk (h : OpenWays m r V) (hva : va ∈ V) {a : PteAddr}
    (hw : ptWalk r va true m = .ok (some a) m') :
    Walked m m' r V ∧ ∃ t, a = ⟨t, vpn0 va⟩ ∧ tableAt m' (pageOf r va).slot = some t := by
  unfold ptWalk PtOps.walk at hw
  obtain ⟨_, _, hg, hw⟩ := bind_eq_ok.mp hw
  obtain ⟨rfl, rfl⟩ := get_eq_ok.mp hg
  by_cases hv : (m.pte ⟨r, vpn2 va⟩).perm.v = true
  · simp only [hv, if_true] at hw
    have hmid : tableAt m (.mid r (vpn2 va)) = some (m.pte ⟨r, vpn2 va⟩).ppn := by
      rw [tableAt, Pte.target, if_pos hv]
    exact h.walkMid hva hmid hw
  · simp only [hv, if_false, Bool.false_eq_true, if_true] at hw
    obtain ⟨f, m₁, halloc, hw⟩ := bind_eq_ok.mp hw
    obtain ⟨_, m₂, hset, hw⟩ := bind_eq_ok.mp hw
    obtain ⟨hwalked, htables, hzero, hnot, hno⟩ := h.ptFrameAlloc halloc
    rw [modify_eq_ok] at hset
    subst hset
    have hmidWay := mid_mem_onWays (r := r) hva
    -- taking a frame changed no table on the ways, so that the entry is as before
    have hinv : (m₁.pte ⟨r, vpn2 va⟩).perm.v = false := by
      have hsame := htables _ hmidWay
      exact Pte.target_eq_none.mp (hsame.trans (Pte.target_eq_none.mpr (by simpa using hv)))
    have hlinked := hwalked.ways.linkMid hva hinv hno hzero
    have hways := hlinked.openWays hwalked.ways rfl hnot hno
    have hmid : tableAt (m₁.setPte ⟨r, vpn2 va⟩ (tablePte f)) (.mid r (vpn2 va)) = some f := by
      rw [hlinked.tables _ hmidWay, if_pos rfl]
    obtain ⟨hwalked', hslot⟩ := hways.walkMid hva hmid hw
    exact ⟨(hwalked.trans ⟨hways, hlinked.found, fun _ hf => hf⟩).trans hwalked', hslot⟩

/-- The assignment to the entry of a page: the ways stay open, and the other pages are left alone. -/
theorem OpenWays.write (h : OpenWays m r V) (hva : va ∈ V) (ht : tableAt m (pageOf r va).slot = some t)
    (e : Pte) : OpenWays (m.setPte ⟨t, vpn0 va⟩ e) r V ∧
      (e.perm.v = true → found (m.setPte ⟨t, vpn0 va⟩ e) (pageOf r va) = some (⟨t, vpn0 va⟩, e)) ∧
      ∀ va' ∈ V, pageOf r va' ≠ pageOf r va →
        found (m.setPte ⟨t, vpn0 va⟩ e) (pageOf r va') = found m (pageOf r va') := by
  have hslotWay := slot_mem_onWays (r := r) hva
  -- a table stands in one slot of the ways only
  have hpte : ∀ p ∈ onWays r V, p ≠ (pageOf r va).slot → ∀ t' k, tableAt m p = some t' →
      (m.setPte ⟨t, vpn0 va⟩ e).pte ⟨t', k⟩ = m.pte ⟨t', k⟩ := by
    intro p hp hne t' k htp
    rw [Mem.pte_setPte, if_neg]
    intro heq
    have htt : t' = t := congrArg PteAddr.table heq
    exact hne (h.levels p hp _ hslotWay t (htt ▸ htp) ht)
  have htables : ∀ p ∈ onWays r V, tableAt (m.setPte ⟨t, vpn0 va⟩ e) p = tableAt m p := by
    rintro p ⟨va', hva', hp⟩
    exact onWay_congr (hpte _ (root_mem_onWays hva') (by simp [Page.slot]) r _ rfl)
      (fun t' ht' => hpte _ (mid_mem_onWays hva') (by simp [Page.slot]) t' _ ht') p hp
  have hafter : tableAt (m.setPte ⟨t, vpn0 va⟩ e) (pageOf r va).slot = some t :=
    (htables _ hslotWay).trans ht
  refine ⟨h.congr h.nodup (fun _ hf => hf) htables, fun hv => ?_, fun va' hva' hne => ?_⟩
  · rw [found_of_some hafter]
    simp [pageOf, hv]
  · refine found_congr (htables _ (slot_mem_onWays hva')) fun t' ht' => ?_
    by_cases hslot : (pageOf r va').slot = (pageOf r va).slot
    · -- another entry of the same table
      rw [Mem.pte_setPte, if_neg]
      intro heq
      obtain ⟨h₁, h₂, h₃⟩ := (TableSlot.leaf.injEq _ _ _ _ _ _).mp hslot
      exact hne (Page.ext h₁ h₂ h₃ (congrArg PteAddr.idx heq))
    · exact hpte _ (slot_mem_onWays hva') hslot t' _ ht'

theorem ptFrameRefInc_same {u : Unit} (h : ptFrameRefInc f m = .ok u m') :
    m'.ram = m.ram ∧ m'.pfFreeList = m.pfFreeList := by
  unfold ptFrameRefInc at h
  obtain ⟨_, _, hg, h⟩ := bind_eq_ok.mp h
  obtain ⟨rfl, rfl⟩ := get_eq_ok.mp hg
  cases hpf : pa2frame m.mems f with
  | none =>
      rw [hpf] at h
      obtain ⟨-, rfl⟩ := pure_eq_ok.mp h
      exact ⟨rfl, rfl⟩
  | some pf =>
      rw [hpf] at h
      rw [← modify_eq_ok.mp (panicE_eq_ok.mp h)]
      exact ⟨rfl, rfl⟩

/-- **A data page for an unmapped address** gets a free frame; it is mapped, and the other pages on the
ways are left alone. -/
theorem OpenWays.page (h : OpenWays m (m.parts pt).paPgdir V) (hva : va ∈ V)
    (hnone : found m (pageOf (m.parts pt).paPgdir va) = none) {perm : Perm}
    (halloc : partPtAlloc pt va perm m = .ok f m') :
    OpenWays m' (m.parts pt).paPgdir V ∧ (m'.parts pt).paPgdir = (m.parts pt).paPgdir ∧
      m.Free f ∧ ¬ m'.Free f ∧ (∀ g, m'.Free g → m.Free g) ∧
      (∃ a, found m' (pageOf (m.parts pt).paPgdir va) = some (a, ⟨{ perm with v := true }, f⟩)) ∧
      ∀ va' ∈ V, pageOf (m.parts pt).paPgdir va' ≠ pageOf (m.parts pt).paPgdir va →
        found m' (pageOf (m.parts pt).paPgdir va') = found m (pageOf (m.parts pt).paPgdir va') := by
  obtain ⟨-, m₁, m₂, hframe, hmap, rfl⟩ := partPtAlloc_eq_ok.mp halloc
  have hpaid : OpenWays (m.payPage pt) (m.parts pt).paPgdir V :=
    h.congr h.nodup (fun _ hf => hf) fun p _ => tableAt_of_ram rfl p
  obtain ⟨hways₁, -, hfound₁, -, hfree, hnot₁, hrest₁, -⟩ := hpaid.alloc hframe
  have hnone₁ : found m₁ (pageOf (m.parts pt).paPgdir va) = none :=
    ((hfound₁ va hva).trans (found_of_ram rfl _)).trans hnone
  obtain ⟨m₁', m₃, a, hold, hw, hinc⟩ := PtOps.map_eq_ok hmap
  -- the page is not mapped, so that nothing is unmapped first
  rw [hnone₁, Option.isSome_none, if_neg (by simp)] at hold
  subst hold
  obtain ⟨hwalked, t, rfl, ht⟩ := hways₁.walk hva hw
  obtain ⟨hways₂, hself, hothers⟩ := hwalked.ways.write hva ht ⟨{ perm with v := true }, f⟩
  obtain ⟨hram, hlist⟩ := ptFrameRefInc_same hinc
  have hfree₂ : ∀ g, m₂.Free g → m₁'.Free g := by
    intro g hg
    rw [Mem.Free, hlist] at hg
    exact hwalked.free g hg
  refine ⟨hways₂.congr ?_ ?_ fun p _ => tableAt_of_ram hram p, ?_, hfree, fun hf => hnot₁ (hfree₂ f hf),
    fun g hg => hrest₁ g (hfree₂ g hg), ⟨_, (found_of_ram hram _).trans (hself rfl)⟩, fun va' hva' hne => ?_⟩
  · show m₂.pfFreeList.flatten.Nodup
    rw [hlist]
    exact hways₂.nodup
  · intro g hg
    rw [Mem.Free] at hg ⊢
    rwa [← hlist]
  · have hsame := sameParts_ptMap _ va f perm (sameParts_phyFrameAlloc (.refl (m.payPage pt)) hframe) hmap
    have hparts := congrArg (fun parts => (parts pt).paPgdir) hsame.parts
    simpa [Mem.payPage, Mem.updPart] using hparts
  · exact (found_of_ram hram _).trans ((hothers va' hva' hne).trans
      ((hwalked.found va' hva').trans ((hfound₁ va' hva').trans (found_of_ram rfl _))))

end Jrinx
