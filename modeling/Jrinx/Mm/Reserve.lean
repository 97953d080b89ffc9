import Jrinx.Mm.PageFaults
import Jrinx.Mm.PageRuns

/-! # Pages given on demand

The pages of the communication objects of a partition are given when the kernel first touches them. They
can be given as long as the budget and the free frames hold a reserve for every page below `pa_comm_base`
that is not mapped yet.

* **`Touch`**, **`touch`** — an access of the kernel, with the page fault that it may take.
* **`lazyVas`**, **`Reserve`** — the pages that are still to be given, and the means for them.
* **`Tidy.touch_ready`** — an access to a mapped page or to one of the range does not stop the system, and
  what is left is again a reserve. -/

namespace Jrinx

open Op

/-! ## Accesses of the kernel -/

/-- An address that the kernel loads from or stores to. -/
structure Touch where
  va : Nat
  store : Bool
  deriving DecidableEq, Repr

/-- The access faults: the address is not mapped, or it is the first of its kind. An entry that does not
allow the access is not looked at here. -/
def accessFaults (m : Mem) (r : Ppn) (t : Touch) : Bool :=
  match found m (pageOf r t.va) with
  | none => true
  | some (_, e) => !e.perm.a || (t.store && !e.perm.d)

/-- An access from supervisor mode for the partition `pt`. -/
def touch (pt : PartId) (t : Touch) : Op Mem Unit := do
  let m ← Op.get
  if accessFaults m (m.parts pt).paPgdir t then doPagefault pt t.va true t.store else pure ()

/-- The bytes from `base` on. -/
def touchesAt (base n : Nat) (store : Bool) : List Touch :=
  (List.range n).map fun i => ⟨(base + i) % wordSize, store⟩

/-- The accesses of `memcpy`. -/
def memcpyTouches (dst src n : Nat) : List Touch :=
  (List.range n).flatMap fun i => [⟨(src + i) % wordSize, false⟩, ⟨(dst + i) % wordSize, true⟩]

/-! ## The reserve -/

/-- The pages from `COMM_BASE` to `top` that are not mapped. -/
def lazyVas (m : Mem) (r : Ppn) (top : Nat) : List Nat :=
  (pageSteps commBase top).filter fun va => (found m (pageOf r va)).isNone

/-- **The reserve**: the budget pays for every page below `top` that is not mapped, and there are frames for
them and for their tables. -/
structure Reserve (m : Mem) (pt : PartId) (top : Nat) : Prop where
  budget : pgSize * (lazyVas m (m.parts pt).paPgdir top).length ≤ (m.parts pt).paMemRem
  frames : Enough m (m.parts pt).paPgdir (lazyVas m (m.parts pt).paPgdir top)

/-- The address is mapped, or a page will be given for it out of the reserve. -/
def Ready (m : Mem) (r : Ppn) (top va : Nat) : Prop :=
  found m (pageOf r va) ≠ none ∨ commBase ≤ va ∧ va < top

variable {R : Finset Ppn} {m m' : Mem} {r f : Ppn} {pt : PartId} {va top : Nat} {a : PteAddr} {e : Pte}

/-! ## Pages of a range -/

theorem nodup_pageSteps (start limit : Nat) : (pageSteps start limit).Nodup := by
  refine List.Nodup.map (fun i j hij => ?_) List.nodup_range
  unfold pgSize at hij
  omega

/-- The values of the loop counter. -/
theorem mem_pageSteps_iff {start limit x : Nat} (hstart : pgSize ∣ start) (hx : pgSize ∣ x) :
    x ∈ pageSteps start limit ↔ start ≤ x ∧ x < limit := by
  obtain ⟨n, rfl⟩ := hx
  obtain ⟨m, rfl⟩ := hstart
  constructor
  · intro h
    obtain ⟨k, hk, heq⟩ := List.mem_map.mp h
    rw [List.mem_range] at hk
    unfold pgSize at *
    omega
  · rintro ⟨hle, hlt⟩
    refine List.mem_map.mpr ⟨n - m, List.mem_range.mpr ?_, ?_⟩
    · unfold pgSize at *
      omega
    · unfold pgSize at *
      omega

theorem pgSize_dvd_of_mem_pageSteps {start limit x : Nat} (hstart : pgSize ∣ start)
    (h : x ∈ pageSteps start limit) : pgSize ∣ x := by
  obtain ⟨k, -, rfl⟩ := List.mem_map.mp h
  exact Nat.dvd_add hstart (Nat.dvd_mul_left _ _)

/-- The page of an address of the range. -/
theorem mem_pageSteps_of_lt {start : Nat} (hstart : pgSize ∣ start) (hlo : start ≤ va) (hhi : va < top) :
    va / pgSize * pgSize ∈ pageSteps start top := by
  refine (mem_pageSteps_iff hstart (Nat.dvd_mul_left _ _)).mpr ⟨?_, (Nat.div_mul_le_self _ _).trans_lt hhi⟩
  calc start = start / pgSize * pgSize := (Nat.div_mul_cancel hstart).symm
    _ ≤ va / pgSize * pgSize := Nat.mul_le_mul_right _ (Nat.div_le_div_right hlo)

theorem of_mem_pageSteps {x : Nat} (hx : x ∈ pageSteps commBase top) (htop : top ≤ commLimt) :
    x % pgSize = 0 ∧ x < 2 ^ 39 := by
  have hdvd := pgSize_dvd_of_mem_pageSteps (by decide) hx
  have hlt := ((mem_pageSteps_iff (by decide) hdvd).mp hx).2
  unfold commLimt at htop
  exact ⟨Nat.mod_eq_zero_of_dvd hdvd, by omega⟩

/-- The page does not depend on the offset. -/
theorem pageOf_congr {x y : Nat} (h : x / pgSize = y / pgSize) : pageOf r x = pageOf r y := by
  have hdigit : ∀ k, x / 2 ^ (12 + k) = y / 2 ^ (12 + k) := by
    intro k
    rw [pow_add, ← Nat.div_div_eq_div_mul, ← Nat.div_div_eq_div_mul]
    exact congrArg (· / 2 ^ k) h
  simp only [pageOf, vpn2, vpn1, vpn0, hdigit 18, hdigit 9, hdigit 0]

theorem pageOf_div_mul : pageOf r (va / pgSize * pgSize) = pageOf r va :=
  pageOf_congr (Nat.mul_div_cancel _ (by decide))

/-- Different pages of a range are different pages of the address space. -/
theorem eq_of_pageOf_eq {x y : Nat} (hx : x % pgSize = 0 ∧ x < 2 ^ 39) (hy : y % pgSize = 0 ∧ y < 2 ^ 39)
    (h : pageOf r x = pageOf r y) : x = y := by
  simp only [pageOf, Page.mk.injEq, vpn2, vpn1, vpn0, true_and] at h
  obtain ⟨h2, h1, h0⟩ := h
  unfold pgSize at hx hy
  omega

theorem tablePath_congr {x y : Nat} (h : pageOf r x = pageOf r y) : tablePath r x = tablePath r y := by
  have hi : vpn2 x = vpn2 y := congrArg Page.i h
  rw [tablePath, tablePath, hi, h]

theorem enough_perm {vas vas' : List Nat} (h : vas.Perm vas') : Enough m r vas ↔ Enough m r vas' := by
  rw [Enough, Enough, tablesNeeded, tablesNeeded, missingOf, missingOf, h.length_eq,
    List.toFinset_eq_of_perm _ _ h]

theorem enough_congr_head {x y : Nat} {vas : List Nat} (h : pageOf r x = pageOf r y) :
    Enough m r (x :: vas) ↔ Enough m r (y :: vas) := by
  simp only [Enough, tablesNeeded, missingOf, List.toFinset_cons, Finset.biUnion_insert, tablePath_congr h,
    List.length_cons]

/-- **A page is given**: it leaves the list of those that are still to be given. -/
theorem lazyVas_perm (htop : top ≤ commLimt) (hlo : commBase ≤ va) (hhi : va < top)
    (hnone : found m (pageOf r va) = none) (hsome : found m' (pageOf r va) ≠ none)
    (hothers : ∀ x, pageOf r x ≠ pageOf r va → found m' (pageOf r x) = found m (pageOf r x)) :
    (lazyVas m r top).Perm (va / pgSize * pgSize :: lazyVas m' r top) := by
  have hmem : va / pgSize * pgSize ∈ lazyVas m r top := by
    refine List.mem_filter.mpr ⟨mem_pageSteps_of_lt (by decide) hlo hhi, ?_⟩
    rw [pageOf_div_mul, hnone]
    rfl
  have hrest : lazyVas m' r top = (lazyVas m r top).erase (va / pgSize * pgSize) := by
    unfold lazyVas
    rw [((nodup_pageSteps _ _).filter _).erase_eq_filter, List.filter_filter]
    refine List.filter_congr fun x hx => ?_
    by_cases heq : x = va / pgSize * pgSize
    · rw [heq, pageOf_div_mul]
      simpa [Option.isSome_iff_ne_none] using hsome
    · have hne : pageOf r x ≠ pageOf r va := by
        intro hpage
        exact heq (eq_of_pageOf_eq (of_mem_pageSteps hx htop)
          (of_mem_pageSteps (mem_pageSteps_of_lt (by decide) hlo hhi) htop) (hpage.trans pageOf_div_mul.symm))
      rw [hothers x hne]
      simp [heq]
  rw [hrest]
  exact List.perm_cons_erase hmem

/-! ## Steps -/

/-- Marking an entry changes no table and no mapping. -/
theorem Tidy.markAccess (h : Tidy R m) (store : Bool) {g : Page} (hg : g.InRange R)
    (hfound : found m g = some (a, e)) : Tidy R (markAccess a store m) ∧
      (∀ p, p.InRange R → tableAt (Jrinx.markAccess a store m) p = tableAt m p) ∧
      ∀ g' : Page, g'.InRange R → (found (Jrinx.markAccess a store m) g' = none ↔ found m g' = none) := by
  obtain ⟨ht, ha, he, hv⟩ := found_eq_some hfound
  have hmark : Jrinx.markAccess a store m = m.setPte ⟨a.table, g.k⟩ (e.mark store) := by
    rw [Jrinx.markAccess, ← ha, he]
    rfl
  obtain ⟨hforest, htables, hwrite⟩ := h.forest.write hg ht (e.mark store)
  rw [← hmark] at hforest htables hwrite
  -- the entry stays valid, so that the page stays mapped
  have hv' : (e.mark store).perm.v = true := hv
  have hnone : ∀ g' : Page, g'.InRange R →
      (found (Jrinx.markAccess a store m) g' = none ↔ found m g' = none) := by
    intro g' hg'
    rw [hwrite g' hg']
    by_cases heq : g' = g
    · rw [if_pos heq, if_pos hv', heq, hfound]
      simp
    · rw [if_neg heq]
  refine ⟨⟨hforest, h.lists, h.nodup, h.isFrame, h.unreferenced, ?_, ?_⟩, htables, hnone⟩
  · intro f hf p hp
    rw [htables p hp]
    exact h.noTable f hf p hp
  · intro f hf g' hg' a' e' hfound'
    rw [hwrite g' hg'] at hfound'
    by_cases heq : g' = g
    · rw [if_pos heq, if_pos hv', Option.some.injEq, Prod.mk.injEq] at hfound'
      rw [← hfound'.2]
      exact h.unmapped f hf g hg a e hfound
    · rw [if_neg heq] at hfound'
      exact h.unmapped f hf g' hg' a' e' hfound'

/-- What an access keeps: the reserve, and what is mapped. -/
structure Keeping (R : Finset Ppn) (pt : PartId) (top : Nat) (m m' : Mem) : Prop where
  tidy : Tidy R m'
  pgdir : (m'.parts pt).paPgdir = (m.parts pt).paPgdir
  commBase : (m'.parts pt).paCommBase = (m.parts pt).paCommBase
  reserve : Reserve m' pt top
  mapped : ∀ g : Page, g.InRange R → found m g ≠ none → found m' g ≠ none

theorem Keeping.refl (h : Tidy R m) (hres : Reserve m pt top) : Keeping R pt top m m :=
  ⟨h, rfl, rfl, hres, fun _ _ hg => hg⟩

theorem Keeping.trans {m₁ : Mem} (h : Keeping R pt top m m₁) (h' : Keeping R pt top m₁ m') :
    Keeping R pt top m m' :=
  ⟨h'.tidy, h'.pgdir.trans h.pgdir, h'.commBase.trans h.commBase, h'.reserve,
    fun g hg hm => h'.mapped g hg (h.mapped g hg hm)⟩

theorem Keeping.ready (h : Keeping R pt top m m') (hr : r ∈ R) (hready : Ready m r top va) :
    Ready m' r top va := by
  rcases hready with hmapped | hin
  · exact Or.inl (h.mapped _ (inRange_pageOf hr) hmapped)
  · exact Or.inr hin

/-- The reserve depends on the tables, the mappings, the free frames and the budget. -/
theorem Reserve.congr (h : Reserve m pt top) (hr : (m.parts pt).paPgdir ∈ R)
    (hparts : m'.parts pt = m.parts pt) (hfree : m'.freeFrames = m.freeFrames)
    (htables : ∀ p, p.InRange R → tableAt m' p = tableAt m p)
    (hnone : ∀ g : Page, g.InRange R → (found m' g = none ↔ found m g = none)) : Reserve m' pt top := by
  have hlazy : lazyVas m' (m.parts pt).paPgdir top = lazyVas m (m.parts pt).paPgdir top := by
    refine List.filter_congr fun x _ => ?_
    rw [Bool.eq_iff_iff, Option.isNone_iff_eq_none, Option.isNone_iff_eq_none]
    exact hnone _ (inRange_pageOf hr)
  have hneed : ∀ vas, missingOf m' (m.parts pt).paPgdir vas = missingOf m (m.parts pt).paPgdir vas := by
    intro vas
    refine Finset.filter_congr fun p hp => ?_
    obtain ⟨va, -, hp⟩ := Finset.mem_biUnion.mp hp
    rw [htables p (inRange_tablePath hr hp)]
  constructor
  · rw [hparts, hlazy]
    exact h.budget
  · rw [hparts, hlazy, Enough, tablesNeeded, hneed, hfree]
    exact h.frames

/-- Marking an entry keeps the reserve. -/
theorem Tidy.markAccess_keeping (h : Tidy R m) (hr : (m.parts pt).paPgdir ∈ R) (hres : Reserve m pt top)
    (store : Bool) {g : Page} (hg : g.InRange R) (hfound : found m g = some (a, e)) :
    Keeping R pt top m (Jrinx.markAccess a store m) := by
  obtain ⟨htidy, htables, hnone⟩ := h.markAccess store hg hfound
  exact ⟨htidy, rfl, rfl, hres.congr hr rfl rfl htables hnone,
    fun g hg hm hn => hm ((hnone g hg).mp hn)⟩

/-- **A mapped address**: the access may mark its entry. -/
theorem Tidy.touch_mapped (h : Tidy R m) (hr : (m.parts pt).paPgdir ∈ R) (hres : Reserve m pt top)
    {t : Touch} (hfound : found m (pageOf (m.parts pt).paPgdir t.va) = some (a, e)) :
    ∃ m', touch pt t m = .ok () m' ∧ Keeping R pt top m m' := by
  by_cases hfault : accessFaults m (m.parts pt).paPgdir t = true
  · refine ⟨Jrinx.markAccess a t.store m, bind_eq_ok.mpr ⟨m, m, rfl, ?_⟩,
      h.markAccess_keeping hr hres t.store (inRange_pageOf hr) hfound⟩
    rw [if_pos hfault]
    exact doPagefault_of_found hfound
  · refine ⟨m, bind_eq_ok.mpr ⟨m, m, rfl, ?_⟩, .refl h hres⟩
    rw [if_neg hfault]
    rfl

/-- The first of the pages that are still to be given. -/
theorem Reserve.head (hres : Reserve m pt top) (hlo : commBase ≤ va) (hhi : va < top)
    (hnone : found m (pageOf (m.parts pt).paPgdir va) = none) :
    pgSize ≤ (m.parts pt).paMemRem ∧ missingTables m (m.parts pt).paPgdir va < m.freeFrames := by
  have hmem : va / pgSize * pgSize ∈ lazyVas m (m.parts pt).paPgdir top := by
    refine List.mem_filter.mpr ⟨mem_pageSteps_of_lt (by decide) hlo hhi, ?_⟩
    rw [pageOf_div_mul, hnone]
    rfl
  constructor
  · exact (Nat.le_mul_of_pos_right _ (List.length_pos_of_mem hmem)).trans hres.budget
  · have henough := (enough_perm (List.perm_cons_erase hmem)).mp hres.frames
    exact ((enough_congr_head pageOf_div_mul).mp henough).head

/-- A page of the range is given: what is left is a reserve for the others. -/
theorem Tidy.partPtAlloc_keeping (h : Tidy R m) (hr : (m.parts pt).paPgdir ∈ R) (hres : Reserve m pt top)
    (htop : top ≤ commLimt) (hlo : commBase ≤ va) (hhi : va < top)
    (hnone : found m (pageOf (m.parts pt).paPgdir va) = none) {perm : Perm}
    (hok : partPtAlloc pt va perm m = .ok f m') : Keeping R pt top m m' ∧
      ∃ a, found m' (pageOf (m.parts pt).paPgdir va) = some (a, ⟨{ perm with v := true }, f⟩) := by
  obtain ⟨hrem, m₁, m₂, halloc, hmap, rfl⟩ := partPtAlloc_eq_ok.mp hok
  have hpay : ∀ g, found (m.payPage pt) g = found m g := fun g => found_of_ram rfl g
  obtain ⟨htidy, hfree, htables, ⟨a, ha⟩, hothers⟩ :=
    (h.payPage pt).mapFresh hr ((hpay _).trans hnone) halloc hmap
  generalize hm' : (m₂.updPart pt fun p => { p with paGiven := p.paGiven + 1 }) = m'
  have hram : m'.ram = m₂.ram := by rw [← hm']; rfl
  have hfound : ∀ g, found m' g = found m₂ g := fun g => found_of_ram hram g
  have hparts : m'.parts pt = { m.parts pt with
      paMemRem := (m.parts pt).paMemRem - pgSize, paGiven := (m.parts pt).paGiven + 1 } := by
    have hsame := (sameParts_ptMap _ va f perm
      (sameParts_phyFrameAlloc (.refl (m.payPage pt)) halloc) hmap).parts
    rw [← hm']
    simp only [Mem.updPart, Function.update_self, hsame, Mem.payPage, wordSub_of_le hrem]
  have hsome : found m' (pageOf (m.parts pt).paPgdir va) ≠ none := by
    rw [hfound, ha]
    simp
  have hkeep : ∀ g : Page, g.InRange R → g ≠ pageOf (m.parts pt).paPgdir va → found m' g = found m g :=
    fun g hg hne => by rw [hfound, hothers g hg hne, hpay]
  have hperm := lazyVas_perm htop hlo hhi hnone hsome fun x hx => hkeep _ (inRange_pageOf hr) hx
  refine ⟨⟨htidy.congr hram ?_ ?_ ?_, ?_, ?_, ⟨?_, ?_⟩, ?_⟩, a, (hfound _).trans ha⟩
  · rw [← hm']; rfl
  · rw [← hm']; rfl
  · rw [← hm']; rfl
  · rw [hparts]
  · rw [hparts]
  · have hbudget := hres.budget
    rw [hperm.length_eq, List.length_cons, Nat.mul_succ] at hbudget
    rw [hparts]
    exact Nat.le_sub_of_add_le hbudget
  · -- one frame for the page and one for every table on the way to it
    have hfrees : m.freeFrames = m'.freeFrames + 1 + missingTables m (m.parts pt).paPgdir va := by
      rw [← hm']
      exact hfree
    have htables' : ∀ p, p.InRange R →
        (tableAt m' p = none ↔ tableAt m p = none ∧ p ∉ tablePath (m.parts pt).paPgdir va) := by
      intro p hp
      have hpaid : tableAt (m.payPage pt) p = tableAt m p := tableAt_of_ram rfl p
      rw [tableAt_of_ram hram, htables p hp, hpaid]
    rw [hparts]
    refine (enough_cons hr htables' hfrees _).mp ?_
    exact (enough_congr_head pageOf_div_mul).mp ((enough_perm hperm).mp hres.frames)
  · intro g hg hm
    by_cases heq : g = pageOf (m.parts pt).paPgdir va
    · rwa [heq]
    · rwa [hkeep g hg heq]

/-- **An access to a mapped page or to one of the range** is served. -/
theorem Tidy.touch_ready (h : Tidy R m) (hr : (m.parts pt).paPgdir ∈ R) (hres : Reserve m pt top)
    (htop : top ≤ commLimt) {t : Touch} (hready : Ready m (m.parts pt).paPgdir top t.va) :
    ∃ m', touch pt t m = .ok () m' ∧ Keeping R pt top m m' := by
  cases hfound : found m (pageOf (m.parts pt).paPgdir t.va) with
  | some x => exact h.touch_mapped hr hres hfound
  | none =>
      obtain ⟨hlo, hhi⟩ := hready.resolve_left (not_not_intro hfound)
      obtain ⟨f, m₁, hf⟩ := (h.partPtAlloc_succeeds_iff hr hfound commPerm).mpr (hres.head hlo hhi hfound)
      obtain ⟨hkeep, a, ha⟩ := h.partPtAlloc_keeping hr hres htop hlo hhi hfound hf
      have hr₁ : (m₁.parts pt).paPgdir ∈ R := by rwa [hkeep.pgdir]
      refine ⟨Jrinx.markAccess a t.store m₁, ?_, hkeep.trans
        (hkeep.tidy.markAccess_keeping hr₁ hkeep.reserve t.store (inRange_pageOf hr) ha)⟩
      have hfault : accessFaults m (m.parts pt).paPgdir t = true := by
        rw [accessFaults, hfound]
      refine bind_eq_ok.mpr ⟨m, m, rfl, ?_⟩
      rw [if_pos hfault]
      refine (doPagefault_of_unmapped t.store hfound).mpr
        ⟨⟨rfl, hlo, hhi.trans_le htop⟩, f, m₁, a, hf, ?_, rfl⟩
      rw [ha]
      rfl

/-- **A copy** of bytes that are mapped or of the range does not stop the system. -/
theorem Tidy.touches_ready (l : List Touch) (h : Tidy R m) (hr : (m.parts pt).paPgdir ∈ R)
    (hres : Reserve m pt top) (htop : top ≤ commLimt)
    (hready : ∀ t ∈ l, Ready m (m.parts pt).paPgdir top t.va) :
    ∃ m', l.forM (touch pt) m = .ok () m' ∧ Keeping R pt top m m' := by
  induction l generalizing m with
  | nil => exact ⟨m, rfl, .refl h hres⟩
  | cons t l ih =>
      obtain ⟨hhead, htail⟩ := List.forall_mem_cons.mp hready
      obtain ⟨m₁, hok, hkeep⟩ := h.touch_ready hr hres htop hhead
      have hr₁ : (m₁.parts pt).paPgdir ∈ R := by rwa [hkeep.pgdir]
      obtain ⟨m', hok', hkeep'⟩ := ih hkeep.tidy hr₁ hkeep.reserve fun t ht => by
        rw [hkeep.pgdir]
        exact hkeep.ready hr (htail t ht)
      exact ⟨m', bind_eq_ok.mpr ⟨(), m₁, hok, hok'⟩, hkeep.trans hkeep'⟩

/-! ## New processes -/

theorem Enough.sublist {vas vas' : List Nat} (h : Enough m r vas) (hsub : vas'.Sublist vas) :
    Enough m r vas' := by
  have hset : missingOf m r vas' ⊆ missingOf m r vas := by
    refine Finset.filter_subset_filter _ (Finset.biUnion_subset_biUnion_of_subset_left _ ?_)
    intro x hx
    exact List.mem_toFinset.mpr (hsub.subset (List.mem_toFinset.mp hx))
  have hcard := Finset.card_le_card hset
  have hlen := hsub.length_le
  rw [Enough, tablesNeeded] at h
  rw [Enough, tablesNeeded]
  omega

/-- When more is mapped, less is still to be given. -/
theorem lazyVas_sublist (h : ∀ x, found m (pageOf r x) ≠ none → found m' (pageOf r x) ≠ none) :
    (lazyVas m' r top).Sublist (lazyVas m r top) := by
  refine List.monotone_filter_right _ fun x hx => ?_
  rw [Option.isNone_iff_eq_none] at hx ⊢
  exact not_not.mp fun hm => h x hm hx

/-- The stacks of a new process leave the reserve: the budget pays for it as well, and there are frames for
both. -/
structure StacksBeside (m : Mem) (pt : PartId) (stacksize top : Nat) : Prop
    extends StacksClear m pt stacksize where
  budget : alignUp stacksize pgSize + kstkSize + pgSize * (lazyVas m (m.parts pt).paPgdir top).length ≤
    (m.parts pt).paMemRem
  frames : Enough m (m.parts pt).paPgdir
    (procVas m pt stacksize ++ lazyVas m (m.parts pt).paPgdir top)

/-- **A new process** whose stacks leave the reserve. -/
theorem Tidy.procAllocMem_keeping {stacksize : Nat} {stk : Stacks} (h : Tidy R m)
    (hr : (m.parts pt).paPgdir ∈ R) (hbeside : StacksBeside m pt stacksize top)
    (hok : procAllocMem pt stacksize m = .ok stk m') : Keeping R pt top m m' := by
  obtain ⟨htidy, hparts, henough, hothers⟩ := h.procAllocMem_ok hr hbeside.toStacksClear hok
  have hroot : (m'.parts pt).paPgdir = (m.parts pt).paPgdir := by rw [hparts]; rfl
  have hmapped : ∀ g : Page, g.InRange R → found m g ≠ none → found m' g ≠ none := by
    intro g hg hm
    rwa [hothers g hg]
    intro hmem
    obtain ⟨va, hva, rfl⟩ := List.mem_map.mp hmem
    exact hm (hbeside.unmapped va hva)
  have hsub : (lazyVas m' (m.parts pt).paPgdir top).Sublist (lazyVas m (m.parts pt).paPgdir top) :=
    lazyVas_sublist fun x => hmapped _ (inRange_pageOf hr)
  have hbudget := hbeside.budget
  have hlen := Nat.mul_le_mul_left pgSize hsub.length_le
  refine ⟨htidy, hroot, by rw [hparts]; rfl, ⟨?_, ?_⟩, hmapped⟩
  · have hrem : (m'.parts pt).paMemRem =
        wordSub (wordSub (m.parts pt).paMemRem (alignUp stacksize pgSize)) kstkSize := by rw [hparts]; rfl
    rw [hroot, hrem, wordSub_of_le (a := (m.parts pt).paMemRem) (by omega), wordSub_of_le (by omega)]
    omega
  · rw [hroot]
    exact ((henough _).mp hbeside.frames).sublist hsub

end Jrinx
