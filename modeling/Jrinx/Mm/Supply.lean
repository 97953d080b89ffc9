import Jrinx.Mm.MappedFrames
import Jrinx.Mm.Charges

/-! # How many frames an operation takes

A page is mapped exactly if there are enough free frames for it and for the tables that are missing on the
way, and a data page of a partition exactly if the budget pays for it besides.

* **`Mem.freeFrames`**, **`missingTables`** — the supply and the need.
* **`Tidy.ptWalk_succeeds_iff`**, **`Tidy.ptMap_succeeds_iff`** — walks and mappings.
* **`Tidy.partPtAlloc_succeeds_iff`** — data pages. -/

namespace Jrinx

open Op Relation

/-- The number of free frames. -/
def Mem.freeFrames (m : Mem) : Nat := m.pfFreeList.flatten.length

/-- How many tables a walk that creates tables allocates. -/
def missingTables (m : Mem) (r : Ppn) (va : Nat) : Nat :=
  if (tableAt m (.mid r (vpn2 va))).isSome then (if (tableAt m (pageOf r va).slot).isSome then 0 else 1)
  else 2

variable {R : Finset Ppn} {m m' : Mem} {r f : Ppn} {va : Nat}

/-! ## Frames -/

theorem takeFrame_eq_none {ls : List (List Ppn)} : takeFrame ls = none ↔ ls.flatten = [] := by
  induction ls with
  | nil => simp [takeFrame]
  | cons fs ls ih =>
      cases fs with
      | nil => simpa [takeFrame] using ih
      | cons f fs => simp [takeFrame]

theorem exists_takeFrame (h : 0 < m.freeFrames) : ∃ f free, takeFrame m.pfFreeList = some (f, free) ∧
    free.flatten.length + 1 = m.freeFrames := by
  cases ht : takeFrame m.pfFreeList with
  | none =>
      rw [takeFrame_eq_none] at ht
      rw [Mem.freeFrames, ht] at h
      exact absurd h (by simp)
  | some x =>
      refine ⟨x.1, x.2, rfl, ?_⟩
      rw [Mem.freeFrames, (takeFrame_eq_some ht).1, List.length_cons]

theorem freeFrames_of_takeFrame {free : List (List Ppn)} (h : takeFrame m.pfFreeList = some (f, free)) :
    m.freeFrames = free.flatten.length + 1 := by
  rw [Mem.freeFrames, (takeFrame_eq_some h).1, List.length_cons]

/-- A frame is allocated exactly if one is free. -/
theorem phyFrameAlloc_succeeds_iff : phyFrameAlloc.Succeeds m ↔ 0 < m.freeFrames := by
  constructor
  · rintro ⟨f, m', h⟩
    obtain ⟨free, ht, -⟩ := phyFrameAlloc_eq_ok h
    rw [freeFrames_of_takeFrame ht]
    exact Nat.succ_pos _
  · intro h
    obtain ⟨f, free, ht, -⟩ := exists_takeFrame h
    exact ⟨f, _, by rw [phyFrameAlloc, ht]⟩

theorem freeFrames_phyFrameAlloc (h : phyFrameAlloc m = .ok f m') : m.freeFrames = m'.freeFrames + 1 := by
  obtain ⟨free, ht, rfl⟩ := phyFrameAlloc_eq_ok h
  exact freeFrames_of_takeFrame ht

theorem ptFrameAlloc_succeeds_iff : ptFrameAlloc.Succeeds m ↔ 0 < m.freeFrames := by
  rw [← phyFrameAlloc_succeeds_iff, ptFrameAlloc, succeeds_bind]
  constructor
  · rintro ⟨f, m₁, halloc, -⟩
    exact ⟨f, m₁, halloc⟩
  · rintro ⟨f, m₁, halloc⟩
    exact ⟨f, m₁, halloc, succeeds_bind.mpr ⟨(), _, rfl, succeeds_pure _ _⟩⟩

theorem freeFrames_ptFrameAlloc (h : ptFrameAlloc m = .ok f m') : m.freeFrames = m'.freeFrames + 1 := by
  obtain ⟨free, ht, rfl⟩ := ptFrameAlloc_eq_ok h
  exact freeFrames_of_takeFrame ht

@[simp] theorem freeFrames_setPte (m : Mem) (a : PteAddr) (e : Pte) :
    (m.setPte a e).freeFrames = m.freeFrames := rfl

/-! ## Walks -/

/-- The second half of a walk. -/
theorem ptWalkMid_succeeds_iff (mid pa1 : Ppn) : (ptWalkMid mid va true pa1).Succeeds m ↔
    (if (m.pte ⟨mid, vpn1 va⟩).perm.v then 0 else 1) ≤ m.freeFrames := by
  unfold ptWalkMid PtOps.walkMid
  rw [succeeds_get]
  by_cases hv : (m.pte ⟨mid, vpn1 va⟩).perm.v = true
  · simp only [hv, if_true]
    exact iff_of_true (succeeds_pure _ _) (Nat.zero_le _)
  · simp only [hv, if_false, Bool.false_eq_true, if_true]
    rw [Nat.one_le_iff_ne_zero, ← Nat.pos_iff_ne_zero, ← ptFrameAlloc_succeeds_iff, succeeds_bind]
    constructor
    · rintro ⟨f, m', halloc, -⟩
      exact ⟨f, m', catchE_eq_ok_of_fails (ptPhyOps.undo_fails pa1) halloc⟩
    · rintro ⟨f, m', halloc⟩
      exact ⟨f, m', catchE_eq_ok.mpr (Or.inl halloc), succeeds_pure _ _⟩

/-- The need for tables, read from the entries. -/
theorem missingTables_eq (m : Mem) (r : Ppn) (va : Nat) : missingTables m r va =
    if (m.pte ⟨r, vpn2 va⟩).perm.v then
      (if (m.pte ⟨(m.pte ⟨r, vpn2 va⟩).ppn, vpn1 va⟩).perm.v then 0 else 1) else 2 := by
  simp only [missingTables, tableAt, pageOf, Page.slot, Pte.target]
  by_cases htop : (m.pte ⟨r, vpn2 va⟩).perm.v = true
  · by_cases hmid : (m.pte ⟨(m.pte ⟨r, vpn2 va⟩).ppn, vpn1 va⟩).perm.v = true
    · simp [htop, hmid]
    · simp [htop, hmid]
  · simp [htop]

/-- **A walk that creates tables** succeeds exactly if there is a frame for every missing table. -/
theorem ptWalk_succeeds_iff (hroot : ¬ m.Free r) :
    (ptWalk r va true).Succeeds m ↔ missingTables m r va ≤ m.freeFrames := by
  rw [missingTables_eq]
  unfold ptWalk PtOps.walk
  rw [succeeds_get]
  by_cases hv : (m.pte ⟨r, vpn2 va⟩).perm.v = true
  · simp only [hv, if_true]
    exact ptWalkMid_succeeds_iff _ _
  · simp only [hv, if_false, Bool.false_eq_true, if_true]
    rw [succeeds_bind]
    -- the new middle table is empty
    have hmid : ∀ f m', ptFrameAlloc m = .ok f m' →
        ((ptWalkMid f va true f).Succeeds (m'.setPte ⟨r, vpn2 va⟩ (tablePte f)) ↔ 1 ≤ m'.freeFrames) := by
      intro f m' halloc
      obtain ⟨free, ht, hm'⟩ := ptFrameAlloc_eq_ok halloc
      have hne : f ≠ r := fun heq => hroot (heq ▸ free_of_takeFrame ht)
      have hzero : (m'.setPte ⟨r, vpn2 va⟩ (tablePte f)).pte ⟨f, vpn1 va⟩ = Pte.zero := by
        rw [Mem.pte_setPte, if_neg (by simp [hne]), hm']
        simp [Mem.pte]
      rw [ptWalkMid_succeeds_iff, hzero]
      exact Iff.rfl
    constructor
    · rintro ⟨f, m', halloc, hrest⟩
      rw [freeFrames_ptFrameAlloc halloc]
      exact Nat.succ_le_succ ((hmid f m' halloc).mp (succeeds_modify.mp hrest))
    · intro hfree
      obtain ⟨f, m', halloc⟩ := ptFrameAlloc_succeeds_iff.mpr (lt_of_lt_of_le Nat.two_pos hfree)
      refine ⟨f, m', halloc, succeeds_modify.mpr ((hmid f m' halloc).mpr ?_)⟩
      rw [freeFrames_ptFrameAlloc halloc] at hfree
      exact Nat.le_of_succ_le_succ hfree

/-- The roots of the trees are not free. -/
theorem Tidy.not_free_root (h : Tidy R m) (hr : r ∈ R) : ¬ m.Free r :=
  fun hfree => h.noTable r hfree (.root r) hr rfl

theorem Tidy.ptWalk_succeeds_iff (h : Tidy R m) (hr : r ∈ R) :
    (ptWalk r va true).Succeeds m ↔ missingTables m r va ≤ m.freeFrames :=
  Jrinx.ptWalk_succeeds_iff (h.not_free_root hr)

/-- A walk that creates tables comes to an entry. -/
theorem ptWalkMid_true_isSome {mid pa1 : Ppn} {a : Option PteAddr}
    (h : ptWalkMid mid va true pa1 m = .ok a m') : a.isSome = true := by
  unfold ptWalkMid PtOps.walkMid at h
  obtain ⟨_, _, hg, h⟩ := bind_eq_ok.mp h
  obtain ⟨rfl, rfl⟩ := get_eq_ok.mp hg
  split at h
  · obtain ⟨rfl, -⟩ := pure_eq_ok.mp h
    rfl
  · rw [if_pos rfl] at h
    obtain ⟨f, m₁, -, h⟩ := bind_eq_ok.mp h
    obtain ⟨_, m₂, -, h⟩ := bind_eq_ok.mp h
    obtain ⟨rfl, -⟩ := pure_eq_ok.mp h
    rfl

theorem ptWalk_true_isSome {a : Option PteAddr} (h : ptWalk r va true m = .ok a m') : a.isSome = true := by
  unfold ptWalk PtOps.walk at h
  obtain ⟨_, _, hg, h⟩ := bind_eq_ok.mp h
  obtain ⟨rfl, rfl⟩ := get_eq_ok.mp hg
  split at h
  · exact ptWalkMid_true_isSome h
  · rw [if_pos rfl] at h
    obtain ⟨f, m₁, -, h⟩ := bind_eq_ok.mp h
    obtain ⟨_, m₂, -, h⟩ := bind_eq_ok.mp h
    exact ptWalkMid_true_isSome h

/-! ## Mappings -/

theorem ptFrameRefInc_succeeds (f : Ppn) (m : Mem) : (ptFrameRefInc f).Succeeds m := by
  unfold ptFrameRefInc
  rw [succeeds_get]
  cases pa2frame m.mems f with
  | none => exact succeeds_pure _ _
  | some pf => exact succeeds_panicE.mpr ⟨(), _, rfl⟩

/-- An unmapped page has no old mapping to remove. -/
theorem ptMap_of_unmapped (h : found m (pageOf r va) = none) (ppn : Ppn) (perm : Perm) :
    ptMap r va ppn perm m = ptMapFresh r va ppn perm m := by
  have hwalk := PtOps.walk_false ptPhyOps r va m
  cases ht : tableAt m (pageOf r va).slot with
  | none =>
      rw [ht, Option.map_none] at hwalk
      simp only [ptMap, PtOps.map, bind, Op.bind, hwalk, Op.get]
      rfl
  | some t =>
      rw [ht, Option.map_some] at hwalk
      have hv : (m.pte ⟨t, vpn0 va⟩).perm.v = false := by
        rw [found_of_some ht] at h
        by_contra hv
        exact absurd h (by simp [pageOf, hv])
      simp only [ptMap, PtOps.map, bind, Op.bind, hwalk, Op.get, hv]
      rfl

/-- The entry is written after the walk, and nothing can fail any more. -/
theorem ptMapFresh_succeeds_iff (ppn : Ppn) (perm : Perm) :
    (ptMapFresh r va ppn perm).Succeeds m ↔ (ptWalk r va true).Succeeds m := by
  constructor
  · rintro ⟨u, m', hmap⟩
    obtain ⟨a, m₁, hwalk, -⟩ := bind_eq_ok.mp hmap
    exact ⟨a, m₁, hwalk⟩
  · rintro ⟨a, m₁, hwalk⟩
    obtain ⟨place, rfl⟩ := Option.isSome_iff_exists.mp (ptWalk_true_isSome hwalk)
    refine succeeds_bind.mpr ⟨_, m₁, hwalk, succeeds_modify.mpr ?_⟩
    exact succeeds_panicE.mpr (ptFrameRefInc_succeeds ppn _)

/-- **An unmapped page** is mapped exactly if there is a frame for every missing table. -/
theorem ptMap_succeeds_iff (hroot : ¬ m.Free r) (hnone : found m (pageOf r va) = none) (ppn : Ppn)
    (perm : Perm) : (ptMap r va ppn perm).Succeeds m ↔ missingTables m r va ≤ m.freeFrames := by
  rw [← ptWalk_succeeds_iff hroot, ← ptMapFresh_succeeds_iff ppn perm, Op.Succeeds,
    ptMap_of_unmapped hnone]
  exact Iff.rfl

theorem Tidy.ptMap_succeeds_iff (h : Tidy R m) (hr : r ∈ R) (hnone : found m (pageOf r va) = none)
    (ppn : Ppn) (perm : Perm) :
    (ptMap r va ppn perm).Succeeds m ↔ missingTables m r va ≤ m.freeFrames :=
  Jrinx.ptMap_succeeds_iff (h.not_free_root hr) hnone ppn perm

/-! ## Data pages -/

variable {pt : PartId}

/-- A frame for a data page is on no page of the trees, and the trees look the same. -/
theorem Tidy.dataFrame (h : Tidy R m) (halloc : phyFrameAlloc m = .ok f m') :
    Tidy R m' ∧ (∀ g : Page, g.InRange R → found m' g = found m g) ∧
      (∀ p, p.InRange R → tableAt m' p = tableAt m p) ∧ Fresh R m f := by
  obtain ⟨free, ht, hm'⟩ := phyFrameAlloc_eq_ok halloc
  obtain ⟨htidy, -, htables, hfound⟩ := h.take ht (fun _ _ => rfl) hm'
  exact ⟨htidy, hfound, htables, h.noTable f (free_of_takeFrame ht)⟩

theorem missingTables_congr (hr : r ∈ R) (htables : ∀ p, p.InRange R → tableAt m' p = tableAt m p) :
    missingTables m' r va = missingTables m r va := by
  have hmid : (TableSlot.mid r (vpn2 va)).InRange R := ⟨hr, vpn2_lt va⟩
  rw [missingTables, missingTables, htables _ hmid, htables _ (inRange_pageOf hr).slot]

theorem Tidy.congr (h : Tidy R m) (hram : m'.ram = m.ram) (hlist : m'.pfFreeList = m.pfFreeList)
    (hmems : m'.mems = m.mems) (href : m'.pfRef = m.pfRef) : Tidy R m' := by
  have hfree : ∀ f, m'.Free f ↔ m.Free f := fun f => by rw [Mem.Free, Mem.Free, hlist]
  refine ⟨h.forest.of_ram hram, ?_, ?_, ?_, ?_, ?_, ?_⟩
  · rw [hlist, hmems]
    exact h.lists
  · rw [hlist]
    exact h.nodup
  · intro f hf
    rw [hmems]
    exact h.isFrame f ((hfree f).mp hf)
  · intro f hf
    rw [href]
    exact h.unreferenced f ((hfree f).mp hf)
  · intro f hf p hp
    rw [tableAt_of_ram hram]
    exact h.noTable f ((hfree f).mp hf) p hp
  · intro f hf g hg a e hfound
    rw [found_of_ram hram] at hfound
    exact h.unmapped f ((hfree f).mp hf) g hg a e hfound

/-- The memory after the budget paid for a page. -/
def Mem.payPage (m : Mem) (pt : PartId) : Mem :=
  m.updPart pt fun p => { p with paMemRem := wordSub p.paMemRem pgSize }

theorem Tidy.payPage (h : Tidy R m) (pt : PartId) : Tidy R (m.payPage pt) := h.congr rfl rfl rfl rfl

/-- `part_pt_alloc` in its parts: the budget, the frame, the mapping. -/
theorem partPtAlloc_eq_ok {perm : Perm} : partPtAlloc pt va perm m = .ok f m' ↔
    pgSize ≤ (m.parts pt).paMemRem ∧ ∃ m₁ m₂, phyFrameAlloc (m.payPage pt) = .ok f m₁ ∧
      ptMap (m.parts pt).paPgdir va f perm m₁ = .ok () m₂ ∧
      m' = m₂.updPart pt fun p => { p with paGiven := p.paGiven + 1 } := by
  unfold partPtAlloc
  constructor
  · intro h
    obtain ⟨_, _, hg, h⟩ := bind_eq_ok.mp h
    obtain ⟨rfl, rfl⟩ := get_eq_ok.mp hg
    split at h
    · exact (fail_eq_ok.mp h).elim
    rename_i hrem
    obtain ⟨_, m₁, hm₁, h⟩ := bind_eq_ok.mp h
    obtain ⟨f', m₂, hm₂, h⟩ := bind_eq_ok.mp h
    obtain ⟨_, m₃, hm₃, h⟩ := bind_eq_ok.mp h
    obtain ⟨_, m₄, hm₄, h⟩ := bind_eq_ok.mp h
    obtain ⟨rfl, rfl⟩ := pure_eq_ok.mp h
    rw [modify_eq_ok] at hm₁ hm₄
    subst hm₁
    exact ⟨not_lt.mp hrem, m₂, m₃, catchE_eq_ok_of_fails (partPtAlloc_undo_fails pt) hm₂,
      catchE_eq_ok_of_fails (partPtAlloc_unmap_fails pt f') hm₃, hm₄.symm⟩
  · rintro ⟨hrem, m₁, m₂, halloc, hmap, rfl⟩
    refine bind_eq_ok.mpr ⟨m, m, rfl, ?_⟩
    rw [if_neg (not_lt.mpr hrem)]
    refine bind_eq_ok.mpr ⟨(), m.payPage pt, rfl, ?_⟩
    refine bind_eq_ok.mpr ⟨f, m₁, catchE_eq_ok.mpr (Or.inl halloc), ?_⟩
    exact bind_eq_ok.mpr ⟨(), m₂, catchE_eq_ok.mpr (Or.inl hmap),
      bind_eq_ok.mpr ⟨(), _, rfl, pure_eq_ok.mpr ⟨rfl, rfl⟩⟩⟩

/-- The frame of a data page leaves the trees as they were, and is one fewer for the tables. -/
theorem Tidy.pageFrame (h : Tidy R m) (hr : r ∈ R) {m₁ : Mem}
    (halloc : phyFrameAlloc (m.payPage pt) = .ok f m₁) : Tidy R m₁ ∧
      (∀ g : Page, g.InRange R → found m₁ g = found m g) ∧
      (∀ va, missingTables m₁ r va = missingTables m r va) ∧ m.freeFrames = m₁.freeFrames + 1 := by
  obtain ⟨htidy, hfound, htables, -⟩ := (h.payPage pt).dataFrame halloc
  have hcount : (m.payPage pt).freeFrames = m₁.freeFrames + 1 := freeFrames_phyFrameAlloc halloc
  refine ⟨htidy, fun g hg => (hfound g hg).trans (found_of_ram rfl g), fun va => ?_, hcount⟩
  exact missingTables_congr hr fun p hp => (htables p hp).trans (tableAt_of_ram rfl p)

/-- **A data page** for an unmapped address is given exactly if the budget pays for a page, and there are
frames for it and for the missing tables. -/
theorem Tidy.partPtAlloc_succeeds_iff (h : Tidy R m) (hr : (m.parts pt).paPgdir ∈ R)
    (hnone : found m (pageOf (m.parts pt).paPgdir va) = none) (perm : Perm) :
    (partPtAlloc pt va perm).Succeeds m ↔ pgSize ≤ (m.parts pt).paMemRem ∧
      missingTables m (m.parts pt).paPgdir va < m.freeFrames := by
  -- whichever frame is taken, the mapping has the others
  have hmap : ∀ f m₁, phyFrameAlloc (m.payPage pt) = .ok f m₁ →
      ((ptMap (m.parts pt).paPgdir va f perm).Succeeds m₁ ↔
        missingTables m (m.parts pt).paPgdir va < m.freeFrames) := by
    intro f m₁ halloc
    obtain ⟨htidy, hfound, hneed, hcount⟩ := h.pageFrame hr halloc
    have hnone₁ := (hfound _ (inRange_pageOf hr)).trans hnone
    rw [htidy.ptMap_succeeds_iff hr hnone₁, hneed, hcount, Nat.lt_succ_iff]
  constructor
  · rintro ⟨f, m', halloc⟩
    obtain ⟨hrem, m₁, m₂, hframe, hok, -⟩ := partPtAlloc_eq_ok.mp halloc
    exact ⟨hrem, (hmap f m₁ hframe).mp ⟨(), m₂, hok⟩⟩
  · rintro ⟨hrem, hfree⟩
    have hpos : 0 < (m.payPage pt).freeFrames := lt_of_le_of_lt (Nat.zero_le _) hfree
    obtain ⟨f, m₁, hframe⟩ := phyFrameAlloc_succeeds_iff.mpr hpos
    obtain ⟨⟨⟩, m₂, hok⟩ := (hmap f m₁ hframe).mpr hfree
    exact ⟨f, _, partPtAlloc_eq_ok.mpr ⟨hrem, m₁, m₂, hframe, hok, rfl⟩⟩

/-- A data page that was given is mapped. -/
theorem Tidy.partPtAlloc_found (h : Tidy R m) (hr : (m.parts pt).paPgdir ∈ R) {perm : Perm}
    (halloc : partPtAlloc pt va perm m = .ok f m') :
    Forest R m' ∧ (m'.parts pt).paPgdir = (m.parts pt).paPgdir ∧
      ∃ a, found m' (pageOf (m.parts pt).paPgdir va) = some (a, ⟨{ perm with v := true }, f⟩) := by
  obtain ⟨-, m₁, m₂, hframe, hmap, rfl⟩ := partPtAlloc_eq_ok.mp halloc
  obtain ⟨htidy, -⟩ := h.pageFrame hr hframe
  obtain ⟨hforest, ⟨a, ha⟩, -⟩ :=
    PtOps.map_found sound_ptPhyOps htidy.forest hr (htidy.freshWalk hr) hmap
  refine ⟨hforest.of_ram rfl, ?_, a, (found_of_ram rfl _).trans ha⟩
  have hsame := sameParts_ptMap _ va f perm (sameParts_phyFrameAlloc (.refl (m.payPage pt)) hframe) hmap
  have hparts := congrArg (fun parts => (parts pt).paPgdir) hsame.parts
  simpa [Mem.payPage, Mem.updPart] using hparts

end Jrinx
