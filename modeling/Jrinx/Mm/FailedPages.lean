import Jrinx.Mm.Supply

/-! # Page allocations that fail

`part_pt_alloc` takes a page off the budget and a frame off the free list before it maps the page, and
undoes both when it fails. It drops the frame through its reference count, which `pt_map` has not raised
yet.

* **`ClearWay`** — free frames apart from the tables on the way to one address.
* **`UndoneOnFailure`** — what a failed allocation should leave behind.
* **`ClearWay.partPtAlloc_of_frame`** — what becomes of a call that gets a frame.
* **`failed_page_undone_iff`** — the calls that are undone when they fail. -/

namespace Jrinx

open Op

variable {m m' : Mem} {r f : Ppn} {va : Nat} {pt : PartId}

/-! ## The way to a page -/

/-- The places of the tables on the way to an address. -/
def onWay (r : Ppn) (va : Nat) : List TableSlot := [.root r, .mid r (vpn2 va), (pageOf r va).slot]

/-- Free frames are listed once, nothing refers to them, and none of them is a table on the way to `va`;
these tables are different frames. -/
structure ClearWay (m : Mem) (r : Ppn) (va : Nat) : Prop where
  nodup : m.pfFreeList.flatten.Nodup
  unreferenced : ∀ f, m.Free f → m.pfRef f = 0
  noTable : ∀ p ∈ onWay r va, ∀ t, tableAt m p = some t → ¬ m.Free t
  levels : ∀ p ∈ onWay r va, ∀ q ∈ onWay r va, ∀ t, tableAt m p = some t → tableAt m q = some t → p = q

/-- Trees that have no frame in common with the free lists leave every way clear. -/
theorem Tidy.clearWay {R : Finset Ppn} (h : Tidy R m) (hr : r ∈ R) (va : Nat) : ClearWay m r va := by
  have hrange : ∀ p ∈ onWay r va, p.InRange R := by
    intro p hp
    simp only [onWay, List.mem_cons, List.not_mem_nil, or_false] at hp
    rcases hp with rfl | rfl | rfl
    · exact hr
    · exact ⟨hr, vpn2_lt va⟩
    · exact (inRange_pageOf hr).slot
  refine ⟨h.nodup, h.unreferenced, ?_, ?_⟩
  · exact fun p hp t ht hfree => h.noTable t hfree p (hrange p hp) ht
  · exact fun p hp q hq t hpt hqt => h.forest.inj p q t (hrange p hp) (hrange q hq) hpt hqt

theorem ClearWay.not_free_root (h : ClearWay m r va) : ¬ m.Free r :=
  h.noTable (.root r) (by simp [onWay]) r rfl

/-- The tables on the way depend on one entry of the root and one of the middle table. -/
theorem onWay_congr (hroot : m'.pte ⟨r, vpn2 va⟩ = m.pte ⟨r, vpn2 va⟩)
    (hmid : ∀ t, tableAt m (.mid r (vpn2 va)) = some t → m'.pte ⟨t, vpn1 va⟩ = m.pte ⟨t, vpn1 va⟩) :
    ∀ p ∈ onWay r va, tableAt m' p = tableAt m p := by
  have hmidTable : tableAt m' (.mid r (vpn2 va)) = tableAt m (.mid r (vpn2 va)) := by
    rw [tableAt, tableAt, hroot]
  intro p hp
  simp only [onWay, List.mem_cons, List.not_mem_nil, or_false] at hp
  rcases hp with rfl | rfl | rfl
  · rfl
  · exact hmidTable
  · show (tableAt m' (.mid r (vpn2 va))).bind _ = (tableAt m (.mid r (vpn2 va))).bind _
    rw [hmidTable]
    cases ht : tableAt m (.mid r (vpn2 va)) with
    | none => rfl
    | some t =>
        rw [Option.bind_some, Option.bind_some]
        exact congrArg Pte.target (hmid t ht)

/-- The frame of a page is taken: the way is clear as before, to the same entry, and nothing refers to
the frame. -/
theorem ClearWay.pageFrame (h : ClearWay m r va) {m₁ : Mem}
    (halloc : phyFrameAlloc (m.payPage pt) = .ok f m₁) :
    ClearWay m₁ r va ∧ found m₁ (pageOf r va) = found m (pageOf r va) ∧
      missingTables m₁ r va = missingTables m r va ∧ m.freeFrames = m₁.freeFrames + 1 ∧
      m₁.pfRef f = 0 ∧ ¬ m₁.Free f ∧ m₁.mems = m.mems ∧ m₁.pfRef = m.pfRef := by
  obtain ⟨free, ht, hm₁⟩ := phyFrameAlloc_eq_ok halloc
  have htake : takeFrame m.pfFreeList = some (f, free) := ht
  have hflat := (takeFrame_eq_some htake).1
  have hfree : m.Free f := free_of_takeFrame htake
  have hrest : ∀ f', m₁.Free f' → m.Free f' := by
    intro f' hf'
    rw [Mem.Free, hflat]
    rw [hm₁] at hf'
    exact List.mem_cons_of_mem f hf'
  have hnodup : (f :: free.flatten).Nodup := hflat ▸ h.nodup
  -- the tables on the way are other frames
  have hpte : ∀ p ∈ onWay r va, ∀ t k, tableAt m p = some t → m₁.pte ⟨t, k⟩ = m.pte ⟨t, k⟩ := by
    intro p hp t k hpt
    have hne : t ≠ f := fun heq => h.noTable p hp t hpt (heq ▸ hfree)
    rw [hm₁]
    exact congrFun (Function.update_of_ne hne _ _) k
  have htables : ∀ p ∈ onWay r va, tableAt m₁ p = tableAt m p :=
    onWay_congr (hpte (.root r) (by simp [onWay]) r _ rfl)
      fun t hmid => hpte (.mid r (vpn2 va)) (by simp [onWay]) t _ hmid
  have hslot : (pageOf r va).slot ∈ onWay r va := by simp [onWay]
  have hmidSlot : TableSlot.mid r (vpn2 va) ∈ onWay r va := by simp [onWay]
  have hcount : (m.payPage pt).freeFrames = m₁.freeFrames + 1 := freeFrames_phyFrameAlloc halloc
  refine ⟨⟨?_, ?_, ?_, ?_⟩, ?_, ?_, hcount, ?_, ?_, ?_, ?_⟩
  · rw [hm₁]
    exact hnodup.of_cons
  · intro f' hf'
    rw [hm₁]
    exact h.unreferenced f' (hrest f' hf')
  · intro p hp t hpt hf'
    exact h.noTable p hp t ((htables p hp).symm.trans hpt) (hrest t hf')
  · intro p hp q hq t hpt hqt
    exact h.levels p hp q hq t ((htables p hp).symm.trans hpt) ((htables q hq).symm.trans hqt)
  · exact found_congr (htables _ hslot) fun t hleaf => hpte _ hslot t _ hleaf
  · rw [missingTables, missingTables, htables _ hmidSlot, htables _ hslot]
  · rw [hm₁]
    exact h.unreferenced f hfree
  · rw [hm₁]
    exact (List.nodup_cons.mp hnodup).1
  · rw [hm₁]
    rfl
  · rw [hm₁]
    rfl

/-! ## Old mappings -/

/-- The reference of an old mapping can be given back: the frame is one of a device, or it has a
reference, and the last one takes it back to the frames of its memory range. -/
def Mem.Droppable (m : Mem) (f : Ppn) : Prop :=
  ∀ pf, pa2frame m.mems f = some pf → m.pfRef pf ≠ 0 ∧ (m.pfRef pf = 1 → (frame2sel m.mems pf).isSome)

theorem phyFrameRefDec_succeeds_iff (f : Ppn) : (phyFrameRefDec f).Succeeds m ↔
    m.pfRef f ≠ 0 ∧ (m.pfRef f = 1 → (frame2sel m.mems f).isSome) := by
  unfold phyFrameRefDec
  rw [succeeds_get]
  by_cases hzero : m.pfRef f = 0
  · rw [if_pos hzero]
    exact iff_of_false (not_succeeds_fail m) fun h => h.1 hzero
  rw [if_neg hzero, succeeds_modify]
  by_cases hone : m.pfRef f = 1
  · rw [if_pos hone]
    cases hsel : frame2sel m.mems f with
    | none => simp [Op.Succeeds, phyFrameFree, hsel, hone]
    | some sel => simp [Op.Succeeds, phyFrameFree, hsel, hone]
  · rw [if_neg hone]
    exact iff_of_true (succeeds_pure _ _) ⟨hzero, fun h => absurd h hone⟩

theorem ptFrameRefDec_succeeds_iff (f : Ppn) : (ptFrameRefDec f).Succeeds m ↔ m.Droppable f := by
  unfold ptFrameRefDec
  rw [succeeds_get]
  cases hpf : pa2frame m.mems f with
  | none => exact iff_of_true (succeeds_pure _ _) fun pf h => absurd (hpf.symm.trans h) (by simp)
  | some pf =>
      show (panicE (phyFrameRefDec pf)).Succeeds m ↔ _
      rw [succeeds_panicE, phyFrameRefDec_succeeds_iff]
      exact ⟨fun h pf' h' => by rw [← Option.some.inj (hpf.symm.trans h')]; exact h, fun h => h pf hpf⟩

/-- A mapped page is unmapped first. -/
theorem ptMap_of_mapped {a : PteAddr} {e : Pte} (h : found m (pageOf r va) = some (a, e)) (ppn : Ppn)
    (perm : Perm) : ptMap r va ppn perm m =
      (do
        ptFrameRefDec e.ppn
        Op.modify fun m => m.setPte a Pte.zero
        ptMapFresh r va ppn perm : Op Mem Unit) m := by
  obtain ⟨ht, ha, he, hv⟩ := found_eq_some h
  have hplace : (⟨a.table, vpn0 va⟩ : PteAddr) = a := ha.symm
  have hwalk := PtOps.walk_false ptPhyOps r va m
  have hlookup := PtOps.lookup_eq ptPhyOps r va m
  rw [ht, Option.map_some, hplace] at hwalk
  rw [h, Option.map_some] at hlookup
  have hvalid : (m.pte a).perm.v = true := by rw [← he, hv]
  simp only [ptMap, PtOps.map, PtOps.unmap, bind, Op.bind, hwalk, hlookup, Op.get, hvalid, if_true]
  rw [← he, show ptPhyOps.frameRefDec = ptFrameRefDec from rfl]
  cases ptFrameRefDec e.ppn m with
  | ok u m₁ => rfl
  | err m₁ => rfl
  | fatal => rfl

/-- Unmapping a page leaves the tables on the way to it. -/
theorem ClearWay.unmapped_slot (h : ClearWay m r va) {a : PteAddr} {e : Pte}
    (hfound : found m (pageOf r va) = some (a, e)) {m₁ : Mem} (hram : m₁.ram = m.ram) :
    tableAt (m₁.setPte a Pte.zero) (pageOf r va).slot = some a.table := by
  obtain ⟨ht, -⟩ := found_eq_some hfound
  have hslot : (pageOf r va).slot ∈ onWay r va := by simp [onWay]
  -- the entry that is cleared lies in the bottom table
  have hpte : ∀ p ∈ onWay r va, p ≠ (pageOf r va).slot → ∀ t k, tableAt m p = some t →
      (m₁.setPte a Pte.zero).pte ⟨t, k⟩ = m.pte ⟨t, k⟩ := by
    intro p hp hne t k hpt
    have hother : (⟨t, k⟩ : PteAddr) ≠ a := by
      rintro rfl
      exact hne (h.levels p hp _ hslot t hpt ht)
    rw [Mem.pte_setPte, if_neg hother, Mem.pte_of_ram hram]
  refine (onWay_congr ?_ (fun t hmid => ?_) _ hslot).trans ht
  · exact hpte (.root r) (by simp [onWay]) (by simp [Page.slot]) r _ rfl
  · exact hpte (.mid r (vpn2 va)) (by simp [onWay]) (by simp [Page.slot]) t _ hmid

/-- A mapped page is mapped anew exactly if the reference of the old mapping can be given back: the
tables are there already. -/
theorem ClearWay.remap_succeeds_iff (h : ClearWay m r va) {a : PteAddr} {e : Pte}
    (hfound : found m (pageOf r va) = some (a, e)) (ppn : Ppn) (perm : Perm) :
    (ptMap r va ppn perm).Succeeds m ↔ m.Droppable e.ppn := by
  rw [Op.Succeeds, ptMap_of_mapped hfound, ← ptFrameRefDec_succeeds_iff]
  constructor
  · rintro ⟨u, m', hmap⟩
    obtain ⟨_, m₁, hdec, -⟩ := bind_eq_ok.mp hmap
    exact ⟨_, m₁, hdec⟩
  · rintro ⟨u, m₁, hdec⟩
    refine succeeds_bind.mpr ⟨u, m₁, hdec, succeeds_modify.mpr ?_⟩
    have hslot := h.unmapped_slot hfound (sound_ptPhyOps.refDec _ _ _ _ hdec)
    rw [ptMapFresh_succeeds_iff]
    exact ⟨_, _, PtOps.walk_of_table hslot true⟩

/-! ## The failure of a mapping -/

theorem ptMapFresh_eq_err {ppn : Ppn} {perm : Perm} (h : ptMapFresh r va ppn perm m = .err m') :
    ptWalk r va true m = .err m' := by
  unfold ptMapFresh at h
  rcases bind_eq_err.mp h with hw | ⟨pte, m₁, -, h⟩
  · exact hw
  cases pte with
  | none => exact absurd h (by simp [Op.halt])
  | some a =>
      rcases bind_eq_err.mp h with hs | ⟨_, _, -, h⟩
      · exact absurd hs (by simp [Op.modify])
      · exact absurd h panicE_ne_err

/-- `pt_map` fails in the walk that creates the tables. -/
theorem ClearWay.ptMap_eq_err (h : ClearWay m r va) {ppn : Ppn} {perm : Perm}
    (herr : ptMap r va ppn perm m = .err m') : ptWalk r va true m = .err m' := by
  cases hfound : found m (pageOf r va) with
  | none =>
      rw [ptMap_of_unmapped hfound] at herr
      exact ptMapFresh_eq_err herr
  | some x =>
      obtain ⟨a, e⟩ := x
      rw [ptMap_of_mapped hfound] at herr
      rcases bind_eq_err.mp herr with hdec | ⟨u, m₁, hdec, herr⟩
      · exact absurd hdec ptFrameRefDec_ne_err
      rcases bind_eq_err.mp herr with hset | ⟨_, _, hset, herr⟩
      · exact absurd hset (by simp [Op.modify])
      rw [modify_eq_ok] at hset
      subst hset
      -- the tables of the page are there, so the walk cannot have failed
      have hslot := h.unmapped_slot hfound (sound_ptPhyOps.refDec _ _ _ _ hdec)
      have hwalk := ptMapFresh_eq_err herr
      rw [ptWalk, PtOps.walk_of_table hslot] at hwalk
      exact absurd hwalk (by simp)

theorem ptFrameRefDec_pfRef {u : Unit} {g : Ppn} (hne : g ≠ f) (h : ptFrameRefDec f m = .ok u m') :
    m'.pfRef g = m.pfRef g := by
  unfold ptFrameRefDec at h
  obtain ⟨_, _, hg, h⟩ := bind_eq_ok.mp h
  obtain ⟨rfl, rfl⟩ := get_eq_ok.mp hg
  cases hpf : pa2frame m.mems f with
  | none =>
      rw [hpf] at h
      obtain ⟨-, rfl⟩ := pure_eq_ok.mp h
      rfl
  | some pf =>
      rw [hpf] at h
      obtain ⟨-, free, rfl, -⟩ := phyFrameRefDec_eq_ok (panicE_eq_ok.mp h)
      have hpf' : pf = f := by
        unfold pa2frame at hpf
        split at hpf
        · exact (Option.some.inj hpf).symm
        · exact absurd hpf (by simp)
      exact Function.update_of_ne (hpf' ▸ hne) _ _

/-- A walk that fails leaves the count of every frame that was not free. -/
theorem ptWalk_err_pfRef (hnot : ¬ m.Free f) (herr : ptWalk r va true m = .err m') :
    m'.pfRef f = m.pfRef f := by
  rcases ptWalk_eq_err herr with ⟨rfl, -⟩ | ⟨t, m₁, -, halloc, -, hundo⟩
  · rfl
  · obtain ⟨free, ht, hm₁⟩ := ptFrameAlloc_eq_ok halloc
    have hne : f ≠ t := fun heq => hnot (heq ▸ free_of_takeFrame ht)
    have hsame : m₁.pfRef f = m.pfRef f := by
      rw [hm₁]
      exact Function.update_of_ne hne _ _
    split at hundo
    · rw [hundo]
      exact hsame
    · exact (ptFrameRefDec_pfRef hne hundo).trans hsame

/-! ## The failure of an allocation -/

/-- What is left of a page that could not be given: the budget of before, no new mapping, and the frame
taken for the page once on its free list. -/
structure Undone (pt : PartId) (m m' : Mem) : Prop where
  paMemRem : (m'.parts pt).paMemRem = (m.parts pt).paMemRem
  leaves : ∀ g a e, found m' g = some (a, e) → found m g = some (a, e)
  frame : ∀ f m₁, phyFrameAlloc (m.payPage pt) = .ok f m₁ → m'.pfFreeList.flatten.count f = 1

/-- **A page allocation that fails is undone**: it returns, and what it returned with an error is as if
it had not been called. -/
def UndoneOnFailure (pt : PartId) (va : Nat) (perm : Perm) (m : Mem) : Prop :=
  (partPtAlloc pt va perm).Succeeds m ∨ ∃ m', partPtAlloc pt va perm m = .err m' ∧ Undone pt m m'

/-- What is needed besides the budget and the frame of the page: frames for the missing tables, and an
old mapping whose reference can be given back. -/
structure Mappable (m : Mem) (r : Ppn) (va : Nat) : Prop where
  tables : missingTables m r va < m.freeFrames
  old : ∀ a e, found m (pageOf r va) = some (a, e) → m.Droppable e.ppn

theorem ClearWay.undone_self (h : ClearWay m r va) : Undone pt m m where
  paMemRem := rfl
  leaves _ _ _ hfound := hfound
  frame f m₁ halloc := by
    obtain ⟨free, ht, -⟩ := phyFrameAlloc_eq_ok halloc
    have htake : takeFrame m.pfFreeList = some (f, free) := ht
    exact List.count_eq_one_of_mem h.nodup (free_of_takeFrame htake)

theorem partPtAlloc_of_budget (hbudget : (m.parts pt).paMemRem < pgSize) (va : Nat) (perm : Perm) :
    partPtAlloc pt va perm m = .err m := by
  unfold partPtAlloc
  show (if (m.parts pt).paMemRem < pgSize then Op.fail else _ : Op Mem Ppn) m = _
  rw [if_pos hbudget]
  rfl

/-- The refund after a failed `phy_frame_alloc` restores the budget. -/
theorem payPage_refund (hbudget : ¬ (m.parts pt).paMemRem < pgSize)
    (hrem : (m.parts pt).paMemRem < wordSize) :
    ((m.payPage pt).updPart pt fun p => { p with paMemRem := (p.paMemRem + pgSize) % wordSize }) = m := by
  have hle : pgSize ≤ (m.parts pt).paMemRem := not_lt.mp hbudget
  have hback : (wordSub (m.parts pt).paMemRem pgSize + pgSize) % wordSize = (m.parts pt).paMemRem := by
    rw [wordSub_of_le hle, Nat.sub_add_cancel hle, Nat.mod_eq_of_lt hrem]
  have hparts : Function.update (m.payPage pt).parts pt
      { m.parts pt with paMemRem := (wordSub (m.parts pt).paMemRem pgSize + pgSize) % wordSize } =
        m.parts := by
    rw [hback]
    funext q
    by_cases hq : q = pt
    · rw [hq, Function.update_self]
    · rw [Function.update_of_ne hq]
      exact Function.update_of_ne hq _ _
  show { m with
    parts := Function.update (m.payPage pt).parts pt
      { (m.payPage pt).parts pt with
        paMemRem := (((m.payPage pt).parts pt).paMemRem + pgSize) % wordSize } } = m
  have hpay : (m.payPage pt).parts pt =
      { m.parts pt with paMemRem := wordSub (m.parts pt).paMemRem pgSize } := Function.update_self _ _ _
  rw [hpay, hparts]

/-- Without a free frame the budget is given back. -/
theorem partPtAlloc_of_noFrame (hbudget : ¬ (m.parts pt).paMemRem < pgSize) (hfull : m.freeFrames = 0) (va : Nat)
    (perm : Perm) :
    partPtAlloc pt va perm m =
      .err ((m.payPage pt).updPart pt fun p => { p with paMemRem := (p.paMemRem + pgSize) % wordSize }) := by
  have hnone : takeFrame m.pfFreeList = none :=
    takeFrame_eq_none.mpr (List.length_eq_zero_iff.mp hfull)
  have halloc : phyFrameAlloc (m.payPage pt) = .err (m.payPage pt) := by
    rw [phyFrameAlloc, show (m.payPage pt).pfFreeList = m.pfFreeList from rfl, hnone]
  unfold partPtAlloc
  show (if (m.parts pt).paMemRem < pgSize then Op.fail else _ : Op Mem Ppn) m = _
  rw [if_neg hbudget]
  show Op.bind (Op.catchE phyFrameAlloc _) _ (m.payPage pt) = _
  rw [Op.bind, Op.catchE, halloc]
  rfl

/-- So that nothing changes. -/
theorem partPtAlloc_of_full (hbudget : ¬ (m.parts pt).paMemRem < pgSize)
    (hrem : (m.parts pt).paMemRem < wordSize) (hfull : m.freeFrames = 0) (va : Nat) (perm : Perm) :
    partPtAlloc pt va perm m = .err m := by
  rw [partPtAlloc_of_noFrame hbudget hfull, payPage_refund hbudget hrem]

theorem Mem.Droppable.congr (hmems : m'.mems = m.mems) (href : m'.pfRef = m.pfRef) :
    m'.Droppable f ↔ m.Droppable f := by
  rw [Mem.Droppable, Mem.Droppable, hmems, href]

/-- Whichever frame is taken, the page is mapped to it exactly if it is mappable. -/
theorem ClearWay.ptMap_pageFrame (h : ClearWay m r va) {m₁ : Mem}
    (halloc : phyFrameAlloc (m.payPage pt) = .ok f m₁) (perm : Perm) :
    (ptMap r va f perm).Succeeds m₁ ↔ Mappable m r va := by
  obtain ⟨hway, hfound, hneed, hcount, -, -, hmems, href⟩ := h.pageFrame halloc
  cases hpage : found m (pageOf r va) with
  | none =>
      rw [ptMap_succeeds_iff hway.not_free_root (hfound.trans hpage), hneed, ← Nat.lt_succ_iff,
        Nat.succ_eq_add_one, ← hcount]
      exact ⟨fun htables => ⟨htables, fun a e h => absurd (hpage.symm.trans h) (by simp)⟩,
        Mappable.tables⟩
  | some x =>
      obtain ⟨a, e⟩ := x
      rw [hway.remap_succeeds_iff (hfound.trans hpage), Mem.Droppable.congr hmems href]
      -- a page that is mapped has its tables, so that only its frame matters
      have hmissing : missingTables m r va = 0 := by
        obtain ⟨ht, -⟩ := found_eq_some hpage
        have hmid : (tableAt m (.mid r (vpn2 va))).isSome = true := by
          rw [Option.isSome_iff_ne_none]
          intro hnone
          have hleaf : tableAt m (pageOf r va).slot = none := by
            show (tableAt m (.mid r (vpn2 va))).bind _ = none
            rw [hnone, Option.bind_none]
          exact absurd (hleaf.symm.trans ht) (by simp)
        rw [missingTables, if_pos hmid, ht]
        rfl
      constructor
      · intro hdrop
        refine ⟨by omega, fun a' e' h' => ?_⟩
        rw [hpage, Option.some.injEq, Prod.mk.injEq] at h'
        exact h'.2 ▸ hdrop
      · exact fun hmappable => hmappable.old a e hpage

/-- With a frame for the page, the call succeeds if the page can be mapped. If not it stops the system:
the frame to be given back has no reference to drop. -/
theorem ClearWay.partPtAlloc_of_frame (h : ClearWay m (m.parts pt).paPgdir va)
    (hbudget : ¬ (m.parts pt).paMemRem < pgSize) (hfree : m.freeFrames ≠ 0) (perm : Perm) :
    (Mappable m (m.parts pt).paPgdir va → (partPtAlloc pt va perm).Succeeds m) ∧
      (¬ Mappable m (m.parts pt).paPgdir va → partPtAlloc pt va perm m = .fatal) := by
  have hpos : 0 < (m.payPage pt).freeFrames := Nat.pos_of_ne_zero hfree
  obtain ⟨f, m₁, halloc⟩ := phyFrameAlloc_succeeds_iff.mpr hpos
  have hmap := h.ptMap_pageFrame halloc perm
  constructor
  · intro hmappable
    obtain ⟨⟨⟩, m₂, hok⟩ := hmap.mpr hmappable
    exact ⟨f, _, partPtAlloc_eq_ok.mpr ⟨not_lt.mp hbudget, m₁, m₂, halloc, hok, rfl⟩⟩
  · intro hnot
    obtain ⟨hway, -, -, -, href, hnotfree, -, -⟩ := h.pageFrame halloc
    unfold partPtAlloc
    show (if (m.parts pt).paMemRem < pgSize then Op.fail else _ : Op Mem Ppn) m = _
    rw [if_neg hbudget]
    show Op.bind (Op.catchE phyFrameAlloc _) _ (m.payPage pt) = _
    rw [Op.bind, Op.catchE, halloc]
    show Op.bind (Op.catchE (ptMap (m.parts pt).paPgdir va f perm) _) _ m₁ = _
    rw [Op.bind, Op.catchE]
    cases hres : ptMap (m.parts pt).paPgdir va f perm m₁ with
    | ok u m₂ => exact absurd (hmap.mp ⟨u, m₂, hres⟩) hnot
    | fatal => rfl
    | err m₂ =>
        -- the walk failed before the frame was mapped, and its count is the one it had
        have hzero : m₂.pfRef f = 0 :=
          (ptWalk_err_pfRef hnotfree (hway.ptMap_eq_err hres)).trans href
        have hdec : phyFrameRefDec f m₂ = .err m₂ := by
          unfold phyFrameRefDec
          show (if m₂.pfRef f = 0 then Op.fail else _ : Op Mem Unit) m₂ = _
          rw [if_pos hzero]
          rfl
        have hpanic : Op.panicE (phyFrameRefDec f) m₂ = .fatal := by rw [Op.panicE, hdec]
        -- the handler drops a reference that there is not
        have haction : (do
            Op.panicE (phyFrameRefDec f)
            refundPage pt
            Op.fail : Op Mem Unit) m₂ = .fatal := by
          show Op.bind (Op.panicE (phyFrameRefDec f)) _ m₂ = _
          rw [Op.bind, hpanic]
        simp only [haction]

/-- **A failed page allocation is undone** exactly if the budget pays for no page, or there is no free
frame at all, or there are enough for the page and the tables on the way to it. -/
theorem failed_page_undone_iff (h : ClearWay m (m.parts pt).paPgdir va)
    (hrem : (m.parts pt).paMemRem < wordSize) (perm : Perm) :
    UndoneOnFailure pt va perm m ↔ (m.parts pt).paMemRem < pgSize ∨ m.freeFrames = 0 ∨
      Mappable m (m.parts pt).paPgdir va := by
  by_cases hbudget : (m.parts pt).paMemRem < pgSize
  · exact iff_of_true (Or.inr ⟨m, partPtAlloc_of_budget hbudget va perm, h.undone_self⟩) (Or.inl hbudget)
  by_cases hfull : m.freeFrames = 0
  · exact iff_of_true (Or.inr ⟨m, partPtAlloc_of_full hbudget hrem hfull va perm, h.undone_self⟩)
      (Or.inr (Or.inl hfull))
  obtain ⟨hok, hfatal⟩ := h.partPtAlloc_of_frame hbudget hfull perm
  constructor
  · intro hundone
    by_contra hnot
    have hres := hfatal fun hmappable => hnot (Or.inr (Or.inr hmappable))
    rcases hundone with ⟨f, m', hsucc⟩ | ⟨m', herr, -⟩
    · exact absurd (hres.symm.trans hsucc) (by simp)
    · exact absurd (hres.symm.trans herr) (by simp)
  · rintro (hlt | hzero | hmappable)
    · exact absurd hlt hbudget
    · exact absurd hzero hfull
    · exact Or.inl (hok hmappable)

/-- Partition 1 with the root in frame `0x80000`, a budget of one page, and the given free frames. -/
def onePageMem (free : List Ppn) : Mem :=
  (rootMem free).updPart 1 fun p => { p with paPgdir := 0x80000, paMemRem := pgSize }

theorem clearWay_onePageMem {free : List Ppn} (hnodup : free.Nodup)
    (hframe : ∀ f ∈ free, IsFrame [⟨0x80000000, 0x10000⟩] f) (hroot : (0x80000 : Ppn) ∉ free) (va : Nat) :
    ClearWay (onePageMem free) ((onePageMem free).parts 1).paPgdir va :=
  (show Tidy {0x80000} (onePageMem free) from
    (tidy_rootMem hnodup hframe hroot).congr rfl rfl rfl rfl).clearWay (Finset.mem_singleton_self _) va

/-- One free frame: it becomes the page, and there is none for its tables. -/
theorem failed_page_stops : ¬ ∀ (m : Mem) (pt : PartId) (va : Nat) (perm : Perm),
    ClearWay m (m.parts pt).paPgdir va → (m.parts pt).paMemRem < wordSize →
    UndoneOnFailure pt va perm m := by
  intro hall
  have hway : ClearWay (onePageMem [0x80001]) ((onePageMem [0x80001]).parts 1).paPgdir 0x1000 :=
    clearWay_onePageMem (List.nodup_singleton _)
      (fun f hf => by rw [List.mem_singleton.mp hf]; exact ⟨by decide, by decide⟩) (by decide) _
  have hres : partPtAlloc 1 0x1000 {} (onePageMem [0x80001]) = .fatal := rfl
  rcases hall _ 1 0x1000 {} hway (by decide +kernel) with ⟨f, m', hsucc⟩ | ⟨m', herr, -⟩
  · exact absurd (hres.symm.trans hsucc) (by simp)
  · exact absurd (hres.symm.trans herr) (by simp)

/-- Without a free frame the error leaves everything as it was. -/
theorem failed_page_undone_iff_full : UndoneOnFailure 1 0x1000 {} (onePageMem []) ↔
    ((onePageMem []).parts 1).paMemRem < pgSize ∨ (onePageMem []).freeFrames = 0 ∨
      Mappable (onePageMem []) ((onePageMem []).parts 1).paPgdir 0x1000 :=
  failed_page_undone_iff (clearWay_onePageMem List.nodup_nil (fun f hf => absurd hf List.not_mem_nil)
    List.not_mem_nil _) (by decide +kernel) {}

end Jrinx
