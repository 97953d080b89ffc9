import Jrinx.Mm.Walk

/-! # Walks that run out of frames

`pt_walk` allocates up to two tables and has to undo the first when there is no frame for the second.
It gives the frame back but leaves the entry that points to it.

* **`Tidy`** — page tables and free lists that have no frame in common.
* **`Intact`** — what a failed call should leave behind.
* **`failed_walk_intact_iff`** — the failed calls that do. -/

namespace Jrinx

open Op

/-! ## Free frames -/

/-- The frame is linked in a free list. -/
def Mem.Free (m : Mem) (f : Ppn) : Prop := f ∈ m.pfFreeList.flatten

theorem takeFrame_eq_some {ls ls' : List (List Ppn)} {f : Ppn} (h : takeFrame ls = some (f, ls')) :
    ls.flatten = f :: ls'.flatten ∧ ls'.length = ls.length := by
  induction ls generalizing ls' with
  | nil => exact absurd h (by simp [takeFrame])
  | cons fs ls ih =>
      cases fs with
      | nil =>
          simp only [takeFrame, Option.map_eq_some_iff] at h
          obtain ⟨⟨f', ls₁⟩, ht, heq⟩ := h
          obtain ⟨rfl, rfl⟩ := (Prod.mk.injEq _ _ _ _).mp heq
          obtain ⟨hflat, hlen⟩ := ih ht
          exact ⟨by simpa using hflat, by simp [hlen]⟩
      | cons a fs =>
          simp only [takeFrame, Option.some.injEq, Prod.mk.injEq] at h
          obtain ⟨rfl, rfl⟩ := h
          exact ⟨by simp, rfl⟩

variable {R : Finset Ppn} {m m' : Mem} {r f t : Ppn} {va : Nat}

/-- A frame given back is one more frame in the free lists. -/
theorem perm_modify_append {ls : List (List Ppn)} {sel : Nat} (hsel : sel < ls.length) (f : Ppn) :
    (ls.modify sel (fun fs => fs ++ [f])).flatten.Perm (f :: ls.flatten) := by
  induction ls generalizing sel with
  | nil => exact absurd hsel (by simp)
  | cons fs ls ih =>
      cases sel with
      | zero =>
          simp only [List.modify_zero_cons, List.flatten_cons, List.append_assoc,
            List.singleton_append]
          exact List.perm_middle
      | succ sel =>
          simp only [List.modify_succ_cons, List.flatten_cons]
          exact ((ih (by simpa using hsel)).append_left fs).trans List.perm_middle

/-- A frame of the memory ranges, for `frame2sel` and for `pa2frame`. -/
structure IsFrame (mems : List MemRange) (f : Ppn) : Prop where
  sel : (frame2sel mems f).isSome = true
  pa : pa2frame mems f = some f

theorem lt_of_frame2sel {mems : List MemRange} {sel : Nat} (h : frame2sel mems f = some sel) :
    sel < mems.length := by
  obtain ⟨hlt, -⟩ := List.findIdx?_eq_some_iff_getElem.mp h
  exact hlt

/-- **Page tables and free lists have no frame in common**: a free frame is neither a table of one of
the trees nor mapped in one of them, and nothing refers to it. -/
structure Tidy (R : Finset Ppn) (m : Mem) : Prop where
  forest : Forest R m
  lists : m.pfFreeList.length = m.mems.length
  nodup : m.pfFreeList.flatten.Nodup
  isFrame : ∀ f, m.Free f → IsFrame m.mems f
  unreferenced : ∀ f, m.Free f → m.pfRef f = 0
  noTable : ∀ f, m.Free f → Fresh R m f
  unmapped : ∀ f, m.Free f → ∀ g : Page, g.InRange R → ∀ a e, found m g = some (a, e) → e.ppn ≠ f

/-- Every valid entry of every table of the trees points to a frame that is not free. -/
def PointsToAllocated (R : Finset Ppn) (m : Mem) : Prop :=
  ∀ p t k, p.InRange R → k < 512 → tableAt m p = some t → (m.pte ⟨t, k⟩).perm.v = true →
    ¬ m.Free (m.pte ⟨t, k⟩).ppn

theorem Tidy.pointsToAllocated (h : Tidy R m) : PointsToAllocated R m := by
  intro p t k hp hk ht hv hfree
  cases p with
  | root r =>
      obtain rfl : r = t := Option.some.inj ht
      refine h.noTable _ hfree (.mid r k) ⟨hp, hk⟩ ?_
      rw [tableAt, Pte.target, if_pos hv]
  | mid r i =>
      refine h.noTable _ hfree (.leaf r i k) ⟨hp.1, hp.2, hk⟩ ?_
      rw [tableAt, show (m.pte ⟨r, i⟩).target = some t from ht, Option.bind_some, Pte.target,
        if_pos hv]
  | leaf r i j =>
      have hfound := found_of_some (g := ⟨r, i, j, k⟩) ht
      rw [if_pos hv] at hfound
      exact h.unmapped _ hfree ⟨r, i, j, k⟩ ⟨hp.1, hp.2.1, hp.2.2, hk⟩ _ _ hfound rfl

/-! ## Failures -/

/-- **What a failed call should leave behind**: all entries point to allocated frames, and lookups
yield what they did, apart from the pages in `except`. -/
structure Intact (R : Finset Ppn) (except : Set Page) (m m' : Mem) : Prop where
  allocated : PointsToAllocated R m'
  found : ∀ g : Page, g.InRange R → g ∉ except → found m' g = found m g

/-- The walk needs a middle table and exactly one frame is free, so that there is none for the bottom
table. Frame zero is not given back. -/
def LosesTable (m : Mem) (r : Ppn) (va : Nat) : Prop :=
  (m.pte ⟨r, vpn2 va⟩).perm.v = false ∧
    ∃ f free, takeFrame m.pfFreeList = some (f, free) ∧ takeFrame free = none ∧ f ≠ 0

theorem ptFrameAlloc_eq_err (h : ptFrameAlloc m = .err m') :
    takeFrame m.pfFreeList = none ∧ m' = m := by
  unfold ptFrameAlloc at h
  rcases bind_eq_err.mp h with ha | ⟨f, m₁, ha, h⟩
  · unfold phyFrameAlloc at ha
    cases ht : takeFrame m.pfFreeList with
    | none =>
        simp only [ht, Res.err.injEq] at ha
        exact ⟨rfl, ha.symm⟩
    | some x => simp [ht] at ha
  · rcases bind_eq_err.mp h with hinc | ⟨u, m₂, hinc, h⟩
    · exact absurd hinc panicE_ne_err
    · exact absurd h (by simp [pure, Op.pure])

theorem ptFrameRefDec_ne_err : ptFrameRefDec f m ≠ .err m' := by
  intro h
  unfold ptFrameRefDec at h
  rcases bind_eq_err.mp h with hg | ⟨a, m₁, hg, h⟩
  · exact absurd hg (by simp [Op.get])
  obtain ⟨rfl, rfl⟩ := get_eq_ok.mp hg
  cases hpf : pa2frame m.mems f with
  | none =>
      rw [hpf] at h
      exact absurd h (by simp [pure, Op.pure])
  | some pf =>
      rw [hpf] at h
      exact absurd h panicE_ne_err

/-- A frame of the memory loses its reference. -/
theorem ptFrameRefDec_eq_ok {u : Unit} (hpa : pa2frame m.mems f = some f)
    (h : ptFrameRefDec f m = .ok u m') : phyFrameRefDec f m = .ok u m' := by
  unfold ptFrameRefDec at h
  obtain ⟨_, _, hg, h⟩ := bind_eq_ok.mp h
  obtain ⟨rfl, rfl⟩ := get_eq_ok.mp hg
  rw [hpa] at h
  exact panicE_eq_ok.mp h

/-- How the second half of a walk fails: there is no frame, and the table of the first half is given
back. -/
theorem ptWalkMid_eq_err {mid pa1 : Ppn} (h : ptWalkMid mid va true pa1 m = .err m') :
    takeFrame m.pfFreeList = none ∧ (m.pte ⟨mid, vpn1 va⟩).perm.v = false ∧
      (if pa1 = 0 then m' = m else ptFrameRefDec pa1 m = .ok () m') := by
  unfold ptWalkMid PtOps.walkMid at h
  rcases bind_eq_err.mp h with hg | ⟨a, m₁, hg, h⟩
  · exact absurd hg (by simp [Op.get])
  obtain ⟨rfl, rfl⟩ := get_eq_ok.mp hg
  split at h
  · exact absurd h (by simp [pure, Op.pure])
  rename_i hv
  rw [if_pos rfl] at h
  rcases bind_eq_err.mp h with ha | ⟨f, m₂, -, h⟩
  · -- the allocation failed, and so did the way out
    unfold Op.catchE at ha
    cases halloc : ptPhyOps.frameAlloc m with
    | ok f m₂ => simp [halloc] at ha
    | fatal => simp [halloc] at ha
    | err m₂ =>
        obtain ⟨hnone, rfl⟩ := ptFrameAlloc_eq_err halloc
        simp only [halloc] at ha
        refine ⟨hnone, by simpa using hv, ?_⟩
        split at ha
        · rename_i hz
          rw [if_pos hz]
          exact (Res.err.inj ha).symm
        · rename_i hz
          rw [if_neg hz]
          rcases bind_eq_err.mp ha with hd | ⟨u, m₂, hd, ha⟩
          · exact absurd hd panicE_ne_err
          · rw [← Res.err.inj ha]
            exact panicE_eq_ok.mp hd
  · rcases bind_eq_err.mp h with hs | ⟨u, m₃, hs, h⟩
    · exact absurd hs (by simp [Op.modify])
    · exact absurd h (by simp [pure, Op.pure])

/-- How a walk fails: at once, with nothing changed, or after it linked a middle table. -/
theorem ptWalk_eq_err (h : ptWalk r va true m = .err m') :
    (m' = m ∧ ((m.pte ⟨r, vpn2 va⟩).perm.v = true ∨ takeFrame m.pfFreeList = none)) ∨
      ∃ f m₁, (m.pte ⟨r, vpn2 va⟩).perm.v = false ∧ ptFrameAlloc m = .ok f m₁ ∧
        takeFrame m₁.pfFreeList = none ∧
        (if f = 0 then m' = m₁.setPte ⟨r, vpn2 va⟩ (tablePte f)
          else ptFrameRefDec f (m₁.setPte ⟨r, vpn2 va⟩ (tablePte f)) = .ok () m') := by
  unfold ptWalk PtOps.walk at h
  rcases bind_eq_err.mp h with hg | ⟨a, m₁, hg, h⟩
  · exact absurd hg (by simp [Op.get])
  obtain ⟨rfl, rfl⟩ := get_eq_ok.mp hg
  split at h
  · rename_i hv
    obtain ⟨-, -, heq⟩ := ptWalkMid_eq_err h
    exact Or.inl ⟨by simpa using heq, Or.inl hv⟩
  rename_i hv
  rw [if_pos rfl] at h
  rcases bind_eq_err.mp h with ha | ⟨f, m₁, ha, h⟩
  · obtain ⟨hnone, rfl⟩ := ptFrameAlloc_eq_err ha
    exact Or.inl ⟨rfl, Or.inr hnone⟩
  rcases bind_eq_err.mp h with hs | ⟨u, m₂, hs, h⟩
  · exact absurd hs (by simp [Op.modify])
  rw [modify_eq_ok] at hs
  subst hs
  obtain ⟨hnone, -, hundo⟩ := ptWalkMid_eq_err h
  exact Or.inr ⟨f, m₁, by simpa using hv, ha, hnone, hundo⟩

/-- Unchanged trees are intact. -/
theorem Tidy.intact_self (h : Tidy R m) (except : Set Page) : Intact R except m m :=
  ⟨h.pointsToAllocated, fun _ _ _ => rfl⟩

/-- A free frame linked as a table, and not given back. -/
theorem Tidy.intact_link (h : Tidy R m) (hr : r ∈ R) {i : Nat} (hi : i < 512)
    (hinv : (m.pte ⟨r, i⟩).perm.v = false) {m₁ : Mem} (ha : ptFrameAlloc m = .ok f m₁)
    (except : Set Page) : Intact R except m (m₁.setPte ⟨r, i⟩ (tablePte f)) := by
  obtain ⟨free, ht, hm₁⟩ := ptFrameAlloc_eq_ok ha
  obtain ⟨hflat, -⟩ := takeFrame_eq_some ht
  have hfree : m.Free f := by
    rw [Mem.Free, hflat]
    exact List.mem_cons_self
  have hrest : ∀ f', (m₁.setPte ⟨r, i⟩ (tablePte f)).Free f' → m.Free f' ∧ f' ≠ f := by
    intro f' hf'
    rw [hm₁] at hf'
    have hmem : f' ∈ free.flatten := hf'
    refine ⟨by rw [Mem.Free, hflat]; exact List.mem_cons_of_mem f hmem, fun heq => ?_⟩
    have hnodup := h.nodup
    rw [hflat, List.nodup_cons] at hnodup
    exact hnodup.1 (heq ▸ hmem)
  have hlinked := grow_mid sound_ptPhyOps h.forest hr hi hinv (h.noTable f hfree) ha
  have hforest := hlinked.forest h.forest (h.noTable f hfree)
  refine ⟨?_, fun g hg _ => hlinked.found g hg⟩
  intro p t k hp hk htab hv hbad
  obtain ⟨hold, hne⟩ := hrest _ hbad
  -- the frame that the entry points to would be a table, or mapped, before the link too
  cases p with
  | root r' =>
      obtain rfl : r' = t := Option.some.inj htab
      have hmid : tableAt (m₁.setPte ⟨r, i⟩ (tablePte f)) (.mid r' k) =
          some ((m₁.setPte ⟨r, i⟩ (tablePte f)).pte ⟨r', k⟩).ppn := by
        rw [tableAt, Pte.target, if_pos hv]
      rw [hlinked.tables (.mid r' k) ⟨hp, hk⟩] at hmid
      split at hmid
      · exact hne (Option.some.inj hmid).symm
      · exact h.noTable _ hold (.mid r' k) ⟨hp, hk⟩ hmid
  | mid r' i' =>
      have hleaf : tableAt (m₁.setPte ⟨r, i⟩ (tablePte f)) (.leaf r' i' k) =
          some ((m₁.setPte ⟨r, i⟩ (tablePte f)).pte ⟨t, k⟩).ppn := by
        have hmid : ((m₁.setPte ⟨r, i⟩ (tablePte f)).pte ⟨r', i'⟩).target = some t := htab
        rw [tableAt, hmid, Option.bind_some, Pte.target, if_pos hv]
      rw [hlinked.tables (.leaf r' i' k) ⟨hp.1, hp.2, hk⟩, if_neg (by simp)] at hleaf
      exact h.noTable _ hold (.leaf r' i' k) ⟨hp.1, hp.2, hk⟩ hleaf
  | leaf r' i' j' =>
      have hg : (⟨r', i', j', k⟩ : Page).InRange R := ⟨hp.1, hp.2.1, hp.2.2, hk⟩
      have hfound := found_of_some (g := ⟨r', i', j', k⟩) htab
      rw [if_pos hv, hlinked.found _ hg] at hfound
      exact h.unmapped _ hold _ hg _ _ hfound rfl

/-- The table that the walk linked is on a free list again, while its entry is still valid. -/
theorem Tidy.given_back (h : Tidy R m) {m₁ : Mem} (ha : ptFrameAlloc m = .ok f m₁)
    (hdec : ptFrameRefDec f (m₁.setPte ⟨r, vpn2 va⟩ (tablePte f)) = .ok () m') :
    m'.Free f ∧ m'.pte ⟨r, vpn2 va⟩ = tablePte f := by
  obtain ⟨free, ht, hm₁⟩ := ptFrameAlloc_eq_ok ha
  obtain ⟨hflat, hlen⟩ := takeFrame_eq_some ht
  have hfree : m.Free f := by
    rw [Mem.Free, hflat]
    exact List.mem_cons_self
  subst hm₁
  obtain ⟨hsel, hpa⟩ := h.isFrame f hfree
  obtain ⟨-, free', rfl, -, hone⟩ := phyFrameRefDec_eq_ok (ptFrameRefDec_eq_ok (by exact hpa) hdec)
  have hcount : Function.update m.pfRef f (m.pfRef f + 1) f = 1 := by
    rw [Function.update_self, h.unreferenced f hfree]
  obtain ⟨sel, hfs, rfl⟩ := hone hcount
  have hlt : sel < free.length := by
    rw [hlen, h.lists]
    exact lt_of_frame2sel hfs
  exact ⟨(perm_modify_append hlt f).mem_iff.mpr List.mem_cons_self, by
    simp [Mem.pte, Mem.setPte]⟩

theorem Tidy.not_intact (h : Tidy R m) (hr : r ∈ R) {m₁ : Mem} (ha : ptFrameAlloc m = .ok f m₁)
    (hdec : ptFrameRefDec f (m₁.setPte ⟨r, vpn2 va⟩ (tablePte f)) = .ok () m')
    (except : Set Page) : ¬ Intact R except m m' := by
  obtain ⟨hfree, hpte⟩ := h.given_back ha hdec
  intro hintact
  refine hintact.allocated (.root r) r (vpn2 va) hr (vpn2_lt va) rfl ?_ ?_
  · rw [hpte]
    rfl
  · rw [hpte]
    exact hfree

/-- A failed walk leaves the address space intact iff it did not link a middle table. -/
theorem Tidy.ptWalk_intact_iff (h : Tidy R m) (hr : r ∈ R) (except : Set Page)
    (herr : ptWalk r va true m = .err m') : Intact R except m m' ↔ ¬ LosesTable m r va := by
  rcases ptWalk_eq_err herr with ⟨rfl, hwhy⟩ | ⟨f, m₁, hinv, ha, hnone, hundo⟩
  · refine iff_of_true (h.intact_self except) ?_
    rintro ⟨hinv, f, free, ht, -⟩
    rcases hwhy with hv | hn
    · exact absurd (hv.symm.trans hinv) (by simp)
    · exact absurd (hn.symm.trans ht) (by simp)
  · obtain ⟨free, ht, hm₁⟩ := ptFrameAlloc_eq_ok ha
    have hloses : LosesTable m r va ↔ f ≠ 0 := by
      constructor
      · rintro ⟨-, f', free', ht', -, hne⟩
        rw [ht, Option.some.injEq, Prod.mk.injEq] at ht'
        exact ht'.1 ▸ hne
      · intro hne
        refine ⟨hinv, f, free, ht, ?_, hne⟩
        rw [hm₁] at hnone
        exact hnone
    by_cases hz : f = 0
    · rw [if_pos hz] at hundo
      rw [hundo]
      exact iff_of_true (h.intact_link hr (vpn2_lt va) hinv ha except)
        fun hl => hloses.mp hl hz
    · rw [if_neg hz] at hundo
      exact iff_of_false (h.not_intact hr ha hundo except) fun hl => hl (hloses.mpr hz)

/-- `pt_unmap` does not fail: it succeeds or stops the system. -/
theorem ptUnmap_ne_err : ptUnmap r va m ≠ .err m' := by
  intro h
  unfold ptUnmap PtOps.unmap at h
  rcases bind_eq_err.mp h with hl | ⟨pte, m₁, hl, h⟩
  · rw [PtOps.lookup_eq] at hl
    exact absurd hl (by simp)
  cases pte with
  | none => exact absurd h (by simp [pure, Op.pure])
  | some a =>
      rcases bind_eq_err.mp h with hg | ⟨_, _, -, h⟩
      · exact absurd hg (by simp [Op.get])
      rcases bind_eq_err.mp h with hd | ⟨_, _, -, h⟩
      · exact absurd hd ptFrameRefDec_ne_err
      · exact absurd h (by simp [Op.modify])

theorem ptMapEntry_eq_err {ppn : Ppn} {perm : Perm} (h : ptPhyOps.mapEntry r va ppn perm m = .err m') :
    ptWalk r va true m = .err m' := by
  rcases bind_eq_err.mp h with hw | ⟨pte, m₁, -, h⟩
  · exact hw
  cases pte with
  | none => exact absurd h (by simp [Op.halt])
  | some a =>
      rcases bind_eq_err.mp h with hs | ⟨_, _, -, h⟩
      · exact absurd hs (by simp [Op.modify])
      · exact absurd h panicE_ne_err

/-- `pt_map` fails in the walk that creates the tables, and only for a page that was not mapped. -/
theorem ptMap_eq_err {ppn : Ppn} {perm : Perm} (hf : Forest R m) (hr : r ∈ R)
    (h : ptMap r va ppn perm m = .err m') : ptWalk r va true m = .err m' := by
  unfold ptMap PtOps.map at h
  rcases bind_eq_err.mp h with hw | ⟨pte, m₀, hw, h⟩
  · rw [PtOps.walk_false] at hw
    exact absurd hw (by simp)
  rw [PtOps.walk_false, Res.ok.injEq] at hw
  obtain ⟨rfl, rfl⟩ := hw
  rcases bind_eq_err.mp h with hg | ⟨_, _, hg, h⟩
  · exact absurd hg (by simp [Op.get])
  obtain ⟨rfl, rfl⟩ := get_eq_ok.mp hg
  cases ht : tableAt m (pageOf r va).slot with
  | none =>
      rw [ht] at h
      exact ptMapEntry_eq_err h
  | some t =>
      rw [ht] at h
      dsimp only [Option.map_some] at h
      split at h
      · rcases bind_eq_err.mp h with hu | ⟨_, m₁, hu, h⟩
        · exact absurd hu ptUnmap_ne_err
        · -- the tables of the page are there, so the walk cannot have failed
          obtain ⟨-, htables, -⟩ := PtOps.unmap_found sound_ptPhyOps hf hr hu
          have ht₁ : tableAt m₁ (pageOf r va).slot = some t := by
            rw [htables _ (inRange_pageOf hr).slot, ht]
          have hw := ptMapEntry_eq_err h
          rw [ptWalk, PtOps.walk_of_table ht₁] at hw
          exact absurd hw (by simp)
      · exact ptMapEntry_eq_err h

/-- **A failed walk leaves the address space intact**, for `pt_walk` and for `pt_map`, iff it does not
need a middle table while exactly one frame is free. -/
theorem failed_walk_intact_iff (h : Tidy R m) (hr : r ∈ R) (va : Nat) :
    (∀ m', ptWalk r va true m = .err m' → (Intact R ∅ m m' ↔ ¬ LosesTable m r va)) ∧
      ∀ ppn perm m', ptMap r va ppn perm m = .err m' →
        (Intact R {pageOf r va} m m' ↔ ¬ LosesTable m r va) := by
  constructor
  · intro m' herr
    exact h.ptWalk_intact_iff hr ∅ herr
  · intro ppn perm m' herr
    exact h.ptWalk_intact_iff hr _ (ptMap_eq_err h.forest hr herr)

/-- A memory with an empty root in frame `0x80000` and the given free frames. -/
def rootMem (free : List Ppn) : Mem :=
  { Mem.none with mems := [⟨0x80000000, 0x10000⟩], pfFreeList := [free] }

/-- A root table without a valid entry, beside free frames. -/
theorem tidy_of_empty {m : Mem} {r : Ppn} (hempty : ∀ i < 512, (m.pte ⟨r, i⟩).perm.v = false)
    (hlists : m.pfFreeList.length = m.mems.length) (hnodup : m.pfFreeList.flatten.Nodup)
    (hframe : ∀ f, m.Free f → IsFrame m.mems f) (hunref : ∀ f, m.Free f → m.pfRef f = 0)
    (hroot : ¬ m.Free r) : Tidy {r} m := by
  refine ⟨forest_of_empty hempty, hlists, hnodup, hframe, hunref, ?_, ?_⟩
  · exact fun f hf => fresh_of_empty hempty fun heq => hroot (heq ▸ hf)
  · intro f _ g hg a e hfound
    have hslot := root_of_empty hempty hg.slot (found_eq_some hfound).1
    exact absurd hslot (by simp [Page.slot])

theorem tidy_rootMem {free : List Ppn} (hnodup : free.Nodup)
    (hframe : ∀ f ∈ free, IsFrame [⟨0x80000000, 0x10000⟩] f) (hroot : (0x80000 : Ppn) ∉ free) :
    Tidy {0x80000} (rootMem free) := by
  have hfree : ∀ f, (rootMem free).Free f ↔ f ∈ free := by
    intro f
    simp [Mem.Free, rootMem]
  refine tidy_of_empty (fun _ _ => rfl) rfl (by simpa [rootMem] using hnodup) ?_ (fun _ _ => rfl) ?_
  · exact fun f hf => hframe f ((hfree f).mp hf)
  · exact fun hf => hroot ((hfree _).mp hf)

/-- One free frame: it becomes the middle table, and goes back to the free list with its entry valid. -/
theorem failed_walk_loses_table : ¬ ∀ (R : Finset Ppn) (m m' : Mem) (r : Ppn) (va : Nat),
    Tidy R m → r ∈ R → ptWalk r va true m = .err m' → Intact R ∅ m m' := by
  intro hall
  have htidy : Tidy {0x80000} (rootMem [0x80001]) :=
    tidy_rootMem (List.nodup_singleton _)
      (fun f hf => by rw [List.mem_singleton.mp hf]; exact ⟨by decide, by decide⟩) (by decide)
  have hr : (0x80000 : Ppn) ∈ ({0x80000} : Finset Ppn) := Finset.mem_singleton_self _
  have herr : ∃ m', ptWalk 0x80000 0x1000 true (rootMem [0x80001]) = .err m' := ⟨_, rfl⟩
  obtain ⟨m', herr⟩ := herr
  have hintact := hall _ _ m' 0x80000 0x1000 htidy hr herr
  refine (htidy.ptWalk_intact_iff hr ∅ herr).mp hintact ⟨rfl, 0x80001, [[]], rfl, rfl, by decide⟩

/-- Without a free frame the walk fails at once. -/
theorem failed_walk_intact_iff_full : ∃ m', ptWalk 0x80000 0x1000 true (rootMem []) = .err m' ∧
    (Intact {0x80000} ∅ (rootMem []) m' ↔ ¬ LosesTable (rootMem []) 0x80000 0x1000) := by
  have htidy : Tidy {0x80000} (rootMem []) :=
    tidy_rootMem List.nodup_nil (fun f hf => absurd hf List.not_mem_nil) List.not_mem_nil
  refine ⟨_, rfl, ?_⟩
  exact (failed_walk_intact_iff htidy (Finset.mem_singleton_self _) 0x1000).1 _ rfl

end Jrinx
