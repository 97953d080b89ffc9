import Mathlib.Data.Set.Card
import Jrinx.Mm.FailedWalk

/-! # Mapped frames and their counts

The reference count of a frame over every sequence of allocations, mappings and unmappings, with the
physical frame allocator in use.

* **`mappers`** — the entries that map a frame; one assignment moves one of them.
* **`Counted`** — the invariant: counts are the numbers of mappers, and free frames are not in use.
* **`Counted.grow`**, **`Counted.unmap`**, **`Counted.map`** — the operations keep it.
* **`mapped_frames_iff`** — the runs in which no frame in use is free. -/

namespace Jrinx

open Op Relation

variable {R : Finset Ppn} {m m' : Mem} {r f t : Ppn} {va : Nat}

/-! ## Mappers -/

/-- The valid entries that map a frame. -/
def mappers (R : Finset Ppn) (m : Mem) (f : Ppn) : Set PteAddr :=
  {a | ∃ g : Page, g.InRange R ∧ ∃ e, found m g = some (a, e) ∧ e.ppn = f}

theorem finite_pages (R : Finset Ppn) : {g : Page | g.InRange R}.Finite := by
  have hfin := (R ×ˢ Finset.range 512 ×ˢ Finset.range 512 ×ˢ Finset.range 512).finite_toSet
  refine (hfin.image fun x => (⟨x.1, x.2.1, x.2.2.1, x.2.2.2⟩ : Page)).subset ?_
  rintro ⟨r, i, j, k⟩ ⟨hr, hi, hj, hk⟩
  exact ⟨(r, i, j, k), by simpa using ⟨hr, hi, hj, hk⟩, rfl⟩

theorem finite_mappers (R : Finset Ppn) (m : Mem) (f : Ppn) : (mappers R m f).Finite := by
  refine ((finite_pages R).image fun g => ((found m g).map Prod.fst).getD ⟨0, 0⟩).subset ?_
  rintro a ⟨g, hg, e, hfound, -⟩
  exact ⟨g, hg, by simp [hfound]⟩

/-- An entry maps one page only. -/
theorem Forest.page_unique (hf : Forest R m) {g g' : Page} (hg : g.InRange R) (hg' : g'.InRange R)
    {a : PteAddr} {e e' : Pte} (h : found m g = some (a, e)) (h' : found m g' = some (a, e')) :
    g = g' := by
  obtain ⟨ht, ha, -⟩ := found_eq_some h
  obtain ⟨ht', ha', -⟩ := found_eq_some h'
  have hslot := hf.inj g.slot g'.slot a.table hg.slot hg'.slot ht ht'
  have hk : g.k = g'.k := congrArg PteAddr.idx (ha.symm.trans ha')
  obtain ⟨h₁, h₂, h₃⟩ := (TableSlot.leaf.injEq _ _ _ _ _ _).mp hslot
  exact Page.ext h₁ h₂ h₃ hk

/-- **One page more is mapped**: its entry is a new mapper of its frame. -/
theorem ncard_mappers (hf : Forest R m') {g : Page} (hg : g.InRange R) {a : PteAddr} {e : Pte}
    (hbefore : found m g = none) (hafter : found m' g = some (a, e))
    (hsame : ∀ g' : Page, g'.InRange R → g' ≠ g → found m' g' = found m g') (f : Ppn) :
    (mappers R m' f).ncard = (mappers R m f).ncard + if f = e.ppn then 1 else 0 := by
  -- an entry is for one page only, and the page was not mapped
  have hnew : a ∉ mappers R m f := by
    rintro ⟨g', hg', e', hfound, -⟩
    have hne : g' ≠ g := fun heq => absurd (heq ▸ hfound) (by simp [hbefore])
    rw [← hsame g' hg' hne] at hfound
    exact hne (hf.page_unique hg' hg hfound hafter)
  -- the frame of the entry gets one mapper more, and the others keep theirs
  by_cases hfe : f = e.ppn
  · rw [if_pos hfe, ← Set.ncard_insert_of_notMem hnew (finite_mappers R m f)]
    congr 1
    ext b
    constructor
    · rintro ⟨g', hg', e', hfound, he'⟩
      by_cases hgg : g' = g
      · subst hgg
        left
        rw [hafter, Option.some.injEq, Prod.mk.injEq] at hfound
        exact hfound.1.symm
      · right
        exact ⟨g', hg', e', hsame g' hg' hgg ▸ hfound, he'⟩
    · rintro (rfl | ⟨g', hg', e', hfound, he'⟩)
      · exact ⟨g, hg, e, hafter, hfe.symm⟩
      · have hne : g' ≠ g := fun heq => absurd (heq ▸ hfound) (by simp [hbefore])
        exact ⟨g', hg', e', (hsame g' hg' hne).trans hfound, he'⟩
  · rw [if_neg hfe, Nat.add_zero]
    congr 1
    ext b
    constructor
    · rintro ⟨g', hg', e', hfound, he'⟩
      by_cases hgg : g' = g
      · subst hgg
        rw [hafter, Option.some.injEq, Prod.mk.injEq] at hfound
        exact absurd (he'.symm.trans (congrArg Pte.ppn hfound.2.symm)) hfe
      · exact ⟨g', hg', e', hsame g' hg' hgg ▸ hfound, he'⟩
    · rintro ⟨g', hg', e', hfound, he'⟩
      have hne : g' ≠ g := fun heq => absurd (heq ▸ hfound) (by simp [hbefore])
      exact ⟨g', hg', e', (hsame g' hg' hne).trans hfound, he'⟩

/-- Without a change to any page the mappers are the same. -/
theorem mappers_congr (h : ∀ g : Page, g.InRange R → found m' g = found m g) (f : Ppn) :
    mappers R m' f = mappers R m f := by
  ext a
  constructor
  · rintro ⟨g, hg, e, hfound, he⟩
    exact ⟨g, hg, e, h g hg ▸ hfound, he⟩
  · rintro ⟨g, hg, e, hfound, he⟩
    exact ⟨g, hg, e, (h g hg).trans hfound, he⟩

/-! ## The invariant -/

/-- **The count of a data frame is the number of its mappers**, and every mapped frame is a data frame
of the memory. -/
structure Counted (R : Finset Ppn) (m : Mem) : Prop extends Tidy R m where
  counts : ∀ f, IsFrame m.mems f → Fresh R m f → m.pfRef f = (mappers R m f).ncard
  data : ∀ g : Page, g.InRange R → ∀ a e, found m g = some (a, e) →
    IsFrame m.mems e.ppn ∧ Fresh R m e.ppn

/-- **No frame in use is free**: the count of a data frame is the number of valid entries that map it,
mapped frames and tables are in no free list, no frame is in a free list twice, and the allocator hands
out no frame in use. -/
structure FramesSafe (R : Finset Ppn) (m : Mem) : Prop where
  counts : ∀ f, IsFrame m.mems f → Fresh R m f → m.pfRef f = (mappers R m f).ncard
  mapped : ∀ g : Page, g.InRange R → ∀ a e, found m g = some (a, e) → ¬ m.Free e.ppn
  tables : ∀ p t, p.InRange R → tableAt m p = some t → ¬ m.Free t
  once : m.pfFreeList.flatten.Nodup
  handedOut : ∀ f m', phyFrameAlloc m = .ok f m' →
    Fresh R m f ∧ ∀ g : Page, g.InRange R → ∀ a e, found m g = some (a, e) → e.ppn ≠ f

theorem free_of_takeFrame {free : List (List Ppn)} (h : takeFrame m.pfFreeList = some (f, free)) :
    m.Free f := by
  rw [Mem.Free, (takeFrame_eq_some h).1]
  exact List.mem_cons_self

theorem Counted.framesSafe (h : Counted R m) : FramesSafe R m where
  counts := h.counts
  mapped := fun g hg a e hfound hfree => h.unmapped _ hfree g hg a e hfound rfl
  tables := fun p t hp ht hfree => h.noTable t hfree p hp ht
  once := h.nodup
  handedOut := by
    intro f m' ha
    obtain ⟨free, ht, -⟩ := phyFrameAlloc_eq_ok ha
    exact ⟨h.noTable f (free_of_takeFrame ht), h.unmapped f (free_of_takeFrame ht)⟩

/-- A frame taken off the free list and cleared, whatever becomes of its count. -/
theorem Tidy.take (h : Tidy R m) {free : List (List Ppn)}
    (ht : takeFrame m.pfFreeList = some (f, free)) {ref : Ppn → Nat}
    (href : ∀ f', f' ≠ f → ref f' = m.pfRef f')
    (hm' : m' = { m with
      pfFreeList := free
      ram := Function.update m.ram f (fun _ => Pte.zero)
      pfRef := ref }) :
    Tidy R m' ∧ (∀ f', m'.Free f' → m.Free f' ∧ f' ≠ f) ∧
      (∀ p, p.InRange R → tableAt m' p = tableAt m p) ∧
      ∀ g : Page, g.InRange R → found m' g = found m g := by
  obtain ⟨hflat, hlen⟩ := takeFrame_eq_some ht
  have hnodup := h.nodup
  rw [hflat, List.nodup_cons] at hnodup
  -- the frame is free no longer, and nothing else becomes free
  have hrest : ∀ f', m'.Free f' → m.Free f' ∧ f' ≠ f := by
    intro f' hf'
    have hmem : f' ∈ free.flatten := by simpa [Mem.Free, hm'] using hf'
    refine ⟨by rw [Mem.Free, hflat]; exact List.mem_cons_of_mem f hmem, fun heq => ?_⟩
    exact hnodup.1 (heq ▸ hmem)
  -- no walk comes to the frame, so that clearing it changes no lookup
  obtain ⟨hforest, htables, hfound, -⟩ :=
    h.forest.alloc (h.noTable f (free_of_takeFrame ht)) (congrArg Mem.ram hm')
  refine ⟨⟨hforest, ?_, ?_, ?_, ?_, ?_, ?_⟩, hrest, htables, hfound⟩
  · rw [hm']
    exact hlen.trans h.lists
  · rw [hm']
    exact hnodup.2
  · intro f' hf'
    rw [hm']
    exact h.isFrame f' (hrest f' hf').1
  · intro f' hf'
    rw [hm']
    exact (href f' (hrest f' hf').2).trans (h.unreferenced f' (hrest f' hf').1)
  · intro f' hf' p hp
    rw [htables p hp]
    exact h.noTable f' (hrest f' hf').1 p hp
  · intro f' hf' g hg a e hfg
    rw [hfound g hg] at hfg
    exact h.unmapped f' (hrest f' hf').1 g hg a e hfg

/-- `phy_frame_alloc` keeps the counts. -/
theorem Counted.alloc (h : Counted R m) (ha : phyFrameAlloc m = .ok f m') : Counted R m' := by
  obtain ⟨free, ht, hm'⟩ := phyFrameAlloc_eq_ok ha
  obtain ⟨htidy, -, htables, hfound⟩ := h.toTidy.take ht (fun _ _ => rfl) hm'
  refine ⟨htidy, ?_, ?_⟩
  · intro f' hf' hfresh
    rw [mappers_congr hfound]
    rw [hm'] at hf' ⊢
    exact h.counts f' hf' fun p hp => by
      rw [← htables p hp]
      exact hfresh p hp
  · intro g hg a e hfg
    rw [hfound g hg] at hfg
    obtain ⟨hframe, hfresh⟩ := h.data g hg a e hfg
    refine ⟨by rw [hm']; exact hframe, fun p hp => ?_⟩
    rw [htables p hp]
    exact hfresh p hp

/-- What a table more does: a frame that served for nothing is a table now, and none of the others. -/
theorem Tidy.grow (h : Tidy R m) (hgrow : Grow ptPhyOps R m m') :
    Tidy R m' ∧ ∃ f, m.Free f ∧ (∀ f', m'.Free f' → m.Free f' ∧ f' ≠ f) ∧ m'.mems = m.mems ∧
      (∀ f', f' ≠ f → m'.pfRef f' = m.pfRef f') ∧
      ∀ f', Fresh R m' f' ↔ f' ≠ f ∧ Fresh R m f' := by
  obtain ⟨f, m₁, a, q, halloc, -, rfl, hq, hlinked⟩ := hgrow
  obtain ⟨free, ht, hm₁⟩ := ptFrameAlloc_eq_ok halloc
  have hfree := free_of_takeFrame ht
  obtain ⟨htidy, hrest, htables, hfound⟩ :=
    h.take ht (fun f' hne => Function.update_of_ne hne _ _) hm₁
  have hforest := hlinked.forest h.forest (h.noTable f hfree)
  -- the entry that is linked makes one frame a table
  have hfresh : ∀ f', Fresh R (m₁.setPte a (tablePte f)) f' ↔ f' ≠ f ∧ Fresh R m f' := by
    intro f'
    constructor
    · intro hf'
      refine ⟨fun heq => ?_, fun p hp ht' => ?_⟩
      · refine hf' q hq ?_
        rw [hlinked.tables q hq, if_pos rfl, heq]
      · by_cases hpq : p = q
        · rw [hpq, hlinked.old] at ht'
          exact absurd ht' (by simp)
        · refine hf' p hp ?_
          rw [hlinked.tables p hp, if_neg hpq]
          exact ht'
    · rintro ⟨hne, hf'⟩ p hp ht'
      rw [hlinked.tables p hp] at ht'
      split at ht'
      · exact hne (Option.some.inj ht').symm
      · exact hf' p hp ht'
  refine ⟨⟨hforest, htidy.lists, htidy.nodup, htidy.isFrame, htidy.unreferenced, ?_, ?_⟩, f, hfree,
    hrest, ?_, ?_, hfresh⟩
  · exact fun f' hf' => (hfresh f').mpr ⟨(hrest f' hf').2, h.noTable f' (hrest f' hf').1⟩
  · intro f' hf' g hg a' e hfg
    rw [hlinked.found g hg] at hfg
    exact h.unmapped f' (hrest f' hf').1 g hg a' e hfg
  · rw [hm₁]
    rfl
  · intro f' hne
    rw [hm₁]
    exact Function.update_of_ne hne _ _

/-- While page tables and free lists are apart, the frames that a walk allocates are fresh. -/
theorem Tidy.freshWalk (h : Tidy R m) (hr : r ∈ R) : ptPhyOps.FreshWalk R r va m := by
  have hnext : ∀ {m₁ : Mem}, Tidy R m₁ → ∀ f m₂, ptPhyOps.frameAlloc m₁ = .ok f m₂ →
      Fresh R m₁ f := by
    intro m₁ htidy f m₂ ha
    obtain ⟨free, ht, -⟩ := ptFrameAlloc_eq_ok ha
    exact htidy.noTable f (free_of_takeFrame ht)
  unfold PtOps.FreshWalk
  split
  · exact fun _ => hnext h
  · rename_i hv
    intro f m₁ ha
    have hfresh := hnext h f m₁ ha
    have hinv : (m.pte ⟨r, vpn2 va⟩).perm.v = false := by simpa using hv
    have hlinked := grow_mid sound_ptPhyOps h.forest hr (vpn2_lt va) hinv hfresh ha
    have hgrow : Grow ptPhyOps R m (m₁.setPte ⟨r, vpn2 va⟩ (tablePte f)) :=
      ⟨f, m₁, _, .mid r (vpn2 va), ha, hfresh, rfl, ⟨hr, vpn2_lt va⟩, hlinked⟩
    exact ⟨hfresh, fun _ => hnext (h.grow hgrow).1⟩

/-- **A table more** keeps the counts. -/
theorem Counted.grow (h : Counted R m) (hgrow : Grow ptPhyOps R m m') :
    Counted R m' ∧ (∀ f', m'.Free f' → m.Free f') ∧ m'.mems = m.mems ∧
      ∀ f', ¬ m.Free f' → Fresh R m f' → Fresh R m' f' := by
  obtain ⟨htidy, f, hfree, hrest, hmems, href, hfresh⟩ := h.toTidy.grow hgrow
  refine ⟨⟨htidy, ?_, ?_⟩, fun f' hf' => (hrest f' hf').1, hmems, ?_⟩
  · intro f' hframe hf'
    obtain ⟨hne, hold⟩ := (hfresh f').mp hf'
    rw [mappers_congr fun g hg => hgrow.found hg, href f' hne]
    exact h.counts f' (hmems ▸ hframe) hold
  · intro g hg a' e hfg
    rw [hgrow.found hg] at hfg
    obtain ⟨hframe, hold⟩ := h.data g hg a' e hfg
    exact ⟨hmems ▸ hframe, (hfresh _).mpr ⟨h.unmapped f hfree g hg a' e hfg, hold⟩⟩
  · intro f' hnot hold
    exact (hfresh f').mpr ⟨fun heq => hnot (heq ▸ hfree), hold⟩

/-- With the invariant the frames that a walk allocates are fresh. -/
theorem Counted.freshWalk (h : Counted R m) (hr : r ∈ R) : ptPhyOps.FreshWalk R r va m :=
  h.toTidy.freshWalk hr

theorem Counted.grows (h : Counted R m) (hgrows : ReflTransGen (Grow ptPhyOps R) m m') :
    Counted R m' ∧ (∀ f', m'.Free f' → m.Free f') ∧ m'.mems = m.mems ∧
      ∀ f', ¬ m.Free f' → Fresh R m f' → Fresh R m' f' := by
  induction hgrows with
  | refl => exact ⟨h, fun _ hf => hf, rfl, fun _ _ hf => hf⟩
  | tail _ hstep ih =>
      obtain ⟨hi, hfree, hmems, hfresh⟩ := ih
      obtain ⟨hi', hfree', hmems', hfresh'⟩ := hi.grow hstep
      refine ⟨hi', fun f' hf' => hfree f' (hfree' f' hf'), hmems'.trans hmems, ?_⟩
      exact fun f' hnot hf' => hfresh' f' (fun hf => hnot (hfree f' hf)) (hfresh f' hnot hf')

/-! ## Unmapping -/

/-- A frame that is unmapped keeps its table entries; its count drops, and with its last mapping it
becomes free. -/
theorem Counted.unmap (h : Counted R m) (hr : r ∈ R) {u : Unit}
    (hu : ptUnmap r va m = .ok u m') :
    Counted R m' ∧ m'.mems = m.mems ∧ (∀ f', Fresh R m f' → Fresh R m' f') ∧
      ∀ f', m'.Free f' ↔ m.Free f' ∨ ∃ a e, found m (pageOf r va) = some (a, e) ∧ e.ppn = f' ∧
        m.pfRef f' = 1 := by
  obtain ⟨hforest, htables, hfound⟩ := PtOps.unmap_found sound_ptPhyOps h.forest hr hu
  have hg : (pageOf r va).InRange R := inRange_pageOf hr
  rcases PtOps.unmap_eq_ok hu with ⟨hnone, rfl⟩ | ⟨a, e, m₁, hsome, hdec, hm'⟩
  · refine ⟨h, rfl, fun _ hf => hf, fun f' => ⟨Or.inl, ?_⟩⟩
    rintro (hf | ⟨a, e, ha, -⟩)
    · exact hf
    · exact absurd ha (by simp [hnone])
  obtain ⟨hframe, hdata⟩ := h.data _ hg a e hsome
  obtain ⟨hpos, free, hm₁, hkeep, hlast⟩ :=
    phyFrameRefDec_eq_ok (ptFrameRefDec_eq_ok (by exact hframe.pa) hdec)
  have hnotfree : ¬ m.Free e.ppn := fun hf => h.unmapped _ hf _ hg a e hsome rfl
  -- what becomes of the free lists
  have hperm : (m.pfRef e.ppn ≠ 1 ∧ free = m.pfFreeList) ∨
      (m.pfRef e.ppn = 1 ∧ free.flatten.Perm (e.ppn :: m.pfFreeList.flatten) ∧
        free.length = m.pfFreeList.length) := by
    by_cases hone : m.pfRef e.ppn = 1
    · obtain ⟨sel, hsel, rfl⟩ := hlast hone
      have hlt : sel < m.pfFreeList.length := by
        rw [h.lists]
        exact lt_of_frame2sel hsel
      exact Or.inr ⟨hone, perm_modify_append hlt e.ppn, List.length_modify _ _ _⟩
    · exact Or.inl ⟨hone, hkeep hone⟩
  have hfree' : m'.pfFreeList = free := by
    rw [hm', hm₁]
    rfl
  have hmems : m'.mems = m.mems := by
    rw [hm', hm₁]
    rfl
  have href : m'.pfRef = Function.update m.pfRef e.ppn (m.pfRef e.ppn - 1) := by
    rw [hm', hm₁]
    rfl
  have hfreeIff : ∀ f', m'.Free f' ↔ m.Free f' ∨ (e.ppn = f' ∧ m.pfRef f' = 1) := by
    intro f'
    rw [Mem.Free, hfree']
    rcases hperm with ⟨hne, rfl⟩ | ⟨hone, hperm, -⟩
    · refine ⟨Or.inl, fun hf => hf.elim id ?_⟩
      rintro ⟨rfl, hone⟩
      exact absurd hone hne
    · rw [hperm.mem_iff, List.mem_cons]
      constructor
      · rintro (rfl | hf)
        · exact Or.inr ⟨rfl, hone⟩
        · exact Or.inl hf
      · rintro (hf | ⟨rfl, -⟩)
        · exact Or.inr hf
        · exact Or.inl rfl
  have hfresh : ∀ f', Fresh R m f' → Fresh R m' f' := by
    intro f' hf' p hp
    rw [htables p hp]
    exact hf' p hp
  have hback : ∀ f', Fresh R m' f' → Fresh R m f' := by
    intro f' hf' p hp
    rw [← htables p hp]
    exact hf' p hp
  have hgone : found m' (pageOf r va) = none := by rw [hfound _ hg, if_pos rfl]
  have hsame : ∀ g : Page, g.InRange R → g ≠ pageOf r va → found m' g = found m g :=
    fun g hgR hne => by rw [hfound g hgR, if_neg hne]
  have hcount := ncard_mappers h.forest hg hgone hsome fun g hgR hne => (hsame g hgR hne).symm
  have hstill : ∀ g : Page, g.InRange R → ∀ a' e', found m' g = some (a', e') →
      found m g = some (a', e') := by
    intro g hgR a' e' hfg
    rw [hfound g hgR] at hfg
    split at hfg
    · exact absurd hfg (by simp)
    · exact hfg
  refine ⟨⟨⟨hforest, ?_, ?_, ?_, ?_, ?_, ?_⟩, ?_, ?_⟩, hmems, hfresh, ?_⟩
  · rw [hfree', hmems, ← h.lists]
    rcases hperm with ⟨-, rfl⟩ | ⟨-, -, hlen⟩
    · rfl
    · exact hlen
  · rw [hfree']
    rcases hperm with ⟨-, rfl⟩ | ⟨-, hperm, -⟩
    · exact h.nodup
    · rw [hperm.nodup_iff]
      exact List.nodup_cons.mpr ⟨hnotfree, h.nodup⟩
  · intro f' hf'
    rw [hmems]
    rcases (hfreeIff f').mp hf' with hold | ⟨rfl, -⟩
    · exact h.isFrame f' hold
    · exact hframe
  · intro f' hf'
    rw [href]
    rcases (hfreeIff f').mp hf' with hold | ⟨rfl, hone⟩
    · have hne : f' ≠ e.ppn := fun heq => hnotfree (heq ▸ hold)
      rw [Function.update_of_ne hne]
      exact h.unreferenced f' hold
    · rw [Function.update_self, hone]
  · intro f' hf'
    rcases (hfreeIff f').mp hf' with hold | ⟨rfl, -⟩
    · exact hfresh f' (h.noTable f' hold)
    · exact hfresh _ hdata
  · intro f' hf' g hgR a' e' hfg heq
    rcases (hfreeIff f').mp hf' with hold | ⟨rfl, hone⟩
    · exact h.unmapped f' hold g hgR a' e' (hstill g hgR a' e' hfg) heq
    · -- the last mapper is gone, so there is none left
      have hzero : (mappers R m' e.ppn).ncard = 0 := by
        have hc := hcount e.ppn
        rw [if_pos rfl, ← h.counts _ hframe hdata, hone] at hc
        omega
      rw [Set.ncard_eq_zero (finite_mappers R m' e.ppn)] at hzero
      have hmem : a' ∈ mappers R m' e.ppn := ⟨g, hgR, e', hfg, heq⟩
      rw [hzero] at hmem
      exact hmem
  · intro f' hframe' hfresh'
    rw [hmems] at hframe'
    have hold := h.counts f' hframe' (hback f' hfresh')
    rw [hcount f'] at hold
    rw [href]
    by_cases heq : f' = e.ppn
    · subst heq
      rw [if_pos rfl] at hold
      rw [Function.update_self]
      omega
    · rw [if_neg heq] at hold
      rw [Function.update_of_ne heq]
      exact hold
  · intro g hgR a' e' hfg
    obtain ⟨hf₁, hf₂⟩ := h.data g hgR a' e' (hstill g hgR a' e' hfg)
    exact ⟨hmems ▸ hf₁, hfresh _ hf₂⟩
  · intro f'
    rw [hfreeIff f']
    refine or_congr_right ⟨fun hf => ⟨a, e, hsome, hf.1, hf.2⟩, ?_⟩
    rintro ⟨a', e', hsome', hf⟩
    rw [hsome, Option.some.injEq, Prod.mk.injEq] at hsome'
    obtain ⟨-, rfl⟩ := hsome'
    exact hf

/-! ## Mapping -/

/-- The address already maps the frame, and nothing else does. -/
def RemapsSole (m : Mem) (r : Ppn) (va : Nat) (f : Ppn) : Prop :=
  (∃ a e, found m (pageOf r va) = some (a, e) ∧ e.ppn = f) ∧ m.pfRef f = 1

theorem ptFrameRefInc_eq_ok {u : Unit} (hpa : pa2frame m.mems f = some f)
    (h : ptFrameRefInc f m = .ok u m') :
    m' = { m with pfRef := Function.update m.pfRef f (m.pfRef f + 1) } := by
  unfold ptFrameRefInc at h
  obtain ⟨_, _, hg, h⟩ := bind_eq_ok.mp h
  obtain ⟨rfl, rfl⟩ := get_eq_ok.mp hg
  rw [hpa] at h
  exact (modify_eq_ok.mp (panicE_eq_ok.mp h)).symm

/-- A page more is mapped to a frame that is not free: tables and free frames are as before. -/
theorem Tidy.write (h : Tidy R m) {g : Page} (hg : g.InRange R) (ht : tableAt m g.slot = some t)
    (hnot : ¬ m.Free f) {e : Pte} (hv : e.perm.v = true) (hppn : e.ppn = f)
    (hm' : m' = { m.setPte ⟨t, g.k⟩ e with
      pfRef := Function.update m.pfRef f (m.pfRef f + 1) }) :
    Tidy R m' ∧ (∀ p, p.InRange R → tableAt m' p = tableAt m p) ∧
      found m' g = some (⟨t, g.k⟩, e) ∧
      ∀ g' : Page, g'.InRange R → g' ≠ g → found m' g' = found m g' := by
  have hram : m'.ram = (m.setPte ⟨t, g.k⟩ e).ram := by rw [hm']
  obtain ⟨hforest₀, htables₀, hwrite₀⟩ := h.forest.write hg ht e
  have hforest := hforest₀.of_ram hram
  have htables : ∀ p, p.InRange R → tableAt m' p = tableAt m p := fun p hp => by
    rw [tableAt_of_ram hram, htables₀ p hp]
  have hself : found m' g = some (⟨t, g.k⟩, e) := by
    rw [found_of_ram hram, hwrite₀ g hg, if_pos rfl, if_pos hv]
  have hsame : ∀ g' : Page, g'.InRange R → g' ≠ g → found m' g' = found m g' := fun g' hg' hne => by
    rw [found_of_ram hram, hwrite₀ g' hg', if_neg hne]
  -- the free lists are not touched
  have hfree : ∀ f', m'.Free f' → m.Free f' := by
    intro f' hf'
    rw [hm'] at hf'
    exact hf'
  have hmems : m'.mems = m.mems := by
    rw [hm']
    rfl
  refine ⟨⟨hforest, ?_, ?_, ?_, ?_, ?_, ?_⟩, htables, hself, hsame⟩
  · rw [hm']
    exact h.lists
  · rw [hm']
    exact h.nodup
  · intro f' hf'
    rw [hmems]
    exact h.isFrame f' (hfree f' hf')
  · intro f' hf'
    -- only the count of the mapped frame changes, and it is not free
    have hne : f' ≠ f := fun heq => hnot (heq ▸ hfree f' hf')
    rw [hm']
    exact (Function.update_of_ne hne _ _).trans (h.unreferenced f' (hfree f' hf'))
  · intro f' hf' p hp
    rw [htables p hp]
    exact h.noTable f' (hfree f' hf') p hp
  · intro f' hf' g' hg' a' e' hfg heq
    by_cases hgg : g' = g
    · rw [hgg, hself, Option.some.injEq, Prod.mk.injEq] at hfg
      exact hnot (by rw [← hppn, hfg.2, heq]; exact hfree f' hf')
    · rw [hsame g' hg' hgg] at hfg
      exact h.unmapped f' (hfree f' hf') g' hg' a' e' hfg heq

/-- **A page more** is mapped to a data frame that is not free. -/
theorem Counted.write (h : Counted R m) {g : Page} (hg : g.InRange R)
    (ht : tableAt m g.slot = some t) (hnone : found m g = none) (hframe : IsFrame m.mems f)
    (hfresh : Fresh R m f) (hnot : ¬ m.Free f) {e : Pte} (hv : e.perm.v = true) (hppn : e.ppn = f)
    (hm' : m' = { m.setPte ⟨t, g.k⟩ e with
      pfRef := Function.update m.pfRef f (m.pfRef f + 1) }) : Counted R m' := by
  obtain ⟨htidy, htables, hself, hsame⟩ := h.toTidy.write hg ht hnot hv hppn hm'
  -- one page more is mapped to the frame, and its count is one more
  have hcount := ncard_mappers htidy.forest hg hnone hself hsame
  have hmems : m'.mems = m.mems := by
    rw [hm']
    rfl
  -- no table comes to be, and none goes
  have hfresh' : ∀ f', Fresh R m' f' ↔ Fresh R m f' := by
    intro f'
    constructor
    · intro hf' p hp
      rw [← htables p hp]
      exact hf' p hp
    · intro hf' p hp
      rw [htables p hp]
      exact hf' p hp
  refine ⟨htidy, ?_, ?_⟩
  · intro f' hframe' hf'
    rw [hcount f', ← h.counts f' (hmems ▸ hframe') ((hfresh' f').mp hf'), hm', hppn]
    by_cases heq : f' = f
    · subst heq
      simp
    · simp [heq]
  · intro g' hg' a' e' hfg
    by_cases hgg : g' = g
    · rw [hgg, hself, Option.some.injEq, Prod.mk.injEq] at hfg
      rw [← hfg.2, hppn, hmems]
      exact ⟨hframe, (hfresh' f).mpr hfresh⟩
    · obtain ⟨h₁, h₂⟩ := h.data g' hg' a' e' (hsame g' hg' hgg ▸ hfg)
      exact ⟨hmems ▸ h₁, (hfresh' e'.ppn).mpr h₂⟩

/-- The old mapping goes, and a frame that this does not free is as before. -/
theorem Counted.unmapped_first (h : Counted R m) (hr : r ∈ R) {m₁ : Mem}
    (hold : if (found m (pageOf r va)).isSome = true then ptUnmap r va m = .ok () m₁ else m₁ = m) :
    Counted R m₁ ∧ m₁.mems = m.mems ∧ found m₁ (pageOf r va) = none ∧
      (∀ f', Fresh R m f' → Fresh R m₁ f') ∧
      ∀ f', m₁.Free f' ↔ m.Free f' ∨ ∃ a e, found m (pageOf r va) = some (a, e) ∧ e.ppn = f' ∧
        m.pfRef f' = 1 := by
  split at hold
  · obtain ⟨hi, hmems, hfresh, hfree⟩ := h.unmap hr hold
    obtain ⟨-, -, hfound⟩ := PtOps.unmap_found sound_ptPhyOps h.forest hr hold
    refine ⟨hi, hmems, ?_, hfresh, hfree⟩
    rw [hfound _ (inRange_pageOf hr), if_pos rfl]
  · rename_i hnone
    have hnone' : found m (pageOf r va) = none := by simpa using hnone
    subst hold
    refine ⟨h, rfl, hnone', fun _ hf => hf, fun f' => ⟨Or.inl, ?_⟩⟩
    rintro (hf | ⟨a, e, ha, -⟩)
    · exact hf
    · exact absurd ha (by simp [hnone'])

theorem Counted.map (h : Counted R m) (hr : r ∈ R) (hframe : IsFrame m.mems f)
    (hfresh : Fresh R m f) (hnot : ¬ m.Free f) (hsole : ¬ RemapsSole m r va f) {perm : Perm}
    {u : Unit} (hm : ptMap r va f perm m = .ok u m') : Counted R m' := by
  obtain ⟨m₁, m₂, a, hold, hw, hinc⟩ := PtOps.map_eq_ok hm
  obtain ⟨hi₁, hmems₁, hnone₁, hfresh₁, hfree₁⟩ := h.unmapped_first hr hold
  have hnot₁ : ¬ m₁.Free f := by
    intro hf
    rcases (hfree₁ f).mp hf with hf | ⟨a, e, hfound, he, hone⟩
    · exact hnot hf
    · exact hsole ⟨⟨a, e, hfound, he⟩, hone⟩
  obtain ⟨t, ha, ht, hgrows⟩ :=
    PtOps.walk_true sound_ptPhyOps hi₁.forest hr (hi₁.freshWalk hr) hw
  obtain ⟨hi₂, hfree₂, hmems₂, hfresh₂⟩ := hi₁.grows hgrows
  have hg : (pageOf r va).InRange R := inRange_pageOf hr
  have hframe₂ : IsFrame m₂.mems f := by
    rw [hmems₂, hmems₁]
    exact hframe
  obtain rfl : a = ⟨t, (pageOf r va).k⟩ := Option.some.inj ha
  refine hi₂.write hg ht ?_ hframe₂ (hfresh₂ f hnot₁ (hfresh₁ f hfresh))
    (fun hf => hnot₁ (hfree₂ f hf)) (e := ⟨{ perm with v := true }, f⟩) rfl rfl ?_
  · rw [found_of_grows hgrows hg, hnone₁]
  · exact ptFrameRefInc_eq_ok (by exact hframe₂.pa) hinc

/-- **The only mapping of a frame made again**: the frame is free while it is mapped. -/
theorem Counted.not_safe_of_remap (h : Counted R m) (hr : r ∈ R) (hframe : IsFrame m.mems f)
    (hsole : RemapsSole m r va f) {perm : Perm} {u : Unit}
    (hm : ptMap r va f perm m = .ok u m') : ¬ FramesSafe R m' := by
  obtain ⟨-, ⟨a', hself⟩, -⟩ :=
    PtOps.map_found sound_ptPhyOps h.forest hr (h.freshWalk hr) hm
  obtain ⟨m₁, m₂, a, hold, hw, hinc⟩ := PtOps.map_eq_ok hm
  obtain ⟨hi₁, hmems₁, -, -, hfree₁⟩ := h.unmapped_first hr hold
  obtain ⟨⟨b, e, hfound, he⟩, hone⟩ := hsole
  have hfree : m₁.Free f := (hfree₁ f).mpr (Or.inr ⟨b, e, hfound, he, hone⟩)
  -- the bottom table is there, so that the walk changes nothing
  have hsome : (found m (pageOf r va)).isSome = true := by rw [hfound]; rfl
  rw [if_pos hsome] at hold
  obtain ⟨-, htables, -⟩ := PtOps.unmap_found sound_ptPhyOps h.forest hr hold
  have ht₁ : tableAt m₁ (pageOf r va).slot = some b.table := by
    rw [htables _ (inRange_pageOf hr).slot]
    exact (found_eq_some hfound).1
  rw [PtOps.walk_of_table ht₁, Res.ok.injEq] at hw
  obtain ⟨-, rfl⟩ := hw
  have hm' := ptFrameRefInc_eq_ok (by exact hmems₁ ▸ hframe.pa) hinc
  intro hsafe
  refine hsafe.mapped _ (inRange_pageOf hr) _ _ hself ?_
  rw [hm']
  exact hfree

/-! ## Failing calls -/

/-- Where the walk loses its table it does not succeed. -/
theorem Tidy.ptWalk_ne_ok (h : Tidy R m) (hr : r ∈ R) (hloses : LosesTable m r va)
    {pte : Option PteAddr} : ptWalk r va true m ≠ .ok pte m' := by
  obtain ⟨hinv, f, free, ht, hnone, -⟩ := hloses
  intro hw
  unfold ptWalk PtOps.walk at hw
  obtain ⟨_, _, hg, hroot⟩ := bind_eq_ok.mp hw
  obtain ⟨rfl, rfl⟩ := get_eq_ok.mp hg
  rw [if_neg (by simp [hinv]), if_pos rfl] at hroot
  obtain ⟨f', m₁, ha, hlink⟩ := bind_eq_ok.mp hroot
  obtain ⟨_, m₂, hset, hmid⟩ := bind_eq_ok.mp hlink
  rw [modify_eq_ok] at hset
  obtain ⟨free', ht', rfl⟩ := ptFrameAlloc_eq_ok ha
  rw [ht, Option.some.injEq, Prod.mk.injEq] at ht'
  obtain ⟨rfl, rfl⟩ := ht'
  have hfr : f ≠ r := fun heq => h.noTable f (free_of_takeFrame ht) (.root r) hr (by rw [heq]; rfl)
  unfold PtOps.walkMid at hmid
  obtain ⟨_, _, hg', hleaf⟩ := bind_eq_ok.mp hmid
  obtain ⟨rfl, rfl⟩ := get_eq_ok.mp hg'
  have hzero : (m₂.pte ⟨f, vpn1 va⟩).perm.v = false := by
    rw [← hset, Mem.pte_setPte, if_neg (by simp [hfr])]
    simp [Mem.pte, Pte.zero]
  rw [if_neg (by simp [hzero]), if_pos rfl] at hleaf
  obtain ⟨f₂, m₃, ha₂, -⟩ := bind_eq_ok.mp hleaf
  obtain ⟨free₂, ht₂, -⟩ :=
    ptFrameAlloc_eq_ok (catchE_eq_ok_of_fails (ptPhyOps.undo_fails f) ha₂)
  rw [← hset] at ht₂
  exact absurd (ht₂.symm.trans hnone) (by simp)

/-- **A walk that loses its table** leaves a table that is free. -/
theorem Tidy.not_safe_of_loses (h : Tidy R m) (hr : r ∈ R) (hloses : LosesTable m r va)
    (herr : ptWalk r va true m = .err m') : ¬ FramesSafe R m' := by
  rcases ptWalk_eq_err herr with ⟨-, hwhy⟩ | ⟨f, m₁, hinv, ha, -, hundo⟩
  · obtain ⟨hinv, f, free, ht, -⟩ := hloses
    rcases hwhy with hv | hn
    · exact absurd (hv.symm.trans hinv) (by simp)
    · exact absurd (hn.symm.trans ht) (by simp)
  · obtain ⟨-, f', free, ht, -, hne⟩ := hloses
    obtain ⟨free', ht', -⟩ := ptFrameAlloc_eq_ok ha
    rw [ht, Option.some.injEq, Prod.mk.injEq] at ht'
    obtain ⟨rfl, -⟩ := ht'
    rw [if_neg hne] at hundo
    obtain ⟨hfree, hpte⟩ := h.given_back ha hundo
    intro hsafe
    refine hsafe.tables (.mid r (vpn2 va)) f' ⟨hr, vpn2_lt va⟩ ?_ hfree
    rw [tableAt, hpte]
    rfl

/-- A walk that fails without losing a table keeps the counts. -/
theorem Counted.failed (h : Counted R m) (hr : r ∈ R) (hnot : ¬ LosesTable m r va)
    (herr : ptWalk r va true m = .err m') : Counted R m' := by
  rcases ptWalk_eq_err herr with ⟨rfl, -⟩ | ⟨f, m₁, hinv, ha, hnone, hundo⟩
  · exact h
  · obtain ⟨free, ht, hm₁⟩ := ptFrameAlloc_eq_ok ha
    have hz : f = 0 := by
      by_contra hne
      refine hnot ⟨hinv, f, free, ht, ?_, hne⟩
      rw [hm₁] at hnone
      exact hnone
    rw [if_pos hz] at hundo
    have hfresh := h.noTable f (free_of_takeFrame ht)
    have hlinked := grow_mid sound_ptPhyOps h.forest hr (vpn2_lt va) hinv hfresh ha
    exact (h.grow ⟨f, m₁, _, .mid r (vpn2 va), ha, hfresh, hundo, ⟨hr, vpn2_lt va⟩,
      hundo ▸ hlinked⟩).1

/-! ## Runs -/

/-- The calls. -/
inductive FrameCall where
  | alloc
  | map (r : Ppn) (va : Nat) (f : Ppn) (perm : Perm)
  | unmap (r : Ppn) (va : Nat)

/-- One call. -/
def frameStep (m : Mem) : FrameCall → Except Unit Mem
  | .alloc => (phyFrameAlloc m).settled
  | .map r va f perm => (ptMap r va f perm m).settled
  | .unmap r va => (ptUnmap r va m).settled

/-- The calls that are made: on the trees, with data frames that are allocated or mapped. -/
def FrameCall.Allowed (R : Finset Ppn) (m : Mem) : FrameCall → Prop
  | .alloc => True
  | .map r _ f _ => r ∈ R ∧ IsFrame m.mems f ∧ Fresh R m f ∧ ¬ m.Free f
  | .unmap r _ => r ∈ R

/-- The call neither maps the only mapping of a frame again, nor needs a middle table while exactly
one frame is free. -/
def FrameCall.Keeps (m : Mem) : FrameCall → Prop
  | .map r va f _ => ¬ RemapsSole m r va f ∧ ¬ LosesTable m r va
  | _ => True

theorem Counted.step (h : Counted R m) {c : FrameCall} (hallowed : c.Allowed R m) (hok : c.Keeps m)
    (hs : frameStep m c = .ok m') : Counted R m' := by
  cases c with
  | alloc =>
      rcases Res.settled_eq_ok hs with ⟨f, ha⟩ | ha
      · exact h.alloc ha
      · unfold phyFrameAlloc at ha
        cases ht : takeFrame m.pfFreeList with
        | none =>
            simp only [ht, Res.err.injEq] at ha
            exact ha ▸ h
        | some x => simp [ht] at ha
  | map r va f perm =>
      obtain ⟨hr, hframe, hfresh, hnot⟩ := hallowed
      rcases Res.settled_eq_ok hs with ⟨u, hm⟩ | hm
      · exact h.map hr hframe hfresh hnot hok.1 hm
      · exact h.failed hr hok.2 (ptMap_eq_err h.forest hr hm)
  | unmap r va =>
      rcases Res.settled_eq_ok hs with ⟨u, hu⟩ | hu
      · exact (h.unmap hallowed hu).1
      · exact absurd hu ptUnmap_ne_err

theorem Counted.not_safe (h : Counted R m) {c : FrameCall} (hallowed : c.Allowed R m)
    (hnot : ¬ c.Keeps m) (hs : frameStep m c = .ok m') : ¬ FramesSafe R m' := by
  cases c with
  | alloc => exact absurd trivial hnot
  | unmap r va => exact absurd trivial hnot
  | map r va f perm =>
      obtain ⟨hr, hframe, -, -⟩ := hallowed
      have hwhy : RemapsSole m r va f ∨ LosesTable m r va := by
        by_contra hneither
        exact hnot ⟨fun hl => hneither (Or.inl hl), fun hl => hneither (Or.inr hl)⟩
      rcases hwhy with hsole | hloses
      · obtain ⟨⟨a, e, hfound, -⟩, -⟩ := id hsole
        rcases Res.settled_eq_ok hs with ⟨u, hm⟩ | hm
        · exact h.not_safe_of_remap hr hframe hsole hm
        · have hw := ptMap_eq_err h.forest hr hm
          rw [ptWalk, PtOps.walk_of_table (found_eq_some hfound).1] at hw
          exact absurd hw (by simp)
      · rcases Res.settled_eq_ok hs with ⟨u, hm⟩ | hm
        · -- the page is not mapped, so that nothing comes before the walk
          obtain ⟨m₁, m₂, a, hold, hw, -⟩ := PtOps.map_eq_ok hm
          have hnone : found m (pageOf r va) = none := by
            apply found_of_none
            rw [pageOf, Page.slot, tableAt, Pte.target_of_invalid hloses.1]
            rfl
          rw [hnone, if_neg (by simp)] at hold
          subst hold
          exact absurd hw (h.toTidy.ptWalk_ne_ok hr hloses)
        · exact h.toTidy.not_safe_of_loses hr hloses (ptMap_eq_err h.forest hr hm)

/-- **Mapped frames are never free** in exactly those runs in which no call maps the only mapping of a
frame again or needs a middle table while exactly one frame is free. -/
theorem mapped_frames_iff {m₀ : Mem} {tr : List (Mem × FrameCall)} (hi : Counted R m₀)
    (hrun : Exec frameStep m₀ tr m) (hallowed : AllSteps (fun m c => c.Allowed R m) tr) :
    Throughout (FramesSafe R) tr m ↔ AllSteps (fun m c => c.Keeps m) tr :=
  hrun.forall_iff_within hi hallowed (fun _ h => h.framesSafe)
    (fun _ _ _ h hd hok hs => h.step hd hok hs)
    (fun _ _ _ h hd hnot hs => h.not_safe hd hnot hs)

theorem counted_rootMem {free : List Ppn} (h : Tidy {0x80000} (rootMem free)) :
    Counted {0x80000} (rootMem free) := by
  have hempty : ∀ i < 512, ((rootMem free).pte ⟨0x80000, i⟩).perm.v = false := fun _ _ => rfl
  have hnone : ∀ g : Page, g.InRange {0x80000} → ∀ a e, found (rootMem free) g ≠ some (a, e) := by
    intro g hg a e hfound
    have hslot := root_of_empty hempty hg.slot (found_eq_some hfound).1
    exact absurd hslot (by simp [Page.slot])
  refine ⟨h, ?_, fun g hg a e hfound => absurd hfound (hnone g hg a e)⟩
  intro f _ _
  have hmappers : mappers {0x80000} (rootMem free) f = ∅ := by
    apply Set.eq_empty_iff_forall_notMem.mpr
    rintro a ⟨g, hg, e, hfound, -⟩
    exact hnone g hg a e hfound
  rw [hmappers, Set.ncard_empty]
  rfl

theorem counted_twoFree : Counted {0x80000} (rootMem [0x80002, 0x80003]) := by
  refine counted_rootMem (tidy_rootMem (by decide) ?_ (by decide))
  intro f hf
  simp only [List.mem_cons, List.not_mem_nil, or_false] at hf
  rcases hf with rfl | rfl
  · exact ⟨by decide, by decide⟩
  · exact ⟨by decide, by decide⟩

/-- The frame `0x80001` is allocated and is no table. -/
theorem allowed_twoFree (va : Nat) (perm : Perm) :
    (FrameCall.map 0x80000 va 0x80001 perm).Allowed {0x80000} (rootMem [0x80002, 0x80003]) := by
  refine ⟨Finset.mem_singleton_self _, ⟨by decide, by decide⟩, ?_, by simp [Mem.Free, rootMem]⟩
  exact fresh_of_empty (fun _ _ => rfl) (by decide)

/-- A frame mapped at an address and mapped there again is on the free list while it is mapped. -/
theorem remapped_frame_free : ¬ ∀ (R : Finset Ppn) (m₀ m : Mem) (tr : List (Mem × FrameCall)),
    Counted R m₀ → Exec frameStep m₀ tr m → AllSteps (fun m c => c.Allowed R m) tr →
    Throughout (FramesSafe R) tr m := by
  intro hall
  have hr : (0x80000 : Ppn) ∈ ({0x80000} : Finset Ppn) := Finset.mem_singleton_self _
  obtain ⟨m₁, m₂, hm₁, hone, hm₂⟩ : ∃ m₁ m₂,
      ptMap 0x80000 0x1000 0x80001 {} (rootMem [0x80002, 0x80003]) = .ok () m₁ ∧
      m₁.pfRef 0x80001 = 1 ∧ ptMap 0x80000 0x1000 0x80001 {} m₁ = .ok () m₂ :=
    ⟨_, _, rfl, rfl, rfl⟩
  have hi := counted_twoFree
  obtain ⟨-, hframe, hfresh, hnot⟩ := allowed_twoFree 0x1000 {}
  have hnew : ¬ RemapsSole (rootMem [0x80002, 0x80003]) 0x80000 0x1000 0x80001 :=
    fun hsole => absurd hsole.2 (by decide)
  have hi₁ := hi.map hr hframe hfresh hnot hnew hm₁
  obtain ⟨-, ⟨a, hfound⟩, -⟩ :=
    PtOps.map_found sound_ptPhyOps hi.forest hr (hi.freshWalk hr) hm₁
  have hdata := hi₁.data _ (inRange_pageOf hr) _ _ hfound
  have hallowed : (FrameCall.map 0x80000 0x1000 0x80001 {}).Allowed {0x80000} m₁ :=
    ⟨hr, hdata.1, hdata.2, fun hf => hi₁.unmapped _ hf _ (inRange_pageOf hr) _ _ hfound rfl⟩
  have hstep : frameStep m₁ (.map 0x80000 0x1000 0x80001 {}) = .ok m₂ := by
    rw [frameStep, hm₂]
    rfl
  have hsafe := (hall _ m₁ m₂ _ hi₁ (Exec.nil.snoc hstep) (by
    intro x hx
    rw [List.mem_singleton.mp hx]
    exact hallowed)).2
  exact hi₁.not_safe_of_remap hr hdata.1 ⟨⟨a, _, hfound, rfl⟩, hone⟩ hm₂ hsafe

/-- A frame mapped once. -/
theorem mapped_frames_iff_once : ∃ tr m, Exec frameStep (rootMem [0x80002, 0x80003]) tr m ∧
    tr.length = 1 ∧ (Throughout (FramesSafe {0x80000}) tr m ↔ AllSteps (fun m c => c.Keeps m) tr) := by
  obtain ⟨m, hrun, -⟩ := Exec.of_checkRun frameStep (rootMem [0x80002, 0x80003])
    [.map 0x80000 0x1000 0x80001 {}] (fun _ => true) (by decide +kernel)
  refine ⟨_, m, hrun, by decide +kernel, mapped_frames_iff counted_twoFree hrun ?_⟩
  rintro ⟨m₁, c⟩ hx
  rw [traceEvents] at hx
  split at hx
  · rcases List.mem_cons.mp hx with heq | htail
    · obtain ⟨rfl, rfl⟩ := (Prod.mk.injEq _ _ _ _).mp heq
      exact allowed_twoFree 0x1000 {}
    · exact absurd htail List.not_mem_nil
  · exact absurd hx List.not_mem_nil

end Jrinx
