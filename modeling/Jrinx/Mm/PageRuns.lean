import Mathlib.Data.Finset.Card
import Jrinx.Mm.Supply

/-! # Pages mapped one after the other

An operation that maps several pages takes a frame for each and a frame for every table that is missing on
the way to one of them. A table that two of the pages need is counted once.

* **`tablePath`**, **`tablesNeeded`** — the tables on the way to pages, and how many of them are missing.
* **`Tidy.ptWalk_tables`** — what a walk takes and which tables it leaves.
* **`Tidy.mapFresh`** — a new frame is mapped at a page that was not mapped.
* **`tablesNeeded_cons`**, **`enough_cons`** — the need of a list, page by page. -/

namespace Jrinx

open Op Relation

/-- The tables below the root on the way to an address. -/
def tablePath (r : Ppn) (va : Nat) : Finset TableSlot := {.mid r (vpn2 va), (pageOf r va).slot}

/-- The tables that are missing on the way to the addresses. -/
def missingOf (m : Mem) (r : Ppn) (vas : List Nat) : Finset TableSlot :=
  (vas.toFinset.biUnion (tablePath r)).filter fun p => tableAt m p = none

/-- How many tables are missing on the way to the addresses. -/
def tablesNeeded (m : Mem) (r : Ppn) (vas : List Nat) : Nat := (missingOf m r vas).card

/-- There is a frame for every page and for every missing table. -/
def Enough (m : Mem) (r : Ppn) (vas : List Nat) : Prop :=
  vas.length + tablesNeeded m r vas ≤ m.freeFrames

variable {R : Finset Ppn} {m m' : Mem} {r f : Ppn} {va : Nat} {vas : List Nat}

/-! ## Counting tables -/

theorem inRange_tablePath (hr : r ∈ R) {p : TableSlot} (hp : p ∈ tablePath r va) : p.InRange R := by
  rw [tablePath, Finset.mem_insert, Finset.mem_singleton] at hp
  rcases hp with rfl | rfl
  · exact ⟨hr, vpn2_lt va⟩
  · exact (inRange_pageOf hr).slot

@[simp] theorem tablesNeeded_nil (m : Mem) (r : Ppn) : tablesNeeded m r [] = 0 := rfl

/-- The tables that one page misses. -/
theorem missingTables_eq_card (m : Mem) (r : Ppn) (va : Nat) :
    missingTables m r va = ((tablePath r va).filter fun p => tableAt m p = none).card := by
  have hne : TableSlot.mid r (vpn2 va) ≠ (pageOf r va).slot := by simp [pageOf, Page.slot]
  have hleaf : tableAt m (.mid r (vpn2 va)) = none → tableAt m (pageOf r va).slot = none := by
    intro h
    show (tableAt m (.mid r (vpn2 va))).bind _ = none
    rw [h]
    rfl
  rw [tablePath, Finset.filter_insert, Finset.filter_singleton, missingTables]
  cases hm : tableAt m (.mid r (vpn2 va)) with
  | none => simp [hleaf hm, hne]
  | some t =>
      cases hl : tableAt m (pageOf r va).slot with
      | none => simp
      | some t' => simp

/-- The need of a list, after the tables of its first page were made. -/
theorem tablesNeeded_cons (hr : r ∈ R)
    (htables : ∀ p, p.InRange R → (tableAt m' p = none ↔ tableAt m p = none ∧ p ∉ tablePath r va))
    (vas : List Nat) :
    tablesNeeded m r (va :: vas) = missingTables m r va + tablesNeeded m' r vas := by
  have hrest : missingOf m' r vas = (missingOf m r vas).filter fun p => p ∉ tablePath r va := by
    ext p
    simp only [missingOf, Finset.mem_filter, Finset.mem_biUnion]
    constructor
    · rintro ⟨⟨va', hva', hp⟩, hnone⟩
      obtain ⟨hnone', hnot⟩ := (htables p (inRange_tablePath hr hp)).mp hnone
      exact ⟨⟨⟨va', hva', hp⟩, hnone'⟩, hnot⟩
    · rintro ⟨⟨⟨va', hva', hp⟩, hnone⟩, hnot⟩
      exact ⟨⟨va', hva', hp⟩, (htables p (inRange_tablePath hr hp)).mpr ⟨hnone, hnot⟩⟩
  rw [tablesNeeded, tablesNeeded, missingTables_eq_card, hrest, ← Finset.card_union_of_disjoint]
  · congr 1
    ext p
    simp only [missingOf, List.toFinset_cons, Finset.biUnion_insert, Finset.mem_filter, Finset.mem_union]
    by_cases hp : p ∈ tablePath r va
    · simp [hp]
    · simp [hp]
  · rw [Finset.disjoint_left]
    intro p hp hp'
    exact (Finset.mem_filter.mp hp').2 (Finset.mem_filter.mp hp).1

/-- What is enough for a list is enough for its first page, and leaves enough for the others. -/
theorem enough_cons (hr : r ∈ R)
    (htables : ∀ p, p.InRange R → (tableAt m' p = none ↔ tableAt m p = none ∧ p ∉ tablePath r va))
    (hfree : m.freeFrames = m'.freeFrames + 1 + missingTables m r va) (vas : List Nat) :
    Enough m r (va :: vas) ↔ Enough m' r vas := by
  rw [Enough, Enough, tablesNeeded_cons hr htables, List.length_cons]
  omega

/-- What is enough for a list is enough for its first page. -/
theorem Enough.head (h : Enough m r (va :: vas)) : missingTables m r va < m.freeFrames := by
  have hsub : ((tablePath r va).filter fun p => tableAt m p = none) ⊆ missingOf m r (va :: vas) := by
    rw [missingOf, List.toFinset_cons, Finset.biUnion_insert]
    exact Finset.filter_subset_filter _ Finset.subset_union_left
  have hle := Finset.card_le_card hsub
  rw [← missingTables_eq_card] at hle
  rw [Enough, List.length_cons, tablesNeeded] at h
  omega

/-! ## Walks -/

/-- A table more: one frame less, and one place that has a table now. -/
theorem Tidy.linked (h : Tidy R m) {q : TableSlot} (hq : q.InRange R) {m₁ : Mem} {a : PteAddr}
    (halloc : ptFrameAlloc m = .ok f m₁) (hlinked : Linked R m (m₁.setPte a (tablePte f)) q f) :
    Tidy R (m₁.setPte a (tablePte f)) ∧
      m.freeFrames = (m₁.setPte a (tablePte f)).freeFrames + 1 ∧
      (∀ p, p.InRange R → (tableAt (m₁.setPte a (tablePte f)) p = none ↔ tableAt m p = none ∧ p ≠ q)) ∧
      tableAt m q = none := by
  obtain ⟨free, ht, -⟩ := ptFrameAlloc_eq_ok halloc
  have hgrow : Grow ptPhyOps R m (m₁.setPte a (tablePte f)) :=
    ⟨f, m₁, a, q, halloc, h.noTable f (free_of_takeFrame ht), rfl, hq, hlinked⟩
  have hfree : m.freeFrames = m₁.freeFrames + 1 := freeFrames_ptFrameAlloc halloc
  refine ⟨(h.grow hgrow).1, hfree, fun p hp => ?_, hlinked.old⟩
  rw [hlinked.tables p hp]
  by_cases hpq : p = q
  · simp [hpq]
  · simp [hpq]

/-- The second half of a walk: the bottom table is made when it is missing. -/
theorem Tidy.ptWalkMid_tables (h : Tidy R m) (hr : r ∈ R) {t pa1 : Ppn}
    (hmid : tableAt m (.mid r (vpn2 va)) = some t) {pte : Option PteAddr}
    (hw : ptWalkMid t va true pa1 m = .ok pte m') : Tidy R m' ∧
      m.freeFrames = m'.freeFrames + missingTables m r va ∧
      ∀ p, p.InRange R → (tableAt m' p = none ↔ tableAt m p = none ∧ p ∉ tablePath r va) := by
  have hleaf : tableAt m (pageOf r va).slot = (m.pte ⟨t, vpn1 va⟩).target := by
    show (tableAt m (.mid r (vpn2 va))).bind _ = _
    rw [hmid]
    rfl
  have hslot : (pageOf r va).slot.InRange R := (inRange_pageOf hr).slot
  -- a place on the way without a table can only be the bottom one
  have hpath : ∀ p, tableAt m p = none → (p ∉ tablePath r va ↔ p ≠ (pageOf r va).slot) := by
    intro p hnone
    rw [tablePath, Finset.mem_insert, Finset.mem_singleton, not_or, and_iff_right_iff_imp]
    rintro - rfl
    rw [hmid] at hnone
    exact absurd hnone (by simp)
  unfold ptWalkMid PtOps.walkMid at hw
  obtain ⟨_, _, hg, hw⟩ := bind_eq_ok.mp hw
  obtain ⟨rfl, rfl⟩ := get_eq_ok.mp hg
  split at hw
  · rename_i hv
    obtain ⟨-, rfl⟩ := pure_eq_ok.mp hw
    rw [Pte.target, if_pos hv] at hleaf
    refine ⟨h, by simp [missingTables, hmid, hleaf], fun p hp => ⟨fun hnone => ⟨hnone, ?_⟩, And.left⟩⟩
    rw [hpath p hnone]
    rintro rfl
    rw [hleaf] at hnone
    exact absurd hnone (by simp)
  · rename_i hv
    have hinv : (m.pte ⟨t, vpn1 va⟩).perm.v = false := by simpa using hv
    rw [if_pos rfl] at hw
    obtain ⟨f, m₁, ha, hw⟩ := bind_eq_ok.mp hw
    have halloc := catchE_eq_ok_of_fails (ptPhyOps.undo_fails pa1) ha
    obtain ⟨_, m₂, hset, hw⟩ := bind_eq_ok.mp hw
    obtain ⟨-, rfl⟩ := pure_eq_ok.mp hw
    rw [modify_eq_ok] at hset
    subst hset
    obtain ⟨free, ht, -⟩ := ptFrameAlloc_eq_ok halloc
    have hlinked := grow_leaf sound_ptPhyOps h.forest hr (vpn2_lt va) (vpn1_lt va) hmid hinv
      (h.noTable f (free_of_takeFrame ht)) halloc
    obtain ⟨htidy, hfree, htables, hold⟩ := h.linked hslot halloc hlinked
    refine ⟨htidy, ?_, fun p hp => ?_⟩
    · have hmissing : missingTables m r va = 1 := by
        rw [missingTables, hmid]
        show (if (tableAt m (pageOf r va).slot).isSome then 0 else 1) = 1
        rw [hleaf, Pte.target_of_invalid hinv]
        rfl
      rw [hmissing]
      exact hfree
    · rw [htables p hp]
      exact and_congr_right fun hnone => (hpath p hnone).symm

/-- **A walk that creates tables** takes a frame for every missing table, and leaves no table missing. -/
theorem Tidy.ptWalk_tables (h : Tidy R m) (hr : r ∈ R) {pte : Option PteAddr}
    (hw : ptWalk r va true m = .ok pte m') : Tidy R m' ∧
      m.freeFrames = m'.freeFrames + missingTables m r va ∧
      ∀ p, p.InRange R → (tableAt m' p = none ↔ tableAt m p = none ∧ p ∉ tablePath r va) := by
  have hmidR : (TableSlot.mid r (vpn2 va)).InRange R := ⟨hr, vpn2_lt va⟩
  unfold ptWalk PtOps.walk at hw
  obtain ⟨_, _, hg, hw⟩ := bind_eq_ok.mp hw
  obtain ⟨rfl, rfl⟩ := get_eq_ok.mp hg
  split at hw
  · rename_i hv
    refine h.ptWalkMid_tables (t := (m.pte ⟨r, vpn2 va⟩).ppn) hr ?_ hw
    rw [tableAt, Pte.target, if_pos hv]
  · rename_i hv
    have hinv : (m.pte ⟨r, vpn2 va⟩).perm.v = false := by simpa using hv
    rw [if_pos rfl] at hw
    obtain ⟨f, m₁, halloc, hw⟩ := bind_eq_ok.mp hw
    obtain ⟨_, m₂, hset, hw⟩ := bind_eq_ok.mp hw
    rw [modify_eq_ok] at hset
    subst hset
    obtain ⟨free, ht, -⟩ := ptFrameAlloc_eq_ok halloc
    have hlinked := grow_mid sound_ptPhyOps h.forest hr (vpn2_lt va) hinv
      (h.noTable f (free_of_takeFrame ht)) halloc
    obtain ⟨htidy, hfree, htables, hold⟩ := h.linked hmidR halloc hlinked
    have hmid := hlinked.tables _ hmidR
    rw [if_pos rfl] at hmid
    obtain ⟨htidy', hfree', htables'⟩ := htidy.ptWalkMid_tables hr hmid hw
    -- a place that lost its table has none below it either
    have hleaf : ∀ m₂ : Mem, (∀ p, p.InRange R → (tableAt m₂ p = none ↔ tableAt m p = none ∧
        p ≠ .mid r (vpn2 va))) → tableAt m₂ (pageOf r va).slot = none := by
      intro m₂ hm₂
      refine (hm₂ _ (inRange_pageOf hr).slot).mpr ⟨?_, by simp [pageOf, Page.slot]⟩
      show (tableAt m (.mid r (vpn2 va))).bind _ = none
      rw [hold]
      rfl
    have hone : missingTables (m₁.setPte ⟨r, vpn2 va⟩ (tablePte f)) r va = 1 := by
      simp only [missingTables, hmid, hleaf _ htables, Option.isSome_some, Option.isSome_none, if_true,
        Bool.false_eq_true, if_false]
    have htwo : missingTables m r va = 2 := by simp [missingTables, hold]
    refine ⟨htidy', ?_, fun p hp => ?_⟩
    · rw [hone] at hfree'
      rw [htwo, hfree, hfree']
    · rw [htables' p hp, htables p hp, and_assoc]
      refine and_congr_right fun _ => ⟨And.right, fun hnot => ⟨?_, hnot⟩⟩
      rintro rfl
      exact hnot (Finset.mem_insert_self _ _)

/-! ## Pages -/

/-- Tables that are made take free frames only. -/
theorem Tidy.free_of_grows (h : Tidy R m) (hgrows : ReflTransGen (Grow ptPhyOps R) m m') :
    Tidy R m' ∧ (∀ f, m'.Free f → m.Free f) ∧ m'.mems = m.mems := by
  induction hgrows with
  | refl => exact ⟨h, fun _ hf => hf, rfl⟩
  | tail _ hstep ih =>
      obtain ⟨htidy, hfree, hmems⟩ := ih
      obtain ⟨htidy', f, -, hrest, hmems', -, -⟩ := htidy.grow hstep
      exact ⟨htidy', fun f' hf' => hfree f' (hrest f' hf').1, hmems'.trans hmems⟩

/-- **A new page**: a frame is taken for it and one for every missing table; it is mapped, and the other
pages are left alone. -/
theorem Tidy.mapFresh (h : Tidy R m) (hr : r ∈ R) (hnone : found m (pageOf r va) = none) {m₁ : Mem}
    (halloc : phyFrameAlloc m = .ok f m₁) {perm : Perm} {u : Unit}
    (hmap : ptMap r va f perm m₁ = .ok u m') : Tidy R m' ∧
      m.freeFrames = m'.freeFrames + 1 + missingTables m r va ∧
      (∀ p, p.InRange R → (tableAt m' p = none ↔ tableAt m p = none ∧ p ∉ tablePath r va)) ∧
      (∃ a, found m' (pageOf r va) = some (a, ⟨{ perm with v := true }, f⟩)) ∧
      ∀ g : Page, g.InRange R → g ≠ pageOf r va → found m' g = found m g := by
  have hg : (pageOf r va).InRange R := inRange_pageOf hr
  obtain ⟨free, ht, hm₁⟩ := phyFrameAlloc_eq_ok halloc
  obtain ⟨htidy, hrest, htables, hfound⟩ := h.take ht (fun _ _ => rfl) hm₁
  have hcount := freeFrames_phyFrameAlloc halloc
  -- taking the frame changed no table, so that as many are missing
  have hneed : missingTables m₁ r va = missingTables m r va := missingTables_congr hr htables
  have hnone₁ : found m₁ (pageOf r va) = none := (hfound _ hg).trans hnone
  obtain ⟨m₁', m₂, a, hold, hw, hinc⟩ := PtOps.map_eq_ok hmap
  -- the page is not mapped, so that nothing is unmapped first
  rw [hnone₁, Option.isSome_none, if_neg (by simp)] at hold
  subst hold
  obtain ⟨htidy₂, hfree₂, htables₂⟩ := htidy.ptWalk_tables hr hw
  obtain ⟨t, ha, htable, hgrows⟩ := PtOps.walk_true sound_ptPhyOps htidy.forest hr (htidy.freshWalk hr) hw
  obtain ⟨-, hsub, hmems₂⟩ := htidy.free_of_grows hgrows
  obtain rfl : a = ⟨t, (pageOf r va).k⟩ := Option.some.inj ha
  have hnot : ¬ m₂.Free f := fun hf => (hrest f (hsub f hf)).2 rfl
  -- the frame is one of the allocator, and its references are counted
  have hpa : pa2frame m₂.mems f = some f := by
    rw [hmems₂, hm₁]
    exact (h.isFrame f (free_of_takeFrame ht)).pa
  have hm' := ptFrameRefInc_eq_ok (by exact hpa) hinc
  obtain ⟨htidy', htables', hself, hothers⟩ :=
    htidy₂.write hg htable hnot (e := ⟨{ perm with v := true }, f⟩) rfl rfl hm'
  refine ⟨htidy', ?_, fun p hp => ?_, ⟨_, hself⟩, fun g hgR hne => ?_⟩
  · have hlast : m'.freeFrames = m₂.freeFrames := by
      rw [hm']
      rfl
    rw [hcount, hfree₂, hneed, hlast]
    omega
  · rw [htables' p hp, htables₂ p hp, htables p hp]
  · rw [hothers g hgR hne, found_of_grows hgrows hgR, hfound g hgR]

/-! ## Stacks -/

section Stacks

variable {pt : PartId} {q : Perm}

theorem stackPage_eq_ok {u : Unit} : stackPage pt va q m = .ok u m' ↔
    ∃ f m₁ m₂, phyFrameAlloc m = .ok f m₁ ∧ ptMap (m.parts pt).paPgdir va f q m₁ = .ok () m₂ ∧
      m' = m₂.updPart pt fun p => { p with paGiven := p.paGiven + 1 } := by
  unfold stackPage
  rw [bind_eq_ok]
  constructor
  · rintro ⟨_, _, hg, h⟩
    obtain ⟨rfl, rfl⟩ := get_eq_ok.mp hg
    obtain ⟨f, m₁, halloc, h⟩ := bind_eq_ok.mp h
    obtain ⟨_, m₂, hmap, h⟩ := bind_eq_ok.mp h
    exact ⟨f, m₁, m₂, halloc, hmap, (modify_eq_ok.mp h).symm⟩
  · rintro ⟨f, m₁, m₂, halloc, hmap, rfl⟩
    exact ⟨m, m, rfl, bind_eq_ok.mpr ⟨f, m₁, halloc, bind_eq_ok.mpr ⟨(), m₂, hmap, rfl⟩⟩⟩

/-- A page of a stack is mapped exactly if there are frames for it and for the missing tables. -/
theorem Tidy.stackPage_succeeds_iff (h : Tidy R m) (hr : (m.parts pt).paPgdir ∈ R)
    (hnone : found m (pageOf (m.parts pt).paPgdir va) = none) :
    (stackPage pt va q).Succeeds m ↔ missingTables m (m.parts pt).paPgdir va < m.freeFrames := by
  have hmap : ∀ f m₁, phyFrameAlloc m = .ok f m₁ →
      ((ptMap (m.parts pt).paPgdir va f q).Succeeds m₁ ↔
        missingTables m (m.parts pt).paPgdir va < m.freeFrames) := by
    intro f m₁ halloc
    obtain ⟨htidy, hfound, htables, -⟩ := h.dataFrame halloc
    have hnone₁ := (hfound _ (inRange_pageOf hr)).trans hnone
    rw [htidy.ptMap_succeeds_iff hr hnone₁, missingTables_congr hr htables, freeFrames_phyFrameAlloc halloc,
      Nat.lt_succ_iff]
  constructor
  · rintro ⟨u, m', hok⟩
    obtain ⟨f, m₁, m₂, halloc, hok, -⟩ := stackPage_eq_ok.mp hok
    exact (hmap f m₁ halloc).mp ⟨(), m₂, hok⟩
  · intro hfree
    obtain ⟨f, m₁, halloc⟩ := phyFrameAlloc_succeeds_iff.mpr (lt_of_le_of_lt (Nat.zero_le _) hfree)
    obtain ⟨⟨⟩, m₂, hok⟩ := (hmap f m₁ halloc).mpr hfree
    exact ⟨(), _, stackPage_eq_ok.mpr ⟨f, m₁, m₂, halloc, hok, rfl⟩⟩

/-- What a page of a stack leaves. -/
theorem Tidy.stackPage_ok (h : Tidy R m) (hr : (m.parts pt).paPgdir ∈ R)
    (hnone : found m (pageOf (m.parts pt).paPgdir va) = none) {u : Unit}
    (hok : stackPage pt va q m = .ok u m') : Tidy R m' ∧
      m'.parts pt = { m.parts pt with paGiven := (m'.parts pt).paGiven } ∧
      (∀ vas, Enough m (m.parts pt).paPgdir (va :: vas) ↔ Enough m' (m.parts pt).paPgdir vas) ∧
      ∀ g : Page, g.InRange R → g ≠ pageOf (m.parts pt).paPgdir va → found m' g = found m g := by
  obtain ⟨f, m₁, m₂, halloc, hmap, rfl⟩ := stackPage_eq_ok.mp hok
  obtain ⟨htidy, hfree, htables, -, hothers⟩ := h.mapFresh hr hnone halloc hmap
  have hsame := (sameParts_ptMap _ va f q (sameParts_phyFrameAlloc (.refl m) halloc) hmap).parts
  refine ⟨htidy.congr rfl rfl rfl rfl, ?_, fun vas => ?_, fun g hg hne => ?_⟩
  · simp only [Mem.updPart, Function.update_self, hsame]
  · exact enough_cons hr (fun p hp => htables p hp) hfree vas
  · exact hothers g hg hne

/-- **The pages of a stack** are mapped exactly if there are enough frames for them all; what is enough for
more pages leaves enough for the others. -/
theorem Tidy.stackPages {ι : Type} {va : ι → Nat} (l : List ι) (h : Tidy R m)
    (hr : (m.parts pt).paPgdir ∈ R)
    (hnodup : (l.map fun i => pageOf (m.parts pt).paPgdir (va i)).Nodup)
    (hnone : ∀ i ∈ l, found m (pageOf (m.parts pt).paPgdir (va i)) = none) :
    ((l.forM fun i => stackPage pt (va i) q : Op Mem Unit).Succeeds m ↔
        Enough m (m.parts pt).paPgdir (l.map va)) ∧
      ∀ u m', l.forM (fun i => stackPage pt (va i) q) m = .ok u m' → Tidy R m' ∧
        m'.parts pt = { m.parts pt with paGiven := (m'.parts pt).paGiven } ∧
        (∀ vas, Enough m (m.parts pt).paPgdir (l.map va ++ vas) ↔ Enough m' (m.parts pt).paPgdir vas) ∧
        ∀ g : Page, g.InRange R → g ∉ (l.map fun i => pageOf (m.parts pt).paPgdir (va i)) →
          found m' g = found m g := by
  induction l generalizing m with
  | nil =>
      refine ⟨iff_of_true ⟨(), m, rfl⟩ (Nat.zero_le _), fun u m' hok => ?_⟩
      obtain ⟨-, rfl⟩ := pure_eq_ok.mp hok
      exact ⟨h, rfl, fun _ => Iff.rfl, fun _ _ _ => rfl⟩
  | cons i l ih =>
      rw [List.map_cons, List.nodup_cons] at hnodup
      obtain ⟨hnone₀, hnone⟩ := List.forall_mem_cons.mp hnone
      -- after the first page the others are as they were
      have hstep : ∀ u m₁, stackPage pt (va i) q m = .ok u m₁ →
          (((l.forM fun i => stackPage pt (va i) q : Op Mem Unit).Succeeds m₁ ↔
            Enough m (m.parts pt).paPgdir ((i :: l).map va)) ∧
          ∀ u m', l.forM (fun i => stackPage pt (va i) q) m₁ = .ok u m' → Tidy R m' ∧
            m'.parts pt = { m.parts pt with paGiven := (m'.parts pt).paGiven } ∧
            (∀ vas, Enough m (m.parts pt).paPgdir ((i :: l).map va ++ vas) ↔
              Enough m' (m.parts pt).paPgdir vas) ∧
            ∀ g : Page, g.InRange R →
              g ∉ ((i :: l).map fun i => pageOf (m.parts pt).paPgdir (va i)) →
                found m' g = found m g) := by
        intro u m₁ hok
        obtain ⟨htidy, hparts, henough, hothers⟩ := h.stackPage_ok hr hnone₀ hok
        have hroot : (m₁.parts pt).paPgdir = (m.parts pt).paPgdir := by rw [hparts]
        have hkeep : ∀ j ∈ l, found m₁ (pageOf (m.parts pt).paPgdir (va j)) = none := by
          intro j hj
          rw [hothers _ (inRange_pageOf hr) fun heq => hnodup.1 (heq ▸ List.mem_map_of_mem hj)]
          exact hnone j hj
        obtain ⟨hiff, hrun⟩ := ih htidy (by rwa [hroot]) (by rw [hroot]; exact hnodup.2)
          (by rw [hroot]; exact hkeep)
        rw [hroot] at hiff hrun
        refine ⟨hiff.trans (henough _).symm, fun u m' hok' => ?_⟩
        obtain ⟨htidy', hparts', henough', hothers'⟩ := hrun u m' hok'
        refine ⟨htidy', hparts'.trans (by rw [hparts]), fun vas => (henough _).trans (henough' vas),
          fun g hg hmem => ?_⟩
        rw [List.map_cons, List.mem_cons, not_or] at hmem
        rw [hothers' g hg hmem.2, hothers g hg hmem.1]
      constructor
      · show (stackPage pt (va i) q >>= fun _ => l.forM fun i => stackPage pt (va i) q).Succeeds m ↔ _
        rw [succeeds_bind]
        constructor
        · rintro ⟨u, m₁, hok, hrest⟩
          exact (hstep u m₁ hok).1.mp hrest
        · intro henough
          obtain ⟨u, m₁, hok⟩ := (h.stackPage_succeeds_iff (q := q) hr hnone₀).mpr henough.head
          exact ⟨u, m₁, hok, (hstep u m₁ hok).1.mpr henough⟩
      · intro u m' hok
        obtain ⟨u', m₁, hfirst, hrest⟩ := bind_eq_ok.mp
          (show (stackPage pt (va i) q >>= fun _ => l.forM fun i => stackPage pt (va i) q) m = _ from hok)
        exact (hstep u' m₁ hfirst).2 u m' hrest

/-- The pages of a stack below `top`. -/
def stackVas (top size : Nat) : List Nat :=
  (pageSteps 0 size).map fun i => wordSub (wordSub top i) pgSize

/-- The pages of the two stacks of a new process. -/
def procVas (m : Mem) (pt : PartId) (stacksize : Nat) : List Nat :=
  stackVas (m.parts pt).paUstasktop (alignUp stacksize pgSize) ++ stackVas (m.parts pt).paXstacktop kstkSize

/-- Nothing is mapped yet where the stacks of a new process go, and they do not overlap. -/
structure StacksClear (m : Mem) (pt : PartId) (stacksize : Nat) : Prop where
  nodup : ((procVas m pt stacksize).map (pageOf (m.parts pt).paPgdir)).Nodup
  unmapped : ∀ va ∈ procVas m pt stacksize, found m (pageOf (m.parts pt).paPgdir va) = none

theorem Enough.of_append {vas' : List Nat} (h : Enough m r (vas ++ vas')) : Enough m r vas := by
  have hsub : missingOf m r vas ⊆ missingOf m r (vas ++ vas') := by
    rw [missingOf, missingOf, List.toFinset_append, Finset.union_biUnion]
    exact Finset.filter_subset_filter _ Finset.subset_union_left
  have hle := Finset.card_le_card hsub
  rw [Enough, tablesNeeded, List.length_append] at h
  rw [Enough, tablesNeeded]
  omega

@[simp] theorem parts_updPart {g : PartMem → PartMem} : (m.updPart pt g).parts pt = g (m.parts pt) := by
  simp [Mem.updPart]

/-- The partition's fields after `proc_ustack_setup`. -/
def chargeUstack (size : Nat) (p : PartMem) : PartMem :=
  { p with
    paUstasktop := wordSub p.paUstasktop ((size + pgSize) % wordSize)
    paMemRem := wordSub p.paMemRem size }

/-- The partition's fields after `proc_xstack_setup`. -/
def chargeXstack (p : PartMem) : PartMem :=
  { p with
    paXstacktop := wordSub p.paXstacktop (kstkSize + pgSize)
    paMemRem := wordSub p.paMemRem kstkSize }

theorem procUstackSetup_eq_ok {size top : Nat} : procUstackSetup pt size m = .ok top m' ↔
    ∃ u m₁, (pageSteps 0 size).forM (fun i =>
        stackPage pt (wordSub (wordSub (m.parts pt).paUstasktop i) pgSize) ustackPerm) m = .ok u m₁ ∧
      m' = m₁.updPart pt (chargeUstack size) ∧ top = (m.parts pt).paUstasktop := by
  constructor
  · intro h
    obtain ⟨_, _, hg, h⟩ := bind_eq_ok.mp h
    obtain ⟨rfl, rfl⟩ := get_eq_ok.mp hg
    obtain ⟨u, m₁, hpages, h⟩ := bind_eq_ok.mp h
    obtain ⟨_, _, hm, h⟩ := bind_eq_ok.mp h
    obtain ⟨rfl, rfl⟩ := pure_eq_ok.mp h
    exact ⟨u, m₁, hpages, (modify_eq_ok.mp hm).symm, rfl⟩
  · rintro ⟨u, m₁, hpages, rfl, rfl⟩
    exact bind_eq_ok.mpr ⟨m, m, rfl, bind_eq_ok.mpr ⟨u, m₁, hpages, bind_eq_ok.mpr ⟨(), _, rfl, rfl⟩⟩⟩

theorem procXstackSetup_eq_ok {top : Nat} : procXstackSetup pt m = .ok top m' ↔
    ∃ u m₁, (pageSteps 0 kstkSize).forM (fun i =>
        stackPage pt (wordSub (wordSub (m.parts pt).paXstacktop i) pgSize) xstackPerm) m = .ok u m₁ ∧
      m' = m₁.updPart pt chargeXstack ∧ top = (m.parts pt).paXstacktop := by
  constructor
  · intro h
    obtain ⟨_, _, hg, h⟩ := bind_eq_ok.mp h
    obtain ⟨rfl, rfl⟩ := get_eq_ok.mp hg
    obtain ⟨u, m₁, hpages, h⟩ := bind_eq_ok.mp h
    obtain ⟨_, _, hm, h⟩ := bind_eq_ok.mp h
    obtain ⟨rfl, rfl⟩ := pure_eq_ok.mp h
    exact ⟨u, m₁, hpages, (modify_eq_ok.mp hm).symm, rfl⟩
  · rintro ⟨u, m₁, hpages, rfl, rfl⟩
    exact bind_eq_ok.mpr ⟨m, m, rfl, bind_eq_ok.mpr ⟨u, m₁, hpages, bind_eq_ok.mpr ⟨(), _, rfl, rfl⟩⟩⟩

/-- The two stacks, one after the other. -/
theorem procAllocMem_eq_ok {stacksize : Nat} {stk : Stacks} :
    procAllocMem pt stacksize m = .ok stk m' ↔ alignUp stacksize pgSize ≤ (m.parts pt).paMemRem ∧
      ∃ utop m₂ xtop, procUstackSetup pt (alignUp stacksize pgSize) m = .ok utop m₂ ∧
        procXstackSetup pt m₂ = .ok xtop m' ∧ stk = ⟨utop, alignUp stacksize pgSize, xtop⟩ := by
  constructor
  · intro h
    obtain ⟨_, _, hg, h⟩ := bind_eq_ok.mp h
    obtain ⟨rfl, rfl⟩ := get_eq_ok.mp hg
    split at h
    · exact (fail_eq_ok.mp h).elim
    rename_i hrem
    obtain ⟨utop, m₂, hu, h⟩ := bind_eq_ok.mp h
    obtain ⟨xtop, m₃, hx, h⟩ := bind_eq_ok.mp h
    obtain ⟨rfl, rfl⟩ := pure_eq_ok.mp h
    exact ⟨not_lt.mp hrem, utop, m₂, xtop, panicE_eq_ok.mp hu, panicE_eq_ok.mp hx, rfl⟩
  · rintro ⟨hrem, utop, m₂, xtop, hu, hx, rfl⟩
    refine bind_eq_ok.mpr ⟨m, m, rfl, ?_⟩
    rw [if_neg (not_lt.mpr hrem)]
    exact bind_eq_ok.mpr ⟨utop, m₂, panicE_eq_ok.mpr hu,
      bind_eq_ok.mpr ⟨xtop, m', panicE_eq_ok.mpr hx, rfl⟩⟩

/-- **The user stack** in a memory where its pages are not mapped. -/
theorem Tidy.procUstackSetup_runs {size : Nat} (h : Tidy R m) (hr : (m.parts pt).paPgdir ∈ R)
    (hnodup : ((stackVas (m.parts pt).paUstasktop size).map (pageOf (m.parts pt).paPgdir)).Nodup)
    (hnone : ∀ va ∈ stackVas (m.parts pt).paUstasktop size,
      found m (pageOf (m.parts pt).paPgdir va) = none) :
    ((procUstackSetup pt size).Succeeds m ↔
        Enough m (m.parts pt).paPgdir (stackVas (m.parts pt).paUstasktop size)) ∧
      ∀ top m', procUstackSetup pt size m = .ok top m' → Tidy R m' ∧
        m'.parts pt = { chargeUstack size (m.parts pt) with paGiven := (m'.parts pt).paGiven } ∧
        (∀ vas, Enough m (m.parts pt).paPgdir (stackVas (m.parts pt).paUstasktop size ++ vas) ↔
          Enough m' (m.parts pt).paPgdir vas) ∧
        ∀ g : Page, g.InRange R →
          g ∉ (stackVas (m.parts pt).paUstasktop size).map (pageOf (m.parts pt).paPgdir) →
            found m' g = found m g := by
  rw [stackVas, List.map_map] at hnodup
  rw [stackVas, List.forall_mem_map] at hnone
  obtain ⟨hiff, hrun⟩ := h.stackPages (q := ustackPerm) (pageSteps 0 size) hr hnodup hnone
  constructor
  · refine Iff.trans ⟨?_, ?_⟩ hiff
    · rintro ⟨top, m', hok⟩
      obtain ⟨u, m₁, hpages, -⟩ := procUstackSetup_eq_ok.mp hok
      exact ⟨u, m₁, hpages⟩
    · rintro ⟨u, m₁, hpages⟩
      exact ⟨_, _, procUstackSetup_eq_ok.mpr ⟨u, m₁, hpages, rfl, rfl⟩⟩
  · intro top m' hok
    obtain ⟨u, m₁, hpages, rfl, -⟩ := procUstackSetup_eq_ok.mp hok
    obtain ⟨htidy, hparts, henough, hothers⟩ := hrun u m₁ hpages
    refine ⟨htidy.congr rfl rfl rfl rfl, ?_, henough, fun g hg hmem => ?_⟩
    · rw [parts_updPart, hparts]
      rfl
    · rw [stackVas, List.map_map] at hmem
      exact (found_of_ram rfl g).trans (hothers g hg hmem)

/-- **The kernel stack** in a memory where its pages are not mapped. -/
theorem Tidy.procXstackSetup_runs (h : Tidy R m) (hr : (m.parts pt).paPgdir ∈ R)
    (hnodup : ((stackVas (m.parts pt).paXstacktop kstkSize).map (pageOf (m.parts pt).paPgdir)).Nodup)
    (hnone : ∀ va ∈ stackVas (m.parts pt).paXstacktop kstkSize,
      found m (pageOf (m.parts pt).paPgdir va) = none) :
    ((procXstackSetup pt).Succeeds m ↔
        Enough m (m.parts pt).paPgdir (stackVas (m.parts pt).paXstacktop kstkSize)) ∧
      ∀ top m', procXstackSetup pt m = .ok top m' → Tidy R m' ∧
        m'.parts pt = { chargeXstack (m.parts pt) with paGiven := (m'.parts pt).paGiven } ∧
        (∀ vas, Enough m (m.parts pt).paPgdir (stackVas (m.parts pt).paXstacktop kstkSize ++ vas) ↔
          Enough m' (m.parts pt).paPgdir vas) ∧
        ∀ g : Page, g.InRange R →
          g ∉ (stackVas (m.parts pt).paXstacktop kstkSize).map (pageOf (m.parts pt).paPgdir) →
            found m' g = found m g := by
  rw [stackVas, List.map_map] at hnodup
  rw [stackVas, List.forall_mem_map] at hnone
  obtain ⟨hiff, hrun⟩ := h.stackPages (q := xstackPerm) (pageSteps 0 kstkSize) hr hnodup hnone
  constructor
  · refine Iff.trans ⟨?_, ?_⟩ hiff
    · rintro ⟨top, m', hok⟩
      obtain ⟨u, m₁, hpages, -⟩ := procXstackSetup_eq_ok.mp hok
      exact ⟨u, m₁, hpages⟩
    · rintro ⟨u, m₁, hpages⟩
      exact ⟨_, _, procXstackSetup_eq_ok.mpr ⟨u, m₁, hpages, rfl, rfl⟩⟩
  · intro top m' hok
    obtain ⟨u, m₁, hpages, rfl, -⟩ := procXstackSetup_eq_ok.mp hok
    obtain ⟨htidy, hparts, henough, hothers⟩ := hrun u m₁ hpages
    refine ⟨htidy.congr rfl rfl rfl rfl, ?_, henough, fun g hg hmem => ?_⟩
    · rw [parts_updPart, hparts]
      rfl
    · rw [stackVas, List.map_map] at hmem
      exact (found_of_ram rfl g).trans (hothers g hg hmem)

/-- The memory between the two stacks: the kernel stack can be set up in it as it could before. -/
theorem Tidy.between_stacks {stacksize top : Nat} {m₂ : Mem} (h : Tidy R m)
    (hr : (m.parts pt).paPgdir ∈ R) (hclear : StacksClear m pt stacksize)
    (hok : procUstackSetup pt (alignUp stacksize pgSize) m = .ok top m₂) : Tidy R m₂ ∧
      m₂.parts pt = { chargeUstack (alignUp stacksize pgSize) (m.parts pt) with
        paGiven := (m₂.parts pt).paGiven } ∧
      (∀ vas, Enough m (m.parts pt).paPgdir (procVas m pt stacksize ++ vas) ↔
        Enough m₂ (m.parts pt).paPgdir (stackVas (m.parts pt).paXstacktop kstkSize ++ vas)) ∧
      ((stackVas (m.parts pt).paXstacktop kstkSize).map (pageOf (m.parts pt).paPgdir)).Nodup ∧
      (∀ va ∈ stackVas (m.parts pt).paXstacktop kstkSize,
        found m₂ (pageOf (m.parts pt).paPgdir va) = none) ∧
      ∀ g : Page, g.InRange R → g ∉ (procVas m pt stacksize).map (pageOf (m.parts pt).paPgdir) →
        found m₂ g = found m g := by
  obtain ⟨hnodup, hnone⟩ := hclear
  rw [procVas, List.map_append, List.nodup_append] at hnodup
  obtain ⟨hnodupU, hnodupX, hdisj⟩ := hnodup
  rw [procVas, List.forall_mem_append] at hnone
  obtain ⟨hnoneU, hnoneX⟩ := hnone
  obtain ⟨htidy, hparts, henough, hothers⟩ := (h.procUstackSetup_runs hr hnodupU hnoneU).2 top m₂ hok
  refine ⟨htidy, hparts, fun vas => ?_, hnodupX, fun va hva => ?_, fun g hg hmem => hothers g hg ?_⟩
  · rw [procVas, List.append_assoc]
    exact henough _
  · rw [hothers _ (inRange_pageOf hr) fun hmem => hdisj _ hmem _ (List.mem_map_of_mem hva) rfl]
    exact hnoneX va hva
  · rw [procVas, List.map_append, List.mem_append, not_or] at hmem
    exact hmem.1

/-- **The stacks of a new process** that the budget admits are mapped exactly if there are enough frames for
their pages and for the missing tables. -/
theorem Tidy.procAllocMem_succeeds_iff {stacksize : Nat} (h : Tidy R m) (hr : (m.parts pt).paPgdir ∈ R)
    (hclear : StacksClear m pt stacksize) (hrem : alignUp stacksize pgSize ≤ (m.parts pt).paMemRem) :
    (procAllocMem pt stacksize).Succeeds m ↔
      Enough m (m.parts pt).paPgdir (procVas m pt stacksize) := by
  -- the kernel stack, in the memory that the user stack leaves
  have hxstack : ∀ top m₂, procUstackSetup pt (alignUp stacksize pgSize) m = .ok top m₂ →
      ((procXstackSetup pt).Succeeds m₂ ↔ Enough m (m.parts pt).paPgdir (procVas m pt stacksize)) := by
    intro top m₂ hok
    obtain ⟨htidy, hparts, henough, hnodup, hnone, -⟩ := h.between_stacks hr hclear hok
    have hroot : (m₂.parts pt).paPgdir = (m.parts pt).paPgdir := by rw [hparts]; rfl
    have htop : (m₂.parts pt).paXstacktop = (m.parts pt).paXstacktop := by rw [hparts]; rfl
    have hr₂ : (m₂.parts pt).paPgdir ∈ R := by rwa [hroot]
    have hiff := (htidy.procXstackSetup_runs hr₂ (by rwa [hroot, htop]) (by rwa [hroot, htop])).1
    rw [hroot, htop] at hiff
    have hneed := henough []
    rw [List.append_nil, List.append_nil] at hneed
    exact hiff.trans hneed.symm
  obtain ⟨hnodup, hnone⟩ := hclear
  rw [procVas, List.map_append, List.nodup_append] at hnodup
  rw [procVas, List.forall_mem_append] at hnone
  have hiffU := (h.procUstackSetup_runs hr hnodup.1 hnone.1).1
  constructor
  · rintro ⟨stk, m', hok⟩
    obtain ⟨-, utop, m₂, xtop, hu, hx, -⟩ := procAllocMem_eq_ok.mp hok
    exact (hxstack utop m₂ hu).mp ⟨xtop, m', hx⟩
  · intro henough
    obtain ⟨utop, m₂, hu⟩ := hiffU.mpr henough.of_append
    obtain ⟨xtop, m', hx⟩ := (hxstack utop m₂ hu).mpr henough
    exact ⟨_, m', procAllocMem_eq_ok.mpr ⟨hrem, utop, m₂, xtop, hu, hx, rfl⟩⟩

/-- **What the stacks of a new process leave**: what is enough for them and for more pages leaves enough for
the others. -/
theorem Tidy.procAllocMem_ok {stacksize : Nat} {stk : Stacks} (h : Tidy R m)
    (hr : (m.parts pt).paPgdir ∈ R) (hclear : StacksClear m pt stacksize)
    (hok : procAllocMem pt stacksize m = .ok stk m') : Tidy R m' ∧
      m'.parts pt = { chargeXstack (chargeUstack (alignUp stacksize pgSize) (m.parts pt)) with
        paGiven := (m'.parts pt).paGiven } ∧
      (∀ vas, Enough m (m.parts pt).paPgdir (procVas m pt stacksize ++ vas) ↔
        Enough m' (m.parts pt).paPgdir vas) ∧
      ∀ g : Page, g.InRange R → g ∉ (procVas m pt stacksize).map (pageOf (m.parts pt).paPgdir) →
        found m' g = found m g := by
  obtain ⟨-, utop, m₂, xtop, hu, hx, -⟩ := procAllocMem_eq_ok.mp hok
  obtain ⟨htidy, hparts, henough, hnodup, hnone, hothers⟩ := h.between_stacks hr hclear hu
  have hroot : (m₂.parts pt).paPgdir = (m.parts pt).paPgdir := by rw [hparts]; rfl
  have htop : (m₂.parts pt).paXstacktop = (m.parts pt).paXstacktop := by rw [hparts]; rfl
  have hr₂ : (m₂.parts pt).paPgdir ∈ R := by rwa [hroot]
  obtain ⟨htidy', hparts', henough', hothers'⟩ :=
    (htidy.procXstackSetup_runs hr₂ (by rwa [hroot, htop]) (by rwa [hroot, htop])).2 xtop m' hx
  rw [hroot, htop] at henough' hothers'
  refine ⟨htidy', hparts'.trans (by rw [hparts]; rfl), fun vas => (henough vas).trans (henough' vas),
    fun g hg hmem => ?_⟩
  rw [hothers' g hg, hothers g hg hmem]
  intro hmem'
  rw [procVas, List.map_append, List.mem_append, not_or] at hmem
  exact hmem.2 hmem'

/-- Without enough frames a creation that the budget admits stops the system. -/
theorem procAllocMem_ne_err {stacksize : Nat} (hrem : alignUp stacksize pgSize ≤ (m.parts pt).paMemRem) :
    procAllocMem pt stacksize m ≠ .err m' := by
  intro herr
  unfold procAllocMem at herr
  rcases bind_eq_err.mp herr with hg | ⟨_, _, hg, herr⟩
  · simp [Op.get] at hg
  obtain ⟨rfl, rfl⟩ := get_eq_ok.mp hg
  rw [if_neg (not_lt.mpr hrem)] at herr
  rcases bind_eq_err.mp herr with hu | ⟨_, _, -, herr⟩
  · exact panicE_ne_err hu
  rcases bind_eq_err.mp herr with hx | ⟨_, _, -, herr⟩
  · exact panicE_ne_err hx
  · exact absurd herr (by simp [pure, Op.pure])

/-- A refused creation leaves the memory alone. -/
theorem procAllocMem_eq_err {stacksize : Nat} (h : procAllocMem pt stacksize m = .err m') : m' = m := by
  by_cases hrem : (m.parts pt).paMemRem < alignUp stacksize pgSize
  · unfold procAllocMem at h
    rcases bind_eq_err.mp h with hg | ⟨_, _, hg, h⟩
    · simp [Op.get] at hg
    obtain ⟨rfl, rfl⟩ := get_eq_ok.mp hg
    rw [if_pos hrem, Op.fail, Res.err.injEq] at h
    exact h.symm
  · exact absurd h (procAllocMem_ne_err (not_lt.mp hrem))

end Stacks

end Jrinx
