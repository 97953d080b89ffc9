import Jrinx.Lib.Runs
import Jrinx.Mm.Tree

/-! # The page-table operations on trees

What `pt_walk`, `pt_lookup`, `pt_unmap` and `pt_map` do to the trees, for any frame allocator.

* **`PtOps.walk_false`**, **`PtOps.lookup_eq`** — a walk that creates nothing, and what it finds.
* **`Grow`**, **`PtOps.walk_true`** — a walk that creates tables, as one link after the other.
* **`PtOps.map_found`**, **`PtOps.unmap_found`** — one page changes.
* **`page_tables_refine_map`** — over every sequence of calls the tables are a finite map. -/

namespace Jrinx

open Op Relation

/-- What the page tables rely on: a new frame is zeroed, and only its contents change. -/
structure PtOps.Sound (o : PtOps) : Prop where
  alloc : ∀ m f m', o.frameAlloc m = .ok f m' →
    m'.ram = Function.update m.ram f (fun _ => Pte.zero)
  refInc : ∀ f m u m', o.frameRefInc f m = .ok u m' → m'.ram = m.ram
  refDec : ∀ f m u m', o.frameRefDec f m = .ok u m' → m'.ram = m.ram

variable {o : PtOps} {R : Finset Ppn} {m m' : Mem} {r f t : Ppn} {va : Nat}

/-! ## Lookups -/

theorem PtOps.walk_false (o : PtOps) (r : Ppn) (va : Nat) (m : Mem) :
    o.walk r va false m =
      .ok ((tableAt m (pageOf r va).slot).map fun t => ⟨t, vpn0 va⟩) m := by
  simp only [PtOps.walk, PtOps.walkMid, pageOf, Page.slot, tableAt, Pte.target, bind, Op.bind, Op.get]
  by_cases htop : (m.pte ⟨r, vpn2 va⟩).perm.v = true
  · by_cases hmid : (m.pte ⟨(m.pte ⟨r, vpn2 va⟩).ppn, vpn1 va⟩).perm.v = true
    · simp [htop, hmid, pure, Op.pure, Op.bind, Op.get]
    · simp [htop, hmid, pure, Op.pure, Op.bind, Op.get]
  · simp [htop, pure, Op.pure]

/-- **`pt_lookup`** changes nothing and yields the place of the valid entry that maps the page. -/
theorem PtOps.lookup_eq (o : PtOps) (r : Ppn) (va : Nat) (m : Mem) :
    o.lookup r va m = .ok ((found m (pageOf r va)).map Prod.fst) m := by
  simp only [PtOps.lookup, bind, Op.bind, Op.get, PtOps.walk_false]
  cases ht : tableAt m (pageOf r va).slot with
  | none => simp [found_of_none ht, pure, Op.pure]
  | some t =>
      rw [found_of_some ht]
      simp only [Option.map_some, pure, Op.pure, pageOf]
      by_cases hv : (m.pte ⟨t, vpn0 va⟩).perm.v = true
      · simp [hv]
      · simp [hv]

/-! ## Walks that create tables -/

/-- The frames that the second half of the walk allocates are fresh. -/
def PtOps.FreshMid (o : PtOps) (R : Finset Ppn) (mid : Ppn) (va : Nat) (m : Mem) : Prop :=
  (m.pte ⟨mid, vpn1 va⟩).perm.v = false → ∀ f m', o.frameAlloc m = .ok f m' → Fresh R m f

/-- **The frames that a walk allocates are fresh**: they serve as no table when they are allocated. -/
def PtOps.FreshWalk (o : PtOps) (R : Finset Ppn) (r : Ppn) (va : Nat) (m : Mem) : Prop :=
  if (m.pte ⟨r, vpn2 va⟩).perm.v = true then o.FreshMid R (m.pte ⟨r, vpn2 va⟩).ppn va m
  else ∀ f m', o.frameAlloc m = .ok f m' →
    Fresh R m f ∧ o.FreshMid R f va (m'.setPte ⟨r, vpn2 va⟩ (tablePte f))

/-- A fresh frame is allocated and linked as a table. -/
inductive Grow (o : PtOps) (R : Finset Ppn) (m m' : Mem) : Prop
  | mk (f : Ppn) (m₁ : Mem) (a : PteAddr) (q : TableSlot) (alloc : o.frameAlloc m = .ok f m₁)
      (fresh : Fresh R m f) (eq : m' = m₁.setPte a (tablePte f)) (inRange : q.InRange R)
      (linked : Linked R m m' q f) : Grow o R m m'

theorem Grow.forest (h : Grow o R m m') (hf : Forest R m) : Forest R m' := by
  obtain ⟨f, m₁, a, q, -, hfresh, -, -, hlinked⟩ := h
  exact hlinked.forest hf hfresh

theorem Grow.found (h : Grow o R m m') {g : Page} (hg : g.InRange R) : found m' g = found m g := by
  obtain ⟨f, m₁, a, q, -, -, -, -, hlinked⟩ := h
  exact hlinked.found g hg

theorem forest_of_grows (h : ReflTransGen (Grow o R) m m') (hf : Forest R m) : Forest R m' := by
  induction h with
  | refl => exact hf
  | tail _ hstep ih => exact hstep.forest ih

theorem found_of_grows (h : ReflTransGen (Grow o R) m m') {g : Page} (hg : g.InRange R) :
    found m' g = found m g := by
  induction h with
  | refl => rfl
  | tail _ hstep ih => exact (hstep.found hg).trans ih

/-- An allocation and the link after it, seen from before the allocation. -/
theorem Linked.of_alloc {m₁ : Mem} {q : TableSlot} (h : Linked R m₁ m' q f) (hq : q.InRange R)
    (htables : ∀ p, p.InRange R → tableAt m₁ p = tableAt m p)
    (hfound : ∀ g : Page, g.InRange R → Jrinx.found m₁ g = Jrinx.found m g) : Linked R m m' q f := by
  constructor
  · rw [← htables q hq]
    exact h.old
  · intro p hp
    rw [h.tables p hp, htables p hp]
  · intro g hg
    rw [h.found g hg, hfound g hg]

theorem grow_mid (ho : o.Sound) (hf : Forest R m) (hr : r ∈ R) {i : Nat} (hi : i < 512)
    (hinv : (m.pte ⟨r, i⟩).perm.v = false) (hfresh : Fresh R m f) {m₁ : Mem}
    (halloc : o.frameAlloc m = .ok f m₁) :
    Linked R m (m₁.setPte ⟨r, i⟩ (tablePte f)) (.mid r i) f := by
  obtain ⟨hf₁, htables, hfound, hzero⟩ := hf.alloc hfresh (ho.alloc m f m₁ halloc)
  have hfr : r ≠ f := fun heq => hfresh (.root r) hr (by rw [heq]; rfl)
  have hinv₁ : (m₁.pte ⟨r, i⟩).perm.v = false := by
    rw [Mem.pte, ho.alloc m f m₁ halloc, Function.update_of_ne hfr]
    exact hinv
  have hfresh₁ : Fresh R m₁ f := fun p hp => by
    rw [htables p hp]
    exact hfresh p hp
  exact (hf₁.linkMid hr hi hinv₁ hfresh₁ hzero).of_alloc ⟨hr, hi⟩ htables hfound

theorem grow_leaf (ho : o.Sound) (hf : Forest R m) (hr : r ∈ R) {i j : Nat} (hi : i < 512)
    (hj : j < 512) (hmid : tableAt m (.mid r i) = some t) (hinv : (m.pte ⟨t, j⟩).perm.v = false)
    (hfresh : Fresh R m f) {m₁ : Mem} (halloc : o.frameAlloc m = .ok f m₁) :
    Linked R m (m₁.setPte ⟨t, j⟩ (tablePte f)) (.leaf r i j) f := by
  obtain ⟨hf₁, htables, hfound, hzero⟩ := hf.alloc hfresh (ho.alloc m f m₁ halloc)
  have hft : t ≠ f := fun heq => hfresh (.mid r i) ⟨hr, hi⟩ (heq ▸ hmid)
  have hinv₁ : (m₁.pte ⟨t, j⟩).perm.v = false := by
    rw [Mem.pte, ho.alloc m f m₁ halloc, Function.update_of_ne hft]
    exact hinv
  have hfresh₁ : Fresh R m₁ f := fun p hp => by
    rw [htables p hp]
    exact hfresh p hp
  have hmid₁ : tableAt m₁ (.mid r i) = some t := by
    rw [htables (.mid r i) ⟨hr, hi⟩, hmid]
  exact (hf₁.linkLeaf hr hi hj hmid₁ hinv₁ hfresh₁ hzero).of_alloc ⟨hr, hi, hj⟩ htables hfound

/-- The second half of a walk that creates tables. -/
theorem PtOps.walkMid_true (ho : o.Sound) (hf : Forest R m) (hr : r ∈ R) {mid pa1 : Ppn}
    (hmid : tableAt m (.mid r (vpn2 va)) = some mid) (hfresh : o.FreshMid R mid va m)
    {pte : Option PteAddr} (h : o.walkMid mid va true pa1 m = .ok pte m') :
    ∃ t, pte = some ⟨t, vpn0 va⟩ ∧ tableAt m' (pageOf r va).slot = some t ∧
      ReflTransGen (Grow o R) m m' := by
  -- the table of the page is the one that the middle table points to
  have hleaf : ∀ m'', tableAt m'' (.mid r (vpn2 va)) = some mid →
      tableAt m'' (pageOf r va).slot = (m''.pte ⟨mid, vpn1 va⟩).target := by
    intro m'' hm
    rw [pageOf, Page.slot, tableAt, show (m''.pte ⟨r, vpn2 va⟩).target = some mid from hm,
      Option.bind_some]
  unfold PtOps.walkMid at h
  obtain ⟨_, _, hg, h⟩ := bind_eq_ok.mp h
  obtain ⟨rfl, rfl⟩ := get_eq_ok.mp hg
  split at h
  · rename_i hv
    obtain ⟨rfl, rfl⟩ := pure_eq_ok.mp h
    refine ⟨_, rfl, ?_, ReflTransGen.refl⟩
    -- it is there
    rw [hleaf m hmid, Pte.target, if_pos hv]
  · rename_i hv
    -- it is not, and is allocated and linked
    have hinv : (m.pte ⟨mid, vpn1 va⟩).perm.v = false := by simpa using hv
    rw [if_pos rfl] at h
    obtain ⟨f, m₁, ha, h⟩ := bind_eq_ok.mp h
    have halloc := catchE_eq_ok_of_fails (o.undo_fails pa1) ha
    obtain ⟨_, m₂, hset, h⟩ := bind_eq_ok.mp h
    obtain ⟨rfl, rfl⟩ := pure_eq_ok.mp h
    rw [modify_eq_ok] at hset
    have hnew := hfresh hinv f m₁ halloc
    have hlinked := grow_leaf ho hf hr (vpn2_lt va) (vpn1_lt va) hmid hinv hnew halloc
    have hslot : (pageOf r va).slot.InRange R := (inRange_pageOf hr).slot
    refine ⟨f, rfl, ?_, ?_⟩
    · rw [← hset, hlinked.tables _ hslot, pageOf, Page.slot, if_pos rfl]
    · refine ReflTransGen.single ⟨f, m₁, _, _, halloc, hnew, hset.symm, hslot, ?_⟩
      rw [← hset]
      exact hlinked

/-- **A walk that creates tables** ends at the entry of the page, and all it did was to allocate
tables and to link them. -/
theorem PtOps.walk_true (ho : o.Sound) (hf : Forest R m) (hr : r ∈ R)
    (hfresh : o.FreshWalk R r va m) {pte : Option PteAddr}
    (h : o.walk r va true m = .ok pte m') :
    ∃ t, pte = some ⟨t, vpn0 va⟩ ∧ tableAt m' (pageOf r va).slot = some t ∧
      ReflTransGen (Grow o R) m m' := by
  unfold PtOps.FreshWalk at hfresh
  unfold PtOps.walk at h
  obtain ⟨_, _, hg, h⟩ := bind_eq_ok.mp h
  obtain ⟨rfl, rfl⟩ := get_eq_ok.mp hg
  split at h
  · rename_i hv
    rw [if_pos hv] at hfresh
    -- the middle table is there
    have hmid : tableAt m (.mid r (vpn2 va)) = some (m.pte ⟨r, vpn2 va⟩).ppn := by
      rw [tableAt, Pte.target, if_pos hv]
    exact PtOps.walkMid_true ho hf hr hmid hfresh h
  · rename_i hv
    rw [if_neg hv] at hfresh
    -- it is not, and is allocated and linked
    have hinv : (m.pte ⟨r, vpn2 va⟩).perm.v = false := by simpa using hv
    rw [if_pos rfl] at h
    obtain ⟨f, m₁, halloc, h⟩ := bind_eq_ok.mp h
    obtain ⟨_, m₂, hset, h⟩ := bind_eq_ok.mp h
    rw [modify_eq_ok] at hset
    subst hset
    obtain ⟨hnew, hnext⟩ := hfresh f m₁ halloc
    have hlinked := grow_mid ho hf hr (vpn2_lt va) hinv hnew halloc
    have hmid := hlinked.tables (.mid r (vpn2 va)) ⟨hr, vpn2_lt va⟩
    rw [if_pos rfl] at hmid
    have hgrow : Grow o R m (m₁.setPte ⟨r, vpn2 va⟩ (tablePte f)) :=
      ⟨f, m₁, _, .mid r (vpn2 va), halloc, hnew, rfl, ⟨hr, vpn2_lt va⟩, hlinked⟩
    obtain ⟨t, hpte, ht, hgrows⟩ :=
      PtOps.walkMid_true ho (hgrow.forest hf) hr hmid hnext h
    exact ⟨t, hpte, ht, ReflTransGen.head hgrow hgrows⟩

/-- A walk to a bottom table that exists creates nothing. -/
theorem PtOps.walk_of_table (h : tableAt m (pageOf r va).slot = some t) (create : Bool) :
    o.walk r va create m = .ok (some ⟨t, vpn0 va⟩) m := by
  simp only [pageOf, Page.slot, tableAt, Pte.target] at h
  by_cases htop : (m.pte ⟨r, vpn2 va⟩).perm.v = true
  · by_cases hmid : (m.pte ⟨(m.pte ⟨r, vpn2 va⟩).ppn, vpn1 va⟩).perm.v = true
    · simp only [htop, hmid, if_true, Option.bind_some, Option.some.injEq] at h
      simp [PtOps.walk, PtOps.walkMid, bind, Op.bind, Op.get, pure, Op.pure, htop, hmid, h]
    · simp [htop, hmid] at h
  · simp [htop] at h

/-! ## Unmapping and mapping -/

theorem found_eq_some {g : Page} {a : PteAddr} {e : Pte} (h : found m g = some (a, e)) :
    tableAt m g.slot = some a.table ∧ a = ⟨a.table, g.k⟩ ∧ e = m.pte a ∧ e.perm.v = true := by
  cases ht : tableAt m g.slot with
  | none => simp [found_of_none ht] at h
  | some t =>
      rw [found_of_some ht] at h
      split at h
      · rename_i hv
        rw [Option.some.injEq, Prod.mk.injEq] at h
        obtain ⟨rfl, rfl⟩ := h
        exact ⟨rfl, rfl, rfl, hv⟩
      · exact absurd h (by simp)

theorem PtOps.unmap_eq_ok {u : Unit} (h : o.unmap r va m = .ok u m') :
    (found m (pageOf r va) = none ∧ m' = m) ∨
      ∃ a e m₁, found m (pageOf r va) = some (a, e) ∧ o.frameRefDec e.ppn m = .ok () m₁ ∧
        m' = m₁.setPte a Pte.zero := by
  unfold PtOps.unmap at h
  obtain ⟨pte, m₀, hl, h⟩ := bind_eq_ok.mp h
  rw [PtOps.lookup_eq, Res.ok.injEq] at hl
  obtain ⟨rfl, rfl⟩ := hl
  cases hfound : found m (pageOf r va) with
  | none =>
      rw [hfound] at h
      obtain ⟨-, rfl⟩ := pure_eq_ok.mp h
      exact Or.inl ⟨rfl, rfl⟩
  | some x =>
      obtain ⟨a, e⟩ := x
      rw [hfound] at h
      obtain ⟨_, _, hg, h⟩ := bind_eq_ok.mp h
      obtain ⟨rfl, rfl⟩ := get_eq_ok.mp hg
      obtain ⟨_, m₁, hdec, h⟩ := bind_eq_ok.mp h
      rw [modify_eq_ok] at h
      rw [← (found_eq_some hfound).2.2.1] at hdec
      exact Or.inr ⟨a, e, m₁, rfl, hdec, h.symm⟩

/-- The second half of `pt_map`, the same in every case. -/
def PtOps.mapEntry (o : PtOps) (r : Ppn) (va : Nat) (ppn : Ppn) (perm : Perm) : Op Mem Unit := do
  let pte ← o.walk r va true
  match pte with
  | none => Op.halt
  | some a => do
      Op.modify fun m => m.setPte a ⟨{ perm with v := true }, ppn⟩
      Op.panicE (o.frameRefInc ppn)

theorem PtOps.mapEntry_eq_ok {ppn : Ppn} {perm : Perm} {u : Unit}
    (h : o.mapEntry r va ppn perm m = .ok u m') :
    ∃ m₁ a, o.walk r va true m = .ok (some a) m₁ ∧
      o.frameRefInc ppn (m₁.setPte a ⟨{ perm with v := true }, ppn⟩) = .ok u m' := by
  obtain ⟨pte, m₁, hw, h⟩ := bind_eq_ok.mp h
  cases pte with
  | none => exact (halt_eq_ok.mp h).elim
  | some a =>
      obtain ⟨_, m₂, hset, h⟩ := bind_eq_ok.mp h
      rw [modify_eq_ok] at hset
      subst hset
      exact ⟨m₁, a, hw, panicE_eq_ok.mp h⟩

/-- `pt_map` in its parts: the old mapping goes, the walk creates the tables, the entry is written. -/
theorem PtOps.map_eq_ok {ppn : Ppn} {perm : Perm} {u : Unit}
    (h : o.map r va ppn perm m = .ok u m') :
    ∃ m₁ m₂ a, (if (found m (pageOf r va)).isSome = true then o.unmap r va m = .ok () m₁
        else m₁ = m) ∧ o.walk r va true m₁ = .ok (some a) m₂ ∧
      o.frameRefInc ppn (m₂.setPte a ⟨{ perm with v := true }, ppn⟩) = .ok u m' := by
  unfold PtOps.map at h
  obtain ⟨pte, m₀, hw, h⟩ := bind_eq_ok.mp h
  rw [PtOps.walk_false, Res.ok.injEq] at hw
  obtain ⟨rfl, rfl⟩ := hw
  obtain ⟨_, _, hg, h⟩ := bind_eq_ok.mp h
  obtain ⟨rfl, rfl⟩ := get_eq_ok.mp hg
  cases ht : tableAt m (pageOf r va).slot with
  -- there is no table, and so nothing to unmap
  | none =>
      rw [ht] at h
      obtain ⟨m₂, a, hw, hinc⟩ := PtOps.mapEntry_eq_ok h
      exact ⟨m, m₂, a, by simp [found_of_none ht], hw, hinc⟩
  | some t =>
      rw [ht] at h
      dsimp only [Option.map_some] at h
      split at h
      · rename_i hv
        obtain ⟨_, m₁, hu, h⟩ := bind_eq_ok.mp h
        obtain ⟨m₂, a, hw, hinc⟩ := PtOps.mapEntry_eq_ok h
        refine ⟨m₁, m₂, a, ?_, hw, hinc⟩
        have hsome : (found m (pageOf r va)).isSome = true := by
          rw [found_of_some ht]
          simp [pageOf, hv]
        rw [if_pos hsome]
        exact hu
      · rename_i hv
        obtain ⟨m₂, a, hw, hinc⟩ := PtOps.mapEntry_eq_ok h
        refine ⟨m, m₂, a, ?_, hw, hinc⟩
        have hnone : ¬ (found m (pageOf r va)).isSome = true := by
          rw [found_of_some ht]
          simp [pageOf, hv]
        rw [if_neg hnone]

/-- **Unmapping**: the page is unmapped, the others are left alone. -/
theorem PtOps.unmap_found (ho : o.Sound) (hf : Forest R m) (hr : r ∈ R) {u : Unit}
    (h : o.unmap r va m = .ok u m') :
    Forest R m' ∧ (∀ p, p.InRange R → tableAt m' p = tableAt m p) ∧
      ∀ g : Page, g.InRange R → found m' g = if g = pageOf r va then none else found m g := by
  rcases PtOps.unmap_eq_ok h with ⟨hnone, rfl⟩ | ⟨a, e, m₁, hsome, hdec, rfl⟩
  · refine ⟨hf, fun _ _ => rfl, fun g _ => ?_⟩
    split
    · rename_i hg
      rw [hg, hnone]
    · rfl
  · have hram := ho.refDec _ _ _ _ hdec
    obtain ⟨ht, ha, -, -⟩ := found_eq_some hsome
    have ht₁ : tableAt m₁ (pageOf r va).slot = some a.table := by
      rw [tableAt_of_ram hram, ht]
    obtain ⟨hforest, htables, hwrite⟩ :=
      (hf.of_ram hram).write (inRange_pageOf hr) ht₁ Pte.zero
    rw [← ha] at hforest htables hwrite
    refine ⟨hforest, fun p hp => by rw [htables p hp, tableAt_of_ram hram], fun g hg => ?_⟩
    rw [hwrite g hg, found_of_ram hram]
    rfl

/-- A walk to a bottom table that exists allocates nothing. -/
theorem PtOps.freshWalk_of_table (h : tableAt m (pageOf r va).slot = some t) :
    o.FreshWalk R r va m := by
  simp only [pageOf, Page.slot, tableAt, Pte.target] at h
  unfold PtOps.FreshWalk PtOps.FreshMid
  split
  · rename_i htop
    intro hmid
    simp [htop, hmid] at h
  · rename_i htop
    simp [htop] at h

/-- The old mapping of the page is gone, if there was one, and the walk finds fresh tables. -/
theorem PtOps.unmapped_found (ho : o.Sound) (hf : Forest R m) (hr : r ∈ R)
    (hfresh : o.FreshWalk R r va m) {m₁ : Mem}
    (h : if (found m (pageOf r va)).isSome = true then o.unmap r va m = .ok () m₁ else m₁ = m) :
    Forest R m₁ ∧ o.FreshWalk R r va m₁ ∧
      ∀ g : Page, g.InRange R → g ≠ pageOf r va → found m₁ g = found m g := by
  split at h
  · rename_i hsome
    obtain ⟨⟨a, e⟩, hx⟩ := Option.isSome_iff_exists.mp hsome
    obtain ⟨hforest, htables, hfound⟩ := PtOps.unmap_found ho hf hr h
    refine ⟨hforest, ?_, fun g hg hne => by rw [hfound g hg, if_neg hne]⟩
    apply PtOps.freshWalk_of_table (t := a.table)
    rw [htables _ (inRange_pageOf hr).slot]
    exact (found_eq_some hx).1
  · subst h
    exact ⟨hf, hfresh, fun _ _ _ => rfl⟩

/-- **Mapping**: the page is mapped as asked for, the others are left alone. -/
theorem PtOps.map_found (ho : o.Sound) (hf : Forest R m) (hr : r ∈ R)
    (hfresh : o.FreshWalk R r va m) {ppn : Ppn} {perm : Perm} {u : Unit}
    (h : o.map r va ppn perm m = .ok u m') :
    Forest R m' ∧ (∃ a, found m' (pageOf r va) = some (a, ⟨{ perm with v := true }, ppn⟩)) ∧
      ∀ g : Page, g.InRange R → g ≠ pageOf r va → found m' g = found m g := by
  obtain ⟨m₁, m₂, a, hold, hw, hinc⟩ := PtOps.map_eq_ok h
  obtain ⟨hf₁, hfresh₁, hfound₁⟩ := PtOps.unmapped_found ho hf hr hfresh hold
  obtain ⟨t, ha, ht, hgrows⟩ := PtOps.walk_true ho hf₁ hr hfresh₁ hw
  have hram := ho.refInc _ _ _ _ hinc
  have hg : (pageOf r va).InRange R := inRange_pageOf hr
  obtain ⟨hforest, -, hwrite⟩ :=
    (forest_of_grows hgrows hf₁).write hg ht ⟨{ perm with v := true }, ppn⟩
  obtain rfl : a = ⟨t, (pageOf r va).k⟩ := Option.some.inj ha
  refine ⟨hforest.of_ram hram, ⟨⟨t, (pageOf r va).k⟩, ?_⟩, fun g hgR hne => ?_⟩
  · rw [found_of_ram hram, hwrite _ hg, if_pos rfl, if_pos rfl]
  · rw [found_of_ram hram, hwrite g hgR, if_neg hne, found_of_grows hgrows hgR, hfound₁ g hgR hne]

/-! ## Allocators -/

/-- The pointers before `vmm_setup_kern` ends: frames come from `palloc` and are never counted. -/
def ptBootOps (palloc : Mem → Ppn) : PtOps where
  frameAlloc := fun m =>
    .ok (palloc m) { m with ram := Function.update m.ram (palloc m) (fun _ => Pte.zero) }
  frameRefInc := fun _ => pure ()
  frameRefDec := fun _ => pure ()

theorem sound_ptBootOps (palloc : Mem → Ppn) : (ptBootOps palloc).Sound where
  alloc := by
    intro m f m' h
    simp only [ptBootOps, Res.ok.injEq] at h
    rw [← h.2, ← h.1]
  refInc := by
    intro f m u m' h
    obtain ⟨-, rfl⟩ := pure_eq_ok.mp h
    rfl
  refDec := by
    intro f m u m' h
    obtain ⟨-, rfl⟩ := pure_eq_ok.mp h
    rfl

/-- What an allocation of the physical frame allocator does. -/
theorem phyFrameAlloc_eq_ok {f : Ppn} (h : phyFrameAlloc m = .ok f m') :
    ∃ free, takeFrame m.pfFreeList = some (f, free) ∧
      m' = { m with pfFreeList := free, ram := Function.update m.ram f (fun _ => Pte.zero) } := by
  unfold phyFrameAlloc at h
  cases ht : takeFrame m.pfFreeList with
  | none => simp [ht] at h
  | some x =>
      simp only [ht, Res.ok.injEq] at h
      obtain ⟨rfl, rfl⟩ := h
      exact ⟨x.2, rfl, rfl⟩

/-- It is an error only where there is no frame. -/
theorem phyFrameAlloc_err (h : phyFrameAlloc m = .err m') : m' = m := by
  unfold phyFrameAlloc at h
  split at h
  · exact (Res.err.inj h).symm
  · exact absurd h (by simp)

theorem ptFrameAlloc_eq_ok {f : Ppn} (h : ptFrameAlloc m = .ok f m') :
    ∃ free, takeFrame m.pfFreeList = some (f, free) ∧
      m' =
        { m with
          pfFreeList := free
          ram := Function.update m.ram f (fun _ => Pte.zero)
          pfRef := Function.update m.pfRef f (m.pfRef f + 1) } := by
  unfold ptFrameAlloc at h
  obtain ⟨f', m₁, ha, h⟩ := bind_eq_ok.mp h
  obtain ⟨_, m₂, hinc, h⟩ := bind_eq_ok.mp h
  obtain ⟨rfl, rfl⟩ := pure_eq_ok.mp h
  obtain ⟨free, ht, rfl⟩ := phyFrameAlloc_eq_ok ha
  have hinc' := modify_eq_ok.mp (panicE_eq_ok.mp hinc)
  exact ⟨free, ht, hinc'.symm⟩

/-- A reference less changes counts and free lists only. -/
theorem phyFrameRefDec_eq_ok {f : Ppn} {u : Unit} (h : phyFrameRefDec f m = .ok u m') :
    m.pfRef f ≠ 0 ∧ ∃ free,
      m' = { m with pfFreeList := free, pfRef := Function.update m.pfRef f (m.pfRef f - 1) } ∧
      (m.pfRef f ≠ 1 → free = m.pfFreeList) ∧
      (m.pfRef f = 1 → ∃ sel, frame2sel m.mems f = some sel ∧
        free = m.pfFreeList.modify sel (fun fs => fs ++ [f])) := by
  unfold phyFrameRefDec at h
  obtain ⟨_, _, hg, h⟩ := bind_eq_ok.mp h
  obtain ⟨rfl, rfl⟩ := get_eq_ok.mp hg
  split at h
  · exact (fail_eq_ok.mp h).elim
  rename_i hne
  obtain ⟨_, m₁, hset, h⟩ := bind_eq_ok.mp h
  rw [modify_eq_ok] at hset
  subst hset
  refine ⟨hne, ?_⟩
  split at h
  · rename_i hone
    unfold phyFrameFree at h
    cases hs : frame2sel m.mems f with
    | none => simp [hs] at h
    | some sel =>
        simp only [hs, Res.ok.injEq] at h
        refine ⟨_, h.2.symm, fun hnot => absurd hone hnot, fun _ => ⟨sel, rfl, rfl⟩⟩
  · rename_i hone
    obtain ⟨-, rfl⟩ := pure_eq_ok.mp h
    exact ⟨m.pfFreeList, rfl, fun _ => rfl, fun h => absurd h hone⟩

/-- The physical frame allocator is one that page tables can rely on. -/
theorem sound_ptPhyOps : ptPhyOps.Sound where
  alloc := by
    intro m f m' h
    obtain ⟨free, -, rfl⟩ := ptFrameAlloc_eq_ok h
    rfl
  refInc := by
    intro f m u m' h
    have h' : ptFrameRefInc f m = .ok u m' := h
    unfold ptFrameRefInc at h'
    obtain ⟨_, _, hg, h'⟩ := bind_eq_ok.mp h'
    obtain ⟨rfl, rfl⟩ := get_eq_ok.mp hg
    cases hpf : pa2frame m.mems f with
    | none =>
        rw [hpf] at h'
        obtain ⟨-, rfl⟩ := pure_eq_ok.mp h'
        rfl
    | some pf =>
        rw [hpf] at h'
        rw [← modify_eq_ok.mp (panicE_eq_ok.mp h')]
  refDec := by
    intro f m u m' h
    have h' : ptFrameRefDec f m = .ok u m' := h
    unfold ptFrameRefDec at h'
    obtain ⟨_, _, hg, h'⟩ := bind_eq_ok.mp h'
    obtain ⟨rfl, rfl⟩ := get_eq_ok.mp hg
    cases hpf : pa2frame m.mems f with
    | none =>
        rw [hpf] at h'
        obtain ⟨-, rfl⟩ := pure_eq_ok.mp h'
        rfl
    | some pf =>
        rw [hpf] at h'
        obtain ⟨-, free, rfl, -⟩ := phyFrameRefDec_eq_ok (panicE_eq_ok.mp h')
        rfl

/-! ## The finite map -/

/-- The page number of a physical address. -/
def paPpn (pa : Nat) : Ppn := pa / 2 ^ 12 % 2 ^ 44

/-- The 27-bit page number of a virtual address. -/
def vpnOf (va : Nat) : Nat := va / 2 ^ 12 % 2 ^ 27

/-- The page number is made of the three indices. -/
theorem vpnOf_eq (va : Nat) : vpnOf va = vpn2 va * 2 ^ 18 + vpn1 va * 2 ^ 9 + vpn0 va := by
  have htop : va / 2 ^ 30 = va / 2 ^ 12 / 2 ^ 18 := by rw [Nat.div_div_eq_div_mul, ← Nat.pow_add]
  have hmid : va / 2 ^ 21 = va / 2 ^ 12 / 2 ^ 9 := by rw [Nat.div_div_eq_div_mul, ← Nat.pow_add]
  rw [vpnOf, vpn2, vpn1, vpn0, htop, hmid]
  omega

theorem pageOf_eq_iff {va' : Nat} : pageOf r va = pageOf r va' ↔ vpnOf va = vpnOf va' := by
  have h := vpnOf_eq va
  have h' := vpnOf_eq va'
  have hmid := vpn1_lt va
  have hmid' := vpn1_lt va'
  have hleaf := vpn0_lt va
  have hleaf' := vpn0_lt va'
  simp only [pageOf, Page.mk.injEq, true_and]
  omega

/-- A call on the page table. -/
inductive PtCall where
  | map (va pa : Nat) (perm : Perm)
  | unmap (va : Nat)

/-- The address of a call. -/
def PtCall.addr : PtCall → Nat
  | .map va _ _ => va
  | .unmap va => va

/-- What a call does to a finite map from page numbers to entries. -/
def PtCall.apply (f : Nat → Option Pte) : PtCall → Nat → Option Pte
  | .map va pa perm =>
      Function.update f (vpnOf va) (some ⟨{ perm with v := true }, paPpn pa⟩)
  | .unmap va => Function.update f (vpnOf va) none

/-- The call on the tree with the root `r`. -/
def PtOps.call (o : PtOps) (r : Ppn) : PtCall → Op Mem Unit
  | .map va pa perm => o.map r va (paPpn pa) perm
  | .unmap va => o.unmap r va

/-- A call that succeeds, as a step. -/
def PtOps.step (o : PtOps) (r : Ppn) (m : Mem) (c : PtCall) : Except Unit Mem :=
  match o.call r c m with
  | .ok _ m' => .ok m'
  | _ => .error ()

/-- The table frames that the call allocates are fresh. -/
def PtOps.FreshCall (o : PtOps) (r : Ppn) (m : Mem) : PtCall → Prop
  | .map va _ _ => o.FreshWalk {r} r va m
  | .unmap _ => True

/-- What a lookup of the address yields: the entry, if there is a valid one. -/
def lookupPte (m : Mem) (r : Ppn) (va : Nat) : Option Pte := (found m (pageOf r va)).map Prod.snd

/-- **The law of a call**: a lookup in its page finds the new mapping, or none; a lookup in any other
page yields what it yielded before. -/
def CallLaw (o : PtOps) (r : Ppn) (m : Mem) (c : PtCall) : Prop :=
  ∀ m', o.step r m c = .ok m' →
    (match c with
      | .map va pa perm => ∀ va', vpnOf va' = vpnOf va → ∃ a,
          o.lookup r va' m' = .ok (some a) m' ∧ m'.pte a = ⟨{ perm with v := true }, paPpn pa⟩
      | .unmap va => ∀ va', vpnOf va' = vpnOf va → o.lookup r va' m' = .ok none m') ∧
    ∀ va', vpnOf va' ≠ vpnOf c.addr → ∃ res, o.lookup r va' m = .ok res m ∧
      o.lookup r va' m' = .ok res m' ∧ ∀ a ∈ res, m'.pte a = m.pte a

/-- Without entries in the root there are no other tables. -/
theorem root_of_empty (h : ∀ i < 512, (m.pte ⟨r, i⟩).perm.v = false) {p : TableSlot}
    (hp : p.InRange {r}) (ht : tableAt m p = some t) : p = .root r := by
  cases p with
  | root r' => rw [Finset.mem_singleton.mp hp]
  | mid r' i =>
      obtain ⟨hr', hi⟩ := hp
      rw [Finset.mem_singleton.mp hr', tableAt, Pte.target_of_invalid (h i hi)] at ht
      exact absurd ht (by simp)
  | leaf r' i j =>
      obtain ⟨hr', hi, -⟩ := hp
      rw [Finset.mem_singleton.mp hr', tableAt, Pte.target_of_invalid (h i hi)] at ht
      exact absurd ht (by simp)

theorem forest_of_empty (h : ∀ i < 512, (m.pte ⟨r, i⟩).perm.v = false) : Forest {r} m := by
  constructor
  intro p q t hp hq ht ht'
  rw [root_of_empty h hp ht, root_of_empty h hq ht']

theorem fresh_of_empty (h : ∀ i < 512, (m.pte ⟨r, i⟩).perm.v = false) (hne : f ≠ r) :
    Fresh {r} m f := by
  intro p hp ht
  rw [root_of_empty h hp ht, tableAt, Option.some.injEq] at ht
  exact hne ht.symm

/-- The page of a call is mapped as the call asks for. -/
def PtCall.Done (m : Mem) (r : Ppn) : PtCall → Prop
  | .map va pa perm =>
      ∃ a, found m (pageOf r va) = some (a, ⟨{ perm with v := true }, paPpn pa⟩)
  | .unmap va => found m (pageOf r va) = none

/-- What a successful call does to every page of the tree. -/
theorem PtOps.step_found (ho : o.Sound) (hf : Forest {r} m) {c : PtCall}
    (hfresh : o.FreshCall r m c) (h : o.step r m c = .ok m') :
    Forest {r} m' ∧ c.Done m' r ∧
      ∀ va', vpnOf va' ≠ vpnOf c.addr → found m' (pageOf r va') = found m (pageOf r va') := by
  have hr : r ∈ ({r} : Finset Ppn) := Finset.mem_singleton_self r
  have hother : ∀ va', vpnOf va' ≠ vpnOf c.addr → pageOf r va' ≠ pageOf r c.addr :=
    fun va' hne heq => hne (pageOf_eq_iff.mp heq)
  unfold PtOps.step at h
  split at h
  swap
  · exact absurd h (by simp)
  rename_i u m'' hcall
  obtain rfl := Except.ok.inj h
  cases c with
  | map va pa perm =>
      obtain ⟨hforest, hnew, hsame⟩ := PtOps.map_found ho hf hr hfresh hcall
      exact ⟨hforest, hnew, fun va' hne => hsame _ (inRange_pageOf hr) (hother va' hne)⟩
  | unmap va =>
      obtain ⟨hforest, -, hfound⟩ := PtOps.unmap_found ho hf hr hcall
      refine ⟨hforest, ?_, fun va' hne => ?_⟩
      · rw [PtCall.Done, hfound _ (inRange_pageOf hr), if_pos rfl]
      · rw [hfound _ (inRange_pageOf hr)]
        exact if_neg (hother va' hne)

theorem PtOps.callLaw (ho : o.Sound) (hf : Forest {r} m) {c : PtCall}
    (hfresh : o.FreshCall r m c) : CallLaw o r m c := by
  intro m' h
  obtain ⟨-, hpage, hsame⟩ := PtOps.step_found ho hf hfresh h
  constructor
  · cases c with
    | map va pa perm =>
        intro va' hva
        obtain ⟨a, ha⟩ := hpage
        rw [← pageOf_eq_iff.mpr hva] at ha
        refine ⟨a, ?_, (found_eq_some ha).2.2.1.symm⟩
        rw [PtOps.lookup_eq, ha]
        rfl
    | unmap va =>
        intro va' hva
        rw [PtOps.lookup_eq, pageOf_eq_iff.mpr hva, hpage]
        rfl
  · intro va' hne
    refine ⟨_, PtOps.lookup_eq o r va' m, ?_, ?_⟩
    · rw [PtOps.lookup_eq, hsame va' hne]
    · intro a ha
      obtain ⟨⟨a', e⟩, hx, rfl⟩ := Option.map_eq_some_iff.mp ha
      have hx' := hsame va' hne ▸ hx
      exact (found_eq_some hx').2.2.1.symm.trans (found_eq_some hx).2.2.1

theorem PtOps.step_apply (ho : o.Sound) (hf : Forest {r} m) {c : PtCall}
    (hfresh : o.FreshCall r m c) (h : o.step r m c = .ok m') {g : Nat → Option Pte}
    (hg : ∀ va, lookupPte m r va = g (vpnOf va)) (va : Nat) :
    lookupPte m' r va = c.apply g (vpnOf va) := by
  obtain ⟨-, hpage, hsame⟩ := PtOps.step_found ho hf hfresh h
  by_cases hva : vpnOf va = vpnOf c.addr
  · have hpageEq := pageOf_eq_iff (r := r).mpr hva
    cases c with
    | map va' pa perm =>
        obtain ⟨a, ha⟩ := hpage
        simp only [lookupPte, PtCall.apply, PtCall.addr] at hva hpageEq ⊢
        rw [hpageEq, ha, hva, Function.update_self]
        rfl
    | unmap va' =>
        simp only [lookupPte, PtCall.apply, PtCall.addr] at hva hpageEq ⊢
        rw [hpageEq, hpage, hva, Function.update_self]
        rfl
  · have hold : c.apply g (vpnOf va) = g (vpnOf va) := by
      cases c with
      | map va' pa perm => exact Function.update_of_ne hva _ _
      | unmap va' => exact Function.update_of_ne hva _ _
    rw [hold, ← hg va, lookupPte, lookupPte, hsame va hva]

/-- **Page tables refine a finite map**: over every sequence of successful calls on an empty root whose
table frames are fresh, every call obeys its law, and a lookup yields what the map made of the calls
holds. -/
theorem page_tables_refine_map (ho : o.Sound) {m₀ : Mem} {tr : List (Mem × PtCall)}
    (hempty : ∀ i < 512, (m₀.pte ⟨r, i⟩).perm.v = false) (hrun : Exec (o.step r) m₀ tr m)
    (hfresh : AllSteps (o.FreshCall r) tr) :
    AllSteps (CallLaw o r) tr ∧
      ∀ va, lookupPte m r va = (tr.map Prod.snd).foldl PtCall.apply (fun _ => none) (vpnOf va) := by
  have hforest := hrun.throughout_of_forall (forest_of_empty hempty) hfresh
    fun _ _ _ hi hok h => (PtOps.step_found ho hi hok h).1
  constructor
  · exact fun x hx => PtOps.callLaw ho (hforest.1 x hx) (hfresh x hx)
  · clear hforest
    induction hrun with
    | nil =>
        intro va
        have hnone : tableAt m₀ (pageOf r va).slot = none := by
          rw [pageOf, Page.slot, tableAt, Pte.target_of_invalid (hempty _ (vpn2_lt va))]
          rfl
        rw [lookupPte, found_of_none hnone]
        rfl
    | snoc hrun hu ih =>
        obtain ⟨hpre, hlast⟩ := (allSteps_snoc _ _ _ _).mp hfresh
        have hf := hrun.invariant_of_forall (forest_of_empty hempty) hpre
          fun _ _ _ hi hok h => (PtOps.step_found ho hi hok h).1
        intro va
        rw [List.map_append, List.foldl_append]
        exact PtOps.step_apply ho hf hlast hu (ih hpre) va

/-- A memory with an empty root in frame `0x80000` and two free frames. -/
def blankMem : Mem :=
  { Mem.none with mems := [⟨0x80000000, 0x10000⟩], pfFreeList := [[0x80001, 0x80002]] }

theorem freshWalk_blankMem (va : Nat) : ptPhyOps.FreshWalk {0x80000} 0x80000 va blankMem := by
  have hempty : ∀ i < 512, (blankMem.pte ⟨0x80000, i⟩).perm.v = false := fun _ _ => rfl
  have hr : (0x80000 : Ppn) ∈ ({0x80000} : Finset Ppn) := Finset.mem_singleton_self _
  unfold PtOps.FreshWalk
  rw [if_neg (by rw [hempty _ (vpn2_lt va)]; decide)]
  intro f m' h
  have hfresh : f = 0x80001 := by
    obtain ⟨free, ht, -⟩ := ptFrameAlloc_eq_ok h
    exact (congrArg Prod.fst (Option.some.inj ht)).symm
  have hf : Fresh {0x80000} blankMem f := fresh_of_empty hempty (by rw [hfresh]; decide)
  refine ⟨hf, fun _ f' m'' h' => ?_⟩
  -- the second frame is neither the root nor the first one
  have hfree : f' = 0x80002 := by
    obtain ⟨free, ht, rfl⟩ := ptFrameAlloc_eq_ok h
    obtain ⟨free', ht', -⟩ := ptFrameAlloc_eq_ok h'
    have hfree : free = [[0x80002]] := (congrArg Prod.snd (Option.some.inj ht)).symm
    subst hfree
    exact (congrArg Prod.fst (Option.some.inj ht')).symm
  have hlinked := grow_mid sound_ptPhyOps (forest_of_empty hempty) hr (vpn2_lt va)
    (hempty _ (vpn2_lt va)) hf h
  intro p hp ht
  rw [hlinked.tables p hp] at ht
  split at ht
  · rw [hfresh, hfree] at ht
    exact absurd ht (by decide)
  · exact fresh_of_empty hempty (by rw [hfree]; decide) p hp ht

/-- A page is mapped and unmapped again. -/
theorem page_tables_refine_map_once : ∃ tr m, Exec (ptPhyOps.step 0x80000) blankMem tr m ∧
    tr.length = 2 ∧ AllSteps (CallLaw ptPhyOps 0x80000) tr ∧
      ∀ va, lookupPte m 0x80000 va =
        (tr.map Prod.snd).foldl PtCall.apply (fun _ => none) (vpnOf va) := by
  obtain ⟨m, hrun, -⟩ := Exec.of_checkRun (ptPhyOps.step 0x80000) blankMem
    [.map 0x1000 0x80003000 { r := true }, .unmap 0x1000] (fun _ => true) (by decide +kernel)
  refine ⟨_, m, hrun, by decide +kernel,
    page_tables_refine_map sound_ptPhyOps (fun _ _ => rfl) hrun ?_⟩
  rintro ⟨m₁, c⟩ hx
  rw [traceEvents] at hx
  split at hx
  · rcases List.mem_cons.mp hx with heq | htail
    · obtain ⟨rfl, rfl⟩ := (Prod.mk.injEq _ _ _ _).mp heq
      exact freshWalk_blankMem _
    · rw [List.mem_singleton.mp (mem_of_traceEvents htail)]
      trivial
  · exact absurd hx List.not_mem_nil

end Jrinx
