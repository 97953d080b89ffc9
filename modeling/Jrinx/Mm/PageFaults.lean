import Jrinx.Mm.Supply

/-! # Progress of page faults

`do_pagefault` serves demand pages and sets the accessed and dirty bits. It does not look at the other
permissions of an entry, so an access that they do not allow faults again.

* **`Pte.Grants`**, **`Pte.Permits`** — the accesses that an entry is for, and those that succeed.
* **`doPagefault_of_found`**, **`doPagefault_of_unmapped`** — the two cases of the handler.
* **`pagefault_progress_iff`** — the faults after which the access succeeds. -/

namespace Jrinx

open Op

/-! ## Accesses -/

/-- The cause of a page fault. -/
inductive Access where
  | fetch
  | load
  | store
  deriving DecidableEq, Repr

/-- The permission that an access needs. -/
def Perm.allows (p : Perm) : Access → Bool
  | .fetch => p.x
  | .load => p.r
  | .store => p.w

/-- The entry is for such accesses: they have the permission, and those from user mode are to a user page. -/
def Pte.Grants (e : Pte) (acc : Access) (super : Bool) : Prop :=
  e.perm.allows acc = true ∧ (super = false → e.perm.u = true)

/-- **The access succeeds** with this entry. -/
structure Pte.Permits (e : Pte) (acc : Access) (super : Bool) : Prop where
  valid : e.perm.v = true
  allows : e.perm.allows acc = true
  accessed : e.perm.a = true
  dirty : acc = .store → e.perm.d = true
  user : super = false → e.perm.u = true

/-- The address is one of a communication object. -/
def InComm (va : Nat) : Prop := commBase ≤ va ∧ va < commLimt

/-- A page can be given to the partition: its budget pays for it, and there are frames for the page and for
the missing tables. -/
def Backed (m : Mem) (pt : PartId) (va : Nat) : Prop :=
  pgSize ≤ (m.parts pt).paMemRem ∧ missingTables m (m.parts pt).paPgdir va < m.freeFrames

variable {R : Finset Ppn} {m m' : Mem} {pt : PartId} {va : Nat} {super store : Bool} {a : PteAddr} {e : Pte}

/-! ## The handler -/

/-- A mapped address: its entry is marked. -/
theorem doPagefault_of_found (h : found m (pageOf (m.parts pt).paPgdir va) = some (a, e)) :
    doPagefault pt va super store m = .ok () (markAccess a store m) := by
  have hlookup := PtOps.lookup_eq ptPhyOps (m.parts pt).paPgdir va m
  rw [h, Option.map_some] at hlookup
  simp only [doPagefault, bind, Op.bind, Op.get, panicE, ptLookup, hlookup]
  rfl

/-- An unmapped address: it is illegal, or a page is allocated. -/
theorem doPagefault_of_unmapped (store : Bool) (h : found m (pageOf (m.parts pt).paPgdir va) = none) :
    doPagefault pt va super store m = .ok () m' ↔ (super = true ∧ InComm va) ∧
      ∃ f m₁ a, partPtAlloc pt va commPerm m = .ok f m₁ ∧
        (found m₁ (pageOf (m.parts pt).paPgdir va)).map Prod.fst = some a ∧
        markAccess a store m₁ = m' := by
  have hlookup := PtOps.lookup_eq ptPhyOps (m.parts pt).paPgdir va m
  rw [h, Option.map_none] at hlookup
  have hcond : (super && decide (commBase ≤ va) && decide (va < commLimt)) = true ↔
      super = true ∧ InComm va := by
    simp [InComm, and_assoc]
  unfold doPagefault
  rw [bind_eq_ok]
  constructor
  · rintro ⟨_, _, hg, hrest⟩
    obtain ⟨rfl, rfl⟩ := get_eq_ok.mp hg
    obtain ⟨pte, m₀, hl, hrest⟩ := bind_eq_ok.mp hrest
    rw [panicE_eq_ok, ptLookup, hlookup, Res.ok.injEq] at hl
    obtain ⟨rfl, rfl⟩ := hl
    dsimp only at hrest
    split at hrest
    · rename_i hc
      obtain ⟨f, m₁, hf, hrest⟩ := bind_eq_ok.mp hrest
      obtain ⟨pte, m₂, hl, hrest⟩ := bind_eq_ok.mp hrest
      rw [panicE_eq_ok, ptLookup, PtOps.lookup_eq, Res.ok.injEq] at hl
      obtain ⟨hpte, rfl⟩ := hl
      cases pte with
      | none => exact (halt_eq_ok.mp hrest).elim
      | some a => exact ⟨hcond.mp hc, f, m₁, a, panicE_eq_ok.mp hf, hpte, modify_eq_ok.mp hrest⟩
    · exact (halt_eq_ok.mp hrest).elim
  · rintro ⟨hc, f, m₁, a, hf, ha, hmark⟩
    refine ⟨m, m, rfl, bind_eq_ok.mpr ⟨none, m, panicE_eq_ok.mpr hlookup, ?_⟩⟩
    dsimp only
    rw [if_pos (hcond.mpr hc)]
    refine bind_eq_ok.mpr ⟨f, m₁, panicE_eq_ok.mpr hf, bind_eq_ok.mpr ⟨some a, m₁, ?_, ?_⟩⟩
    · rw [panicE_eq_ok, ptLookup, PtOps.lookup_eq, ha]
    · exact modify_eq_ok.mpr hmark

/-- The entry after it was marked. -/
def Pte.mark (e : Pte) (store : Bool) : Pte :=
  { e with perm := { e.perm with a := true, d := e.perm.d || store } }

theorem permits_mark {acc : Access} (hv : e.perm.v = true) :
    (e.mark (acc == .store)).Permits acc super ↔ e.Grants acc super := by
  have hallows : (e.mark (acc == .store)).perm.allows acc = e.perm.allows acc := by
    cases acc <;> rfl
  constructor
  · intro h
    exact ⟨hallows ▸ h.allows, h.user⟩
  · rintro ⟨hacc, hu⟩
    refine ⟨hv, hallows ▸ hacc, rfl, ?_, hu⟩
    rintro rfl
    simp [Pte.mark]

/-- What a lookup finds at a page whose entry was marked. -/
theorem Forest.found_markAccess (h : Forest R m) (store : Bool) {g : Page} (hg : g.InRange R)
    (hfound : found m g = some (a, e)) : found (markAccess a store m) g = some (a, e.mark store) := by
  obtain ⟨ht, ha, he, hv⟩ := found_eq_some hfound
  obtain ⟨-, -, hwrite⟩ := h.write hg ht (e.mark store)
  rw [← ha] at hwrite
  have hmark : markAccess a store m = m.setPte a (e.mark store) := by
    rw [markAccess, he]
    rfl
  have hv' : (e.mark store).perm.v = true := hv
  rw [hmark, hwrite g hg, if_pos rfl, if_pos hv']

/-! ## Progress -/

/-- **The handler makes progress**: whenever it returns, the access succeeds. -/
def Progresses (m : Mem) (pt : PartId) (va : Nat) (super : Bool) (acc : Access) : Prop :=
  ∀ m', doPagefault pt va super (acc == .store) m = .ok () m' →
    ∃ a, leafOf m' (m'.parts pt).paPgdir va = some a ∧ (m'.pte a).Permits acc super

theorem progresses_iff_found (m : Mem) (pt : PartId) (va : Nat) (super : Bool) (acc : Access) :
    Progresses m pt va super acc ↔ ∀ m', doPagefault pt va super (acc == .store) m = .ok () m' →
      ∃ a e, found m' (pageOf (m'.parts pt).paPgdir va) = some (a, e) ∧ e.Permits acc super := by
  refine forall_congr' fun m' => imp_congr_right fun _ => exists_congr fun a => ?_
  rw [leafOf_eq]
  constructor
  · rintro ⟨ha, hp⟩
    obtain ⟨⟨a', e⟩, hfound, rfl⟩ := Option.map_eq_some_iff.mp ha
    exact ⟨e, hfound, (found_eq_some hfound).2.2.1 ▸ hp⟩
  · rintro ⟨e, hfound, hp⟩
    rw [hfound]
    exact ⟨rfl, (found_eq_some hfound).2.2.1 ▸ hp⟩

/-- **The faults after which the access succeeds.** If the address is mapped, its entry must be for such an
access already, since the handler does not look; if it is not, only an instruction fetch of the kernel from a
communication page that can be allocated fails. -/
theorem pagefault_progress_iff (h : Tidy R m) (hr : (m.parts pt).paPgdir ∈ R) (va : Nat) (super : Bool)
    (acc : Access) : Progresses m pt va super acc ↔
      (∀ a, leafOf m (m.parts pt).paPgdir va = some a → (m.pte a).Grants acc super) ∧
        (leafOf m (m.parts pt).paPgdir va = none → super = true → InComm va → acc = .fetch →
          ¬ Backed m pt va) := by
  have hg : (pageOf (m.parts pt).paPgdir va).InRange R := inRange_pageOf hr
  rw [progresses_iff_found, leafOf_eq]
  cases hfound : found m (pageOf (m.parts pt).paPgdir va) with
  | some x =>
      obtain ⟨a, e⟩ := x
      have hpte := (found_eq_some hfound).2.2.1
      have hv := (found_eq_some hfound).2.2.2
      have hmarked := h.forest.found_markAccess (acc == .store) hg hfound
      rw [Option.map_some]
      constructor
      · -- a mapped page is only marked, and the mark grants nothing new
        intro hprog
        obtain ⟨a', e', hfound', hp⟩ := hprog _ (doPagefault_of_found hfound)
        obtain ⟨rfl, rfl⟩ : a = a' ∧ e.mark (acc == .store) = e' := by
          simpa using hmarked.symm.trans hfound'
        refine ⟨fun a' ha' => ?_, fun hnone => absurd hnone (by simp)⟩
        rw [← Option.some.inj ha', ← hpte]
        exact (permits_mark hv).mp hp
      · rintro ⟨hgrants, -⟩ m' hm'
        rw [doPagefault_of_found hfound, Res.ok.injEq] at hm'
        rw [← hm'.2]
        exact ⟨a, _, hmarked, (permits_mark hv).mpr (hpte ▸ hgrants a rfl)⟩
  | none =>
      rw [Option.map_none]
      constructor
      · intro hprog
        refine ⟨fun a ha => absurd ha (by simp), ?_⟩
        -- the page would be given with the permissions of the area, which allow no fetch
        rintro - hsuper hcomm rfl hbacked
        obtain ⟨f, m₁, hf⟩ := (h.partPtAlloc_succeeds_iff hr hfound commPerm).mpr hbacked
        obtain ⟨hforest, hpgdir, a, ha⟩ := h.partPtAlloc_found hr hf
        have hreturn := (doPagefault_of_unmapped false hfound).mpr
          ⟨⟨hsuper, hcomm⟩, f, m₁, a, hf, by rw [ha]; rfl, rfl⟩
        obtain ⟨a', e', hfound', hp⟩ := hprog _ hreturn
        have hmarked := hforest.found_markAccess false hg ha
        have hsame : ((markAccess a false m₁).parts pt).paPgdir = (m.parts pt).paPgdir := hpgdir
        rw [hsame, hmarked, Option.some.injEq, Prod.mk.injEq] at hfound'
        rw [← hfound'.2] at hp
        exact Bool.false_ne_true hp.allows
      · rintro ⟨-, hnot⟩ m' hm'
        obtain ⟨⟨hsuper, hcomm⟩, f, m₁, a, hf, ha, rfl⟩ := (doPagefault_of_unmapped _ hfound).mp hm'
        -- the page was allocated, with the permissions of the communication area
        have hbacked : Backed m pt va := (h.partPtAlloc_succeeds_iff hr hfound commPerm).mp ⟨f, m₁, hf⟩
        obtain ⟨hforest, hpgdir, a', ha'⟩ := h.partPtAlloc_found hr hf
        rw [ha', Option.map_some, Option.some.injEq] at ha
        subst ha
        have hmarked := hforest.found_markAccess (acc == .store) hg ha'
        have hsame : ((markAccess a' (acc == .store) m₁).parts pt).paPgdir = (m.parts pt).paPgdir := hpgdir
        refine ⟨a', _, by rw [hsame, hmarked], (permits_mark rfl).mpr ⟨?_, fun hu => ?_⟩⟩
        · cases acc with
          | fetch => exact absurd hbacked (hnot rfl hsuper hcomm rfl)
          | load => rfl
          | store => rfl
        · exact absurd (hu.symm.trans hsuper) (by simp)

/-! ## A page of program text -/

/-- The entry of a page of program text. -/
def textPte : Pte := ⟨{ v := true, r := true, x := true, u := true }, 0x80003⟩

/-- The memory of a partition with its program text at the address `0x10000`. -/
def textMem : Mem :=
  (((rootMem []).updPart 1 fun p => { p with paPgdir := 0x80000 }).setPte ⟨0x80000, 0⟩
    (tablePte 0x80001)).setPte ⟨0x80001, 0⟩ (tablePte 0x80002) |>.setPte ⟨0x80002, 0x10⟩ textPte

theorem tidy_textMem : Tidy {0x80000} textMem := by
  have hr : (0x80000 : Ppn) ∈ ({0x80000} : Finset Ppn) := Finset.mem_singleton_self _
  have hempty : Tidy {0x80000} ((rootMem []).updPart 1 fun p => { p with paPgdir := 0x80000 }) :=
    (tidy_rootMem List.nodup_nil (fun f hf => absurd hf List.not_mem_nil) List.not_mem_nil).congr
      rfl rfl rfl rfl
  have hfresh : ∀ f : Ppn, f ≠ 0x80000 →
      Fresh {0x80000} ((rootMem []).updPart 1 fun p => { p with paPgdir := 0x80000 }) f :=
    fun f hne => fresh_of_empty (fun _ _ => rfl) hne
  have hmid := hempty.forest.linkMid (i := 0) hr (by decide) rfl (hfresh 0x80001 (by decide)) fun _ => rfl
  have hforest := hmid.forest hempty.forest (hfresh 0x80001 (by decide))
  have hfresh₁ : Fresh {0x80000} (((rootMem []).updPart 1 fun p => { p with paPgdir := 0x80000 }).setPte
      ⟨0x80000, 0⟩ (tablePte 0x80001)) 0x80002 := by
    intro p hp ht
    rw [hmid.tables p hp] at ht
    split at ht
    · exact absurd ht (by decide)
    · exact hfresh 0x80002 (by decide) p hp ht
  have hleaf := hforest.linkLeaf (i := 0) (j := 0) (t := 0x80001) hr (by decide) (by decide) rfl rfl hfresh₁
    fun _ => rfl
  have hforest₁ := hleaf.forest hforest hfresh₁
  have hwrite := (hforest₁.write (g := ⟨0x80000, 0, 0, 0x10⟩) (t := 0x80002)
    ⟨hr, by decide, by decide, by decide⟩ rfl textPte).1
  refine ⟨hwrite, rfl, List.nodup_nil, ?_, ?_, ?_, ?_⟩ <;>
    exact fun f hf => absurd hf List.not_mem_nil

theorem pagefault_progress_iff_load : Progresses textMem 1 0x10000 false .load := by
  refine (pagefault_progress_iff tidy_textMem (Finset.mem_singleton_self _) 0x10000 false .load).mpr ⟨?_, ?_⟩
  · intro a ha
    obtain rfl : (⟨0x80002, 0x10⟩ : PteAddr) = a := Option.some.inj ha
    exact ⟨rfl, fun _ => rfl⟩
  · exact fun hnone => absurd hnone (by decide)

/-- A process that writes to its program text faults again and again. -/
theorem pagefault_without_progress : ¬ ∀ (R : Finset Ppn) (m : Mem) (pt : PartId) (va : Nat) (super : Bool)
    (acc : Access), Tidy R m → (m.parts pt).paPgdir ∈ R → Progresses m pt va super acc := by
  intro hall
  have hprog := (progresses_iff_found textMem 1 0x10000 false .store).mp
    (hall {0x80000} textMem 1 0x10000 false .store tidy_textMem (Finset.mem_singleton_self _))
  have hfound : found textMem (pageOf (textMem.parts 1).paPgdir 0x10000) =
      some (⟨0x80002, 0x10⟩, textPte) := rfl
  obtain ⟨a, e, hfound', hp⟩ := hprog _ (doPagefault_of_found hfound)
  have hmarked := tidy_textMem.forest.found_markAccess true
    (inRange_pageOf (Finset.mem_singleton_self _)) hfound
  obtain ⟨-, rfl⟩ := (Prod.mk.injEq _ _ _ _).mp (Option.some.inj (hmarked.symm.trans hfound'))
  exact Bool.false_ne_true hp.allows

end Jrinx
