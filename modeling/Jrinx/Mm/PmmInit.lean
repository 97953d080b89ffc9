import Jrinx.Mm.Pmm
import Jrinx.Mm.Reserve
import Mathlib.Order.CompletePartialOrder

/-! # Memory that is in use at boot

`pmm_init` as a whole: all frames are put on the free lists, and those below `freemem_base` are taken off again
one by one. The frame arrays are part of the memory that they describe, so the bound is known only after the
last of them has been carved.

* **`pmmInit`** — the function, with **`reserveFrame`**, one round of its last loop.
* **`phyFrameAlloc64`**, **`allocFrames`** — what hands the frames out.
* **`Marked`** — the invariant of the last loop: the lists and the counts tell the addresses passed so far.
* **`pmmInit_reserves`** — a frame is reserved iff its page is in use, and no page in use is handed out. -/

namespace Jrinx

/-! ## The functions -/

/-- `SBIBASE`. -/
def sbiBase : Nat := 0x80000000

/-- The state of `pmm.c`. -/
structure Pmm where
  sels : List PmmSel
  /-- `pf_free_list`. -/
  pfFreeList : List (List Nat)
  /-- `pf_ref` of every frame. -/
  pfRef : Nat → Nat
  freememBase : Nat

/-- One round of the last loop of `pmm_init`; `none` is a panic, or a node that is unlinked from a list it is not
in. -/
def reserveFrame (p : Pmm) (rsvaddr : Nat) : Option Pmm :=
  match pa2frame64 p.sels rsvaddr, pa2sel64 p.sels rsvaddr with
  | some frame, some sel =>
      if frame ∈ p.pfFreeList.getD sel [] then
        some { p with
          pfFreeList := p.pfFreeList.modify sel (·.erase frame)
          pfRef := Function.update p.pfRef frame 1 }
      else none
  | _, _ => none

/-- All frames at the ends of their lists, with `ref` as what the memory held at the counts. -/
def pmmFreed (sels : List PmmSel) (ref : Nat → Nat) (freememBase : Nat) : Pmm where
  sels := sels
  pfFreeList := sels.map (·.frames)
  pfRef f := if sels.any (·.frames.contains f) then 0 else ref f
  freememBase := freememBase

/-- Where the memory in use ends: `freemem_base`, after it has been aligned. -/
def pmmTop (kernEnd : Nat) (mems : List MemRange) (freememBase : Nat) : Nat :=
  alignUp (pmmTables kernEnd mems freememBase).2 pgSize

/-- `pmm_init`. -/
def pmmInit (kernEnd : Nat) (mems : List MemRange) (ref : Nat → Nat) (freememBase : Nat) : Option Pmm :=
  let top := pmmTop kernEnd mems freememBase
  (pageSteps sbiBase top).foldlM reserveFrame (pmmFreed (pmmTables kernEnd mems freememBase).1 ref top)

/-- `phy_frame_alloc`: no frame if all lists are empty; `none` is the panic where a frame has no address. -/
def phyFrameAlloc64 (p : Pmm) : Option (Option Nat × Pmm) :=
  match takeFrame p.pfFreeList with
  | none => some (none, p)
  | some (f, free) =>
      match frame2pa64 p.sels f with
      | none => none
      | some _ => some (some f, { p with pfFreeList := free })

/-- The frames that `n` calls hand out. -/
def allocFrames : Nat → Pmm → Option (List Nat × Pmm)
  | 0, p => some ([], p)
  | n + 1, p =>
      match phyFrameAlloc64 p with
      | none => none
      | some (f, p) => (allocFrames n p).map fun (fs, p) => (f.toList ++ fs, p)

/-! ## The last loop -/

/-- The loop changes no table. -/
theorem reserveFrame_sels {p p' : Pmm} {rsvaddr : Nat} (h : reserveFrame p rsvaddr = some p') :
    p'.sels = p.sels := by
  unfold reserveFrame at h
  split at h
  · split at h
    · rw [← (Option.some.injEq _ _).mp h]
    · cases h
  · cases h

/-- After `pmm_init` the tables are those that its first loop has built. -/
theorem pmmInit_sels {kernEnd freememBase : Nat} {mems : List MemRange} {ref : Nat → Nat} {p : Pmm}
    (h : pmmInit kernEnd mems ref freememBase = some p) : p.sels = (pmmTables kernEnd mems freememBase).1 := by
  have hloop : ∀ (addrs : List Nat) (p₀ : Pmm), addrs.foldlM reserveFrame p₀ = some p → p.sels = p₀.sels := by
    intro addrs
    induction addrs with
    | nil =>
        intro p₀ hrun
        rw [(Option.some.injEq _ _).mp hrun]
    | cons a addrs ih =>
        intro p₀ hrun
        rw [List.foldlM_cons] at hrun
        obtain ⟨p₁, hround, hrest⟩ := Option.bind_eq_some_iff.mp hrun
        exact (ih p₁ hrest).trans (reserveFrame_sels hround)
  exact hloop _ _ h

/-- The address of the page of a frame. -/
def PmmSel.page (s : PmmSel) (j : Nat) : Nat := s.memAddr + j * pgSize

/-- The frames of an array whose pages are not among the given addresses. -/
def PmmSel.without (s : PmmSel) (taken : List Nat) : List Nat :=
  ((List.range s.pfArrayLen).filter fun j => decide (s.page j ∉ taken)).map s.frame

/-- The state after the addresses `taken`. -/
structure Marked (sels : List PmmSel) (taken : List Nat) (p : Pmm) : Prop where
  sels_eq : p.sels = sels
  free : p.pfFreeList = sels.map (·.without taken)
  ref : ∀ s ∈ sels, ∀ j < s.pfArrayLen, p.pfRef (s.frame j) = if s.page j ∈ taken then 1 else 0

variable {lo hi : Nat} {sels : List PmmSel} {taken : List Nat} {s : PmmSel} {i j a : Nat} {p p' : Pmm}

theorem PmmSel.mem_without {f : Nat} :
    f ∈ s.without taken ↔ ∃ j < s.pfArrayLen, s.page j ∉ taken ∧ s.frame j = f := by
  simp only [PmmSel.without, List.mem_map, List.mem_filter, List.mem_range, decide_eq_true_eq, and_assoc]

theorem PmmSel.nodup_without (s : PmmSel) (taken : List Nat) : (s.without taken).Nodup :=
  (List.nodup_range.filter _).map fun _ _ => PmmSel.frame_inj

/-- The list without one more page. -/
theorem PmmSel.erase_without (s : PmmSel) (taken : List Nat) (j : Nat) :
    (s.without taken).erase (s.frame j) = s.without (s.page j :: taken) := by
  have hpage : ∀ k, s.page k = s.page j ↔ k = j := by
    intro k
    unfold PmmSel.page pgSize
    omega
  rw [(s.nodup_without taken).erase_eq_filter, PmmSel.without, List.filter_map, List.filter_filter,
    PmmSel.without]
  congr 1
  refine List.filter_congr fun k _ => ?_
  have hframe : s.frame k = s.frame j ↔ k = j := ⟨PmmSel.frame_inj, fun h => h ▸ rfl⟩
  simp only [Function.comp_apply, bne, beq_eq_decide, hframe, List.mem_cons, hpage, not_or, Bool.decide_and,
    decide_not]

theorem Tabled.page_mem (h : Tabled lo hi sels) (hs : s ∈ sels) (hj : j < s.pfArrayLen) :
    s.page j ∈ s.mem.bytes := by
  have hle : s.memAddr + j * pgSize + pgSize ≤ s.memAddr + s.memSize := h.page_lt hs hj
  have hpos : 0 < pgSize := by decide
  refine Region.mem_bytes.mpr ⟨Nat.le_add_right _ _, ?_⟩
  show s.memAddr + j * pgSize < s.memAddr + s.memSize
  omega

/-- Pages at different indices have different addresses. -/
theorem Tabled.page_ne (h : Tabled lo hi sels) {t : PmmSel} {k m : Nat} (hs : sels[i]? = some s)
    (ht : sels[k]? = some t) (hne : i ≠ k) (hj : j < s.pfArrayLen) (hm : m < t.pfArrayLen) :
    t.page m ≠ s.page j := by
  intro heq
  have hin := h.page_mem (List.mem_of_getElem? hs) hj
  rw [← heq] at hin
  exact hne (h.index_unique hs ht hin (h.page_mem (List.mem_of_getElem? ht) hm))

/-- The lists after one more page of the range with the index `i`. -/
theorem Tabled.modify_without (h : Tabled lo hi sels) (hs : sels[i]? = some s) (hj : j < s.pfArrayLen) :
    (sels.map (·.without taken)).modify i (·.erase (s.frame j)) =
      sels.map (·.without (s.page j :: taken)) := by
  refine List.ext_getElem? fun k => ?_
  rw [List.getElem?_modify, List.getElem?_map, List.getElem?_map]
  cases ht : sels[k]? with
  | none => rfl
  | some t =>
      by_cases hik : i = k
      · subst hik
        obtain rfl := (Option.some.injEq _ _).mp (hs.symm.trans ht)
        simp only [if_true, Option.map_some, Option.map_eq_map, PmmSel.erase_without]
      · -- no page of another range has this address
        simp only [if_neg hik, Option.map_some, Option.map_eq_map, PmmSel.without]
        refine congrArg (fun l => some (List.map t.frame l)) (List.filter_congr fun m hm => ?_)
        have hother := h.page_ne hs ht hik hj (List.mem_range.mp hm)
        simp only [List.mem_cons, hother, false_or]

/-- What the two searches find for the address of a page. -/
theorem Tabled.of_pa2sel (h : Tabled lo hi sels) (haligned : ∀ s ∈ sels, pgSize ∣ s.memAddr) (ha : pgSize ∣ a)
    (hsel : pa2sel64 sels a = some i) :
    ∃ s j, sels[i]? = some s ∧ s.page j = a ∧ pa2frame64 sels a = some (s.frame j) ∧
      (pgSize ∣ s.memSize → j < s.pfArrayLen) := by
  obtain ⟨s, hs, hle, hlt⟩ := of_pa2sel64 hsel
  have hmem := List.mem_of_getElem? hs
  have hend : a < s.memAddr + s.memSize := (Region.mem_bytes.mp (PmmSel.mem_of_lt hle hlt)).2
  obtain ⟨n, rfl⟩ := ha
  obtain ⟨m, hm⟩ := haligned s hmem
  refine ⟨s, (pgSize * n - s.memAddr) / pgSize, hs, ?_, h.pa2frame64_eq hs hle hlt, ?_⟩
  · unfold PmmSel.page pgSize at *
    omega
  · rintro ⟨k, hk⟩
    rw [h.len s hmem, hk, Nat.mul_div_cancel_left k (by decide)]
    exact Nat.div_lt_of_lt_mul (by omega)

/-- The result of a round that finds its page on the list. -/
def Pmm.took (p : Pmm) (i frame : Nat) : Pmm :=
  { p with pfFreeList := p.pfFreeList.modify i (·.erase frame), pfRef := Function.update p.pfRef frame 1 }

theorem Marked.took (h : Tabled lo hi sels) (hm : Marked sels taken p) (hs : sels[i]? = some s)
    (hj : j < s.pfArrayLen) : Marked sels (s.page j :: taken) (p.took i (s.frame j)) where
  sels_eq := hm.sels_eq
  free := by
    rw [Pmm.took, hm.free]
    exact h.modify_without hs hj
  ref t ht m hlt := by
    obtain ⟨k, hk⟩ := List.getElem?_of_mem ht
    show Function.update p.pfRef (s.frame j) 1 (t.frame m) = _
    by_cases hik : i = k
    · subst hik
      obtain rfl := (Option.some.injEq _ _).mp (hs.symm.trans hk)
      by_cases hmj : m = j
      · rw [hmj, Function.update_self, if_pos (List.mem_cons_self ..)]
      · have hpage : s.page m ≠ s.page j := by
          unfold PmmSel.page pgSize
          omega
        rw [Function.update_of_ne (fun heq => hmj (PmmSel.frame_inj heq)), hm.ref s ht m hlt]
        simp only [List.mem_cons, hpage, false_or]
    · -- the record of another array
      have hframe : t.frame m ≠ s.frame j := by
        intro heq
        have hfirst := h.frame2sel64_frame hk hlt
        rw [heq, h.frame2sel64_frame hs hj] at hfirst
        exact hik ((Option.some.injEq _ _).mp hfirst)
      rw [Function.update_of_ne hframe, hm.ref t ht m hlt]
      simp only [List.mem_cons, h.page_ne hs hk hik hj hlt, false_or]

/-- **One round** reserves one page, which was not reserved before. -/
theorem Marked.reserveFrame (h : Tabled lo hi sels) (haligned : ∀ s ∈ sels, pgSize ∣ s.memAddr)
    (hm : Marked sels taken p) (ha : pgSize ∣ a) (hround : reserveFrame p a = some p') :
    Marked sels (a :: taken) p' ∧ p'.freememBase = p.freememBase := by
  unfold Jrinx.reserveFrame at hround
  split at hround
  · rename_i frame i hframe hsel
    rw [hm.sels_eq] at hframe hsel
    obtain ⟨s, j, hs, rfl, hto, -⟩ := h.of_pa2sel haligned ha hsel
    obtain rfl := (Option.some.injEq _ _).mp (hframe.symm.trans hto)
    split at hround
    · rename_i hin
      obtain rfl := (Option.some.injEq _ _).mp hround
      rw [hm.free, List.getD_eq_getElem?_getD, List.getElem?_map, hs] at hin
      obtain ⟨k, hk, -, heq⟩ := PmmSel.mem_without.mp hin
      exact ⟨hm.took h hs (PmmSel.frame_inj heq ▸ hk), rfl⟩
    · cases hround
  · cases hround

/-- A round finds its page, if it lies in a range and was not reserved before. -/
theorem Marked.exists_reserveFrame (h : Tabled lo hi sels) (haligned : ∀ s ∈ sels, pgSize ∣ s.memAddr)
    (hpages : ∀ s ∈ sels, pgSize ∣ s.memSize) (hm : Marked sels taken p) (ha : pgSize ∣ a)
    (hsel : pa2sel64 sels a = some i) (hnew : a ∉ taken) : ∃ p', Jrinx.reserveFrame p a = some p' := by
  obtain ⟨s, j, hs, rfl, hto, hlt⟩ := h.of_pa2sel haligned ha hsel
  have hj := hlt (hpages s (List.mem_of_getElem? hs))
  have hin : s.frame j ∈ p.pfFreeList.getD i [] := by
    rw [hm.free, List.getD_eq_getElem?_getD, List.getElem?_map, hs]
    exact PmmSel.mem_without.mpr ⟨j, hj, hnew, rfl⟩
  rw [← hm.sels_eq] at hto hsel
  refine ⟨p.took i (s.frame j), ?_⟩
  rw [Jrinx.reserveFrame, hto, hsel]
  exact if_pos hin

/-- **The whole loop.** -/
theorem Marked.foldlM (h : Tabled lo hi sels) (haligned : ∀ s ∈ sels, pgSize ∣ s.memAddr) {addrs : List Nat}
    (hm : Marked sels taken p) (hpages : ∀ a ∈ addrs, pgSize ∣ a)
    (hloop : addrs.foldlM Jrinx.reserveFrame p = some p') :
    Marked sels (addrs.reverse ++ taken) p' ∧ p'.freememBase = p.freememBase := by
  induction addrs generalizing p taken with
  | nil =>
      obtain rfl := (Option.some.injEq _ _).mp hloop
      exact ⟨hm, rfl⟩
  | cons a addrs ih =>
      rw [List.foldlM_cons] at hloop
      obtain ⟨p₁, hround, hrest⟩ := Option.bind_eq_some_iff.mp hloop
      obtain ⟨ha, haddrs⟩ := List.forall_mem_cons.mp hpages
      obtain ⟨hm₁, hbase⟩ := hm.reserveFrame h haligned ha hround
      obtain ⟨hm', hbase'⟩ := ih hm₁ haddrs hrest
      rw [List.reverse_cons, List.append_assoc, List.singleton_append]
      exact ⟨hm', hbase'.trans hbase⟩

/-- The loop goes through, if all its pages lie in ranges and none comes twice. -/
theorem Marked.exists_foldlM (h : Tabled lo hi sels) (haligned : ∀ s ∈ sels, pgSize ∣ s.memAddr)
    (hwhole : ∀ s ∈ sels, pgSize ∣ s.memSize) {addrs : List Nat} (hm : Marked sels taken p)
    (hpages : ∀ a ∈ addrs, pgSize ∣ a) (hsel : ∀ a ∈ addrs, ∃ i, pa2sel64 sels a = some i)
    (hnodup : addrs.Nodup) (hnew : ∀ a ∈ addrs, a ∉ taken) :
    ∃ p', addrs.foldlM Jrinx.reserveFrame p = some p' := by
  induction addrs generalizing p taken with
  | nil => exact ⟨p, rfl⟩
  | cons a addrs ih =>
      obtain ⟨ha, haddrs⟩ := List.forall_mem_cons.mp hpages
      obtain ⟨⟨i, hi⟩, hsels⟩ := List.forall_mem_cons.mp hsel
      obtain ⟨hfirst, hrest⟩ := List.nodup_cons.mp hnodup
      obtain ⟨hna, hnaddrs⟩ := List.forall_mem_cons.mp hnew
      obtain ⟨p₁, hround⟩ := hm.exists_reserveFrame h haligned hwhole ha hi hna
      have hm₁ := (hm.reserveFrame h haligned ha hround).1
      obtain ⟨p', hloop⟩ := ih hm₁ haddrs hsels hrest fun b hb hin => by
        rcases List.mem_cons.mp hin with rfl | hin
        · exact hfirst hb
        · exact hnaddrs b hb hin
      refine ⟨p', ?_⟩
      rw [List.foldlM_cons, hround]
      exact hloop

/-! ## After `pmm_init` -/

/-- All frames are on the lists before the last loop. -/
theorem marked_pmmFreed (sels : List PmmSel) (ref : Nat → Nat) (freememBase : Nat) :
    Marked sels [] (pmmFreed sels ref freememBase) where
  sels_eq := rfl
  free := by
    refine List.map_congr_left fun s _ => ?_
    rw [PmmSel.without, List.filter_eq_self.mpr (by simp), PmmSel.frames]
  ref s hs j hj := by
    have hin : sels.any (·.frames.contains (s.frame j)) = true := by
      refine List.any_eq_true.mpr ⟨s, hs, ?_⟩
      exact List.contains_iff_mem.mpr (PmmSel.mem_frames.mpr ⟨j, hj, rfl⟩)
    simp only [pmmFreed, hin, if_true, List.not_mem_nil, if_false]

/-- **The memory in use is reserved**, and the rest is free. -/
structure BootMemory (mems : List MemRange) (p : Pmm) : Prop where
  ranges : p.sels.map (·.range) = mems
  whole : ∀ s ∈ p.sels, s.pfArrayLen * pgSize = s.memSize
  used : ∀ s ∈ p.sels, ∀ j < s.pfArrayLen, sbiBase ≤ s.page j → s.page j < p.freememBase →
    p.pfRef (s.frame j) = 1 ∧ ∀ l ∈ p.pfFreeList, s.frame j ∉ l
  free : ∀ (i : Nat) (s : PmmSel), p.sels[i]? = some s → ∀ j < s.pfArrayLen,
    ¬ (sbiBase ≤ s.page j ∧ s.page j < p.freememBase) →
      p.pfRef (s.frame j) = 0 ∧ (p.pfFreeList.getD i []).count (s.frame j) = 1 ∧
        ∀ k, k ≠ i → s.frame j ∉ p.pfFreeList.getD k []

/-- A frame is on no list but that of its range. -/
theorem Marked.mem_free (h : Tabled lo hi sels) (hm : Marked sels taken p) (hs : sels[i]? = some s)
    (hj : j < s.pfArrayLen) (k : Nat) : s.frame j ∈ p.pfFreeList.getD k [] ↔ k = i ∧ s.page j ∉ taken := by
  rw [hm.free, List.getD_eq_getElem?_getD, List.getElem?_map]
  cases ht : sels[k]? with
  | none =>
      refine ⟨fun hin => absurd hin (List.not_mem_nil), ?_⟩
      rintro ⟨rfl, -⟩
      rw [hs] at ht
      cases ht
  | some t =>
      rw [Option.map_some, Option.getD_some, PmmSel.mem_without]
      constructor
      · rintro ⟨m, hlt, hnew, heq⟩
        have hsame := h.frame2sel64_frame ht hlt
        rw [heq, h.frame2sel64_frame hs hj] at hsame
        obtain rfl := (Option.some.injEq _ _).mp hsame
        obtain rfl := (Option.some.injEq _ _).mp (hs.symm.trans ht)
        exact ⟨rfl, PmmSel.frame_inj heq ▸ hnew⟩
      · rintro ⟨rfl, hnew⟩
        obtain rfl := (Option.some.injEq _ _).mp (hs.symm.trans ht)
        exact ⟨j, hj, hnew, rfl⟩

/-- **The frames after the last loop.** -/
theorem Marked.booted (h : Tabled lo hi sels) (hm : Marked sels taken p) (haligned : ∀ s ∈ sels, pgSize ∣ s.memAddr)
    (hwhole : ∀ s ∈ sels, pgSize ∣ s.memSize)
    (htaken : ∀ x, pgSize ∣ x → (x ∈ taken ↔ sbiBase ≤ x ∧ x < p.freememBase)) :
    BootMemory (sels.map (·.range)) p := by
  have hpage : ∀ s ∈ sels, ∀ j, s.page j ∈ taken ↔ sbiBase ≤ s.page j ∧ s.page j < p.freememBase := fun s hs j =>
    htaken _ (Nat.dvd_add (haligned s hs) (Nat.dvd_mul_left _ _))
  refine ⟨by rw [hm.sels_eq], ?_, ?_, ?_⟩
  · rw [hm.sels_eq]
    intro s hs
    rw [h.len s hs, Nat.div_mul_cancel (hwhole s hs)]
  · rw [hm.sels_eq]
    intro s hs j hj hle hlt
    obtain ⟨i, hi⟩ := List.getElem?_of_mem hs
    have hin : s.page j ∈ taken := (hpage s hs j).mpr ⟨hle, hlt⟩
    refine ⟨by rw [hm.ref s hs j hj, if_pos hin], fun l hl hmem => ?_⟩
    obtain ⟨k, hk⟩ := List.getElem?_of_mem hl
    have hget : s.frame j ∈ p.pfFreeList.getD k [] := by rwa [List.getD_eq_getElem?_getD, hk]
    exact ((hm.mem_free h hi hj k).mp hget).2 hin
  · rw [hm.sels_eq]
    intro i s hs j hj hout
    have hmem := List.mem_of_getElem? hs
    have hnot : s.page j ∉ taken := fun hin => hout ((hpage s hmem j).mp hin)
    refine ⟨by rw [hm.ref s hmem j hj, if_neg hnot], ?_, fun k hk hin => ?_⟩
    · have hin := (hm.mem_free h hs hj i).mpr ⟨rfl, hnot⟩
      refine List.count_eq_one_of_mem ?_ hin
      rw [hm.free, List.getD_eq_getElem?_getD, List.getElem?_map, hs]
      exact s.nodup_without taken
    · exact hk ((hm.mem_free h hs hj k).mp hin).1

/-! ## Handing frames out -/

/-- All frames on the lists are records of pages outside the memory in use. -/
def FreeOutside (p : Pmm) : Prop :=
  ∀ f ∈ p.pfFreeList.flatten, ∃ addr, frame2pa64 p.sels f = some addr ∧
    Disjoint (Set.Ico addr (addr + pgSize)) (Set.Ico sbiBase p.freememBase)

/-- One call hands out a frame of the lists, if there is one. -/
theorem FreeOutside.phyFrameAlloc64 (h : FreeOutside p) :
    ∃ f p', phyFrameAlloc64 p = some (f, p') ∧ p'.sels = p.sels ∧ p'.freememBase = p.freememBase ∧
      FreeOutside p' ∧ ∀ x ∈ f, x ∈ p.pfFreeList.flatten := by
  unfold Jrinx.phyFrameAlloc64
  cases htake : takeFrame p.pfFreeList with
  | none => exact ⟨none, p, rfl, rfl, rfl, h, by simp⟩
  | some r =>
      obtain ⟨f, free⟩ := r
      obtain ⟨hflat, -⟩ := takeFrame_eq_some htake
      have hmem : f ∈ p.pfFreeList.flatten := hflat ▸ List.mem_cons_self ..
      obtain ⟨addr, haddr, -⟩ := h f hmem
      refine ⟨some f, { p with pfFreeList := free }, by simp only [haddr], rfl, rfl, ?_, by simpa using hmem⟩
      exact fun g hg => h g (hflat ▸ List.mem_cons_of_mem _ hg)

/-- **No frame that is handed out lies in the memory in use**, however many are. -/
theorem FreeOutside.allocFrames (h : FreeOutside p) (n : Nat) :
    ∃ fs p', allocFrames n p = some (fs, p') ∧ ∀ f ∈ fs, ∃ addr, frame2pa64 p.sels f = some addr ∧
      Disjoint (Set.Ico addr (addr + pgSize)) (Set.Ico sbiBase p.freememBase) := by
  induction n generalizing p with
  | zero => exact ⟨[], p, rfl, by simp⟩
  | succ n ih =>
      obtain ⟨f, p₁, hcall, hsels, hbase, hfree, hmem⟩ := h.phyFrameAlloc64
      obtain ⟨fs, p', hrest, hout⟩ := ih hfree
      refine ⟨f.toList ++ fs, p', ?_, fun g hg => ?_⟩
      · simp only [Jrinx.allocFrames, hcall, hrest, Option.map_some]
      · rcases List.mem_append.mp hg with hg | hg
        · exact h g (hmem g (Option.mem_toList.mp hg))
        · have hg' := hout g hg
          rwa [hsels, hbase] at hg'

/-- The free frames lie outside the memory in use, whose bounds are those of pages. -/
theorem Marked.freeOutside (h : Tabled lo hi sels) (hm : Marked sels taken p)
    (haligned : ∀ s ∈ sels, pgSize ∣ s.memAddr) (hspace : ∀ s ∈ sels, s.memAddr + s.memSize ≤ wordSize)
    (htop : pgSize ∣ p.freememBase)
    (htaken : ∀ x, pgSize ∣ x → (x ∈ taken ↔ sbiBase ≤ x ∧ x < p.freememBase)) : FreeOutside p := by
  intro f hf
  rw [hm.free] at hf
  obtain ⟨l, hl, hin⟩ := List.mem_flatten.mp hf
  obtain ⟨s, hs, rfl⟩ := List.mem_map.mp hl
  obtain ⟨j, hj, hnew, rfl⟩ := PmmSel.mem_without.mp hin
  obtain ⟨i, hi⟩ := List.getElem?_of_mem hs
  have hpos : 0 < pgSize := by decide
  have hend := h.page_lt hs hj
  have hword := hspace s hs
  have haddr : (s.memAddr + j * pgSize) % wordSize = s.page j := Nat.mod_eq_of_lt (by omega)
  refine ⟨s.page j, by rw [hm.sels_eq, h.frame2pa64_frame hi hj, haddr], ?_⟩
  -- the page is aligned, and so are the bounds
  have hpage : pgSize ∣ s.page j := Nat.dvd_add (haligned s hs) (Nat.dvd_mul_left _ _)
  have hout := mt (htaken _ hpage).mpr hnew
  obtain ⟨n, hn⟩ := hpage
  obtain ⟨m, hm⟩ := htop
  rw [Set.disjoint_left]
  rintro x ⟨hle, hlt⟩ ⟨hsbi, hbase⟩
  refine hout ?_
  unfold sbiBase pgSize at *
  omega

/-- The bump pointer has moved if there was a range. -/
theorem pmmTables_snd_ne_zero {kernEnd freememBase : Nat} {mems : List MemRange}
    (hpos : 0 < pallocBase kernEnd freememBase)
    (h : pallocBase kernEnd freememBase + arraysNeed mems < wordSize) (hne : mems ≠ []) :
    (pmmTables kernEnd mems freememBase).2 ≠ 0 := by
  induction mems generalizing freememBase with
  | nil => exact absurd rfl hne
  | cons m mems ih =>
      rw [arraysNeed_cons] at h
      obtain ⟨hle, hlt, -⟩ := le_alignUp_pgSize (x := pallocBase kernEnd freememBase) (by omega)
      have hsnd : (palloc kernEnd freememBase (phyFrameSize * (m.size / pgSize)) pgSize).2 =
          alignUp (pallocBase kernEnd freememBase) pgSize + phyFrameSize * (m.size / pgSize) :=
        Nat.mod_eq_of_lt (by omega)
      cases mems with
      | nil =>
          show (palloc kernEnd freememBase _ pgSize).2 ≠ 0
          omega
      | cons m' mems =>
          have hbase : pallocBase kernEnd
              (palloc kernEnd freememBase (phyFrameSize * (m.size / pgSize)) pgSize).2 =
                alignUp (pallocBase kernEnd freememBase) pgSize + phyFrameSize * (m.size / pgSize) :=
            pallocBase_palloc (by omega)
          exact ih (by rw [hbase]; omega) (by rw [hbase]; omega) (List.cons_ne_nil _ _)

/-- **Boot reserves exactly the memory in use**: after `pmm_init` a frame is reserved if its page lies between
`SBIBASE` and the end of the frame arrays, and on the free list of its range otherwise; the arrays lie in there;
and no frame that is handed out later does. `pmm_init` returns if no range with memory in use ends with the
address space. -/
theorem pmmInit_reserves {reg : Option DevNodeProp} {mems : List MemRange} {kernEnd freememBase : Nat}
    {ref : Nat → Nat} (hprobe : memProbe reg = some mems) (hlen : ∀ prop ∈ reg, prop.prLen < 2 ^ 32)
    (hapart : Apart mems) (haligned : ∀ m ∈ mems, pgSize ∣ m.addr) (hpages : ∀ m ∈ mems, pgSize ∣ m.size)
    (hspace : ∀ m ∈ mems, m.addr + m.size ≤ wordSize) (hkern : sbiBase ≤ pallocBase kernEnd freememBase)
    (hbase : pallocBase kernEnd freememBase < 2 ^ 63)
    (hcover : ∀ a, sbiBase ≤ a → a < pmmTop kernEnd mems freememBase → ∃ m ∈ mems, a ∈ m.region.bytes) :
    ((∀ m ∈ mems, (∃ a ∈ m.region.bytes, sbiBase ≤ a ∧ a < pmmTop kernEnd mems freememBase) →
        m.addr + m.size < wordSize) → ∃ p, pmmInit kernEnd mems ref freememBase = some p) ∧
      ∀ p, pmmInit kernEnd mems ref freememBase = some p →
        BootMemory mems p ∧ p.freememBase = pmmTop kernEnd mems freememBase ∧
          (∀ s ∈ p.sels, s.array.bytes ⊆ Set.Ico sbiBase p.freememBase) ∧
          ∀ n, ∃ fs p', allocFrames n p = some (fs, p') ∧ ∀ f ∈ fs, ∃ addr, frame2pa64 p.sels f = some addr ∧
            Disjoint (Set.Ico addr (addr + pgSize)) (Set.Ico sbiBase p.freememBase) := by
  have hprobed := probed_memProbe hprobe hlen
  have h := tabled_pmmTables hprobed hapart hbase
  have hranges := pmmTables_ranges kernEnd mems freememBase
  have hall : ∀ {P : MemRange → Prop}, (∀ m ∈ mems, P m) →
      ∀ s ∈ (pmmTables kernEnd mems freememBase).1, P s.range := by
    intro P hP s hs
    refine hP _ ?_
    rw [← hranges]
    exact List.mem_map_of_mem hs
  have hsbi : pgSize ∣ sbiBase := by decide
  have hdvd : pgSize ∣ pmmTop kernEnd mems freememBase := Nat.dvd_sub_mod _
  have hstart := marked_pmmFreed (pmmTables kernEnd mems freememBase).1 ref (pmmTop kernEnd mems freememBase)
  have hsteps : ∀ a ∈ pageSteps sbiBase (pmmTop kernEnd mems freememBase), pgSize ∣ a := fun a ha =>
    pgSize_dvd_of_mem_pageSteps hsbi ha
  constructor
  · intro hends
    refine hstart.exists_foldlM h (hall haligned) (hall hpages) hsteps (fun a ha => ?_) (nodup_pageSteps _ _)
      (by simp)
    obtain ⟨hle, hlt⟩ := (mem_pageSteps_iff hsbi (hsteps a ha)).mp ha
    obtain ⟨m, hm, hin⟩ := hcover a hle hlt
    have hend := hends m hm ⟨a, hin, hle, hlt⟩
    rw [← hranges] at hm
    obtain ⟨s, hs, rfl⟩ := List.mem_map.mp hm
    obtain ⟨i, hi⟩ := List.getElem?_of_mem hs
    have hbytes := Region.mem_bytes.mp hin
    have hword : (s.memAddr + s.memSize) % wordSize = s.memAddr + s.memSize := Nat.mod_eq_of_lt hend
    exact ⟨i, h.pa2sel64_eq hi hbytes.1 (by rw [hword]; exact hbytes.2)⟩
  · intro p hinit
    obtain ⟨hm, htop⟩ := hstart.foldlM h (hall haligned) hsteps hinit
    have htop' : p.freememBase = pmmTop kernEnd mems freememBase := htop
    have htaken : ∀ x, pgSize ∣ x → (x ∈ (pageSteps sbiBase (pmmTop kernEnd mems freememBase)).reverse ++ [] ↔
        sbiBase ≤ x ∧ x < p.freememBase) := by
      intro x hx
      rw [List.append_nil, List.mem_reverse, mem_pageSteps_iff hsbi hx, htop']
    refine ⟨?_, htop', ?_, (hm.freeOutside h (hall haligned) (hall hspace) (htop' ▸ hdvd) htaken).allocFrames⟩
    · have hbooted := hm.booted h (hall haligned) (hall hpages) htaken
      rwa [hranges] at hbooted
    · rw [hm.sels_eq]
      intro s hs x hx
      -- the arrays end at the bump pointer, before it is aligned
      have hneed := hprobed.arraysNeed_le hapart
      have hword := wordSize_eq
      have hne : mems ≠ [] := by
        rintro rfl
        cases hs
      have hroom : pallocBase kernEnd freememBase + arraysNeed mems < wordSize := by omega
      have hpos : 0 < pallocBase kernEnd freememBase := by
        unfold sbiBase at hkern
        omega
      have hmoved := pmmTables_snd_ne_zero hpos hroom hne
      have hhi := (pmmTables_laid hroom).2
      rw [pallocBase, if_neg hmoved] at hhi
      obtain ⟨hup, -, -⟩ := le_alignUp_pgSize (x := (pmmTables kernEnd mems freememBase).2)
        (by unfold pgSize; omega)
      obtain ⟨hlo, hend⟩ := h.laid.below s.array (List.mem_map_of_mem hs)
      rw [pallocBase, if_neg hmoved] at hend
      have hbytes := Region.mem_bytes.mp hx
      rw [htop', pmmTop]
      exact ⟨by omega, by omega⟩

/-- One range of 4 MiB, with a kernel that ends a page behind its base. -/
theorem pmmInit_reserves_oneRange :
    ∃ p, pmmInit 0x80201000 [⟨0x80000000, 0x400000⟩] (fun _ => 7) 0 = some p ∧
      BootMemory [⟨0x80000000, 0x400000⟩] p ∧ p.freememBase = 0x80207000 := by
  let mems : List MemRange := [⟨0x80000000, 0x400000⟩]
  have hprobe : memProbe (some (regProp mems)) = some mems := by decide +kernel
  have htop : pmmTop 0x80201000 mems 0 = 0x80207000 := by decide +kernel
  have hspace : ∀ m ∈ mems, m.addr + m.size < wordSize := by
    rw [wordSize_eq]
    decide
  have hcover : ∀ a, sbiBase ≤ a → a < pmmTop 0x80201000 mems 0 → ∃ m ∈ mems, a ∈ m.region.bytes := by
    rw [htop]
    intro a hle hlt
    refine ⟨⟨0x80000000, 0x400000⟩, List.mem_singleton.mpr rfl, Region.mem_bytes.mpr ⟨hle, ?_⟩⟩
    show a < 0x80000000 + 0x400000
    omega
  obtain ⟨hreturns, hall⟩ := pmmInit_reserves hprobe (by decide +kernel)
    (List.pairwise_singleton _ _) (by decide) (by decide) (fun m hm => (hspace m hm).le) (by decide) (by decide)
    hcover
  obtain ⟨p, hp⟩ := hreturns fun m hm _ => hspace m hm
  obtain ⟨hbooted, hbase, -⟩ := hall p hp
  exact ⟨p, hp, hbooted, hbase.trans htop⟩

end Jrinx
