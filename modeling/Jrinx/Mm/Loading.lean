import Jrinx.Mm.Budget
import Jrinx.Mm.Segments
import Jrinx.Mm.Ways
import Mathlib.Data.Finset.Card

/-! # Programs in memory

`part_load_prog` with the bytes that it copies. Its callback takes a new frame for every page it is told
about, also for a page that it has been told about before.

* **`ByteMem`**, **`partLoadProgMapper`**, **`loadProg`** — the bytes of the data frames, and the load.
* **`partLoadProg_of_loadProg`** — without the bytes it is `partLoadProg`.
* **`KeepsSegments`** — what a load should do: bytes stay, are found, and pages are charged once.
* **`SegmentsApart`**, **`segments_kept_iff`** — the programs that are loaded so. -/

namespace Jrinx

open Op

/-- A `PT_LOAD` entry with the place of its bytes in the file. -/
structure PtLoad extends Phdr where
  pOffset : Nat
  deriving DecidableEq, Repr

/-- What `part_load_prog` takes from an ELF file it accepts, with the bytes of the file. -/
structure ProgDef where
  pgElfBin : Nat → UInt8
  loads : List PtLoad
  mainProcStacktop : Nat
  eEntry : Nat

/-- The program without its bytes. -/
def ProgDef.toProg (prog : ProgDef) : Prog :=
  ⟨prog.loads.map PtLoad.toPhdr, prog.mainProcStacktop, prog.eEntry⟩

/-- The memory with the bytes of the frames, as far as they serve as data pages. -/
structure ByteMem where
  mem : Mem
  bytes : Ppn → Nat → UInt8

/-- `part_pt_alloc`: the frame of the page was cleared by `phy_frame_alloc`. -/
def partPtAllocBytes (pt : PartId) (va : Nat) (perm : Perm) : Op ByteMem Ppn := fun s =>
  match partPtAlloc pt va perm s.mem with
  | .ok f m => .ok f ⟨m, Function.update s.bytes f fun _ => 0⟩
  | .err m => .err ⟨m, s.bytes⟩
  | .fatal => .fatal

/-- `memcpy` to an offset in a frame. -/
def copyTo (f : Ppn) (offset len : Nat) (src : Nat → UInt8) (s : ByteMem) : ByteMem :=
  { s with
    bytes := Function.update s.bytes f fun o =>
      if offset ≤ o ∧ o < offset + len then src (o - offset) else s.bytes f o }

/-- `part_load_prog_mapper`. -/
def partLoadProgMapper (pt : PartId) (prog : ProgDef) (phdr : PtLoad) (c : MapCall) : Op ByteMem Unit := do
  let pa ← partPtAllocBytes pt c.va (loadPerm phdr.toPhdr)
  match c.src with
  | none => pure ()
  | some src =>
      Op.modify (copyTo pa c.offset c.srcLen fun j => prog.pgElfBin (phdr.pOffset + src + j))

/-- `elf64_load_prog` with its callback, as far as its loops end within the given rounds: an error of the
callback ends them, and is returned. -/
def elf64LoadWith {σ : Type} (rounds : Nat) (phdr : Phdr) (mapCallback : MapCall → Op σ Unit) : Op σ Unit :=
  match elf64Load rounds phdr with
  | none => Op.halt
  | some calls => calls.forM mapCallback

/-- The loop of `part_load_prog` over the program header. -/
def loadSegments (rounds : Nat) (pt : PartId) (prog : ProgDef) (loads : List PtLoad) : Op ByteMem Unit :=
  loads.forM fun phdr => elf64LoadWith rounds phdr.toPhdr (partLoadProgMapper pt prog phdr)

/-- `part_load_prog`, with the bytes. -/
def loadProg (rounds : Nat) (pt : PartId) (prog : ProgDef) : Op ByteMem Unit := do
  loadSegments rounds pt prog prog.loads
  if ustkLimit < prog.mainProcStacktop then
    Op.fail
  else
    Op.modify fun s => { s with mem := s.mem.updPart pt fun p =>
      { p with
        paMainProcStacksize := ustkLimit - prog.mainProcStacktop
        paEntrypoint := prog.eEntry } }

/-- The byte at a virtual address, through `pt_lookup`. -/
def readByte (s : ByteMem) (pgdir : Ppn) (va : Nat) : Option UInt8 :=
  match ptLookup pgdir va s.mem with
  | .ok (some a) m => some (s.bytes (m.pte a).ppn (va % pgSize))
  | _ => none

/-! ## What a load should do -/

/-- The pages that a load maps. -/
def usedPages (loads : List PtLoad) : Finset Nat :=
  (loads.flatMap fun phdr => (elf64LoadProg phdr.toPhdr).map vpnOf).toFinset

/-- **The segments are kept**: the load of one changes no byte of those before it, at the end every byte of
the file is found at its virtual address, and the budget is charged once for every page. -/
structure KeepsSegments (rounds : Nat) (pt : PartId) (prog : ProgDef) (s s' : ByteMem) : Prop where
  kept : ∀ pre phdr post s₁ s₂, prog.loads = pre ++ phdr :: post →
    loadSegments rounds pt prog pre s = .ok () s₁ → loadSegments rounds pt prog [phdr] s₁ = .ok () s₂ →
    ∀ q ∈ pre, ∀ k < q.pMemsz, readByte s₂ (s.mem.parts pt).paPgdir ((q.pVaddr + k) % wordSize) =
      readByte s₁ (s.mem.parts pt).paPgdir ((q.pVaddr + k) % wordSize)
  bytes : ∀ q ∈ prog.loads, ∀ k < q.pFilesz,
    readByte s' (s.mem.parts pt).paPgdir ((q.pVaddr + k) % wordSize) = some (prog.pgElfBin (q.pOffset + k))
  charged : (s'.mem.parts pt).paMemRem + pgSize * (usedPages prog.loads).card = (s.mem.parts pt).paMemRem

/-- The number of pages from the first address of a segment to its last one. -/
def Phdr.pageCount (phdr : Phdr) : Nat := (phdr.pVaddr % pgSize + phdr.pMemsz + (pgSize - 1)) / pgSize

/-- The page numbers of a segment. -/
def Phdr.vpns (phdr : Phdr) : List Nat :=
  (List.range phdr.pageCount).map fun k => (phdr.pVaddr / pgSize + k) % 2 ^ 27

/-- **The segments are apart**: an unaligned first page is filled by the file, or there are no zeros behind
the file; no segment is larger than the virtual address space, and no two segments have a page in common. -/
structure SegmentsApart (loads : List PtLoad) : Prop where
  first : ∀ phdr ∈ loads, phdr.pVaddr % pgSize = 0 ∨ pgSize - phdr.pVaddr % pgSize ≤ phdr.pFilesz ∨
    phdr.pFilesz = phdr.pMemsz
  size : ∀ phdr ∈ loads, phdr.pageCount ≤ 2 ^ 27
  apart : loads.Pairwise fun p q => p.vpns.Disjoint q.vpns

/-- The addresses in the pages of the segments. -/
def spaceOf (loads : List PtLoad) : Set Nat := {va | ∃ phdr ∈ loads, vpnOf va ∈ phdr.vpns}

/-- The part of the address space that a program takes is not in use: nothing is mapped there, and no table
that leads there is a free frame or stands in two places. -/
structure FreshSpace (m : Mem) (pgdir : Ppn) (loads : List PtLoad) : Prop where
  ways : OpenWays m pgdir (spaceOf loads)
  unmapped : ∀ va ∈ spaceOf loads, found m (pageOf pgdir va) = none

/-! ## The pages of a segment -/

variable {phdr : Phdr} {rounds files zeros : Nat} {calls : List MapCall}

theorem vpnOf_mod (x : Nat) : vpnOf (x % wordSize) = vpnOf x := by
  rw [wordSize_eq]
  unfold vpnOf
  omega

theorem mod_wordSize_mod (x : Nat) : x % wordSize % pgSize = x % pgSize :=
  Nat.mod_mod_of_dvd x pgSize_dvd_wordSize

/-- The page number of an address in the pages of a segment. -/
theorem vpnOf_add (v k : Nat) : vpnOf (v + k) = (v / pgSize + (v % pgSize + k) / pgSize) % 2 ^ 27 := by
  unfold vpnOf pgSize
  omega

/-- An address in a segment is in one of its pages. -/
theorem vpnOf_mem_vpns {k : Nat} (hk : k < phdr.pMemsz) : vpnOf (phdr.pVaddr + k) ∈ phdr.vpns := by
  rw [vpnOf_add]
  refine List.mem_map.mpr ⟨_, List.mem_range.mpr ?_, rfl⟩
  unfold Phdr.pageCount pgSize
  omega

/-- A segment has different pages if it fits the virtual address space. -/
theorem nodup_vpns : phdr.vpns.Nodup ↔ phdr.pageCount ≤ 2 ^ 27 := by
  unfold Phdr.vpns
  constructor
  · intro h
    by_contra hlt
    have heq := List.inj_on_of_nodup_map h (List.mem_range.mpr (by omega : 0 < phdr.pageCount))
      (List.mem_range.mpr (by omega : 2 ^ 27 < phdr.pageCount)) (by omega)
    exact absurd heq (by decide)
  · intro hle
    refine List.Nodup.map_on (fun i hi j hj heq => ?_) List.nodup_range
    rw [List.mem_range] at hi hj
    omega

/-- How many rounds the loops of a load make. -/
theorem LoadRun.count (h : LoadRun phdr files zeros calls) (hsized : phdr.Sized) :
    files + zeros = (phdr.pMemsz - loopStart phdr + (pgSize - 1)) / pgSize := by
  refine eq_ceil pgSize_pos (fun k hk => ?_) h.zero_le
  by_cases hfile : k < files
  · exact (h.file_lt k hfile).trans_le hsized.filesz
  · obtain ⟨j, rfl⟩ := Nat.exists_eq_add_of_le (not_lt.mp hfile)
    exact h.zero_lt j (Nat.lt_of_add_lt_add_left hk)

/-- The page numbers of the calls. -/
theorem LoadRun.vpns_calls (h : LoadRun phdr files zeros calls) : calls.map (fun c => vpnOf c.va) =
    (if phdr.pVaddr % pgSize ≠ 0 then [vpnOf phdr.pVaddr] else []) ++
      (List.range (files + zeros)).map fun k => vpnOf (phdr.pVaddr + (loopStart phdr + k * pgSize)) := by
  have hva := congrArg (List.map vpnOf) h.addresses
  rw [List.map_append, List.map_map, List.map_map] at hva
  refine hva.trans (congrArg₂ (· ++ ·) ?_ (List.map_congr_left fun k _ => vpnOf_mod _))
  split <;> rfl

/-- **The calls are for the pages of the segment**, in order, if the first page is full or there are no
zeros. -/
theorem LoadRun.vpns_eq (h : LoadRun phdr files zeros calls) (hsized : phdr.Sized)
    (hfirst : phdr.pVaddr % pgSize = 0 ∨ pgSize - phdr.pVaddr % pgSize ≤ phdr.pFilesz ∨
      phdr.pFilesz = phdr.pMemsz) : calls.map (fun c => vpnOf c.va) = phdr.vpns := by
  have hcount := h.count hsized
  have hfile := hsized.filesz
  have hoffset := Nat.mod_lt phdr.pVaddr pgSize_pos
  have hround : ∀ x k, vpnOf (phdr.pVaddr + (x + k * pgSize)) =
      (phdr.pVaddr / pgSize + ((phdr.pVaddr % pgSize + x) / pgSize + k)) % 2 ^ 27 := by
    intro x k
    rw [vpnOf_add]
    unfold pgSize
    omega
  rw [h.vpns_calls, Phdr.vpns]
  by_cases hoff : phdr.pVaddr % pgSize = 0
  · -- an aligned segment
    have hstart : loopStart phdr = 0 := if_neg (not_not_intro hoff)
    have hn : phdr.pageCount = files + zeros := by
      rw [hcount, hstart, Phdr.pageCount, hoff, Nat.zero_add, Nat.sub_zero]
    rw [if_neg (not_not_intro hoff), List.nil_append, hn]
    refine List.map_congr_left fun k _ => ?_
    rw [hround, hstart, hoff]
    simp
  have hself : vpnOf phdr.pVaddr = (phdr.pVaddr / pgSize + 0) % 2 ^ 27 := by
    unfold vpnOf pgSize
    omega
  rw [if_pos hoff]
  by_cases hfull : pgSize - phdr.pVaddr % pgSize ≤ phdr.pFilesz
  · -- a first page that the file fills
    have hstart : loopStart phdr = pgSize - phdr.pVaddr % pgSize := by
      rw [loopStart, if_pos hoff, srcLen_firstCall, min_eq_right hfull]
    have hn : phdr.pageCount = files + zeros + 1 := by
      rw [hcount, hstart, Phdr.pageCount]
      unfold pgSize at *
      omega
    rw [hn, List.range_succ_eq_map, List.map_cons, List.map_map, hself]
    refine congrArg₂ List.cons rfl (List.map_congr_left fun k _ => ?_)
    rw [hround, hstart]
    show _ = (phdr.pVaddr / pgSize + (k + 1)) % 2 ^ 27
    unfold pgSize at *
    omega
  · -- a segment inside one page
    have hend : phdr.pFilesz = phdr.pMemsz := by
      rcases hfirst with hz | hle | heq
      · exact absurd hz hoff
      · exact absurd hle hfull
      · exact heq
    have hstart : loopStart phdr = phdr.pMemsz := by
      rw [loopStart, if_pos hoff, srcLen_firstCall, min_eq_left (not_le.mp hfull).le, hend]
    have hnone : files + zeros = 0 := by
      rw [hcount, hstart]
      unfold pgSize
      omega
    have hn : phdr.pageCount = 1 := by
      rw [Phdr.pageCount]
      unfold pgSize at *
      omega
    rw [hnone, hn, hself]
    rfl

/-- A first page that is not full is mapped again for the zeros behind the file. -/
theorem LoadRun.not_nodup (h : LoadRun phdr files zeros calls) (hsized : phdr.Sized)
    (hfirst : ¬ (phdr.pVaddr % pgSize = 0 ∨ pgSize - phdr.pVaddr % pgSize ≤ phdr.pFilesz ∨
      phdr.pFilesz = phdr.pMemsz)) : ¬ (calls.map fun c => vpnOf c.va).Nodup := by
  simp only [not_or, not_le] at hfirst
  obtain ⟨hoff, hshort, hne⟩ := hfirst
  have hfile := hsized.filesz
  have hstart : loopStart phdr = phdr.pFilesz := by
    rw [loopStart, if_pos hoff, srcLen_firstCall, min_eq_left hshort.le]
  have hsome : 0 < files + zeros := by
    rw [h.count hsized, hstart]
    unfold pgSize
    omega
  rw [h.vpns_calls, if_pos hoff, List.singleton_append, List.nodup_cons]
  rintro ⟨hnot, -⟩
  refine hnot (List.mem_map.mpr ⟨0, List.mem_range.mpr hsome, ?_⟩)
  rw [hstart]
  unfold vpnOf
  unfold pgSize at *
  omega

/-- **Every byte of the file is copied**, to its place in its page. -/
theorem LoadRun.copied (h : LoadRun phdr files zeros calls) {k : Nat} (hk : k < phdr.pFilesz) :
    ∃ c ∈ calls, ∃ src, c.src = some src ∧ src ≤ k ∧ k - src < c.srcLen ∧
      vpnOf c.va = vpnOf (phdr.pVaddr + k) ∧ (phdr.pVaddr + k) % pgSize = c.offset + (k - src) := by
  have hoffset := Nat.mod_lt phdr.pVaddr pgSize_pos
  rw [h.calls]
  rcases Nat.lt_or_ge k (loopStart phdr) with hlt | hge
  · -- in the unaligned first page
    have hoff : phdr.pVaddr % pgSize ≠ 0 := by
      intro hz
      rw [loopStart, if_neg (not_not_intro hz)] at hlt
      exact absurd hlt (Nat.not_lt_zero k)
    rw [loopStart, if_pos hoff] at hlt
    refine ⟨firstCall phdr, by simp [hoff], 0, rfl, Nat.zero_le k, hlt, ?_, ?_⟩
    · rw [srcLen_firstCall] at hlt
      simp only [firstCall]
      unfold vpnOf
      unfold pgSize at *
      omega
    · rw [srcLen_firstCall] at hlt
      simp only [firstCall, sub_alignDown]
      unfold pgSize at *
      omega
  · have hmod := Nat.div_add_mod (k - loopStart phdr) pgSize
    have hlt := Nat.mod_lt (k - loopStart phdr) pgSize_pos
    have hr : (k - loopStart phdr) / pgSize < files := by
      rw [Nat.div_lt_iff_lt_mul pgSize_pos]
      have hle := h.file_le
      omega
    -- the rounds start at whole pages
    have haligned : (phdr.pVaddr + loopStart phdr) % pgSize = 0 := by
      by_cases hoff : phdr.pVaddr % pgSize = 0
      · rw [loopStart, if_neg (not_not_intro hoff), Nat.add_zero, hoff]
      · rw [loopStart, if_pos hoff, srcLen_firstCall] at hge ⊢
        unfold pgSize at *
        omega
    refine ⟨fileCall phdr (loopStart phdr + (k - loopStart phdr) / pgSize * pgSize), ?_, _, rfl, ?_, ?_, ?_, ?_⟩
    · refine List.mem_append_right _ (List.mem_append_left _ ?_)
      exact List.mem_map.mpr ⟨_, List.mem_range.mpr hr, rfl⟩
    · rw [Nat.mul_comm] at hmod
      omega
    · rw [Nat.mul_comm] at hmod
      simp only [fileCall]
      split <;> omega
    · simp only [fileCall]
      rw [vpnOf_mod]
      unfold vpnOf
      unfold pgSize at *
      omega
    · simp only [fileCall]
      unfold pgSize at *
      omega

/-! ## What the calls do -/

section Runs

variable {pt : PartId} {prog : ProgDef} {s s' : ByteMem} {V : Set Nat}

/-- The calls for the segments, in order. -/
def callsOf (rounds : Nat) (loads : List PtLoad) : List (PtLoad × MapCall) :=
  loads.flatMap fun phdr => ((elf64Load rounds phdr.toPhdr).getD []).map fun c => (phdr, c)

/-- The page of a call. -/
def vpnOfCall (x : PtLoad × MapCall) : Nat := vpnOf x.2.va

theorem elf64LoadWith_eq_ok {σ : Type} {cb : MapCall → Op σ Unit} {s t : σ} {u : Unit} :
    elf64LoadWith rounds phdr cb s = .ok u t ↔
      ∃ calls, elf64Load rounds phdr = some calls ∧ calls.forM cb s = .ok u t := by
  unfold elf64LoadWith
  cases elf64Load rounds phdr with
  | none => simp [Op.halt]
  | some calls => simp

/-- A load that succeeds is a loop over the calls. -/
theorem calls_of_loadSegments {loads : List PtLoad} {u : Unit}
    (h : loadSegments rounds pt prog loads s = .ok u s') :
    (∀ phdr ∈ loads, ∃ calls, elf64Load rounds phdr.toPhdr = some calls) ∧
      (callsOf rounds loads).forM (fun x => partLoadProgMapper pt prog x.1 x.2) s = .ok u s' := by
  have hmap : ∀ (phdr : PtLoad) (calls : List MapCall) {s s' : ByteMem} {u : Unit},
      calls.forM (partLoadProgMapper pt prog phdr) s = .ok u s' →
      (calls.map fun c => (phdr, c)).forM (fun x => partLoadProgMapper pt prog x.1 x.2) s = .ok u s' := by
    intro phdr calls
    induction calls with
    | nil => exact fun h => h
    | cons c calls ih =>
        intro s s' u h
        obtain ⟨a, s₁, hc, h⟩ := bind_eq_ok.mp h
        exact bind_eq_ok.mpr ⟨a, s₁, hc, ih h⟩
  induction loads generalizing s with
  | nil => exact ⟨by simp, h⟩
  | cons phdr loads ih =>
      obtain ⟨a, s₁, hload, h⟩ := bind_eq_ok.mp h
      obtain ⟨hcalls, hrest⟩ := ih h
      obtain ⟨calls, hc, hload⟩ := elf64LoadWith_eq_ok.mp hload
      refine ⟨List.forall_mem_cons.mpr ⟨⟨calls, hc⟩, hcalls⟩, ?_⟩
      rw [callsOf, List.flatMap_cons, forM_append_eq_ok, hc]
      exact ⟨s₁, hmap phdr calls hload, hrest⟩

/-- The bytes of a page after the call for it. -/
def pageBytes (prog : ProgDef) (x : PtLoad × MapCall) (o : Nat) : UInt8 :=
  match x.2.src with
  | none => 0
  | some src =>
      if x.2.offset ≤ o ∧ o < x.2.offset + x.2.srcLen then
        prog.pgElfBin (x.1.pOffset + src + (o - x.2.offset))
      else 0

/-- A call takes a frame for its page, and puts the bytes there. -/
theorem partLoadProgMapper_eq_ok {x : PtLoad × MapCall} {u : Unit}
    (h : partLoadProgMapper pt prog x.1 x.2 s = .ok u s') :
    ∃ f, partPtAlloc pt x.2.va (loadPerm x.1.toPhdr) s.mem = .ok f s'.mem ∧
      s'.bytes = Function.update s.bytes f (pageBytes prog x) := by
  obtain ⟨f, s₁, halloc, h⟩ := bind_eq_ok.mp h
  unfold partPtAllocBytes at halloc
  cases hres : partPtAlloc pt x.2.va (loadPerm x.1.toPhdr) s.mem with
  | err m => simp [hres] at halloc
  | fatal => simp [hres] at halloc
  | ok f' m =>
      simp only [hres, Res.ok.injEq] at halloc
      obtain ⟨rfl, rfl⟩ := halloc
      refine ⟨f', ?_⟩
      cases hsrc : x.2.src with
      | none =>
          rw [hsrc] at h
          obtain ⟨-, rfl⟩ := pure_eq_ok.mp h
          refine ⟨rfl, ?_⟩
          show Function.update s.bytes f' _ = _
          exact congrArg (Function.update s.bytes f') (funext fun o => by simp [pageBytes, hsrc])
      | some src =>
          rw [hsrc] at h
          rw [← modify_eq_ok.mp h]
          refine ⟨rfl, ?_⟩
          simp only [copyTo, Function.update_self, Function.update_idem]
          exact congrArg (Function.update s.bytes f') (funext fun o => by simp [pageBytes, hsrc])

/-- **What the calls `l` do**: every page of theirs is mapped to a frame with its bytes; other pages, and the
frames that were not free, are left alone. -/
structure Loads (pt : PartId) (prog : ProgDef) (V : Set Nat) (s s' : ByteMem)
    (l : List (PtLoad × MapCall)) : Prop where
  ways : OpenWays s'.mem (s.mem.parts pt).paPgdir V
  root : (s'.mem.parts pt).paPgdir = (s.mem.parts pt).paPgdir
  free : ∀ f, s'.mem.Free f → s.mem.Free f
  others : ∀ va ∈ V, vpnOf va ∉ l.map vpnOfCall →
    found s'.mem (pageOf (s.mem.parts pt).paPgdir va) = found s.mem (pageOf (s.mem.parts pt).paPgdir va)
  bytes : ∀ f, ¬ s.mem.Free f → s'.bytes f = s.bytes f
  placed : ∀ x ∈ l, ∃ a e, found s'.mem (pageOf (s.mem.parts pt).paPgdir x.2.va) = some (a, e) ∧
    ¬ s'.mem.Free e.ppn ∧ s'.bytes e.ppn = pageBytes prog x

theorem Loads.nil (h : OpenWays s.mem (s.mem.parts pt).paPgdir V) : Loads pt prog V s s [] :=
  ⟨h, rfl, fun _ hf => hf, fun _ _ _ => rfl, fun _ _ => rfl, by simp⟩

/-- One call, for a page that is not mapped. -/
theorem Loads.one {x : PtLoad × MapCall} {u : Unit} (h : OpenWays s.mem (s.mem.parts pt).paPgdir V)
    (hx : x.2.va ∈ V) (hnone : found s.mem (pageOf (s.mem.parts pt).paPgdir x.2.va) = none)
    (hcall : partLoadProgMapper pt prog x.1 x.2 s = .ok u s') : Loads pt prog V s s' [x] := by
  obtain ⟨f, halloc, hbytes⟩ := partLoadProgMapper_eq_ok hcall
  obtain ⟨hways, hroot, hfree, hnot, hrest, ⟨a, ha⟩, hothers⟩ := h.page hx hnone halloc
  refine ⟨hways, hroot, hrest, fun va hva hne => hothers va hva ?_, fun g hg => ?_, ?_⟩
  · rw [Ne, pageOf_eq_iff]
    simpa [vpnOfCall] using hne
  · have hgf : g ≠ f := fun heq => hg (heq ▸ hfree)
    rw [hbytes, Function.update_of_ne hgf]
  · intro y hy
    obtain rfl := List.mem_singleton.mp hy
    exact ⟨a, _, ha, hnot, by rw [hbytes, Function.update_self]⟩

/-- Calls after others, for other pages. -/
theorem Loads.trans {s₁ : ByteMem} {l l' : List (PtLoad × MapCall)} (h : Loads pt prog V s s₁ l)
    (h' : Loads pt prog V s₁ s' l') (hl : ∀ x ∈ l, x.2.va ∈ V)
    (hdisj : (l.map vpnOfCall).Disjoint (l'.map vpnOfCall)) : Loads pt prog V s s' (l ++ l') := by
  have hothers := h'.others
  have hways := h'.ways
  have hplaced := h'.placed
  rw [h.root] at hothers hways hplaced
  refine ⟨hways, h'.root.trans h.root, fun f hf => h.free f (h'.free f hf), ?_, ?_, ?_⟩
  · intro va hva hnot
    rw [List.map_append, List.mem_append, not_or] at hnot
    rw [hothers va hva hnot.2, h.others va hva hnot.1]
  · intro f hf
    rw [h'.bytes f fun hf' => hf (h.free f hf'), h.bytes f hf]
  · intro x hx
    rcases List.mem_append.mp hx with hx | hx
    · obtain ⟨a, e, hfound, hnot, hbytes⟩ := h.placed x hx
      refine ⟨a, e, ?_, fun hf => hnot (h'.free _ hf), (h'.bytes _ hnot).trans hbytes⟩
      rw [hothers _ (hl x hx) (hdisj (List.mem_map_of_mem hx)), hfound]
    · exact hplaced x hx

/-- **The calls**, for different pages that are not mapped. -/
theorem loads_of_calls {l : List (PtLoad × MapCall)} {u : Unit}
    (h : OpenWays s.mem (s.mem.parts pt).paPgdir V) (hl : ∀ x ∈ l, x.2.va ∈ V)
    (hnone : ∀ x ∈ l, found s.mem (pageOf (s.mem.parts pt).paPgdir x.2.va) = none)
    (hnodup : (l.map vpnOfCall).Nodup)
    (hcalls : l.forM (fun x => partLoadProgMapper pt prog x.1 x.2) s = .ok u s') : Loads pt prog V s s' l := by
  induction l generalizing s with
  | nil =>
      obtain ⟨-, rfl⟩ := pure_eq_ok.mp hcalls
      exact .nil h
  | cons x l ih =>
      obtain ⟨_, s₁, hx, hcalls⟩ := bind_eq_ok.mp hcalls
      obtain ⟨hxV, hlV⟩ := List.forall_mem_cons.mp hl
      obtain ⟨hxnone, hlnone⟩ := List.forall_mem_cons.mp hnone
      rw [List.map_cons, List.nodup_cons] at hnodup
      have hone := Loads.one h hxV hxnone hx
      refine hone.trans (ih ?_ hlV ?_ hnodup.2 hcalls) (by simpa using hxV) (by simpa using hnodup.1)
      · rw [hone.root]
        exact hone.ways
      · intro y hy
        rw [hone.root, hone.others _ (hlV y hy) ?_]
        · exact hlnone y hy
        · rw [List.map_singleton, List.mem_singleton]
          intro heq
          exact hnodup.1 (heq ▸ List.mem_map_of_mem hy)

/-! ## The load without its bytes -/

/-- The calls map pages. -/
theorem partPtAllocs_of_calls {phdr : PtLoad} {l : List MapCall} {u : Unit}
    (h : l.forM (partLoadProgMapper pt prog phdr) s = .ok u s') :
    ((l.map MapCall.va).forM fun va => do
      let _ ← partPtAlloc pt va (loadPerm phdr.toPhdr)
      pure () : Op Mem Unit) s.mem = .ok u s'.mem := by
  refine forM_induct (P := fun l s s' => ((l.map MapCall.va).forM fun va => do
      let _ ← partPtAlloc pt va (loadPerm phdr.toPhdr)
      pure () : Op Mem Unit) s.mem = .ok () s'.mem) (fun s => rfl) (fun c l s s₁ s' _ hc ih => ?_) h
  obtain ⟨f, halloc, -⟩ := partLoadProgMapper_eq_ok (x := (phdr, c)) hc
  exact bind_eq_ok.mpr ⟨(), s₁.mem, bind_eq_ok.mpr ⟨f, s₁.mem, halloc, rfl⟩, ih⟩

/-- **Without the bytes a load is `partLoadProg`.** -/
theorem partLoadProg_of_loadProg {u : Unit} (hsized : ∀ phdr ∈ prog.loads, phdr.toPhdr.Sized)
    (h : loadProg rounds pt prog s = .ok u s') : partLoadProg pt prog.toProg s.mem = .ok u s'.mem := by
  obtain ⟨_, s₁, hloads, h⟩ := bind_eq_ok.mp h
  have hsegments : ∀ (loads : List PtLoad) {s s₁ : ByteMem} {u : Unit},
      (∀ phdr ∈ loads, phdr.toPhdr.Sized) → loadSegments rounds pt prog loads s = .ok u s₁ →
      ((loads.map PtLoad.toPhdr).forM fun phdr => (elf64LoadProg phdr).forM fun va => do
        let _ ← partPtAlloc pt va (loadPerm phdr)
        pure () : Op Mem Unit) s.mem = .ok u s₁.mem := by
    intro loads
    induction loads with
    | nil =>
        intro s s₁ u _ h
        obtain ⟨-, rfl⟩ := pure_eq_ok.mp h
        rfl
    | cons phdr loads ih =>
        intro s s₁ u hsized h
        obtain ⟨hphdr, hrest⟩ := List.forall_mem_cons.mp hsized
        obtain ⟨_, s₂, hload, h⟩ := bind_eq_ok.mp h
        obtain ⟨calls, hcalls, hload⟩ := elf64LoadWith_eq_ok.mp hload
        have hpages := partPtAllocs_of_calls hload
        rw [elf64LoadProg_eq hphdr hcalls] at hpages
        exact bind_eq_ok.mpr ⟨(), s₂.mem, hpages, ih hrest h⟩
  refine bind_eq_ok.mpr ⟨(), s₁.mem, hsegments prog.loads hsized hloads, ?_⟩
  show (if ustkLimit < prog.mainProcStacktop then Op.fail else _ : Op Mem Unit) s₁.mem = _
  split at h
  · exact (fail_eq_ok.mp h).elim
  · next hstack =>
      rw [if_neg hstack, ← modify_eq_ok.mp h]
      rfl

/-! ## Exact loads -/

theorem readByte_eq (s : ByteMem) (r va : Nat) : readByte s r va =
    (found s.mem (pageOf r va)).map fun x => s.bytes x.2.ppn (va % pgSize) := by
  unfold readByte ptLookup
  rw [PtOps.lookup_eq]
  cases hfound : found s.mem (pageOf r va) with
  | none => rfl
  | some x => simp [(found_eq_some hfound).2.2.1]

theorem pageOf_mod (r x : Nat) : pageOf r (x % wordSize) = pageOf r x := pageOf_eq_iff.mpr (vpnOf_mod x)

/-- The pages of the calls, segment by segment. -/
theorem vpns_callsOf {loads : List PtLoad} (hsized : ∀ phdr ∈ loads, phdr.toPhdr.Sized)
    (hcalls : ∀ phdr ∈ loads, ∃ calls, elf64Load rounds phdr.toPhdr = some calls) :
    (callsOf rounds loads).map vpnOfCall =
      loads.flatMap fun phdr => (elf64LoadProg phdr.toPhdr).map vpnOf := by
  rw [callsOf, List.map_flatMap]
  refine List.flatMap_congr fun phdr hphdr => ?_
  obtain ⟨calls, hc⟩ := hcalls phdr hphdr
  rw [hc, ← elf64LoadProg_eq (hsized phdr hphdr) hc, Option.getD_some, List.map_map, List.map_map]
  rfl

/-- The pages of the segments that are apart. -/
theorem SegmentsApart.vpns_eq {loads : List PtLoad} (h : SegmentsApart loads)
    (hsized : ∀ phdr ∈ loads, phdr.toPhdr.Sized)
    (hcalls : ∀ phdr ∈ loads, ∃ calls, elf64Load rounds phdr.toPhdr = some calls) :
    ∀ phdr ∈ loads, (elf64LoadProg phdr.toPhdr).map vpnOf = phdr.vpns := by
  intro phdr hphdr
  obtain ⟨calls, hc⟩ := hcalls phdr hphdr
  obtain ⟨files, zeros, hrun⟩ := loadRun_of_eq_some (hsized phdr hphdr) hc
  rw [← elf64LoadProg_eq (hsized phdr hphdr) hc, List.map_map]
  exact hrun.vpns_eq (hsized phdr hphdr) (h.first phdr hphdr)

/-- **No page is mapped twice** exactly if the segments are apart. -/
theorem nodup_vpns_iff {loads : List PtLoad} (hsized : ∀ phdr ∈ loads, phdr.toPhdr.Sized)
    (hcalls : ∀ phdr ∈ loads, ∃ calls, elf64Load rounds phdr.toPhdr = some calls) :
    (loads.flatMap fun phdr => (elf64LoadProg phdr.toPhdr).map vpnOf).Nodup ↔ SegmentsApart loads := by
  rw [List.nodup_flatMap]
  constructor
  · rintro ⟨heach, hpairs⟩
    have hfirst : ∀ phdr ∈ loads, phdr.pVaddr % pgSize = 0 ∨
        pgSize - phdr.pVaddr % pgSize ≤ phdr.pFilesz ∨ phdr.pFilesz = phdr.pMemsz := by
      intro phdr hphdr
      obtain ⟨calls, hc⟩ := hcalls phdr hphdr
      obtain ⟨files, zeros, hrun⟩ := loadRun_of_eq_some (hsized phdr hphdr) hc
      have hnodup := heach phdr hphdr
      rw [← elf64LoadProg_eq (hsized phdr hphdr) hc, List.map_map] at hnodup
      by_contra hnot
      exact hrun.not_nodup (hsized phdr hphdr) hnot hnodup
    have hvpns : ∀ phdr ∈ loads, (elf64LoadProg phdr.toPhdr).map vpnOf = phdr.vpns := by
      intro phdr hphdr
      obtain ⟨calls, hc⟩ := hcalls phdr hphdr
      obtain ⟨files, zeros, hrun⟩ := loadRun_of_eq_some (hsized phdr hphdr) hc
      rw [← elf64LoadProg_eq (hsized phdr hphdr) hc, List.map_map]
      exact hrun.vpns_eq (hsized phdr hphdr) (hfirst phdr hphdr)
    refine ⟨hfirst, fun phdr hphdr => nodup_vpns.mp (hvpns phdr hphdr ▸ heach phdr hphdr), ?_⟩
    refine hpairs.imp_of_mem fun hp hq hdisj => ?_
    rw [← hvpns _ hp, ← hvpns _ hq]
    exact hdisj
  · intro h
    have hvpns := h.vpns_eq hsized hcalls
    refine ⟨fun phdr hphdr => ?_, h.apart.imp_of_mem fun hp hq hdisj => ?_⟩
    · rw [hvpns phdr hphdr]
      exact nodup_vpns.mpr (h.size phdr hphdr)
    · show ((elf64LoadProg _).map vpnOf).Disjoint ((elf64LoadProg _).map vpnOf)
      rw [hvpns _ hp, hvpns _ hq]
      exact hdisj

/-- Segments that are apart, loaded to where nothing is mapped. -/
theorem SegmentsApart.loads {loads : List PtLoad} (h : SegmentsApart loads)
    (hsized : ∀ phdr ∈ loads, phdr.toPhdr.Sized)
    (hways : OpenWays s.mem (s.mem.parts pt).paPgdir V) (hV : spaceOf loads ⊆ V)
    (hnone : ∀ va ∈ spaceOf loads, found s.mem (pageOf (s.mem.parts pt).paPgdir va) = none) {u : Unit}
    (hload : loadSegments rounds pt prog loads s = .ok u s') :
    Loads pt prog V s s' (callsOf rounds loads) := by
  obtain ⟨hcalls, hrun⟩ := calls_of_loadSegments hload
  have hmem : ∀ x ∈ callsOf rounds loads, x.2.va ∈ spaceOf loads := by
    intro x hx
    obtain ⟨phdr, hphdr, hx⟩ := List.mem_flatMap.mp hx
    obtain ⟨calls, hc⟩ := hcalls phdr hphdr
    rw [hc, Option.getD_some] at hx
    obtain ⟨c, hc', rfl⟩ := List.mem_map.mp hx
    refine ⟨phdr, hphdr, ?_⟩
    rw [← h.vpns_eq hsized hcalls phdr hphdr, ← elf64LoadProg_eq (hsized phdr hphdr) hc]
    exact List.mem_map_of_mem (List.mem_map_of_mem hc')
  refine loads_of_calls hways (fun x hx => hV (hmem x hx)) (fun x hx => hnone _ (hmem x hx)) ?_ hrun
  rw [vpns_callsOf hsized hcalls]
  exact (nodup_vpns_iff hsized hcalls).mpr h

theorem loadProg_eq_ok {u : Unit} (h : loadProg rounds pt prog s = .ok u s') :
    ∃ s₁, loadSegments rounds pt prog prog.loads s = .ok () s₁ ∧ s'.bytes = s₁.bytes ∧
      s'.mem.ram = s₁.mem.ram := by
  obtain ⟨_, s₁, hloads, h⟩ := bind_eq_ok.mp h
  split at h
  · exact (fail_eq_ok.mp h).elim
  · rw [← modify_eq_ok.mp h]
    exact ⟨s₁, hloads, rfl, rfl⟩

/-- The load of one more segment changes no byte of those before it. -/
theorem SegmentsApart.kept {pre post : List PtLoad} {phdr : PtLoad} {s₁ s₂ : ByteMem}
    (h : SegmentsApart (pre ++ phdr :: post)) (hsized : ∀ q ∈ pre ++ phdr :: post, q.toPhdr.Sized)
    (hfresh : FreshSpace s.mem (s.mem.parts pt).paPgdir (pre ++ phdr :: post))
    (hpre : loadSegments rounds pt prog pre s = .ok () s₁)
    (hphdr : loadSegments rounds pt prog [phdr] s₁ = .ok () s₂) {q : PtLoad} (hq : q ∈ pre) {k : Nat}
    (hk : k < q.pMemsz) : readByte s₂ (s.mem.parts pt).paPgdir ((q.pVaddr + k) % wordSize) =
      readByte s₁ (s.mem.parts pt).paPgdir ((q.pVaddr + k) % wordSize) := by
  have hone : pre ++ phdr :: post = pre ++ [phdr] ++ post := by simp
  rw [hone] at h hsized hfresh
  have hpart : ∀ l, l.Sublist (pre ++ [phdr] ++ post) → SegmentsApart l := fun l hl =>
    ⟨fun x hx => h.first x (hl.subset hx), fun x hx => h.size x (hl.subset hx), h.apart.sublist hl⟩
  have hmemPre : ∀ x ∈ pre, x ∈ pre ++ [phdr] ++ post := fun x hx => by simp [hx]
  have hmemOne : ∀ x ∈ [phdr], x ∈ pre ++ [phdr] ++ post := fun x hx => by simp [List.mem_singleton.mp hx]
  have hspace : ∀ {l}, (∀ x ∈ l, x ∈ pre ++ [phdr] ++ post) → spaceOf l ⊆ spaceOf (pre ++ [phdr] ++ post) :=
    fun hl va ⟨x, hx, hva⟩ => ⟨x, hl x hx, hva⟩
  have hsubPre : pre.Sublist (pre ++ [phdr] ++ post) :=
    (List.sublist_append_left pre [phdr]).trans (List.sublist_append_left _ post)
  have hsubOne : [phdr].Sublist (pre ++ [phdr] ++ post) :=
    (List.sublist_append_right pre [phdr]).trans (List.sublist_append_left _ post)
  have hsizedPre : ∀ x ∈ pre, x.toPhdr.Sized := fun x hx => hsized x (hmemPre x hx)
  have hsizedOne : ∀ x ∈ [phdr], x.toPhdr.Sized := fun x hx => hsized x (hmemOne x hx)
  obtain ⟨hcallsPre, -⟩ := calls_of_loadSegments hpre
  obtain ⟨hcallsOne, -⟩ := calls_of_loadSegments hphdr
  have hloads := (hpart pre hsubPre).loads hsizedPre hfresh.ways (hspace hmemPre)
    (fun va hva => hfresh.unmapped va (hspace hmemPre hva)) hpre
  -- the pages of the two parts are different
  have hpages : ∀ x ∈ pre, ∀ n ∈ x.vpns, n ∉ phdr.vpns := by
    intro x hx n hn
    have hdisj := (List.pairwise_append.mp (h.apart.sublist (List.sublist_append_left _ post))).2.2
    exact hdisj x hx phdr List.mem_cons_self hn
  have hnoneOne : ∀ va ∈ spaceOf [phdr], found s₁.mem (pageOf (s.mem.parts pt).paPgdir va) = none := by
    intro va hva
    rw [hloads.others va (hspace hmemOne hva), hfresh.unmapped va (hspace hmemOne hva)]
    obtain ⟨x, hx, hvpn⟩ := hva
    obtain rfl := List.mem_singleton.mp hx
    rw [vpns_callsOf hsizedPre hcallsPre]
    intro hmem
    obtain ⟨y, hy, hy'⟩ := List.mem_flatMap.mp hmem
    rw [(hpart pre hsubPre).vpns_eq hsizedPre hcallsPre y hy] at hy'
    exact hpages y hy _ hy' hvpn
  have hnext := (hpart [phdr] hsubOne).loads (s := s₁) (V := spaceOf (pre ++ [phdr] ++ post))
    hsizedOne (hloads.root ▸ hloads.ways) (hspace hmemOne) (hloads.root ▸ hnoneOne) hphdr
  have hvpn : vpnOf ((q.pVaddr + k) % wordSize) ∈ q.vpns := by
    rw [vpnOf_mod]
    exact vpnOf_mem_vpns hk
  have hmem : (q.pVaddr + k) % wordSize ∈ spaceOf (pre ++ [phdr] ++ post) := ⟨q, hmemPre q hq, hvpn⟩
  have hsame := hnext.others _ hmem ?_
  · rw [hloads.root] at hsame
    rw [readByte_eq, readByte_eq, hsame]
    -- the page was placed before, in a frame that is not free
    have hplaced : vpnOf ((q.pVaddr + k) % wordSize) ∈ (callsOf rounds pre).map vpnOfCall := by
      rw [vpns_callsOf hsizedPre hcallsPre]
      refine List.mem_flatMap.mpr ⟨q, hq, ?_⟩
      rw [(hpart pre hsubPre).vpns_eq hsizedPre hcallsPre q hq]
      exact hvpn
    obtain ⟨x, hx, hxvpn⟩ := List.mem_map.mp hplaced
    obtain ⟨a, e, hfound, hnot, -⟩ := hloads.placed x hx
    have hpage : pageOf (s.mem.parts pt).paPgdir x.2.va =
        pageOf (s.mem.parts pt).paPgdir ((q.pVaddr + k) % wordSize) := pageOf_eq_iff.mpr hxvpn
    rw [← hpage, hfound, Option.map_some, Option.map_some, hnext.bytes _ hnot]
  · rw [vpns_callsOf hsizedOne hcallsOne]
    intro hmem'
    obtain ⟨y, hy, hy'⟩ := List.mem_flatMap.mp hmem'
    obtain rfl := List.mem_singleton.mp hy
    rw [(hpart [y] hsubOne).vpns_eq hsizedOne hcallsOne y hy] at hy'
    exact hpages q hq _ hvpn hy'

/-- At the end every byte of the file is in its place. -/
theorem SegmentsApart.found {u : Unit} (h : SegmentsApart prog.loads)
    (hsized : ∀ phdr ∈ prog.loads, phdr.toPhdr.Sized)
    (hfresh : FreshSpace s.mem (s.mem.parts pt).paPgdir prog.loads)
    (hload : loadProg rounds pt prog s = .ok u s') {q : PtLoad} (hq : q ∈ prog.loads) {k : Nat}
    (hk : k < q.pFilesz) : readByte s' (s.mem.parts pt).paPgdir ((q.pVaddr + k) % wordSize) =
      some (prog.pgElfBin (q.pOffset + k)) := by
  obtain ⟨s₁, hloads, hbytes, hram⟩ := loadProg_eq_ok hload
  obtain ⟨hcalls, -⟩ := calls_of_loadSegments hloads
  have hrun := h.loads hsized hfresh.ways (fun _ hva => hva) hfresh.unmapped hloads
  obtain ⟨calls, hc⟩ := hcalls q hq
  obtain ⟨files, zeros, hload⟩ := loadRun_of_eq_some (hsized q hq) hc
  obtain ⟨c, hmem, src, hsrc, hle, hlen, hvpn, hoff⟩ := hload.copied hk
  have hx : (q, c) ∈ callsOf rounds prog.loads := by
    refine List.mem_flatMap.mpr ⟨q, hq, ?_⟩
    rw [hc]
    exact List.mem_map_of_mem hmem
  obtain ⟨a, e, hfound, -, hplaced⟩ := hrun.placed (q, c) hx
  have hpage : pageOf (s.mem.parts pt).paPgdir c.va =
      pageOf (s.mem.parts pt).paPgdir ((q.pVaddr + k) % wordSize) := by
    rw [pageOf_mod, pageOf_eq_iff]
    exact hvpn
  rw [readByte_eq, found_of_ram hram, ← hpage, hfound, Option.map_some, hbytes, hplaced, mod_wordSize_mod, hoff]
  have hin : c.offset ≤ c.offset + (k - src) ∧ c.offset + (k - src) < c.offset + c.srcLen := by omega
  have hindex : q.pOffset + src + (c.offset + (k - src) - c.offset) = q.pOffset + k := by omega
  simp only [pageBytes, hsrc, if_pos hin, hindex]

/-- **A load keeps the segments** if and only if they are apart. -/
theorem segments_kept_iff (hsized : ∀ phdr ∈ prog.loads, phdr.toPhdr.Sized)
    (hfresh : FreshSpace s.mem (s.mem.parts pt).paPgdir prog.loads)
    (h : loadProg rounds pt prog s = .ok () s') :
    KeepsSegments rounds pt prog s s' ↔ SegmentsApart prog.loads := by
  obtain ⟨s₁, hloads, -, -⟩ := loadProg_eq_ok h
  obtain ⟨hcalls, -⟩ := calls_of_loadSegments hloads
  -- every call is charged
  obtain ⟨hspent, -⟩ := partLoadProg_ok (partLoadProg_of_loadProg hsized h)
  have hcount : prog.toProg.pages =
      (prog.loads.flatMap fun phdr => (elf64LoadProg phdr.toPhdr).map vpnOf).length := by
    simp [Prog.pages, ProgDef.toProg, List.length_flatMap, Function.comp_def]
  have hrem : (s'.mem.parts pt).paMemRem + pgSize * prog.toProg.pages = (s.mem.parts pt).paMemRem := by
    rw [hspent.charged.paMemRem]
    exact Nat.sub_add_cancel hspent.fits
  constructor
  · intro hkeeps
    rw [← nodup_vpns_iff hsized hcalls]
    have hcard : (usedPages prog.loads).card = prog.toProg.pages := by
      have heq := hkeeps.charged.trans hrem.symm
      exact Nat.eq_of_mul_eq_mul_left pgSize_pos (Nat.add_left_cancel heq)
    rw [hcount, usedPages] at hcard
    exact Multiset.toFinset_card_eq_card_iff_nodup.mp hcard
  · intro hapart
    refine ⟨?_, fun q hq k hk => hapart.found hsized hfresh h hq hk, ?_⟩
    · intro pre phdr post s₁ s₂ heq hpre hphdr q hq k hk
      rw [heq] at hapart hsized hfresh
      exact hapart.kept hsized hfresh hpre hphdr hq hk
    · rw [usedPages, List.toFinset_card_of_nodup ((nodup_vpns_iff hsized hcalls).mpr hapart), ← hcount]
      exact hrem

end Runs

/-! ## Two small programs -/

/-- Nothing is mapped below an empty root. -/
theorem freshSpace_of_empty {m : Mem} {r : Ppn} (hempty : ∀ i < 512, (m.pte ⟨r, i⟩).perm.v = false)
    (hnodup : m.pfFreeList.flatten.Nodup) (hroot : ¬ m.Free r) (loads : List PtLoad) :
    FreshSpace m r loads := by
  have hrange : ∀ p ∈ onWays r (spaceOf loads), p.InRange {r} := by
    rintro p ⟨va, -, hp⟩
    have hr : r ∈ ({r} : Finset Ppn) := Finset.mem_singleton_self r
    simp only [onWay, List.mem_cons, List.not_mem_nil, or_false] at hp
    rcases hp with rfl | rfl | rfl
    · exact hr
    · exact ⟨hr, vpn2_lt va⟩
    · exact (inRange_pageOf hr).slot
  have honly : ∀ p ∈ onWays r (spaceOf loads), ∀ t, tableAt m p = some t → p = .root r :=
    fun p hp t ht => root_of_empty hempty (hrange p hp) ht
  refine ⟨⟨hnodup, fun p hp t ht hf => ?_, fun p hp q hq t hpt hqt => ?_⟩, fun va hva => ?_⟩
  · obtain rfl := honly p hp t ht
    exact hroot (Option.some.inj ht ▸ hf)
  · rw [honly p hp t hpt, honly q hq t hqt]
  · refine found_of_none (Option.eq_none_iff_forall_ne_some.mpr fun t ht => ?_)
    exact absurd (honly _ (slot_mem_onWays hva) t ht) (by simp [Page.slot])

/-- A partition with an empty root, a budget of eight pages, and eight free frames. -/
def loadMem : ByteMem where
  mem := { rootMem [0x80001, 0x80002, 0x80003, 0x80004, 0x80005, 0x80006, 0x80007, 0x80008] with
    parts := fun _ => { PartMem.blank with paPgdir := 0x80000, paMemReq := 0x8000, paMemRem := 0x8000 } }
  bytes := fun _ _ => 0

theorem freshSpace_loadMem (loads : List PtLoad) : FreshSpace loadMem.mem 0x80000 loads := by
  refine freshSpace_of_empty (fun _ _ => rfl) (by decide) ?_ loads
  show (0x80000 : Ppn) ∉ loadMem.mem.pfFreeList.flatten
  decide

/-- Segments of a file that holds ones, and twos from the byte `0x2000` on. -/
def onesAndTwos (loads : List PtLoad) : ProgDef where
  pgElfBin i := if i < 0x2000 then 1 else 2
  loads := loads
  mainProcStacktop := ustkLimit - 0x1000
  eEntry := 0x400000

/-- Two segments in one page. -/
def sharedPage : List PtLoad :=
  [{ pVaddr := 0x400000, pFilesz := 0x10, pMemsz := 0x10, pX := true, pW := false, pR := true, pOffset := 0x1000 },
    { pVaddr := 0x400800, pFilesz := 0x10, pMemsz := 0x10, pX := false, pW := true, pR := true, pOffset := 0x2000 }]

/-- Not every load keeps the segments: the second segment takes a new frame for the page of the first, whose
bytes are lost. -/
theorem segment_lost : ¬ ∀ (rounds : Nat) (pt : PartId) (prog : ProgDef) (s s' : ByteMem),
    (∀ phdr ∈ prog.loads, phdr.toPhdr.Sized) →
    (prog.loads.Pairwise fun p q => p.pVaddr + p.pMemsz ≤ q.pVaddr ∨ q.pVaddr + q.pMemsz ≤ p.pVaddr) →
    FreshSpace s.mem (s.mem.parts pt).paPgdir prog.loads → loadProg rounds pt prog s = .ok () s' →
    KeepsSegments rounds pt prog s s' := by
  intro hall
  have hrun : ((loadProg 4 1 (onesAndTwos sharedPage) loadMem).okAnd fun _ s' =>
      decide (readByte s' 0x80000 ((0x400000 + 0) % wordSize) = some 0)) = true := by decide +kernel
  obtain ⟨_, s', hres, hzero⟩ := Res.okAnd_eq_true.mp hrun
  have hkeeps := hall 4 1 (onesAndTwos sharedPage) loadMem s' ?_ ?_ (freshSpace_loadMem sharedPage) hres
  · have hone := hkeeps.bytes _ List.mem_cons_self 0 (by decide)
    exact absurd ((of_decide_eq_true hzero).symm.trans hone) (by decide +kernel)
  · intro phdr hphdr
    simp only [onesAndTwos, sharedPage, List.mem_cons, List.not_mem_nil, or_false] at hphdr
    rcases hphdr with rfl | rfl
    · exact ⟨by decide +kernel, by decide +kernel, by decide⟩
    · exact ⟨by decide +kernel, by decide +kernel, by decide⟩
  · exact List.pairwise_pair.mpr (by decide)

/-- Two segments in pages of their own, the second one not aligned. -/
def ownPages : List PtLoad :=
  [{ pVaddr := 0x400000, pFilesz := 0x1800, pMemsz := 0x1800, pX := true, pW := false, pR := true, pOffset := 0 },
    { pVaddr := 0x402010, pFilesz := 0xff0, pMemsz := 0x1ff0, pX := false, pW := true, pR := true,
      pOffset := 0x2000 }]

theorem segments_kept_ownPages : ∃ s', loadProg 4 1 (onesAndTwos ownPages) loadMem = .ok () s' ∧
    KeepsSegments 4 1 (onesAndTwos ownPages) loadMem s' := by
  have hrun : ((loadProg 4 1 (onesAndTwos ownPages) loadMem).okAnd fun _ _ => true) = true := by decide +kernel
  obtain ⟨_, s', hres, -⟩ := Res.okAnd_eq_true.mp hrun
  refine ⟨s', hres, (segments_kept_iff ?_ (freshSpace_loadMem ownPages) hres).mpr ⟨?_, ?_, ?_⟩⟩
  · intro phdr hphdr
    simp only [onesAndTwos, ownPages, List.mem_cons, List.not_mem_nil, or_false] at hphdr
    rcases hphdr with rfl | rfl
    · exact ⟨by decide +kernel, by decide +kernel, by decide⟩
    · exact ⟨by decide +kernel, by decide +kernel, by decide⟩
  · show ∀ phdr ∈ ownPages, _
    decide
  · show ∀ phdr ∈ ownPages, _
    decide
  · refine List.pairwise_pair.mpr ?_
    show List.Disjoint [0x400, 0x401] [0x402, 0x403]
    simp

end Jrinx
