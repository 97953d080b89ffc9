import Jrinx.Lib.Strides
import Jrinx.Mm.PartMem
import Mathlib.Data.List.Nodup

/-! # Program segments

`elf64_load_prog` with all it hands to its callback, in the arithmetic of 64-bit words. The callback maps
the page of the address and copies bytes to an offset in it.

* **`elf64Load`** — the calls of the callback; their addresses are those of `elf64LoadProg`.
* **`LoadsExactly`** — what the calls should do: every page of the segment once, every byte in its place.
* **`Loadable`**, **`segment_exact_iff`** — the segments that are loaded so. -/

namespace Jrinx

/-! ## The calls -/

/-- The arguments of the callback: address, offset in its page, source and length. The source is given by
its distance from `elf_addr`, `NULL` by `none`. -/
structure MapCall where
  va : Nat
  offset : Nat
  src : Option Nat
  srcLen : Nat
  deriving DecidableEq, Repr

/-- The call for the unaligned first page. -/
def firstCall (phdr : Phdr) : MapCall :=
  let offset := phdr.pVaddr - alignDown phdr.pVaddr pgSize
  { va := phdr.pVaddr, offset := offset, src := some 0,
    srcLen := if phdr.pFilesz < pgSize - offset then phdr.pFilesz else pgSize - offset }

/-- The call for a page with bytes of the file. -/
def fileCall (phdr : Phdr) (i : Nat) : MapCall :=
  { va := (phdr.pVaddr + i) % wordSize, offset := 0, src := some i,
    srcLen := if phdr.pFilesz - i < pgSize then phdr.pFilesz - i else pgSize }

/-- The call for a page of zeros. -/
def zeroCall (phdr : Phdr) (i : Nat) : MapCall :=
  { va := (phdr.pVaddr + i) % wordSize, offset := 0, src := none, srcLen := 0 }

/-- `elf64_load_prog` with a callback that always succeeds: its calls, in order. -/
def elf64Load (rounds : Nat) (phdr : Phdr) : Option (List MapCall) :=
  let offset := phdr.pVaddr - alignDown phdr.pVaddr pgSize
  let first := if offset ≠ 0 then [firstCall phdr] else []
  let i := if offset ≠ 0 then (firstCall phdr).srcLen else 0
  match strideLoop wordSize pgSize phdr.pFilesz (fileCall phdr) rounds i with
  | none => none
  | some (file, i) =>
      match strideLoop wordSize pgSize phdr.pMemsz (zeroCall phdr) rounds i with
      | none => none
      | some (zeros, _) => some (first ++ (file ++ zeros))

/-! ## What they should do -/

/-- The pages the calls map, with repetition. -/
def pagesOf (calls : List MapCall) : List Nat := calls.map fun c => c.va / pgSize

/-- The bytes one call copies: where they go to, and where in the file image they come from. -/
def MapCall.copies (c : MapCall) : List (Nat × Nat) :=
  match c.src with
  | none => []
  | some s => (List.range c.srcLen).map fun j => (alignDown c.va pgSize + c.offset + j, s + j)

/-- **The segment is covered exactly**: every page that overlaps it is mapped, once, and no other; byte `k`
of the file image goes to `p_vaddr + k`, no copy leaves its page, and nothing goes anywhere else. -/
structure CoversExactly (phdr : Phdr) (calls : List MapCall) : Prop where
  once : (pagesOf calls).Nodup
  pages : ∀ n, n ∈ pagesOf calls ↔ ∃ a, phdr.pVaddr ≤ a ∧ a < phdr.pVaddr + phdr.pMemsz ∧ a / pgSize = n
  inside : ∀ c ∈ calls, c.offset + c.srcLen ≤ pgSize
  bytes : ∀ a k, (a, k) ∈ calls.flatMap MapCall.copies ↔ k < phdr.pFilesz ∧ a = phdr.pVaddr + k

/-- `elf64_load_prog` returns, and its calls cover the segment exactly. -/
def LoadsExactly (phdr : Phdr) : Prop :=
  ∃ rounds calls, elf64Load rounds phdr = some calls ∧ CoversExactly phdr calls

/-- **The segments that are loaded well**: they end inside the address space; one that starts at address
zero ends before its last page; and an unaligned first page is filled by the file, or holds all of the
segment, which has no zeros then. -/
structure Loadable (phdr : Phdr) : Prop where
  space : phdr.pVaddr + phdr.pMemsz ≤ wordSize
  ends : phdr.pVaddr = 0 → phdr.pMemsz ≤ wordSize - pgSize
  first : phdr.pVaddr % pgSize = 0 ∨ pgSize - phdr.pVaddr % pgSize ≤ phdr.pFilesz ∨
    (phdr.pFilesz = phdr.pMemsz ∧ 0 < phdr.pMemsz)

instance (phdr : Phdr) : Decidable (Loadable phdr) :=
  decidable_of_iff (phdr.pVaddr + phdr.pMemsz ≤ wordSize ∧
      (phdr.pVaddr = 0 → phdr.pMemsz ≤ wordSize - pgSize) ∧
      (phdr.pVaddr % pgSize = 0 ∨ pgSize - phdr.pVaddr % pgSize ≤ phdr.pFilesz ∨
        (phdr.pFilesz = phdr.pMemsz ∧ 0 < phdr.pMemsz)))
    ⟨fun h => ⟨h.1, h.2.1, h.2.2⟩, fun h => ⟨h.space, h.ends, h.first⟩⟩

/-! ## The calls of a load that returns -/

theorem sub_alignDown (x n : Nat) : x - alignDown x n = x % n := by
  unfold alignDown
  exact Nat.sub_sub_self (Nat.mod_le x n)

theorem pgSize_dvd_wordSize : pgSize ∣ wordSize := ⟨2 ^ 52, by rw [wordSize_eq]; rfl⟩

/-- The fields of the program header as they come from the file. -/
structure Phdr.Sized (phdr : Phdr) : Prop where
  vaddr : phdr.pVaddr < wordSize
  memsz : phdr.pMemsz < wordSize
  filesz : phdr.pFilesz ≤ phdr.pMemsz

/-- The counter of the page loops at their start. -/
def loopStart (phdr : Phdr) : Nat :=
  if phdr.pVaddr % pgSize ≠ 0 then (firstCall phdr).srcLen else 0

/-- **The calls in closed form**: the first page if it is unaligned, `files` pages of the file and `zeros`
pages of zeros, at equal distances. -/
structure LoadRun (phdr : Phdr) (files zeros : Nat) (calls : List MapCall) : Prop where
  calls : calls = (if phdr.pVaddr % pgSize ≠ 0 then [firstCall phdr] else []) ++
    ((List.range files).map (fun k => fileCall phdr (loopStart phdr + k * pgSize)) ++
      (List.range zeros).map fun k => zeroCall phdr (loopStart phdr + (files + k) * pgSize))
  file_lt : ∀ k < files, loopStart phdr + k * pgSize < phdr.pFilesz
  file_le : phdr.pFilesz ≤ loopStart phdr + files * pgSize
  zero_lt : ∀ k < zeros, loopStart phdr + (files + k) * pgSize < phdr.pMemsz
  zero_le : phdr.pMemsz ≤ loopStart phdr + (files + zeros) * pgSize
  lt_word : loopStart phdr + (files + zeros) * pgSize < wordSize

variable {phdr : Phdr} {rounds files zeros : Nat} {calls : List MapCall}

theorem srcLen_firstCall (phdr : Phdr) :
    (firstCall phdr).srcLen = min phdr.pFilesz (pgSize - phdr.pVaddr % pgSize) := by
  simp only [firstCall, sub_alignDown]
  split
  · omega
  · omega

theorem loopStart_lt (h : phdr.Sized) : loopStart phdr < wordSize := by
  have hmem := h.memsz
  have hfile := h.filesz
  unfold loopStart
  split
  · rw [srcLen_firstCall]
    omega
  · omega

theorem elf64Load_eq (rounds : Nat) (phdr : Phdr) : elf64Load rounds phdr =
    match strideLoop wordSize pgSize phdr.pFilesz (fileCall phdr) rounds (loopStart phdr) with
    | none => none
    | some (file, i) =>
        match strideLoop wordSize pgSize phdr.pMemsz (zeroCall phdr) rounds i with
        | none => none
        | some (zeros, _) =>
            some ((if phdr.pVaddr % pgSize ≠ 0 then [firstCall phdr] else []) ++ (file ++ zeros)) := by
  unfold elf64Load loopStart
  simp only [sub_alignDown]

/-- A load that returns is of this form. -/
theorem loadRun_of_eq_some (hsized : phdr.Sized) (h : elf64Load rounds phdr = some calls) :
    ∃ files zeros, LoadRun phdr files zeros calls := by
  rw [elf64Load_eq] at h
  cases hfile : strideLoop wordSize pgSize phdr.pFilesz (fileCall phdr) rounds (loopStart phdr) with
  | none => simp [hfile] at h
  | some r =>
      obtain ⟨file, i⟩ := r
      rw [hfile] at h
      dsimp only at h
      cases hzero : strideLoop wordSize pgSize phdr.pMemsz (zeroCall phdr) rounds i with
      | none => simp [hzero] at h
      | some r =>
          obtain ⟨zero, j⟩ := r
          rw [hzero, Option.some.injEq] at h
          obtain ⟨hfs, hi, hiw, hfle, hflt⟩ :=
            strideLoop_eq_some pgSize_dvd_wordSize (loopStart_lt hsized) hfile
          obtain ⟨hzs, hj, hjw, hzle, hzlt⟩ := strideLoop_eq_some pgSize_dvd_wordSize hiw hzero
          -- the second loop goes on where the first one stopped
          have hshift : ∀ k, i + k * pgSize = loopStart phdr + (file.length + k) * pgSize := by
            intro k
            rw [hi, Nat.add_mul]
            omega
          refine ⟨file.length, zero.length, ?_, hflt, hi ▸ hfle, ?_, ?_, ?_⟩
          · rw [← h, ← hfs]
            congr 2
            conv_lhs => rw [hzs]
            exact List.map_congr_left fun k _ => congrArg (zeroCall phdr) (hshift k)
          · intro k hk
            rw [← hshift]
            exact hzlt k hk
          · rw [← hshift, ← hj]
            exact hzle
          · rw [← hshift, ← hj]
            exact hjw

/-- The addresses of the calls. -/
theorem LoadRun.addresses (h : LoadRun phdr files zeros calls) : calls.map MapCall.va =
    (if phdr.pVaddr % pgSize ≠ 0 then [phdr.pVaddr] else []) ++
      (List.range (files + zeros)).map fun k => (phdr.pVaddr + (loopStart phdr + k * pgSize)) % wordSize := by
  rw [h.calls, List.map_append, List.map_append, List.range_add, List.map_append, List.map_map, List.map_map,
    List.map_map]
  refine congrArg₂ (· ++ ·) ?_ rfl
  split <;> rfl

/-- A loop that goes up to a limit has gone as far as is needed. -/
theorem eq_ceil {n i d limit : Nat} (hd : 0 < d) (hlt : ∀ k < n, i + k * d < limit)
    (hle : limit ≤ i + n * d) : n = (limit - i + (d - 1)) / d := by
  symm
  rw [Nat.div_eq_iff hd]
  cases n with
  | zero =>
      rw [Nat.zero_mul, Nat.add_zero] at hle
      omega
  | succ n =>
      have h := hlt n (Nat.lt_succ_self n)
      rw [Nat.succ_mul] at *
      omega

theorem pgSize_pos : 0 < pgSize := by decide

/-- **The addresses are those of `elf64LoadProg`**, whenever the load returns. -/
theorem elf64LoadProg_eq (hsized : phdr.Sized) (h : elf64Load rounds phdr = some calls) :
    calls.map MapCall.va = elf64LoadProg phdr := by
  obtain ⟨files, zeros, hrun⟩ := loadRun_of_eq_some hsized h
  -- both loops run once for each page that is begun
  have hfiles := eq_ceil pgSize_pos hrun.file_lt hrun.file_le
  have hzeros : zeros = (phdr.pMemsz - (loopStart phdr + files * pgSize) + (pgSize - 1)) / pgSize := by
    have hshift : ∀ k, loopStart phdr + (files + k) * pgSize =
        loopStart phdr + files * pgSize + k * pgSize := by
      intro k
      rw [Nat.add_mul, Nat.add_assoc]
    refine eq_ceil pgSize_pos (fun k hk => ?_) ?_
    · rw [← hshift]
      exact hrun.zero_lt k hk
    · rw [← hshift]
      exact hrun.zero_le
  -- the first page counts as far as the file fills it
  have hstart : (if phdr.pVaddr % pgSize ≠ 0 then min phdr.pFilesz (pgSize - phdr.pVaddr % pgSize) else 0) =
      loopStart phdr := by
    rw [loopStart, srcLen_firstCall]
  have hfileSteps : (pageSteps (loopStart phdr) phdr.pFilesz).length = files := by
    rw [pageSteps, List.length_map, List.length_range, hfiles]
  rw [hrun.addresses]
  unfold elf64LoadProg
  simp only [sub_alignDown, hstart, hfileSteps]
  refine congrArg ((if phdr.pVaddr % pgSize ≠ 0 then [phdr.pVaddr] else []) ++ ·) ?_
  rw [List.range_add, List.map_append, List.map_append, pageSteps, pageSteps, ← hfiles, ← hzeros,
    List.map_map, List.map_map, List.map_map]
  refine congrArg₂ (· ++ ·) rfl (List.map_congr_left fun k _ => ?_)
  simp only [Function.comp_apply, Nat.add_mul]
  congr 1
  omega

/-! ## The loads that are exact -/

/-- How the loops of a good segment start: at once, after a full first page, or not at all. -/
theorem Loadable.start (h : Loadable phdr) :
    (phdr.pVaddr % pgSize = 0 ∧ loopStart phdr = 0) ∨
      (phdr.pVaddr % pgSize ≠ 0 ∧ loopStart phdr = pgSize - phdr.pVaddr % pgSize ∧
        pgSize - phdr.pVaddr % pgSize ≤ phdr.pFilesz) ∨
      (phdr.pVaddr % pgSize ≠ 0 ∧ loopStart phdr = phdr.pMemsz ∧ phdr.pFilesz = phdr.pMemsz ∧
        0 < phdr.pMemsz ∧ phdr.pMemsz < pgSize - phdr.pVaddr % pgSize) := by
  rw [loopStart, srcLen_firstCall]
  by_cases hoff : phdr.pVaddr % pgSize = 0
  · exact Or.inl ⟨hoff, if_neg (not_not_intro hoff)⟩
  rw [if_pos hoff]
  by_cases hfull : pgSize - phdr.pVaddr % pgSize ≤ phdr.pFilesz
  · exact Or.inr (Or.inl ⟨hoff, min_eq_right hfull, hfull⟩)
  · rcases h.first with hz | hle | ⟨heq, hpos⟩
    · exact absurd hz hoff
    · exact absurd hle hfull
    · refine Or.inr (Or.inr ⟨hoff, ?_, heq, hpos, heq ▸ not_le.mp hfull⟩)
      rw [min_eq_left (not_le.mp hfull).le, heq]

/-- The loops of a good segment do not wrap. -/
theorem Loadable.no_wrap (h : Loadable phdr) (k : Nat) (hk : loopStart phdr + k * pgSize < phdr.pMemsz) :
    loopStart phdr + (k + 1) * pgSize < wordSize := by
  have hspace := h.space
  have hmod := Nat.div_add_mod phdr.pVaddr pgSize
  have hlt := Nat.mod_lt phdr.pVaddr pgSize_pos
  obtain ⟨c, hc⟩ := pgSize_dvd_wordSize
  by_cases hzero : phdr.pVaddr = 0
  · have hends := h.ends hzero
    have hstart : loopStart phdr = 0 := by
      rw [loopStart, hzero, Nat.zero_mod, if_neg (by simp)]
    rw [Nat.succ_mul]
    omega
  -- the address of the next round is a whole page, and not behind the last one
  have hpage : ∀ q, phdr.pVaddr + loopStart phdr = q * pgSize →
      loopStart phdr + (k + 1) * pgSize < wordSize := by
    intro q hq
    have hround : (q + k) * pgSize < c * pgSize := by
      rw [Nat.add_mul, Nat.mul_comm c, ← hc]
      omega
    have hnext : (q + k + 1) * pgSize ≤ c * pgSize :=
      Nat.mul_le_mul_right _ (Nat.lt_of_mul_lt_mul_right hround)
    rw [Nat.mul_comm c, ← hc, Nat.add_assoc, Nat.add_mul] at hnext
    omega
  rcases h.start with ⟨hoff, hstart⟩ | ⟨hoff, hstart, -⟩ | ⟨-, hstart, -⟩
  · exact hpage (phdr.pVaddr / pgSize) (by rw [Nat.mul_comm]; omega)
  · exact hpage (phdr.pVaddr / pgSize + 1) (by rw [Nat.succ_mul, Nat.mul_comm]; omega)
  · omega

/-- **A good segment is loaded.** -/
theorem Loadable.returns (h : Loadable phdr) (hsized : phdr.Sized) :
    ∃ rounds calls, elf64Load rounds phdr = some calls := by
  have hfile : ∀ k, loopStart phdr + k * pgSize < phdr.pFilesz →
      loopStart phdr + (k + 1) * pgSize < wordSize :=
    fun k hk => h.no_wrap k (hk.trans_le hsized.filesz)
  obtain ⟨n, ⟨file, i⟩, hfiles⟩ := exists_strideLoop pgSize_pos hfile (fileCall phdr)
  obtain ⟨-, hi, -⟩ := strideLoop_eq_some pgSize_dvd_wordSize (loopStart_lt hsized) hfiles
  have hshift : ∀ k, i + k * pgSize = loopStart phdr + (file.length + k) * pgSize := by
    intro k
    rw [hi, Nat.add_mul]
    omega
  have hzero : ∀ k, i + k * pgSize < phdr.pMemsz → i + (k + 1) * pgSize < wordSize := by
    intro k hk
    rw [hshift] at hk ⊢
    exact h.no_wrap _ hk
  obtain ⟨m, ⟨zero, j⟩, hzeros⟩ := exists_strideLoop pgSize_pos hzero (zeroCall phdr)
  refine ⟨max n m, (if phdr.pVaddr % pgSize ≠ 0 then [firstCall phdr] else []) ++ (file ++ zero), ?_⟩
  rw [elf64Load_eq, strideLoop_mono hfiles (le_max_left n m)]
  dsimp only
  rw [strideLoop_mono hzeros (le_max_right n m)]

/-- Before the end of the segment the addresses do not wrap. -/
theorem LoadRun.not_wrapped (h : LoadRun phdr files zeros calls) (hsized : phdr.Sized)
    (hspace : phdr.pVaddr + phdr.pMemsz ≤ wordSize) {k : Nat} (hk : k < files + zeros) :
    loopStart phdr + k * pgSize < phdr.pMemsz ∧
      (phdr.pVaddr + (loopStart phdr + k * pgSize)) % wordSize =
        phdr.pVaddr + (loopStart phdr + k * pgSize) := by
  have hlt : loopStart phdr + k * pgSize < phdr.pMemsz := by
    by_cases hfile : k < files
    · exact (h.file_lt k hfile).trans_le hsized.filesz
    · obtain ⟨j, rfl⟩ := Nat.exists_eq_add_of_le (not_lt.mp hfile)
      exact h.zero_lt j (Nat.lt_of_add_lt_add_left hk)
  exact ⟨hlt, Nat.mod_eq_of_lt (by omega)⟩

/-- **The pages follow each other** from the first one on, and reach to the end of the segment. -/
theorem LoadRun.pages (h : LoadRun phdr files zeros calls) (hsized : phdr.Sized) (hload : Loadable phdr) :
    ∃ n, pagesOf calls = (List.range n).map (fun k => phdr.pVaddr / pgSize + k) ∧
      phdr.pVaddr + phdr.pMemsz ≤ (phdr.pVaddr / pgSize + n) * pgSize ∧
      (0 < n → (phdr.pVaddr / pgSize + (n - 1)) * pgSize < phdr.pVaddr + phdr.pMemsz ∧ 0 < phdr.pMemsz) := by
  have hpages : pagesOf calls = (calls.map MapCall.va).map (· / pgSize) := by
    rw [List.map_map]
    rfl
  have hmod := Nat.div_add_mod phdr.pVaddr pgSize
  have hoffset := Nat.mod_lt phdr.pVaddr pgSize_pos
  have hlast := h.not_wrapped hsized hload.space (k := files + zeros - 1)
  have hend := h.zero_le
  rw [hpages, h.addresses, List.map_append, List.map_map]
  rcases hload.start with ⟨hoff, hstart⟩ | ⟨hoff, hstart, hfull⟩ | ⟨hoff, hstart, -, hpos, hshort⟩
  · -- an aligned segment
    refine ⟨files + zeros, ?_, ?_, ?_⟩
    · rw [if_neg (not_not_intro hoff), List.map_nil, List.nil_append]
      refine List.map_congr_left fun k hk => ?_
      rw [Function.comp_apply, (h.not_wrapped hsized hload.space (List.mem_range.mp hk)).2, hstart]
      unfold pgSize at *
      omega
    · unfold pgSize at *
      omega
    · intro hpos
      obtain ⟨hlt, -⟩ := hlast (Nat.sub_one_lt hpos.ne')
      unfold pgSize at *
      omega
  · -- a first page that the file fills
    refine ⟨files + zeros + 1, ?_, ?_, ?_⟩
    · rw [if_pos hoff, List.range_succ_eq_map, List.map_cons, List.map_cons, List.map_map]
      refine congrArg₂ List.cons rfl (List.map_congr_left fun k hk => ?_)
      rw [Function.comp_apply, (h.not_wrapped hsized hload.space (List.mem_range.mp hk)).2, hstart]
      show _ = phdr.pVaddr / pgSize + (k + 1)
      unfold pgSize at *
      omega
    · unfold pgSize at *
      omega
    · intro _
      have hfile := hsized.filesz
      by_cases hnone : files + zeros = 0
      · unfold pgSize at *
        omega
      · obtain ⟨hlt, -⟩ := hlast (Nat.sub_one_lt hnone)
        unfold pgSize at *
        omega
  · -- a segment inside one page
    have hnone : files + zeros = 0 := by
      by_contra hsome
      obtain ⟨hlt, -⟩ := h.not_wrapped hsized hload.space (Nat.pos_of_ne_zero hsome)
      omega
    refine ⟨1, ?_, ?_, ?_⟩
    · rw [if_pos hoff, hnone]
      rfl
    · unfold pgSize at *
      omega
    · intro _
      unfold pgSize at *
      omega

/-- Pages in a row, and the addresses in them. -/
theorem mem_range_pages {v m n x : Nat} (hend : v + m ≤ (v / pgSize + n) * pgSize)
    (hlast : 0 < n → (v / pgSize + (n - 1)) * pgSize < v + m ∧ 0 < m) :
    x ∈ (List.range n).map (fun k => v / pgSize + k) ↔ ∃ a, v ≤ a ∧ a < v + m ∧ a / pgSize = x := by
  simp only [List.mem_map, List.mem_range]
  constructor
  · rintro ⟨k, hk, rfl⟩
    obtain ⟨hlt, hpos⟩ := hlast (Nat.zero_lt_of_lt hk)
    refine ⟨max v ((v / pgSize + k) * pgSize), le_max_left _ _, ?_, ?_⟩
    · unfold pgSize at *
      omega
    · unfold pgSize at *
      omega
  · rintro ⟨a, hlo, hhi, rfl⟩
    refine ⟨a / pgSize - v / pgSize, ?_, ?_⟩
    · unfold pgSize at *
      omega
    · have hle := Nat.div_le_div_right (c := pgSize) hlo
      omega

/-- A page of the loops starts at a multiple of the page size, and its address is the one that is
meant. -/
theorem LoadRun.alignDown_va (h : LoadRun phdr files zeros calls) (hsized : phdr.Sized)
    (hload : Loadable phdr) {k : Nat} (hk : k < files) :
    alignDown ((phdr.pVaddr + (loopStart phdr + k * pgSize)) % wordSize) pgSize =
      phdr.pVaddr + (loopStart phdr + k * pgSize) := by
  obtain ⟨hlt, hva⟩ := h.not_wrapped hsized hload.space (Nat.lt_of_lt_of_le hk (Nat.le_add_right _ _))
  have hmod := Nat.div_add_mod phdr.pVaddr pgSize
  have hoffset := Nat.mod_lt phdr.pVaddr pgSize_pos
  have haligned : ∀ q, phdr.pVaddr + loopStart phdr = q * pgSize →
      (phdr.pVaddr + (loopStart phdr + k * pgSize)) % pgSize = 0 := by
    intro q hq
    rw [← Nat.add_assoc, hq, ← Nat.add_mul, Nat.mul_mod_left]
  rw [hva, alignDown]
  rcases hload.start with ⟨hoff, hstart⟩ | ⟨hoff, hstart, -⟩ | ⟨-, hstart, -⟩
  · rw [haligned (phdr.pVaddr / pgSize) (by rw [Nat.mul_comm]; omega), Nat.sub_zero]
  · rw [haligned (phdr.pVaddr / pgSize + 1) (by rw [Nat.succ_mul, Nat.mul_comm]; omega), Nat.sub_zero]
  · omega

theorem mem_copies {c : MapCall} {a k : Nat} : (a, k) ∈ c.copies ↔
    ∃ s, c.src = some s ∧ ∃ j < c.srcLen, a = alignDown c.va pgSize + c.offset + j ∧ k = s + j := by
  unfold MapCall.copies
  cases c.src with
  | none => simp
  | some s =>
      simp only [List.mem_map, List.mem_range, Prod.mk.injEq, Option.some.injEq, exists_eq_left']
      exact exists_congr fun j => and_congr_right fun _ => and_congr eq_comm eq_comm

theorem alignDown_add_mod (x n : Nat) : alignDown x n + x % n = x := by
  unfold alignDown
  exact Nat.sub_add_cancel (Nat.mod_le x n)

/-- The copies of the first page. -/
theorem mem_copies_first {a k : Nat} (hoff : phdr.pVaddr % pgSize ≠ 0) :
    (a, k) ∈ (firstCall phdr).copies ↔ k < loopStart phdr ∧ a = phdr.pVaddr + k := by
  rw [mem_copies, loopStart, if_pos hoff]
  simp only [firstCall, sub_alignDown, alignDown_add_mod, Option.some.injEq, exists_eq_left',
    Nat.zero_add]
  constructor
  · rintro ⟨j, hj, rfl, rfl⟩
    exact ⟨hj, rfl⟩
  · rintro ⟨hk, rfl⟩
    exact ⟨k, hk, rfl, rfl⟩

/-- **The copies put every byte of the file in its place**, and nothing else. -/
theorem LoadRun.bytes (h : LoadRun phdr files zeros calls) (hsized : phdr.Sized) (hload : Loadable phdr)
    (a k : Nat) : (a, k) ∈ calls.flatMap MapCall.copies ↔ k < phdr.pFilesz ∧ a = phdr.pVaddr + k := by
  have hstart : loopStart phdr ≤ phdr.pFilesz := by
    rcases hload.start with ⟨-, hls⟩ | ⟨-, hls, hle⟩ | ⟨-, hls, heq, -⟩
    · omega
    · omega
    · omega
  -- the bytes of the first page
  have hfirst : (a, k) ∈ (if phdr.pVaddr % pgSize ≠ 0 then [firstCall phdr] else []).flatMap MapCall.copies ↔
      k < loopStart phdr ∧ a = phdr.pVaddr + k := by
    by_cases hoff : phdr.pVaddr % pgSize = 0
    · have hls : loopStart phdr = 0 := if_neg (not_not_intro hoff)
      simp [hoff, hls]
    · rw [if_pos hoff, List.flatMap_singleton, mem_copies_first hoff]
  -- a round copies the next page of the file, or what is left of it
  have hfiles : (a, k) ∈ ((List.range files).map
      fun r => fileCall phdr (loopStart phdr + r * pgSize)).flatMap MapCall.copies ↔
      (loopStart phdr ≤ k ∧ k < phdr.pFilesz) ∧ a = phdr.pVaddr + k := by
    simp only [List.mem_flatMap, List.mem_map, List.mem_range]
    constructor
    · rintro ⟨c, ⟨r, hr, rfl⟩, hc⟩
      obtain ⟨s, hs, j, hj, rfl, rfl⟩ := mem_copies.mp hc
      obtain rfl : loopStart phdr + r * pgSize = s := Option.some.inj hs
      simp only [fileCall] at hj ⊢
      rw [h.alignDown_va hsized hload hr]
      split at hj
      · omega
      · omega
    · rintro ⟨⟨hlo, hhi⟩, rfl⟩
      have hmod := Nat.div_add_mod (k - loopStart phdr) pgSize
      have hlt := Nat.mod_lt (k - loopStart phdr) pgSize_pos
      -- the byte is copied in the round that its offset names
      have hr : (k - loopStart phdr) / pgSize < files := by
        rw [Nat.div_lt_iff_lt_mul pgSize_pos]
        have hle := h.file_le
        omega
      rw [Nat.mul_comm] at hmod
      refine ⟨_, ⟨_, hr, rfl⟩, mem_copies.mpr ⟨_, rfl, (k - loopStart phdr) % pgSize, ?_, ?_, ?_⟩⟩
      · simp only [fileCall]
        split
        · omega
        · exact hlt
      · simp only [fileCall]
        rw [h.alignDown_va hsized hload hr]
        omega
      · omega
  -- the pages of the zeros have no source
  have hzeros : (a, k) ∉ ((List.range zeros).map
      fun r => zeroCall phdr (loopStart phdr + (files + r) * pgSize)).flatMap MapCall.copies := by
    simp [MapCall.copies, zeroCall]
  rw [h.calls, List.flatMap_append, List.flatMap_append, List.mem_append, List.mem_append, hfirst, hfiles]
  constructor
  · rintro (⟨hk, ha⟩ | ⟨⟨-, hk⟩, ha⟩ | hz)
    · exact ⟨hk.trans_le hstart, ha⟩
    · exact ⟨hk, ha⟩
    · exact absurd hz hzeros
  · rintro ⟨hk, ha⟩
    rcases Nat.lt_or_ge k (loopStart phdr) with hlt | hge
    · exact Or.inl ⟨hlt, ha⟩
    · exact Or.inr (Or.inl ⟨⟨hge, hk⟩, ha⟩)

/-- No copy leaves its page. -/
theorem LoadRun.inside (h : LoadRun phdr files zeros calls) : ∀ c ∈ calls, c.offset + c.srcLen ≤ pgSize := by
  intro c hc
  rw [h.calls] at hc
  have hoffset := Nat.mod_lt phdr.pVaddr pgSize_pos
  simp only [List.mem_append, List.mem_map, List.mem_range] at hc
  rcases hc with hc | ⟨k, -, rfl⟩ | ⟨k, -, rfl⟩
  · split at hc
    · rw [List.mem_singleton.mp hc, srcLen_firstCall]
      simp only [firstCall, sub_alignDown]
      omega
    · exact absurd hc List.not_mem_nil
  · simp only [fileCall]
    split
    · omega
    · omega
  · simp [zeroCall]

theorem LoadRun.coversExactly (h : LoadRun phdr files zeros calls) (hsized : phdr.Sized)
    (hload : Loadable phdr) : CoversExactly phdr calls := by
  obtain ⟨n, hpages, hend, hlast⟩ := h.pages hsized hload
  refine ⟨?_, ?_, h.inside, h.bytes hsized hload⟩
  · rw [hpages]
    exact List.Nodup.map (fun a b hab => Nat.add_left_cancel hab) List.nodup_range
  · intro x
    rw [hpages]
    exact mem_range_pages hend hlast

/-! ## The loads that are not -/

/-- A first page that neither the file nor the segment fills is mapped twice if there are zeros behind the
file, and should not be mapped if the segment is empty. -/
theorem LoadRun.short_first (h : LoadRun phdr files zeros calls) (hsized : phdr.Sized)
    (hspace : phdr.pVaddr + phdr.pMemsz ≤ wordSize) (hoff : phdr.pVaddr % pgSize ≠ 0)
    (hshort : phdr.pFilesz < pgSize - phdr.pVaddr % pgSize)
    (hzeros : phdr.pFilesz = phdr.pMemsz → phdr.pMemsz = 0) : ¬ CoversExactly phdr calls := by
  intro hcovers
  have hstart : loopStart phdr = phdr.pFilesz := by
    rw [loopStart, if_pos hoff, srcLen_firstCall, min_eq_left hshort.le]
  have hpages : pagesOf calls = phdr.pVaddr / pgSize ::
      (List.range (files + zeros)).map
        fun k => (phdr.pVaddr + (loopStart phdr + k * pgSize)) % wordSize / pgSize := by
    have hva := congrArg (List.map (· / pgSize)) h.addresses
    rw [if_pos hoff, List.map_append, List.map_map, List.map_map] at hva
    exact hva
  by_cases heq : phdr.pFilesz = phdr.pMemsz
  · -- the segment is empty
    have hmem : phdr.pVaddr / pgSize ∈ pagesOf calls := by
      rw [hpages]
      exact List.mem_cons_self
    obtain ⟨a, hlo, hhi, -⟩ := (hcovers.pages _).mp hmem
    rw [hzeros heq] at hhi
    omega
  · -- the first round of the loops is for the first page again
    have hsome : 0 < files + zeros := by
      by_contra hnone
      have hz : files + zeros = 0 := by omega
      have hle := h.zero_le
      have hfile := hsized.filesz
      rw [hz, Nat.zero_mul] at hle
      omega
    have hva := (h.not_wrapped hsized hspace hsome).2
    rw [Nat.zero_mul, Nat.add_zero, hstart] at hva
    have hagain : phdr.pVaddr / pgSize ∈ (List.range (files + zeros)).map
        fun k => (phdr.pVaddr + (loopStart phdr + k * pgSize)) % wordSize / pgSize := by
      refine List.mem_map.mpr ⟨0, List.mem_range.mpr hsome, ?_⟩
      rw [Nat.zero_mul, Nat.add_zero, hstart, hva]
      unfold pgSize at *
      omega
    have honce := hcovers.once
    rw [hpages, List.nodup_cons] at honce
    exact honce.1 hagain

/-- A segment behind the end of the address space has pages that cannot be mapped. -/
theorem not_coversExactly_of_space (hsized : phdr.Sized) (hspace : wordSize < phdr.pVaddr + phdr.pMemsz)
    (h : LoadRun phdr files zeros calls) : ¬ CoversExactly phdr calls := by
  intro hcovers
  obtain ⟨c, hc, hpage⟩ := List.mem_map.mp
    ((hcovers.pages (wordSize / pgSize)).mpr ⟨wordSize, hsized.vaddr.le, hspace, rfl⟩)
  have hva : c.va < wordSize := by
    have hmem : c.va ∈ calls.map MapCall.va := List.mem_map_of_mem hc
    rw [h.addresses, List.mem_append] at hmem
    rcases hmem with hmem | hmem
    · split at hmem
      · rw [List.mem_singleton.mp hmem]
        exact hsized.vaddr
      · exact absurd hmem List.not_mem_nil
    · obtain ⟨k, -, hk⟩ := List.mem_map.mp hmem
      rw [← hk]
      exact Nat.mod_lt _ wordSize_pos
  have hlt : c.va / pgSize < wordSize / pgSize := Nat.div_lt_div_of_lt_of_dvd pgSize_dvd_wordSize hva
  omega

/-- The loops of a segment from address zero to the last page do not end. -/
theorem LoadRun.ends (h : LoadRun phdr files zeros calls) (hzero : phdr.pVaddr = 0) :
    phdr.pMemsz ≤ wordSize - pgSize := by
  have hstart : loopStart phdr = 0 := by
    rw [loopStart, hzero, Nat.zero_mod, if_neg (by simp)]
  have hle := h.zero_le
  have hlt := h.lt_word
  obtain ⟨c, hc⟩ := pgSize_dvd_wordSize
  rw [hstart, Nat.zero_add] at hle hlt
  rw [hc, Nat.mul_comm] at hlt
  have hround : (files + zeros + 1) * pgSize ≤ c * pgSize :=
    Nat.mul_le_mul_right _ (Nat.lt_of_mul_lt_mul_left hlt)
  rw [hc, Nat.mul_comm]
  rw [Nat.succ_mul] at hround
  omega

/-- **A segment is loaded exactly** — its pages once each, its bytes in their places — if and only if it
lies in the address space and its first page is full, or holds it all. -/
theorem segment_exact_iff (hsized : phdr.Sized) : LoadsExactly phdr ↔ Loadable phdr := by
  constructor
  · rintro ⟨rounds, calls, hload, hcovers⟩
    obtain ⟨files, zeros, hrun⟩ := loadRun_of_eq_some hsized hload
    have hspace : phdr.pVaddr + phdr.pMemsz ≤ wordSize := by
      by_contra hgt
      exact not_coversExactly_of_space hsized (not_le.mp hgt) hrun hcovers
    refine ⟨hspace, hrun.ends, ?_⟩
    by_contra hfirst
    rw [not_or, not_or, not_le] at hfirst
    obtain ⟨hoff, hshort, hone⟩ := hfirst
    refine hrun.short_first hsized hspace hoff hshort (fun heq => ?_) hcovers
    by_contra hpos
    exact hone ⟨heq, Nat.pos_of_ne_zero hpos⟩
  · intro hload
    obtain ⟨rounds, calls, hcalls⟩ := hload.returns hsized
    obtain ⟨files, zeros, hrun⟩ := loadRun_of_eq_some hsized hcalls
    exact ⟨rounds, calls, hcalls, hrun.coversExactly hsized hload⟩

/-- A few bytes of the file in an unaligned first page, and zeros behind them: the page is mapped twice,
the last one not at all. -/
theorem segment_not_exact : ¬ ∀ phdr : Phdr, phdr.Sized → LoadsExactly phdr := by
  intro hall
  let data : Phdr :=
    { pVaddr := 0x10010, pFilesz := 0x10, pMemsz := 0x2000, pX := false, pW := true, pR := true }
  have hsized : data.Sized := ⟨by decide +kernel, by decide +kernel, by decide⟩
  obtain ⟨rounds, calls, hload, hcovers⟩ := hall data hsized
  obtain ⟨files, zeros, hrun⟩ := loadRun_of_eq_some hsized hload
  exact hrun.short_first hsized (by decide +kernel) (by decide) (by decide) (by decide) hcovers

/-- An unaligned segment with a full first page, a part of a page of the file, and zeros. -/
theorem segment_exact_iff_unaligned :
    let data : Phdr :=
      { pVaddr := 0x10010, pFilesz := 0x1800, pMemsz := 0x3000, pX := false, pW := true, pR := true }
    Loadable data ∧ LoadsExactly data := by
  intro data
  have hload : Loadable data := by decide +kernel
  exact ⟨hload, (segment_exact_iff ⟨by decide +kernel, by decide +kernel, by decide⟩).mpr hload⟩

end Jrinx
