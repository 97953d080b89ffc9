import Jrinx.Drivers.FlatTree

/-! # The memory reservation map

The block of a flattened device tree that lists the reserved memory, in pairs of big-endian words. `dt_load` stores
the words as the machine reads them: of all fields of the format, these are the only ones that it takes without
`from_be`.

* **`HoldsRsvMap`** — the block in a blob.
* **`dt_load_rsvmem`** — what `dt_load` stores.
* **`dt_load_rsvmem_iff`** — when these are the pairs of the block. -/

namespace Jrinx

/-! ## Words of eight bytes -/

/-- The eight bytes of a word, most significant first. -/
def beBytes64 (v : Nat) : List UInt8 := (leBytes 8 v).reverse

/-- `bswap64`. -/
def bswap64 (x : Nat) : Nat := fromLe (leBytes 8 x).reverse

@[simp] theorem length_beBytes64 (v : Nat) : (beBytes64 v).length = 8 := by
  rw [beBytes64, List.length_reverse, length_leBytes]

theorem fromLe_beBytes64 (v : Nat) : fromLe (beBytes64 v) = bswap64 v := rfl

/-- A word is zero when its bytes are. -/
theorem beBytes64_eq_zero {v : Nat} (hv : v < 2 ^ 64) (h : ∀ b ∈ beBytes64 v, b = 0) : v = 0 := by
  have hzero : fromLe (leBytes 8 v) = 0 := by
    rw [fromLe_eq_zero]
    intro b hb
    exact h b (List.mem_reverse.mpr hb)
  rwa [fromLe_leBytes, Nat.mod_eq_of_lt (by norm_num at hv ⊢; exact hv)] at hzero

/-! ## The block -/

/-- `struct fdt_reserve_entry` in a blob. -/
def rsvEntryBytes (p : Nat × Nat) : List UInt8 := beBytes64 p.1 ++ beBytes64 p.2

/-- The blob holds the pairs at the offset: addresses and sizes, up to one pair of zeros. -/
structure HoldsRsvMap (blob : List UInt8) (off : Nat) (pairs : List (Nat × Nat)) : Prop where
  word : ∀ p ∈ pairs, p.1 < 2 ^ 64 ∧ p.2 < 2 ^ 64
  nonzero : ∀ p ∈ pairs, p ≠ (0, 0)
  lies : At blob off (pairs.flatMap rsvEntryBytes ++ List.replicate 16 0)

/-- A pair with its numeric values, as `dt_rsvmem_list` holds it. -/
def rsvmemPair (p : Nat × Nat) : DevRsvmem := ⟨p.1, p.2⟩

section Load

variable {rounds : Nat} {blob : List UInt8} {hdr : FdtField → Nat} {t : DtTree} {pairs : List (Nat × Nat)}

theorem rsvmemOf_rsvEntryBytes (p : Nat × Nat) : rsvmemOf (rsvEntryBytes p) = ⟨bswap64 p.1, bswap64 p.2⟩ := by
  have hlen : (beBytes64 p.1).length = 8 := length_beBytes64 p.1
  rw [rsvmemOf, rsvEntryBytes, ← hlen, List.take_left, List.drop_left]
  rfl

/-- The entries of the block end at the pair of zeros, and not before. -/
theorem HoldsRsvMap.entries (hr : HoldsRsvMap blob (hdr .offMemRsvmap) pairs) :
    ∀ entry ∈ pairs.map rsvEntryBytes, entry.length = 16 ∧ ∃ b ∈ entry, b ≠ 0 := by
  intro entry hentry
  obtain ⟨p, hp, rfl⟩ := List.mem_map.mp hentry
  refine ⟨by simp [rsvEntryBytes], ?_⟩
  by_contra hnone
  push Not at hnone
  obtain ⟨haddr, hsize⟩ := hr.word p hp
  have h₁ : p.1 = 0 := beBytes64_eq_zero haddr fun b hb => hnone b (List.mem_append_left _ hb)
  have h₂ : p.2 = 0 := beBytes64_eq_zero hsize fun b hb => hnone b (List.mem_append_right _ hb)
  exact hr.nonzero p hp (Prod.ext h₁ h₂)

/-- **The words are stored as they lie there**, in the order of the machine. -/
theorem dt_load_rsvmem (hf : IsFdt blob t hdr) (hr : HoldsRsvMap blob (hdr .offMemRsvmap) pairs) :
    Barring .noMem (dtLoad rounds blob) fun dt =>
      dt.dtRsvmemList = pairs.map fun p => ⟨bswap64 p.1, bswap64 p.2⟩ := by
  have hlies : At blob (hdr .offMemRsvmap) ((pairs.map rsvEntryBytes).flatten ++ List.replicate 16 0) := by
    rw [← List.flatMap_def]
    exact hr.lies
  refine (barring_dtLoad hf hr.entries hlies).mono ?_
  rintro dt ⟨hlist, -⟩
  rw [hlist, List.map_map]
  apply List.map_congr_left
  intro p _
  exact rsvmemOf_rsvEntryBytes p

/-- **The map is decoded** exactly when every address and size is the same with its bytes in the other order, in a
run in which every `kalloc` finds memory. -/
theorem dt_load_rsvmem_iff (hf : IsFdt blob t hdr) (hr : HoldsRsvMap blob (hdr .offMemRsvmap) pairs) {h : KHeap}
    (hmem : dtLoad rounds blob h ≠ .error .noMem) :
    (∃ dt h', dtLoad rounds blob h = .ok (dt, h') ∧ dt.dtRsvmemList = pairs.map rsvmemPair) ↔
      ∀ p ∈ pairs, bswap64 p.1 = p.1 ∧ bswap64 p.2 = p.2 := by
  obtain ⟨dt, h', hok, hlist⟩ := (dt_load_rsvmem hf hr).eq_ok hmem
  have hiff : dt.dtRsvmemList = pairs.map rsvmemPair ↔ ∀ p ∈ pairs, bswap64 p.1 = p.1 ∧ bswap64 p.2 = p.2 := by
    rw [hlist, List.map_inj_left]
    simp only [rsvmemPair, DevRsvmem.mk.injEq]
  rw [← hiff]
  constructor
  · rintro ⟨dt', h'', hok', hlist'⟩
    obtain rfl : dt = dt' := by
      have heq := hok.symm.trans hok'
      simp only [Except.ok.injEq, Prod.mk.injEq] at heq
      exact heq.1
    exact hlist'
  · intro hlist'
    exact ⟨dt, h', hok, hlist'⟩

end Load

/-! ## Blobs -/

/-- The header of a blob whose block holds one pair. -/
def rsvHdr : FdtField → Nat
  | .totalsize => 150
  | .offDtStruct => 72
  | .offDtStrings => 148
  | f => sampleHdr f

/-- The sample, with one pair in its block. -/
def rsvBlob (p : Nat × Nat) : List UInt8 :=
  [FdtField.magic, .totalsize, .offDtStruct, .offDtStrings, .offMemRsvmap, .version, .lastCompVersion,
    .bootCpuidPhys, .sizeDtStrings, .sizeDtStruct].flatMap (fun f => beBytes (rsvHdr f)) ++
  rsvEntryBytes p ++ List.replicate 16 0 ++ (nops 1 ++ (sampleNode ++ (nops 1 ++ beBytes fdtEnd))) ++ [97, 0]

/-- What is to be checked of such a blob, beside its header. -/
theorem isFdt_rsvBlob {p : Nat × Nat} (hhdr : ∀ f : FdtField, At (rsvBlob p) f.offset (beBytes (rsvHdr f)))
    (htotal : (rsvBlob p).length = 150) (hr : HoldsRsvMap (rsvBlob p) 40 [p])
    (hstrs : At (rsvBlob p) 148 [97, 0])
    (hnode : At (rsvBlob p) 72 (nops 1 ++ (sampleNode ++ (nops 1 ++ beBytes fdtEnd)))) :
    IsFdt (rsvBlob p) sampleTree rsvHdr where
  lies := hhdr
  word f := by cases f <;> decide
  total := htotal.symm
  behind := by decide
  magic := rfl
  version := rfl
  rsvmap := by
    have hmap : HoldsRsvMap (rsvBlob p) (rsvHdr .offMemRsvmap) [p] := hr
    refine ⟨_, hmap.entries, ?_⟩
    rw [← List.flatMap_def]
    exact hr.lies
  structs := by
    have hname : StrsOf (rsvBlob p) rsvHdr ⟨[97], by decide⟩ 0 := ⟨by decide, hstrs⟩
    refine ⟨sampleNode, 1, 1, ?_, hnode, by decide +kernel⟩
    refine FlatNode.node 1 ⟨[0, 0, 0], by decide, rfl, by decide⟩
      (FlatProps.cons 1 hname ⟨[0, 0, 0], by decide, rfl, by decide⟩ FlatProps.nil)
      (FlatChildren.cons 1 (FlatNode.node 0 ⟨[0, 0], by decide, rfl, by decide⟩
        (FlatProps.cons 0 hname ⟨[], by decide, rfl, by decide⟩ FlatProps.nil) FlatChildren.nil)
        FlatChildren.nil)

/-- A pair of words that are the same in both orders. -/
def evenPair : Nat × Nat := (0x0000008080000000, 0)

theorem holdsRsvMap_evenPair : HoldsRsvMap (rsvBlob evenPair) 40 [evenPair] :=
  ⟨by decide, by decide, by decide +kernel⟩

theorem dt_load_rsvmem_iff_evenPair : ∃ dt h',
    dtLoad kallocRounds (rsvBlob evenPair) (kallocInit .sample fun _ => 0) = .ok (dt, h') ∧
      dt.dtRsvmemList = [⟨0x0000008080000000, 0⟩] := by
  have hf := isFdt_rsvBlob (by intro f; cases f <;> decide +kernel) (by decide +kernel) holdsRsvMap_evenPair
    (by decide +kernel) (by decide +kernel)
  have hok : (dtLoad kallocRounds (rsvBlob evenPair) (kallocInit .sample fun _ => 0)).isOk = true := by
    decide +kernel
  refine (dt_load_rsvmem_iff hf holdsRsvMap_evenPair fun h => ?_).mpr (by decide +kernel)
  rw [h] at hok
  exact Bool.false_ne_true hok

/-- The reserved memory of a machine: a megabyte from two gigabytes on. -/
def rsvPair : Nat × Nat := (0x80000000, 0x100000)

/-- The map is not always decoded: the words keep the order of the blob. -/
theorem dt_load_rsvmem_swapped : ¬ ∀ (rounds : Nat) (blob : List UInt8) (hdr : FdtField → Nat) (t : DtTree)
    (pairs : List (Nat × Nat)) (h : KHeap), IsFdt blob t hdr → HoldsRsvMap blob (hdr .offMemRsvmap) pairs →
    dtLoad rounds blob h ≠ .error .noMem →
    ∃ dt h', dtLoad rounds blob h = .ok (dt, h') ∧ dt.dtRsvmemList = pairs.map rsvmemPair := by
  intro hall
  have hr : HoldsRsvMap (rsvBlob rsvPair) 40 [rsvPair] := ⟨by decide, by decide, by decide +kernel⟩
  have hf := isFdt_rsvBlob (by intro f; cases f <;> decide +kernel) (by decide +kernel) hr
    (by decide +kernel) (by decide +kernel)
  have hok : (dtLoad kallocRounds (rsvBlob rsvPair) (kallocInit .sample fun _ => 0)).isOk = true := by
    decide +kernel
  have hmem : dtLoad kallocRounds (rsvBlob rsvPair) (kallocInit .sample fun _ => 0) ≠ .error .noMem := by
    intro h
    rw [h] at hok
    exact Bool.false_ne_true hok
  obtain ⟨dt, h', hload, hlist⟩ := hall _ _ _ _ _ _ hf hr hmem
  obtain ⟨dt', h'', hload', hlist'⟩ := (dt_load_rsvmem hf hr).eq_ok hmem
  have heq := hload.symm.trans hload'
  simp only [Except.ok.injEq, Prod.mk.injEq] at heq
  rw [heq.1, hlist'] at hlist
  exact absurd hlist (by decide +kernel)

end Jrinx
