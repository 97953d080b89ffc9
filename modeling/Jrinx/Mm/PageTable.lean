import Jrinx.Mm.Frames

/-! # SV39 page tables

`kern/mm/vmm.c`. A page-table entry is addressed by the frame of its table and its index there.

* **`PtOps`** — the function pointers of the frame allocator, over which `PtOps.walk`, `PtOps.lookup`,
  `PtOps.unmap` and `PtOps.map` are written as in the source, its failures included.
* **`ptWalk`**, **`ptLookup`**, **`ptUnmap`**, **`ptMap`** — the same with the physical frame allocator
  in use.
* **`leafOf`** — the pure meaning of `pt_lookup`: the entry that maps an address. -/

namespace Jrinx

/-- The place of a page-table entry. -/
structure PteAddr where
  table : Ppn
  idx : Nat
  deriving DecidableEq, Repr

/-- The top-level index of an address. -/
def vpn2 (va : Nat) : Nat := va / 2 ^ 30 % 512

/-- The middle index of an address. -/
def vpn1 (va : Nat) : Nat := va / 2 ^ 21 % 512

/-- The bottom index of an address. -/
def vpn0 (va : Nat) : Nat := va / 2 ^ 12 % 512

/-- The entry at a place. -/
def Mem.pte (m : Mem) (a : PteAddr) : Pte := m.ram a.table a.idx

/-- Write an entry. -/
def Mem.setPte (m : Mem) (a : PteAddr) (pte : Pte) : Mem :=
  { m with ram := Function.update m.ram a.table (Function.update (m.ram a.table) a.idx pte) }

/-- The entry that points to the table in frame `ppn`. -/
def tablePte (ppn : Ppn) : Pte := ⟨{ v := true }, ppn⟩

/-- `pt_phy_frame_alloc`. -/
def ptFrameAlloc : Op Mem Ppn := do
  let pf ← phyFrameAlloc
  Op.panicE (phyFrameRefInc pf)
  pure pf

/-- `pt_phy_frame_ref_inc`: an address outside the memory ranges is one of a device. -/
def ptFrameRefInc (ppn : Ppn) : Op Mem Unit := do
  let m ← Op.get
  match pa2frame m.mems ppn with
  | none => pure ()
  | some pf => Op.panicE (phyFrameRefInc pf)

/-- `pt_phy_frame_ref_dec`. -/
def ptFrameRefDec (ppn : Ppn) : Op Mem Unit := do
  let m ← Op.get
  match pa2frame m.mems ppn with
  | none => pure ()
  | some pf => Op.panicE (phyFrameRefDec pf)

/-- The function pointers `pt_frame_alloc`, `pt_frame_ref_inc` and `pt_frame_ref_dec`, through which
the page tables get and give back frames. -/
structure PtOps where
  frameAlloc : Op Mem Ppn
  frameRefInc : Ppn → Op Mem Unit
  frameRefDec : Ppn → Op Mem Unit

/-- The pointers at the end of `vmm_setup_kern`: those of the physical frame allocator. -/
def ptPhyOps : PtOps := ⟨ptFrameAlloc, ptFrameRefInc, ptFrameRefDec⟩

namespace PtOps

variable (o : PtOps)

/-- The second half of `pt_walk`: the middle table and the place in the bottom one. `pa1` is the
table frame allocated on the way, zero if there was none; it is given back when the next allocation
fails, while the entry that points to it stays. -/
def walkMid (mid : Ppn) (va : Nat) (create : Bool) (pa1 : Ppn) : Op Mem (Option PteAddr) := do
  let m ← Op.get
  let pte := m.pte ⟨mid, vpn1 va⟩
  if pte.perm.v then
    pure (some ⟨pte.ppn, vpn0 va⟩)
  else if create then do
    let pa2 ← Op.catchE o.frameAlloc
      (if pa1 = 0 then Op.fail else do
        Op.panicE (o.frameRefDec pa1)
        Op.fail)
    Op.modify fun m => m.setPte ⟨mid, vpn1 va⟩ (tablePte pa2)
    pure (some ⟨pa2, vpn0 va⟩)
  else
    pure none

/-- The way out of a failed allocation never succeeds. -/
theorem undo_fails (pa1 : Ppn) (m : Mem) (f : Ppn) (m' : Mem) :
    (if pa1 = 0 then Op.fail else do
      Op.panicE (o.frameRefDec pa1)
      Op.fail : Op Mem Ppn) m ≠ .ok f m' := by
  intro h
  split at h
  · exact Op.fail_eq_ok.mp h
  · obtain ⟨_, _, _, hf⟩ := Op.bind_eq_ok.mp h
    exact Op.fail_eq_ok.mp hf

/-- `pt_walk`. -/
def walk (pgdir : Ppn) (va : Nat) (create : Bool) : Op Mem (Option PteAddr) := do
  let m ← Op.get
  let pte := m.pte ⟨pgdir, vpn2 va⟩
  if pte.perm.v then
    o.walkMid pte.ppn va create 0
  else if create then do
    let pa1 ← o.frameAlloc
    Op.modify fun m => m.setPte ⟨pgdir, vpn2 va⟩ (tablePte pa1)
    o.walkMid pa1 va create pa1
  else
    pure none

/-- `pt_lookup`. -/
def lookup (pgdir : Ppn) (va : Nat) : Op Mem (Option PteAddr) := do
  let pte ← o.walk pgdir va false
  let m ← Op.get
  match pte with
  | none => pure none
  | some a => pure (if (m.pte a).perm.v then some a else none)

/-- `pt_unmap`. -/
def unmap (pgdir : Ppn) (va : Nat) : Op Mem Unit := do
  let pte ← o.lookup pgdir va
  match pte with
  | none => pure ()
  | some a => do
      let m ← Op.get
      o.frameRefDec (m.pte a).ppn
      Op.modify fun m => m.setPte a Pte.zero

/-- `pt_map`. -/
def map (pgdir : Ppn) (va : Nat) (ppn : Ppn) (perm : Perm) : Op Mem Unit := do
  let pte ← o.walk pgdir va false
  let m ← Op.get
  match pte with
  | none => pure ()
  | some a => if (m.pte a).perm.v then o.unmap pgdir va else pure ()
  let pte ← o.walk pgdir va true
  match pte with
  | none => Op.halt
  | some a => do
      Op.modify fun m => m.setPte a ⟨{ perm with v := true }, ppn⟩
      Op.panicE (o.frameRefInc ppn)

end PtOps

/-- The second half of `pt_walk` with the physical frame allocator. -/
def ptWalkMid (mid : Ppn) (va : Nat) (create : Bool) (pa1 : Ppn) : Op Mem (Option PteAddr) :=
  ptPhyOps.walkMid mid va create pa1

/-- `pt_walk` with the physical frame allocator. -/
def ptWalk (pgdir : Ppn) (va : Nat) (create : Bool) : Op Mem (Option PteAddr) :=
  ptPhyOps.walk pgdir va create

/-- `pt_lookup` with the physical frame allocator. -/
def ptLookup (pgdir : Ppn) (va : Nat) : Op Mem (Option PteAddr) := ptPhyOps.lookup pgdir va

/-- `pt_unmap` with the physical frame allocator. -/
def ptUnmap (pgdir : Ppn) (va : Nat) : Op Mem Unit := ptPhyOps.unmap pgdir va

/-- `pt_map` with the physical frame allocator. -/
def ptMap (pgdir : Ppn) (va : Nat) (ppn : Ppn) (perm : Perm) : Op Mem Unit :=
  ptPhyOps.map pgdir va ppn perm

/-! ## The meaning of a lookup -/

/-- **What `pt_lookup` finds**: the place of the valid entry that maps `va`, if there is one. -/
def leafOf (m : Mem) (pgdir : Ppn) (va : Nat) : Option PteAddr :=
  let top := m.pte ⟨pgdir, vpn2 va⟩
  let mid := m.pte ⟨top.ppn, vpn1 va⟩
  let leaf : PteAddr := ⟨mid.ppn, vpn0 va⟩
  if top.perm.v && mid.perm.v && (m.pte leaf).perm.v then some leaf else none

end Jrinx
