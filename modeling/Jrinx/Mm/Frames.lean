import Jrinx.Lib.Fallible
import Jrinx.Types
import Mathlib.Logic.Function.Basic

/-! # Physical frames

`kern/mm/pmm.c` after `pmm_init`, and the memory state that the page tables and the partitions share.
A frame is named by its physical page number; the contents of a frame matter only where it serves as
a page table, so `ram` gives them as page-table entries. The bytes of data pages are not kept.

* **`Mem`** — frames, page tables and the memory fields of the partitions.
* **`phyFrameAlloc`**, **`phyFrameRefInc`**, **`phyFrameRefDec`** — the allocator. -/

namespace Jrinx

/-- A physical page number. -/
abbrev Ppn := Nat

/-- The two bits that are left to software. -/
def rswClear : Fin 4 := 0

/-- The ten bits of `union sv39_perm_t`, the valid bit among them. -/
structure Perm where
  v : Bool := false
  r : Bool := false
  w : Bool := false
  x : Bool := false
  u : Bool := false
  g : Bool := false
  a : Bool := false
  d : Bool := false
  rsw : Fin 4 := rswClear
  deriving DecidableEq, Repr

/-- `union sv39_entry_t`. -/
structure Pte where
  perm : Perm
  ppn : Ppn
  deriving DecidableEq, Repr

/-- The entry of all zero bits. -/
def Pte.zero : Pte := ⟨{}, 0⟩

/-- A memory range of the device tree, as `mem_get_addr` and `mem_get_size` report it. -/
structure MemRange where
  addr : Nat
  size : Nat
  deriving DecidableEq, Repr

/-- The memory fields of `struct part`. -/
structure PartMem where
  paPgdir : Ppn
  paMemReq : Nat
  paMemRem : Nat
  paUstasktop : Nat
  paXstacktop : Nat
  paCommBase : Nat
  paEntrypoint : Nat
  paMainProcStacksize : Nat
  /-- The data and stack frames the partition was given so far; no field of the source. -/
  paGiven : Nat
  deriving DecidableEq, Repr

/-- The memory state of the kernel. -/
structure Mem where
  /-- The memory ranges. -/
  mems : List MemRange
  /-- `pf_free_list`, one list a range. -/
  pfFreeList : List (List Ppn)
  /-- `pf_ref` of every frame. -/
  pfRef : Ppn → Nat
  /-- The entries of every frame, as far as it serves as a page table. -/
  ram : Ppn → Nat → Pte
  /-- The frame of `kern_pgdir`. -/
  kernPgdir : Ppn
  /-- `channel_base`. -/
  channelBase : Nat
  /-- The memory fields of the registered partitions. -/
  parts : PartId → PartMem
  /-- The identifiers in `part_id_map`, in the order of creation. -/
  partIds : List PartId
  /-- The next identifier `part_id_alloc` returns. -/
  nxtPartId : PartId

/-- A memory without frames. -/
def Mem.none : Mem :=
  { mems := [], pfFreeList := [], pfRef := fun _ => 0, ram := fun _ _ => Pte.zero, kernPgdir := 0,
    channelBase := 0,
    parts := fun _ =>
      { paPgdir := 0, paMemReq := 0, paMemRem := 0, paUstasktop := 0, paXstacktop := 0,
        paCommBase := 0, paEntrypoint := 0, paMainProcStacksize := 0, paGiven := 0 }
    partIds := [], nxtPartId := 1 }

/-! ## The frame allocator -/

/-- `pa2sel`: the first range that contains the address. -/
def pa2sel (mems : List MemRange) (addr : Nat) : Option Nat :=
  mems.findIdx? (fun m => decide (m.addr ≤ addr) && decide (addr < m.addr + m.size))

/-- `frame2sel`: the range whose frame array holds the frame. -/
def frame2sel (mems : List MemRange) (frame : Ppn) : Option Nat :=
  mems.findIdx? (fun m =>
    decide (m.addr / pgSize ≤ frame) && decide (frame < m.addr / pgSize + m.size / pgSize))

/-- `pa2frame`, for the address of a page: it fails outside the memory ranges. -/
def pa2frame (mems : List MemRange) (ppn : Ppn) : Option Ppn :=
  if (pa2sel mems (ppn * pgSize)).isSome then some ppn else none

/-- The free lists after the first frame of the first list that has one is taken. -/
def takeFrame : List (List Ppn) → Option (Ppn × List (List Ppn))
  | [] => none
  | [] :: ls => (takeFrame ls).map (fun (f, ls') => (f, [] :: ls'))
  | (f :: fs) :: ls => some (f, fs :: ls)

/-- `phy_frame_alloc`: the frame taken is cleared; its reference count stays as it is. -/
def phyFrameAlloc : Op Mem Ppn := fun m =>
  match takeFrame m.pfFreeList with
  | none => .err m
  | some (f, free) =>
      .ok f { m with pfFreeList := free, ram := Function.update m.ram f (fun _ => Pte.zero) }

/-- `phy_frame_free`. -/
def phyFrameFree (frame : Ppn) : Op Mem Unit := fun m =>
  match frame2sel m.mems frame with
  | none => .err m
  | some sel =>
      .ok () { m with pfFreeList := m.pfFreeList.modify sel (fun fs => fs ++ [frame]) }

/-- `phy_frame_ref_inc`. -/
def phyFrameRefInc (frame : Ppn) : Op Mem Unit :=
  Op.modify fun m => { m with pfRef := Function.update m.pfRef frame (m.pfRef frame + 1) }

/-- `phy_frame_ref_dec`: the last reference frees the frame. -/
def phyFrameRefDec (frame : Ppn) : Op Mem Unit := do
  let m ← Op.get
  if m.pfRef frame = 0 then
    Op.fail
  else do
    Op.modify fun m => { m with pfRef := Function.update m.pfRef frame (m.pfRef frame - 1) }
    if m.pfRef frame = 1 then phyFrameFree frame else pure ()

end Jrinx
