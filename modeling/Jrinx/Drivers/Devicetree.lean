import Jrinx.Lib.Blobs
import Jrinx.Lib.Fallible
import Jrinx.Hashmap
import Jrinx.Mm.Kalloc

/-! # The device tree

`kern/drivers/devicetree.c`. The loader reads the blob that the firmware left in the memory and copies what it
finds to the kernel heap; the copies are kept as values, and of the heap only its blocks change. A loop gets a
number of rounds.

* **`dtNodeLoad`** — the recursion over the nodes, with **`dtPropLoop`** and **`dtChildLoop`**, the loops in it.
* **`dtLoad`**, **`dtNodePropExtract`** — what the rest of the kernel calls. -/

namespace Jrinx

/-! ## The blob -/

/-- `DTB_FDT_MAGIC`. -/
def dtbFdtMagic : Nat := 0xd00dfeed

/-- `DTB_SUPPORTED_VER`. -/
def dtbSupportedVer : Nat := 17

/-- `FDT_BEGIN_NODE`. -/
def fdtBeginNode : Nat := 1

/-- `FDT_END_NODE`. -/
def fdtEndNode : Nat := 2

/-- `FDT_PROP`. -/
def fdtProp : Nat := 3

/-- `FDT_NOP`. -/
def fdtNop : Nat := 4

/-- `FDT_END`. -/
def fdtEnd : Nat := 9

/-- The fields of a `struct fdt_header`. -/
inductive FdtField where
  | magic | totalsize | offDtStruct | offDtStrings | offMemRsvmap | version | lastCompVersion | bootCpuidPhys
  | sizeDtStrings | sizeDtStruct
  deriving DecidableEq, Repr

/-- The offset of a field in the header. -/
def FdtField.offset : FdtField → Nat
  | .magic => 0
  | .totalsize => 4
  | .offDtStruct => 8
  | .offDtStrings => 12
  | .offMemRsvmap => 16
  | .version => 20
  | .lastCompVersion => 24
  | .bootCpuidPhys => 28
  | .sizeDtStrings => 32
  | .sizeDtStruct => 36

/-- How the loader ends without `KER_SUCCESS`. -/
inductive DtFault where
  /-- It returns `-KER_DTB_ER`. -/
  | dtbEr
  /-- An assertion fails. -/
  | assertion
  /-- A `kalloc` returns no memory, and the loader writes there. -/
  | noMem
  /-- It reads behind the blob. -/
  | outside
  /-- A loop or the recursion uses up its rounds. -/
  | hang
  deriving DecidableEq, Repr

/-- The loader runs on the kernel heap. -/
abbrev DtM : Type → Type := StateT KHeap (Except DtFault)

/-- A read of the blob. -/
def dtRead {α : Type} (r : Option α) : DtM α :=
  match r with
  | none => throw .outside
  | some a => pure a

/-- `from_be` of a `uint32_t` in the blob. -/
def fdtWord (blob : List UInt8) (a : Nat) : DtM Nat :=
  dtRead ((blobBytes blob a 4).map fun bs => swapWord (fromLe bs))

/-- A `kalloc` whose result is written to. -/
def dtAlloc (rounds size : Nat) : DtM Unit := fun h =>
  match kalloc rounds h size with
  | none => .error .noMem
  | some (p, h) => if p = 0 then .error .noMem else .ok ((), h)

/-- `strlen`, which counts in an `int`. -/
def strlen (str : List UInt8) : Nat := (Int.bmod str.length (2 ^ 32) % 2 ^ 64).toNat

/-! ## The tree -/

/-- `struct dev_rsvmem`. -/
structure DevRsvmem where
  rAddr : Nat
  rSize : Nat
  deriving DecidableEq, Repr

/-- `struct dev_node_prop`. -/
structure DevNodeProp where
  prName : List UInt8
  prLen : Nat
  prValues : Option (List UInt8)
  deriving DecidableEq, Repr

/-- `struct dev_node`. -/
inductive DevNode where
  | mk (ndName : List UInt8) (ndPropMap : Hashmap DevNodeProp) (ndChildrenList : List DevNode)

/-- `struct dev_tree`. -/
structure DevTree where
  dtRsvmemList : List DevRsvmem
  dtNodeList : List DevNode

namespace DevNode

/-- The name of a node. -/
def ndName : DevNode → List UInt8
  | mk name _ _ => name

/-- The properties of a node. -/
def ndPropMap : DevNode → Hashmap DevNodeProp
  | mk _ map _ => map

/-- The children of a node. -/
def ndChildrenList : DevNode → List DevNode
  | mk _ _ children => children

end DevNode

/-- `hashmap_put` with the functions that `HASHMAP_ALLOC` stores in the map of a node. -/
def propPut : Hashmap DevNodeProp → DevNodeProp → Hashmap DevNodeProp :=
  hashmapPut DevNodeProp.prName hashCodeStr

/-- `dt_node_prop_extract`. -/
def dtNodePropExtract (node : DevNode) (propName : List UInt8) : Option DevNodeProp :=
  hashmapGet DevNodeProp.prName hashCodeStr node.ndPropMap propName

/-! ## The loader -/

section Loader

variable (rounds : Nat) (blob : List UInt8)

/-- `while ((struct_token = from_be(dtb_struct_table[pos])) == FDT_NOP) pos++`. -/
def skipNops (off : Nat) : Nat → Nat → DtM (Nat × Nat)
  | 0, _ => throw .hang
  | n + 1, pos => do
      let structToken ← fdtWord blob (off + pos * 4)
      if structToken = fdtNop then skipNops off n (pos + 1) else pure (pos, structToken)

/-- `pr_values` of a property whose values lie at `a`. -/
def dtPropValues (a propLen : Nat) : DtM (Option (List UInt8)) :=
  if propLen ≠ 0 then do
    dtAlloc rounds propLen
    let values ← dtRead (blobBytes blob a propLen)
    pure (some values)
  else pure none

/-- The loop of `dt_node_load` over the properties. -/
def dtPropLoop (off stringsOff : Nat) : Nat → Nat → Nat → Hashmap DevNodeProp →
    DtM (Nat × Nat × Hashmap DevNodeProp)
  | 0, _, _, _ => throw .hang
  | n + 1, pos, structToken, map =>
      if structToken = fdtProp then do
        let propLen ← fdtWord blob (off + (pos + 1) * 4)
        let propNameoff ← fdtWord blob (off + (pos + 2) * 4)
        let pos := pos + 3
        dtAlloc rounds 40
        let propName ← dtRead (blobStr blob (stringsOff + propNameoff))
        dtAlloc rounds ((strlen propName + 1) % wordSize)
        let values ← dtPropValues rounds blob (off + pos * 4) propLen
        let map := propPut map ⟨propName, propLen, values⟩
        let s ← skipNops blob off n (wordSub (pos * 4 + propLen) 1 / 4 + 1)
        dtPropLoop off stringsOff n s.1 s.2 map
      else pure (pos, structToken, map)

mutual

/-- `dt_node_load`: the node, and the position behind it. -/
def dtNodeLoad : Nat → Nat → DtM (DevNode × Nat)
  | 0, _ => throw .hang
  | n + 1, pos => do
      let off ← fdtWord blob FdtField.offDtStruct.offset
      let stringsOff ← fdtWord blob FdtField.offDtStrings.offset
      let size ← fdtWord blob FdtField.sizeDtStruct.offset
      if ¬ pos * 4 < size then throw .assertion
      else do
        let s ← skipNops blob off n pos
        if s.2 ≠ fdtBeginNode then throw .dtbEr
        else do
          let pos := s.1 + 1
          dtAlloc rounds 88
          let nodeName ← dtRead (blobStr blob (off + pos * 4))
          let nodeNameLen := strlen nodeName
          dtAlloc rounds ((nodeNameLen + 1) % wordSize)
          dtAlloc rounds (8 * 32)
          let s ← skipNops blob off n ((pos * 4 + nodeNameLen) % wordSize / 4 + 1)
          let p ← dtPropLoop rounds blob off stringsOff n s.1 s.2 (hashmapInit DevNodeProp 32)
          let c ← dtChildLoop off n p.1 p.2.1 []
          pure (⟨nodeName, p.2.2, c.1⟩, c.2 + 1)

/-- The loop of `dt_node_load` over the children. -/
def dtChildLoop (off : Nat) : Nat → Nat → Nat → List DevNode → DtM (List DevNode × Nat)
  | 0, _, _, _ => throw .hang
  | n + 1, pos, structToken, children => do
      if structToken = fdtBeginNode then do
        let r ← dtNodeLoad n pos
        let structToken ← fdtWord blob (off + r.2 * 4)
        if structToken = fdtEndNode then pure (children ++ [r.1], r.2)
        else dtChildLoop off n r.2 structToken (children ++ [r.1])
      else if structToken = fdtNop then do
        let pos := pos + 1
        let structToken ← fdtWord blob (off + pos * 4)
        if structToken = fdtEndNode then pure (children, pos)
        else dtChildLoop off n pos structToken children
      else pure (children, pos)

end

/-- The loop of `dt_load` over the reserved memory. -/
def dtRsvLoop : Nat → Nat → List DevRsvmem → DtM (List DevRsvmem)
  | 0, _, _ => throw .hang
  | n + 1, pos, rsvmems => do
      let eAddr ← dtRead ((blobBytes blob pos 8).map fromLe)
      let eSize ← dtRead ((blobBytes blob (pos + 8) 8).map fromLe)
      if eAddr = 0 ∧ eSize = 0 then pure rsvmems
      else do
        dtAlloc rounds 32
        dtRsvLoop n (pos + 16) (rsvmems ++ [⟨eAddr, eSize⟩])

/-- `dt_load`. No loop and no branch of the recursion takes more rounds than the blob has bytes. -/
def dtLoad : DtM DevTree := do
  let magic ← fdtWord blob FdtField.magic.offset
  if magic ≠ dtbFdtMagic then throw .dtbEr
  else do
    let version ← fdtWord blob FdtField.version.offset
    if version ≠ dtbSupportedVer then throw .dtbEr
    else do
      let memrsvOff ← fdtWord blob FdtField.offMemRsvmap.offset
      let rsvmems ← dtRsvLoop rounds blob blob.length memrsvOff []
      let root ← dtNodeLoad rounds blob blob.length 0
      pure ⟨rsvmems, [root.1]⟩

end Loader

end Jrinx
