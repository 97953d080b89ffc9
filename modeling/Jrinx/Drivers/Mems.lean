import Jrinx.Drivers.Devicetree
import Jrinx.Lib.Regions
import Jrinx.Mm.Frames

/-! # The memory ranges

`kern/drivers/mems.c`. The ranges are the cells of a property of the device tree; nothing of them is checked.

* **`memProbe`** — the ranges of a property, which `mem_get_addr` and `mem_get_size` report.
* **`Probed`** — what is known of them.
* **`Probed.sum_size_le`** — how much memory ranges that do not overlap can describe. -/

namespace Jrinx

/-- A `uint64_t` of the device tree, most significant byte first. -/
def regCell (values : List UInt8) (i : Nat) : Nat := fromLe ((values.drop (8 * i)).take 8).reverse

/-- `mem_probe`, for the property `reg` of the node. The two tables are kept as one. -/
def memProbe (reg : Option DevNodeProp) : Option (List MemRange) :=
  match reg with
  | none => none
  | some prop =>
      if prop.prLen % 16 ≠ 0 then none
      else
        let values := prop.prValues.getD []
        some ((List.range (prop.prLen / 16)).map fun i => ⟨regCell values (i * 2), regCell values (i * 2 + 1)⟩)

/-- The addresses of a range, as far as it goes. -/
def MemRange.region (m : MemRange) : Region := ⟨m.addr, m.size⟩

/-- Ranges that the probe reports: their number is what a length of 32 bits allows, and their addresses and
sizes are words. -/
structure Probed (mems : List MemRange) : Prop where
  num : mems.length < 2 ^ 28
  addr : ∀ m ∈ mems, m.addr < wordSize
  size : ∀ m ∈ mems, m.size < wordSize

theorem regCell_lt (values : List UInt8) (i : Nat) : regCell values i < wordSize := by
  have hlt := fromLe_lt ((values.drop (8 * i)).take 8).reverse
  have hlen : ((values.drop (8 * i)).take 8).reverse.length ≤ 8 := by
    rw [List.length_reverse, List.length_take]
    exact Nat.min_le_left _ _
  have hpow : 256 ^ ((values.drop (8 * i)).take 8).reverse.length ≤ 256 ^ 8 := Nat.pow_le_pow_right (by omega) hlen
  rw [wordSize_eq, regCell]
  omega

theorem probed_memProbe {reg : Option DevNodeProp} {mems : List MemRange} (hprobe : memProbe reg = some mems)
    (hlen : ∀ prop ∈ reg, prop.prLen < 2 ^ 32) : Probed mems := by
  cases reg with
  | none => cases hprobe
  | some prop =>
      simp only [memProbe] at hprobe
      split at hprobe
      · cases hprobe
      · obtain rfl := (Option.some.injEq _ _).mp hprobe
        have hword := hlen prop rfl
        refine ⟨?_, fun m hm => ?_, fun m hm => ?_⟩
        · rw [List.length_map, List.length_range]
          omega
        · obtain ⟨i, -, rfl⟩ := List.mem_map.mp hm
          exact regCell_lt _ _
        · obtain ⟨i, -, rfl⟩ := List.mem_map.mp hm
          exact regCell_lt _ _

/-- Ranges that do not overlap. -/
def Apart (mems : List MemRange) : Prop := mems.Pairwise fun m n => Disjoint m.region.bytes n.region.bytes

/-- Ranges that do not overlap have no more bytes than there are addresses up to their ends. -/
theorem Probed.sum_size_le {mems : List MemRange} (h : Probed mems) (hapart : Apart mems) :
    (mems.map (·.size)).sum ≤ 2 ^ 65 := by
  have hsep : Separate (mems.map (·.region)) 0 (2 ^ 65) := by
    refine ⟨List.pairwise_map.mpr hapart, fun r hr a ha => ?_⟩
    obtain ⟨m, hm, rfl⟩ := List.mem_map.mp hr
    have haddr := h.addr m hm
    have hsize := h.size m hm
    have hlt : a < m.addr + m.size := (Region.mem_bytes.mp ha).2
    rw [wordSize_eq] at haddr hsize
    exact ⟨Nat.zero_le a, by omega⟩
  have hsum := hsep.sum_size_le
  rwa [List.map_map] at hsum

end Jrinx
