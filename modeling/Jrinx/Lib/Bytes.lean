import Mathlib.Data.List.Basic
import Mathlib.Data.Nat.ModEq
import Mathlib.Tactic.Ring

/-! # Byte memories and rings of slots

Two general tools for data that a program keeps in raw bytes:

* a **byte memory** `Nat → UInt8` with block reads and writes (`loadBytes`, `storeBytes`), the
  little-endian encoding of a machine word (`leBytes`, `fromLe`), and the two laws every proof about
  such memory needs: a read of what was written, and a read of what a write does not touch;
* the arithmetic of a **ring of slots**: `n` slots of `e` bytes each, addressed by byte offsets that
  advance modulo `n * e`. -/

namespace Jrinx

/-! ## Block reads and writes -/

/-- Read `n` bytes from address `a` on. -/
def loadBytes (mem : Nat → UInt8) (a n : Nat) : List UInt8 :=
  (List.range n).map (fun i => mem (a + i))

/-- Write the bytes `bs` from address `a` on. -/
def storeBytes (mem : Nat → UInt8) (a : Nat) (bs : List UInt8) : Nat → UInt8 :=
  fun x => if a ≤ x ∧ x < a + bs.length then bs.getD (x - a) 0 else mem x

@[simp] theorem length_loadBytes (mem : Nat → UInt8) (a n : Nat) :
    (loadBytes mem a n).length = n := by
  simp [loadBytes]

/-- A block read depends only on the bytes of the block. -/
theorem loadBytes_congr {mem mem' : Nat → UInt8} {a n : Nat}
    (h : ∀ x, a ≤ x → x < a + n → mem x = mem' x) : loadBytes mem a n = loadBytes mem' a n := by
  apply List.map_congr_left
  intro i hi
  rw [List.mem_range] at hi
  exact h (a + i) (Nat.le_add_right a i) (Nat.add_lt_add_left hi a)

/-- A block that was just written is read back. -/
theorem loadBytes_storeBytes_self (mem : Nat → UInt8) (a : Nat) (bs : List UInt8) :
    loadBytes (storeBytes mem a bs) a bs.length = bs := by
  apply List.ext_getElem (by simp)
  intro i hi hi'
  simp [loadBytes, storeBytes, hi']

/-- A write leaves every block alone that it does not overlap. -/
theorem loadBytes_storeBytes_disjoint (mem : Nat → UInt8) (a : Nat) (bs : List UInt8) (b n : Nat)
    (h : b + n ≤ a ∨ a + bs.length ≤ b) :
    loadBytes (storeBytes mem a bs) b n = loadBytes mem b n := by
  apply loadBytes_congr
  intro x hbx hxb
  have hout : ¬ (a ≤ x ∧ x < a + bs.length) := by omega
  rw [storeBytes, if_neg hout]

/-- Two writes of adjacent blocks are one. -/
theorem storeBytes_append (mem : Nat → UInt8) (a : Nat) (bs cs : List UInt8) :
    storeBytes (storeBytes mem a bs) (a + bs.length) cs = storeBytes mem a (bs ++ cs) := by
  funext x
  simp only [storeBytes, List.length_append]
  by_cases hfst : a ≤ x ∧ x < a + bs.length
  · rw [if_neg (by omega), if_pos hfst, if_pos (by omega), List.getD_eq_getElem?_getD, List.getD_eq_getElem?_getD,
      List.getElem?_append_left (by omega)]
  · rw [if_neg hfst]
    by_cases hsnd : a + bs.length ≤ x ∧ x < a + bs.length + cs.length
    · rw [if_pos hsnd, if_pos (by omega), List.getD_eq_getElem?_getD, List.getD_eq_getElem?_getD,
        List.getElem?_append_right (by omega), Nat.sub_sub]
    · rw [if_neg hsnd, if_neg (by omega)]

/-! ## Little-endian words -/

/-- The `n` low bytes of `v`, least significant first. -/
def leBytes : Nat → Nat → List UInt8
  | 0, _ => []
  | n + 1, v => UInt8.ofNat v :: leBytes n (v / 256)

/-- The number a little-endian block denotes. -/
def fromLe : List UInt8 → Nat
  | [] => 0
  | b :: bs => b.toNat + 256 * fromLe bs

@[simp] theorem length_leBytes (n v : Nat) : (leBytes n v).length = n := by
  induction n generalizing v with
  | zero => rfl
  | succ n ih => rw [leBytes, List.length_cons, ih]

/-- Decoding the encoding gives the value back, as far as it fits. -/
theorem fromLe_leBytes (n v : Nat) : fromLe (leBytes n v) = v % 256 ^ n := by
  induction n generalizing v with
  | zero => rw [leBytes, fromLe, pow_zero, Nat.mod_one]
  | succ n ih =>
      have hbyte : (UInt8.ofNat v).toNat = v % 256 := UInt8.toNat_ofNat'
      rw [leBytes, fromLe, ih, hbyte, Nat.pow_succ, Nat.mul_comm (256 ^ n) 256, Nat.mod_mul]

/-- A block of `n` bytes denotes a number below `256 ^ n`. -/
theorem fromLe_lt (bs : List UInt8) : fromLe bs < 256 ^ bs.length := by
  induction bs with
  | nil => exact Nat.one_pos
  | cons b bs ih =>
      have hb : b.toNat < 256 := b.toNat_lt
      rw [fromLe, List.length_cons, Nat.pow_succ]
      omega

/-- A block denotes zero when all its bytes are zero. -/
theorem fromLe_eq_zero {bs : List UInt8} : fromLe bs = 0 ↔ ∀ b ∈ bs, b = 0 := by
  induction bs with
  | nil => simp [fromLe]
  | cons b bs ih =>
      have hb : b.toNat = 0 ↔ b = 0 := UInt8.toNat_inj (b := 0)
      rw [fromLe, List.forall_mem_cons, ← ih, ← hb]
      omega

/-! ## Slots of a ring -/

section Slots

variable {n e : Nat}

/-- Advancing an offset by one slot modulo the ring. -/
theorem slot_advance (s : Nat) : (s * e + e) % (n * e) = ((s + 1) % n) * e := by
  rw [← Nat.succ_mul, Nat.mul_mod_mul_right]

/-- The byte ranges of two different slots do not overlap. -/
theorem slot_disjoint {s t : Nat} (h : s ≠ t) : s * e + e ≤ t * e ∨ t * e + e ≤ s * e := by
  rcases Nat.lt_or_gt_of_ne h with hst | hts
  · exact Or.inl (by rw [← Nat.succ_mul]; exact Nat.mul_le_mul_right e hst)
  · exact Or.inr (by rw [← Nat.succ_mul]; exact Nat.mul_le_mul_right e hts)

/-- Fewer than `n` successive slots of a ring of `n` are pairwise different. -/
theorem slot_injective {h i j : Nat} (hi : i < n) (hj : j < n)
    (heq : (h + i) % n = (h + j) % n) : i = j := by
  have hmod : i ≡ j [MOD n] := Nat.ModEq.add_left_cancel' h heq
  exact Nat.ModEq.eq_of_lt_of_lt hmod hi hj

/-- Counting on from the next slot is counting one further. -/
theorem slot_succ_add (h i : Nat) : ((h + 1) % n + i) % n = (h + (i + 1)) % n := by
  rw [Nat.mod_add_mod]
  congr 1
  ring

end Slots

end Jrinx
