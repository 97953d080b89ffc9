import Jrinx.Lib.Bytes

/-! # Blobs

A blob is a list of bytes that a program reads at offsets it computes. `At blob a bs` says that the bytes
`bs` lie at the offset `a`; what is written in parts is read in parts.

* **`blobBytes`**, **`blobStr`** — a block of bytes, and a string up to its terminator; `none` is a read past
  the end.
* **`At`**, **`at_append`** — what lies where.
* **`beBytes`**, **`swapWord`** — a word with its most significant byte first, as a machine of the other order
  sees it. -/

namespace Jrinx

/-- The `n` bytes at `a`. -/
def blobBytes (blob : List UInt8) (a n : Nat) : Option (List UInt8) :=
  if a + n ≤ blob.length then some ((blob.drop a).take n) else none

/-- The string at `a`, without its terminator. -/
def blobStr (blob : List UInt8) (a : Nat) : Option (List UInt8) :=
  let s := (blob.drop a).takeWhile (· ≠ 0)
  if a + s.length < blob.length then some s else none

/-- The bytes lie at the offset. -/
def At (blob : List UInt8) (a : Nat) (bs : List UInt8) : Prop := bs <+: blob.drop a

instance (blob : List UInt8) (a : Nat) (bs : List UInt8) : Decidable (At blob a bs) :=
  inferInstanceAs (Decidable (bs <+: blob.drop a))

variable {blob xs ys : List UInt8} {a : Nat}

theorem at_append : At blob a (xs ++ ys) ↔ At blob a xs ∧ At blob (a + xs.length) ys := by
  constructor
  · rintro ⟨rest, h⟩
    rw [List.append_assoc] at h
    refine ⟨⟨ys ++ rest, h⟩, ⟨rest, ?_⟩⟩
    rw [← List.drop_drop, ← h, List.drop_left]
  · rintro ⟨⟨rest, h⟩, hy⟩
    rw [At, ← List.drop_drop, ← h, List.drop_left] at hy
    obtain ⟨rest', rfl⟩ := hy
    exact ⟨rest', by rw [← h, List.append_assoc]⟩

/-- What lies in a blob ends in it. -/
theorem At.le_length (h : At blob a xs) (hne : xs ≠ []) : a + xs.length ≤ blob.length := by
  have hlen : xs.length ≤ blob.length - a := by simpa using h.length_le
  have hpos : 0 < xs.length := List.length_pos_iff.mpr hne
  omega

theorem At.bytes (h : At blob a xs) (hne : xs ≠ []) : blobBytes blob a xs.length = some xs := by
  rw [blobBytes, if_pos (h.le_length hne), ← List.prefix_iff_eq_take.mp h]

theorem takeWhile_ne_zero (h : (0 : UInt8) ∉ xs) (ys : List UInt8) :
    (xs ++ 0 :: ys).takeWhile (· ≠ 0) = xs := by
  rw [List.takeWhile_append_of_pos]
  · simp
  · intro c hc
    have hc0 : c ≠ 0 := fun h0 => h (h0 ▸ hc)
    simpa using hc0

theorem At.str (h : At blob a (xs ++ [0])) (h0 : (0 : UInt8) ∉ xs) : blobStr blob a = some xs := by
  have hle := h.le_length (by simp)
  obtain ⟨rest, hrest⟩ := h
  have hs : (blob.drop a).takeWhile (· ≠ 0) = xs := by
    rw [← hrest, List.append_assoc]
    exact takeWhile_ne_zero h0 rest
  have hlt : a + xs.length < blob.length := by
    rw [List.length_append, List.length_singleton] at hle
    omega
  rw [blobStr, hs, if_pos hlt]

/-! ## Words in the other order -/

/-- The four bytes of a word, most significant first. -/
def beBytes (v : Nat) : List UInt8 := (leBytes 4 v).reverse

/-- The word whose bytes are those of `x` in the other order. -/
def swapWord (x : Nat) : Nat :=
  x % 256 * 2 ^ 24 + x / 2 ^ 8 % 256 * 2 ^ 16 + x / 2 ^ 16 % 256 * 2 ^ 8 + x / 2 ^ 24 % 256

@[simp] theorem length_beBytes (v : Nat) : (beBytes v).length = 4 := by
  rw [beBytes, List.length_reverse, length_leBytes]

theorem beBytes_ne_nil (v : Nat) : beBytes v ≠ [] := by
  rw [← List.length_pos_iff, length_beBytes]
  omega

/-- The four digits of a word change places. -/
theorem swapWord_digits {b c d e : Nat} (hb : b < 256) (hc : c < 256) (hd : d < 256) (he : e < 256) :
    swapWord (b + 256 * (c + 256 * (d + 256 * e))) = e + 256 * (d + 256 * (c + 256 * b)) := by
  have h0 : (b + 256 * (c + 256 * (d + 256 * e))) % 256 = b := by omega
  have h1 : (b + 256 * (c + 256 * (d + 256 * e))) / 2 ^ 8 % 256 = c := by omega
  have h2 : (b + 256 * (c + 256 * (d + 256 * e))) / 2 ^ 16 % 256 = d := by omega
  have h3 : (b + 256 * (c + 256 * (d + 256 * e))) / 2 ^ 24 % 256 = e := by omega
  rw [swapWord, h0, h1, h2, h3]
  omega

theorem swapWord_fromLe_beBytes {v : Nat} (hv : v < 2 ^ 32) : swapWord (fromLe (beBytes v)) = v := by
  have hbytes : fromLe (beBytes v)
      = v / 256 / 256 / 256 % 256 + 256 * (v / 256 / 256 % 256 + 256 * (v / 256 % 256 + 256 * (v % 256))) := by
    simp [beBytes, leBytes, fromLe, UInt8.toNat_ofNat']
  have hlt (n : Nat) : n % 256 < 256 := Nat.mod_lt n (by omega)
  rw [hbytes, swapWord_digits (hlt _) (hlt _) (hlt _) (hlt _)]
  omega

end Jrinx
