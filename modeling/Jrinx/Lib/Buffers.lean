import Mathlib.Data.List.Induction
import Mathlib.Data.List.Basic

/-! # Buffers that are written from the start

A buffer of `cap` entries without initial contents: what is known of it is the part that was written, which grows at
its end. A write beyond the buffer or beyond the written part, and a read of what was not written, fail.

* **`bufWrite`**, **`bufFill`**, **`bufReverse`**, **`bufRead`** — the accesses, and the loops that fill and reverse
  a part.
* **`bufFill_eq`**, **`bufReverse_eq`** — what the loops leave. -/

namespace Jrinx

variable {α : Type*}

/-- `buf[i] = c`. -/
def bufWrite (cap : Int) (buf : List α) (i : Nat) (c : α) : Option (List α) :=
  if (i : Int) < cap ∧ i ≤ buf.length then some (buf.take i ++ c :: buf.drop (i + 1)) else none

/-- `for (; i < i + n; i++) buf[i] = c`. -/
def bufFill (cap : Int) (c : α) : List α → Nat → Nat → Option (List α)
  | buf, _, 0 => some buf
  | buf, i, n + 1 => do
      let buf ← bufWrite cap buf i c
      bufFill cap c buf (i + 1) n

/-- `tmp = buf[b]; buf[b] = buf[e]; buf[e] = tmp`. -/
def bufSwap (buf : List α) (b e : Nat) : Option (List α) := do
  let x ← buf[b]?
  let y ← buf[e]?
  some ((buf.set b y).set e x)

/-- `while (e > b)`, swap and step inwards. -/
def bufReverse : List α → Nat → Nat → Option (List α)
  | buf, _, 0 => some buf
  | buf, b, e + 1 =>
      if b < e + 1 then do
        let buf ← bufSwap buf b (e + 1)
        bufReverse buf (b + 1) e
      else some buf

/-- The first `n` entries. -/
def bufRead (buf : List α) (n : Nat) : Option (List α) := if n ≤ buf.length then some (buf.take n) else none

variable {cap : Int} {buf pre post l : List α} {c x y : α} {i n : Nat}

theorem bufWrite_eq_none (h : cap ≤ i) : bufWrite cap buf i c = none := by
  rw [bufWrite, if_neg]
  omega

theorem bufWrite_end (h : (buf.length : Int) < cap) : bufWrite cap buf buf.length c = some (buf ++ [c]) := by
  rw [bufWrite, if_pos ⟨h, Nat.le_refl _⟩, List.take_length, List.drop_eq_nil_of_le (Nat.le_succ _)]

theorem bufWrite_last (h : (pre.length : Int) < cap) :
    bufWrite cap (pre ++ [x]) pre.length c = some (pre ++ [c]) := by
  rw [bufWrite, if_pos ⟨h, by simp⟩, List.take_left, List.drop_eq_nil_of_le (by simp)]

/-- A part that starts in what was written and goes beyond it is filled. -/
theorem bufFill_eq (hpre : pre.length = i) (hl : l.length ≤ n) (hcap : (i + n : Int) ≤ cap) :
    bufFill cap c (pre ++ l) i n = some (pre ++ List.replicate n c) := by
  induction n generalizing pre l i with
  | zero =>
      rw [List.eq_nil_of_length_eq_zero (Nat.le_zero.mp hl)]
      rfl
  | succ n ih =>
      have hwrite : bufWrite cap (pre ++ l) i c = some ((pre ++ [c]) ++ l.drop 1) := by
        subst hpre
        rw [bufWrite, if_pos ⟨by omega, by simp⟩, List.take_left, ← List.drop_drop, List.drop_left,
          List.append_assoc]
        rfl
      rw [bufFill, hwrite, Option.bind_eq_bind, Option.bind_some]
      rw [ih (by simp [hpre]) (by rw [List.length_drop]; omega) (by push_cast at hcap ⊢; omega)]
      rw [List.replicate_succ, List.append_assoc, List.singleton_append]

theorem length_of_bufWrite {buf' : List α} (h : bufWrite cap buf i c = some buf') :
    buf'.length = max buf.length (i + 1) := by
  rw [bufWrite] at h
  split at h
  · rename_i hi
    cases h
    rw [List.length_append, List.length_cons, List.length_take, List.length_drop]
    omega
  · cases h

theorem length_of_bufRead (h : bufRead buf n = some l) : l.length = n := by
  rw [bufRead] at h
  split at h
  · cases h
    rw [List.length_take]
    omega
  · cases h

/-- The ends of a part are swapped. -/
theorem bufSwap_eq (pre post l : List α) (x y : α) :
    bufSwap (pre ++ (x :: (l ++ [y])) ++ post) pre.length (pre.length + l.length + 1) =
      some (pre ++ (y :: (l ++ [x])) ++ post) := by
  have hx : (pre ++ (x :: (l ++ [y])) ++ post)[pre.length]? = some x := by simp
  have hy : (pre ++ (x :: (l ++ [y])) ++ post)[pre.length + l.length + 1]? = some y := by
    have hsplit : pre ++ (x :: (l ++ [y])) ++ post = (pre ++ x :: l) ++ y :: post := by simp
    have hlen : pre.length + l.length + 1 = (pre ++ x :: l).length := by simp [Nat.add_assoc]
    rw [hsplit, hlen]
    simp
  have hset : (pre ++ (x :: (l ++ [y])) ++ post).set pre.length y = (pre ++ y :: l) ++ y :: post := by
    simp
  have hset' : ((pre ++ y :: l) ++ y :: post).set (pre.length + l.length + 1) x = (pre ++ y :: l) ++ x :: post := by
    have hlen : pre.length + l.length + 1 = (pre ++ y :: l).length := by simp [Nat.add_assoc]
    rw [hlen]
    simp
  rw [bufSwap, hx, hy]
  show some (((pre ++ (x :: (l ++ [y])) ++ post).set pre.length y).set (pre.length + l.length + 1) x) = _
  rw [hset, hset']
  simp

/-- Nothing is left to swap. -/
theorem bufReverse_of_le {b e : Nat} (h : e ≤ b) : bufReverse buf b e = some buf := by
  cases e with
  | zero => rfl
  | succ e => exact if_neg (by omega)

/-- **A part is reversed.** -/
theorem bufReverse_eq (pre l post : List α) :
    bufReverse (pre ++ l ++ post) pre.length (pre.length + l.length - 1) = some (pre ++ l.reverse ++ post) := by
  induction l using List.bidirectionalRec generalizing pre post with
  | nil => exact bufReverse_of_le (Nat.sub_le _ _)
  | singleton a => exact bufReverse_of_le (Nat.le_refl _)
  | cons_append x l y ih =>
      have hend : pre.length + (x :: (l ++ [y])).length - 1 = pre.length + l.length + 1 := by simp [Nat.add_assoc]
      have hnext : (pre ++ [y]).length + l.length - 1 = pre.length + l.length := by
        rw [List.length_append, List.length_singleton]
        omega
      have hsplit : pre ++ (y :: (l ++ [x])) ++ post = (pre ++ [y]) ++ l ++ ([x] ++ post) := by simp
      rw [hend, bufReverse, if_pos (by omega), bufSwap_eq, Option.bind_eq_bind, Option.bind_some, hsplit]
      have hih := ih (pre ++ [y]) ([x] ++ post)
      rw [hnext, List.length_append, List.length_singleton] at hih
      rw [hih]
      simp

theorem bufReverse_all (l post : List α) : bufReverse (l ++ post) 0 (l.length - 1) = some (l.reverse ++ post) := by
  have h := bufReverse_eq [] l post
  rwa [List.length_nil, Nat.zero_add] at h

end Jrinx
