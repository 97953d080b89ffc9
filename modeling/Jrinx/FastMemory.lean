import Jrinx.Lib.Loops
import Mathlib.Data.BitVec

/-! # Copying and filling memory

`memcpy` and `memset` of `lib/string.c`, in the arithmetic of addresses: `dst + n` and `dst + 4` are taken modulo
`2 ^ 64`. Bytes are copied up to an address that is a multiple of four, then words as long as `dst + 4 <= max`, then
bytes. At the top of the address space `dst + 4` is small again.

* **`byteWordByte`** — the three loops, which both functions share.
* **`byteWordByte_eq`**, **`byteWordByte_eq_none`**, **`byteWordByte_idle`** — what they do, by where the range ends.
* **`memcpy`**, **`memset`**, **`fast_memory_iff`** — when that is what the loop over the bytes does. -/

namespace Jrinx

/-! ## The loops -/

/-- The memory of a hart. -/
abbrev AddrMem := BitVec 64 → BitVec 8

section Loops

variable {σ : Type} (dst : σ → BitVec 64) (byte word : σ → σ) (max : BitVec 64)

/-- The loop over bytes up to a multiple of four, that over words, and that over the bytes that are left, each for
less than `k` rounds. -/
def byteWordByte (k : Nat) (s : σ) : Option σ := do
  let s ← whileLoop (fun s => (dst s).toNat % 4 != 0 && decide (dst s < max)) byte k s
  let s ← whileLoop (fun s => decide (dst s + 4 ≤ max)) word k s
  whileLoop (fun s => decide (dst s < max)) byte k s

/-- **When the three loops do what the one over the bytes does**: the range ends before the last four addresses, or
it starts at one of them and goes on at the other end for at least a word in all. -/
def FastFits (d n : BitVec 64) : Prop :=
  d.toNat + n.toNat < 2 ^ 64 - 4 ∨ 2 ^ 64 - 4 ≤ d.toNat ∧ 2 ^ 64 ≤ d.toNat + n.toNat ∧ 4 ≤ n.toNat

/-- Where a state is after some bytes. -/
theorem dst_iterate_byte (hbyte : ∀ s, dst (byte s) = dst s + 1) (s : σ) (i : Nat) :
    dst (byte^[i] s) = dst s + BitVec.ofNat 64 i := by
  induction i generalizing s with
  | zero => simp
  | succ i ih =>
      rw [Function.iterate_succ_apply, ih, hbyte, BitVec.add_assoc]
      congr 1
      rw [Nat.add_comm, BitVec.ofNat_add]
      rfl

/-- A word is four bytes. -/
theorem iterate_word (s : σ) (hword : ∀ i, word (byte^[i] s) = byte^[4] (byte^[i] s)) (j i : Nat) :
    word^[j] (byte^[i] s) = byte^[i + 4 * j] s := by
  induction j generalizing i with
  | zero => rfl
  | succ j ih =>
      have hnext : word (byte^[i] s) = byte^[i + 4] s := by
        rw [hword, ← Function.iterate_add_apply, Nat.add_comm]
      rw [Function.iterate_succ_apply, hnext, ih]
      congr 1
      omega

/-- The address after some bytes. -/
theorem toNat_dst_iterate (hbyte : ∀ s, dst (byte s) = dst s + 1) (s : σ) (i : Nat) :
    (dst (byte^[i] s)).toNat = ((dst s).toNat + i) % 2 ^ 64 := by
  rw [dst_iterate_byte dst byte hbyte, BitVec.toNat_add, BitVec.toNat_ofNat, Nat.add_mod_mod]

/-- **The three loops**, where their conditions hold for `p` bytes, `w` words and `e` bytes. -/
theorem byteWordByte_pieces {s : σ} {p w e k : Nat} (hbyte : ∀ s, dst (byte s) = dst s + 1)
    (hword : ∀ i, word (byte^[i] s) = byte^[4] (byte^[i] s))
    (hp : ∀ i < p, ((dst s).toNat + i) % 2 ^ 64 % 4 ≠ 0 ∧ ((dst s).toNat + i) % 2 ^ 64 < max.toNat)
    (hp' : ((dst s).toNat + p) % 2 ^ 64 % 4 = 0 ∨ max.toNat ≤ ((dst s).toNat + p) % 2 ^ 64)
    (hw : ∀ j < w, ((dst s).toNat + (p + 4 * j) + 4) % 2 ^ 64 ≤ max.toNat)
    (hw' : max.toNat < ((dst s).toNat + (p + 4 * w) + 4) % 2 ^ 64)
    (he : ∀ i < e, ((dst s).toNat + (p + 4 * w + i)) % 2 ^ 64 < max.toNat)
    (he' : max.toNat ≤ ((dst s).toNat + (p + 4 * w + e)) % 2 ^ 64) (hk : p < k ∧ w < k ∧ e < k) :
    byteWordByte dst byte word max k s = some (byte^[p + 4 * w + e] s) := by
  have hat := toNat_dst_iterate dst byte hbyte s
  -- the bytes up to the first word boundary
  have hfst : whileLoop (fun s => (dst s).toNat % 4 != 0 && decide (dst s < max)) byte k s = some (byte^[p] s) := by
    refine whileLoop_eq (fun i hi => ?_) ?_ hk.1
    · have := hp i hi
      simp only [BitVec.lt_def, hat]
      simpa using this
    · rcases hp' with h | h
      · simp only [hat, h]
        rfl
      · simp only [BitVec.lt_def, hat, decide_eq_false (Nat.not_lt.mpr h), Bool.and_false]
  have hfour : ∀ j, (dst (word^[j] (byte^[p] s)) + 4).toNat = ((dst s).toNat + (p + 4 * j) + 4) % 2 ^ 64 := by
    intro j
    rw [iterate_word byte word s hword, BitVec.toNat_add, hat]
    exact Nat.mod_add_mod _ _ _
  -- the words, as long as one fits
  have hsnd : whileLoop (fun s => decide (dst s + 4 ≤ max)) word k (byte^[p] s) = some (byte^[p + 4 * w] s) := by
    rw [← iterate_word byte word s hword]
    refine whileLoop_eq (fun j hj => ?_) ?_ hk.2.1
    · rw [decide_eq_true_eq, BitVec.le_def, hfour]
      exact hw j hj
    · rw [decide_eq_false_iff_not, BitVec.le_def, hfour]
      exact Nat.not_le.mpr hw'
  have hrest : ∀ i, byte^[i] (byte^[p + 4 * w] s) = byte^[p + 4 * w + i] s := by
    intro i
    rw [← Function.iterate_add_apply, Nat.add_comm]
  -- the bytes that are left
  have hthd : whileLoop (fun s => decide (dst s < max)) byte k (byte^[p + 4 * w] s) =
      some (byte^[p + 4 * w + e] s) := by
    rw [← hrest]
    refine whileLoop_eq (fun i hi => ?_) ?_ hk.2.2
    · rw [decide_eq_true_eq, BitVec.lt_def, hrest, hat]
      exact he i hi
    · rw [decide_eq_false_iff_not, BitVec.lt_def, hrest, hat]
      exact Nat.not_lt.mpr he'
  rw [byteWordByte, hfst, Option.bind_eq_bind, Option.bind_some, hsnd, Option.bind_some, hthd]

/-- **A range that fits is done byte by byte.** -/
theorem byteWordByte_eq {s : σ} {n : BitVec 64} (hbyte : ∀ s, dst (byte s) = dst s + 1)
    (hword : ∀ i, word (byte^[i] s) = byte^[4] (byte^[i] s)) (hfit : FastFits (dst s) n) :
    byteWordByte dst byte word (dst s + n) (n.toNat + 1) s = some (byte^[n.toNat] s) := by
  have hD := (dst s).isLt
  have hN := n.isLt
  have hmax : (dst s + n).toNat = ((dst s).toNat + n.toNat) % 2 ^ 64 := BitVec.toNat_add _ _
  generalize hd : (dst s).toNat = D at *
  generalize hn : n.toNat = N at *
  rcases hfit with hfit | ⟨htop, hwrap, hfour⟩
  · rw [hd, hn] at hfit
    -- the bytes up to a multiple of four, unless there are less
    obtain ⟨p, hp⟩ : ∃ p, p = min N ((4 - D % 4) % 4) := ⟨_, rfl⟩
    have hsum : p + 4 * ((N - p) / 4) + (N - p) % 4 = N := by omega
    have h := byteWordByte_pieces dst byte word (dst s + n) (s := s)
      (p := p) (w := (N - p) / 4) (e := (N - p) % 4) (k := N + 1) hbyte hword
      (by intro i hi; omega) (by omega) (by intro j hj; omega) (by omega) (by intro i hi; omega) (by omega) (by omega)
    rwa [hsum] at h
  · rw [hd] at htop hwrap
    rw [hn] at hwrap hfour
    -- the first word reaches round the end of the address space
    have hsum : 0 + 4 * (N / 4) + N % 4 = N := by omega
    have h := byteWordByte_pieces dst byte word (dst s + n) (s := s)
      (p := 0) (w := N / 4) (e := N % 4) (k := N + 1) hbyte hword
      (by intro i hi; omega) (by omega) (by intro j hj; omega) (by omega) (by intro i hi; omega) (by omega) (by omega)
    rwa [hsum] at h

/-- Of the addresses with one remainder by four, there is none above one of the last four. -/
theorem le_of_mod_four {M x r : Nat} (hM : 2 ^ 64 - 4 ≤ M) (hx : x < 2 ^ 64) (hr : x % 4 = r)
    (hcase : r = 0 ∨ r = M % 4) : x ≤ M := by
  omega

/-- **A range that ends at one of the last four addresses is never done**: the loop over words goes round. -/
theorem byteWordByte_eq_none {s : σ} {n : BitVec 64} (hbyte : ∀ s, dst (byte s) = dst s + 1)
    (hword : ∀ s, dst (word s) = dst s + 4) (hlo : 2 ^ 64 - 4 ≤ (dst s).toNat + n.toNat)
    (hhi : (dst s).toNat + n.toNat < 2 ^ 64) (k : Nat) : byteWordByte dst byte word (dst s + n) k s = none := by
  have hmax : (dst s + n).toNat = (dst s).toNat + n.toNat := by
    rw [BitVec.toNat_add]
    exact Nat.mod_eq_of_lt hhi
  -- the words go over all addresses with the remainder of the first one
  have hwords : ∀ t, (dst t).toNat % 4 = 0 ∨ (dst t).toNat % 4 = (dst s + n).toNat % 4 →
      whileLoop (fun s' => decide (dst s' + 4 ≤ dst s + n)) word k t = none := by
    intro t ht
    refine whileLoop_eq_none (I := fun t => (dst t).toNat % 4 = 0 ∨ (dst t).toNat % 4 = (dst s + n).toNat % 4)
      (fun t ht => ?_) ht k
    have hnext : (dst t + 4).toNat = ((dst t).toNat + 4) % 2 ^ 64 := BitVec.toNat_add _ _
    constructor
    · rw [decide_eq_true_eq, BitVec.le_def]
      refine le_of_mod_four (by omega) (dst t + 4).isLt rfl ?_
      rw [hnext]
      omega
    · rw [hword, hnext]
      omega
  rw [byteWordByte]
  cases hfst : whileLoop (fun s' => (dst s').toNat % 4 != 0 && decide (dst s' < dst s + n)) byte k s with
  | none => rfl
  | some t =>
      -- after the bytes, the address is a multiple of four or the end
      obtain ⟨hle, hexit⟩ := whileLoop_spec (I := fun t => (dst t).toNat ≤ (dst s + n).toNat)
        (fun t ht hc => by
          have hlt := of_decide_eq_true (Bool.and_eq_true_iff.mp hc).2
          rw [BitVec.lt_def] at hlt
          rw [hbyte, BitVec.toNat_add]
          exact (Nat.mod_le _ _).trans hlt)
        (by omega) hfst
      have hend : (dst t).toNat % 4 = 0 ∨ (dst t).toNat % 4 = (dst s + n).toNat % 4 := by
        rcases Bool.and_eq_false_iff.mp hexit with h | h
        · left
          simpa using h
        · right
          have hge := of_decide_eq_false h
          rw [BitVec.lt_def] at hge
          have heq : (dst t).toNat = (dst s + n).toNat := by omega
          rw [heq]
      rw [Option.bind_eq_bind, Option.bind_some, hwords t hend]
      rfl

/-- **A range that goes beyond the end of the address space is left as it is**, unless its first word does. -/
theorem byteWordByte_idle {s t : σ} {n : BitVec 64} {k : Nat} (hbyte : ∀ s, dst (byte s) = dst s + 1)
    (hword : ∀ i, word (byte^[i] s) = byte^[4] (byte^[i] s)) (hwrap : 2 ^ 64 ≤ (dst s).toNat + n.toNat)
    (hnot : (dst s).toNat < 2 ^ 64 - 4 ∨ n.toNat < 4) (h : byteWordByte dst byte word (dst s + n) k s = some t) :
    t = s := by
  have hD := (dst s).isLt
  have hN := n.isLt
  have hmax : (dst s + n).toNat = ((dst s).toNat + n.toNat) % 2 ^ 64 := BitVec.toNat_add _ _
  cases k with
  | zero => cases h
  | succ k =>
      have hpieces := byteWordByte_pieces dst byte word (dst s + n) (s := s)
        (p := 0) (w := 0) (e := 0) (k := k + 1) hbyte hword (by intro i hi; omega) (by omega) (by intro j hj; omega)
        (by omega) (by intro i hi; omega) (by omega) (by omega)
      exact Option.some.inj (h.symm.trans hpieces)

end Loops

/-! ## Copying -/

/-- The memory, and the pointers of the loops. -/
structure CopyState where
  mem : AddrMem
  dst : BitVec 64
  src : BitVec 64

/-- `*(uint32_t *)a`. -/
def loadWord (mem : AddrMem) (a : BitVec 64) : BitVec 32 := mem (a + 3) ++ mem (a + 2) ++ mem (a + 1) ++ mem a

/-- `*(uint32_t *)a = w`. -/
def storeWord (mem : AddrMem) (a : BitVec 64) (w : BitVec 32) : AddrMem :=
  let mem := Function.update mem a (w.extractLsb' 0 8)
  let mem := Function.update mem (a + 1) (w.extractLsb' 8 8)
  let mem := Function.update mem (a + 2) (w.extractLsb' 16 8)
  Function.update mem (a + 3) (w.extractLsb' 24 8)

/-- `*(uint8_t *)dst++ = *(uint8_t *)src++`. -/
def copyByte (s : CopyState) : CopyState := ⟨Function.update s.mem s.dst (s.mem s.src), s.dst + 1, s.src + 1⟩

/-- `*(uint32_t *)dst = *(uint32_t *)src`, and both pointers behind the word. -/
def copyWord (s : CopyState) : CopyState := ⟨storeWord s.mem s.dst (loadWord s.mem s.src), s.dst + 4, s.src + 4⟩

/-- `memcpy`: the memory and the value; each loop takes less than `k` rounds. -/
def memcpy (k : Nat) (mem : AddrMem) (dst src n : BitVec 64) : Option (AddrMem × BitVec 64) :=
  let max := dst + n
  (if src.toNat % 4 ≠ dst.toNat % 4 then whileLoop (fun s => decide (s.dst < max)) copyByte k ⟨mem, dst, src⟩
    else byteWordByte CopyState.dst copyByte copyWord max k ⟨mem, dst, src⟩).map fun s => (s.mem, dst)

/-- The memory after `n` bytes were copied one by one. -/
def copyBytes (mem : AddrMem) (dst src : BitVec 64) (n : Nat) : AddrMem := (copyByte^[n] ⟨mem, dst, src⟩).mem

theorem extractLsb'_word (b₀ b₁ b₂ b₃ : BitVec 8) :
    (b₃ ++ b₂ ++ b₁ ++ b₀ : BitVec 32).extractLsb' 0 8 = b₀ ∧ (b₃ ++ b₂ ++ b₁ ++ b₀ : BitVec 32).extractLsb' 8 8 = b₁ ∧
      (b₃ ++ b₂ ++ b₁ ++ b₀ : BitVec 32).extractLsb' 16 8 = b₂ ∧
      (b₃ ++ b₂ ++ b₁ ++ b₀ : BitVec 32).extractLsb' 24 8 = b₃ := by
  refine ⟨?_, ?_, ?_, ?_⟩ <;> apply BitVec.eq_of_getLsbD_eq <;> intro i hi <;>
    simp [BitVec.getLsbD_extractLsb'] <;> grind

/-- Addresses with the same remainder by four are not less than four apart. -/
theorem add_ne_of_mod_four {a b : BitVec 64} {i j : Nat} (h : a.toNat % 4 = b.toNat % 4) (hij : i < 4 ∧ j < 4)
    (hne : i ≠ j) : a + BitVec.ofNat 64 i ≠ b + BitVec.ofNat 64 j := by
  intro heq
  have hnat := congrArg BitVec.toNat heq
  rw [BitVec.toNat_add, BitVec.toNat_add, BitVec.toNat_ofNat, BitVec.toNat_ofNat] at hnat
  omega

/-- **A word is copied as four bytes are**, where the pointers have the same remainder by four. -/
theorem copyWord_eq {s : CopyState} (h : s.src.toNat % 4 = s.dst.toNat % 4) : copyWord s = copyByte^[4] s := by
  obtain ⟨mem, dst, src⟩ := s
  obtain ⟨h₀, h₁, h₂, h₃⟩ := extractLsb'_word (mem src) (mem (src + 1)) (mem (src + 2)) (mem (src + 3))
  have hd : dst + 1 + 1 = dst + 2 ∧ dst + 2 + 1 = dst + 3 ∧ dst + 3 + 1 = dst + 4 := by
    refine ⟨?_, ?_, ?_⟩ <;> rw [BitVec.add_assoc] <;> rfl
  have hs : src + 1 + 1 = src + 2 ∧ src + 2 + 1 = src + 3 ∧ src + 3 + 1 = src + 4 := by
    refine ⟨?_, ?_, ?_⟩ <;> rw [BitVec.add_assoc] <;> rfl
  -- what is read was not written before
  have hzero : dst + BitVec.ofNat 64 0 = dst := BitVec.add_zero dst
  have h10 : src + 1 ≠ dst := hzero ▸ add_ne_of_mod_four (i := 1) (j := 0) h (by decide) (by decide)
  have h20 : src + 2 ≠ dst := hzero ▸ add_ne_of_mod_four (i := 2) (j := 0) h (by decide) (by decide)
  have h30 : src + 3 ≠ dst := hzero ▸ add_ne_of_mod_four (i := 3) (j := 0) h (by decide) (by decide)
  have h21 : src + 2 ≠ dst + 1 := add_ne_of_mod_four (i := 2) (j := 1) h (by decide) (by decide)
  have h31 : src + 3 ≠ dst + 1 := add_ne_of_mod_four (i := 3) (j := 1) h (by decide) (by decide)
  have h32 : src + 3 ≠ dst + 2 := add_ne_of_mod_four (i := 3) (j := 2) h (by decide) (by decide)
  have hiter : copyByte^[4] ⟨mem, dst, src⟩ = copyByte (copyByte (copyByte (copyByte ⟨mem, dst, src⟩))) := rfl
  rw [hiter]
  simp only [copyWord, copyByte, storeWord, loadWord, h₀, h₁, h₂, h₃, hd, hs, Function.update_of_ne h10,
    Function.update_of_ne h20, Function.update_of_ne h21, Function.update_of_ne h30, Function.update_of_ne h31,
    Function.update_of_ne h32]

theorem copyByte_of_ne {s : CopyState} {a : BitVec 64} (ha : a ≠ s.dst) : (copyByte s).mem a = s.mem a :=
  Function.update_of_ne ha _ _

theorem copyState_iterate (s : CopyState) (i : Nat) :
    (copyByte^[i] s).dst = s.dst + BitVec.ofNat 64 i ∧ (copyByte^[i] s).src = s.src + BitVec.ofNat 64 i :=
  ⟨dst_iterate_byte CopyState.dst copyByte (fun _ => rfl) s i,
    dst_iterate_byte CopyState.src copyByte (fun _ => rfl) s i⟩

/-- The words of a copy are copied as bytes are. -/
theorem copyWord_iterate {s : CopyState} (h : s.src.toNat % 4 = s.dst.toNat % 4) (i : Nat) :
    copyWord (copyByte^[i] s) = copyByte^[4] (copyByte^[i] s) := by
  obtain ⟨hdst, hsrc⟩ := copyState_iterate s i
  apply copyWord_eq
  rw [hdst, hsrc, BitVec.toNat_add, BitVec.toNat_add]
  omega

/-- The first byte of a copy is not written again. -/
theorem copyBytes_dst (mem : AddrMem) (dst src : BitVec 64) {n : Nat} (hn : n ≠ 0) (hlt : n < 2 ^ 64) :
    copyBytes mem dst src n dst = mem src := by
  obtain ⟨n, rfl⟩ := Nat.exists_eq_succ_of_ne_zero hn
  -- the later addresses are other ones
  have hkeep : ∀ k ≤ n, (copyByte^[k] (copyByte ⟨mem, dst, src⟩)).mem dst = mem src := by
    intro k
    induction k with
    | zero => exact fun _ => Function.update_self dst _ _
    | succ k ih =>
        intro hk
        have hdst := (copyState_iterate (copyByte ⟨mem, dst, src⟩) k).1
        rw [Function.iterate_succ_apply', copyByte_of_ne, ih (Nat.le_of_succ_le hk)]
        rw [hdst]
        show dst ≠ dst + 1 + BitVec.ofNat 64 k
        intro heq
        have hnat := congrArg BitVec.toNat heq
        rw [BitVec.toNat_add, BitVec.toNat_add, BitVec.toNat_ofNat] at hnat
        have hone : (1 : BitVec 64).toNat = 1 := rfl
        omega
  exact hkeep n (Nat.le_refl n)

/-- The loop over bytes does all of them iff the end of the range is an address. -/
theorem byteLoop_eq {s : CopyState} {n : BitVec 64} (hend : s.dst.toNat + n.toNat < 2 ^ 64) :
    whileLoop (fun t => decide (t.dst < s.dst + n)) copyByte (n.toNat + 1) s = some (copyByte^[n.toNat] s) := by
  have hmax : (s.dst + n).toNat = s.dst.toNat + n.toNat := by
    rw [BitVec.toNat_add]
    exact Nat.mod_eq_of_lt hend
  have hat := toNat_dst_iterate CopyState.dst copyByte (fun _ => rfl) s
  refine whileLoop_eq (fun i hi => ?_) ?_ (Nat.lt_succ_self _)
  · rw [decide_eq_true_eq, BitVec.lt_def, hat]
    omega
  · rw [decide_eq_false_iff_not, BitVec.lt_def, hat]
    omega

/-- Otherwise it does none. -/
theorem byteLoop_idle {s t : CopyState} {n : BitVec 64} {k : Nat} (hend : 2 ^ 64 ≤ s.dst.toNat + n.toNat)
    (h : whileLoop (fun t => decide (t.dst < s.dst + n)) copyByte k s = some t) : t = s := by
  have hD := s.dst.isLt
  have hN := n.isLt
  have hmax : (s.dst + n).toNat = (s.dst.toNat + n.toNat) % 2 ^ 64 := BitVec.toNat_add _ _
  cases k with
  | zero => cases h
  | succ k =>
      rw [whileLoop_exit (by rw [decide_eq_false_iff_not, BitVec.lt_def]; omega) (Nat.succ_ne_zero k)] at h
      exact (Option.some.inj h).symm

/-- When `memcpy` copies: with pointers of different remainders by four, any range whose end is an address. -/
def CopyFits (dst src n : BitVec 64) : Prop :=
  if src.toNat % 4 ≠ dst.toNat % 4 then dst.toNat + n.toNat < 2 ^ 64 else FastFits dst n

/-- **`memcpy` copies a range that fits**, also onto itself. -/
theorem memcpy_eq {dst src n : BitVec 64} (hfit : CopyFits dst src n) (mem : AddrMem) :
    memcpy (n.toNat + 1) mem dst src n = some (copyBytes mem dst src n.toNat, dst) := by
  rw [CopyFits] at hfit
  rw [memcpy]
  split at hfit
  · rename_i hmod
    have hloop := byteLoop_eq (s := ⟨mem, dst, src⟩) hfit
    simp only [if_pos hmod, hloop, Option.map_some]
    rfl
  · rename_i hmod
    have hmod' : src.toNat % 4 = dst.toNat % 4 := not_not.mp hmod
    have hloop := byteWordByte_eq CopyState.dst copyByte copyWord (s := ⟨mem, dst, src⟩) (fun _ => rfl)
      (copyWord_iterate hmod') hfit
    simp only [if_neg hmod, hloop, Option.map_some]
    rfl

/-- **A range that does not fit**: `memcpy` does not return, or it copies nothing. -/
theorem memcpy_of_not_fits {mem mem' : AddrMem} {dst dst' src n : BitVec 64} {k : Nat} (hfit : ¬ CopyFits dst src n)
    (h : memcpy k mem dst src n = some (mem', dst')) : mem' = mem ∧ n ≠ 0 := by
  rw [CopyFits] at hfit
  rw [memcpy] at h
  have hD := dst.isLt
  have hn : n.toNat ≠ 0 → n ≠ 0 := by
    rintro hne rfl
    exact hne rfl
  split at hfit
  · -- the addresses are not congruent, and there is one loop over bytes
    rename_i hmod
    simp only [if_pos hmod] at h
    obtain ⟨t, ht, heq⟩ := Option.map_eq_some_iff.mp h
    cases heq
    have hidle := byteLoop_idle (s := ⟨mem, dst, src⟩) (n := n) (Nat.not_lt.mp hfit) ht
    rw [hidle]
    exact ⟨rfl, hn (by omega)⟩
  · -- the addresses are congruent, and the fast loops run
    rename_i hmod
    have hmod' : src.toNat % 4 = dst.toNat % 4 := not_not.mp hmod
    simp only [if_neg hmod] at h
    obtain ⟨t, ht, heq⟩ := Option.map_eq_some_iff.mp h
    cases heq
    rw [FastFits] at hfit
    -- the last address wraps around, or the loop over words does not find its end
    by_cases hwrap : dst.toNat + n.toNat < 2 ^ 64
    · have hlast : 2 ^ 64 - 4 ≤ dst.toNat + n.toNat := by omega
      have hnone := byteWordByte_eq_none CopyState.dst copyByte copyWord (s := ⟨mem, dst, src⟩) (n := n) (fun _ => rfl)
        (fun _ => rfl) hlast hwrap k
      rw [hnone] at ht
      cases ht
    · have hnot : dst.toNat < 2 ^ 64 - 4 ∨ n.toNat < 4 := by omega
      have hidle := byteWordByte_idle CopyState.dst copyByte copyWord (s := ⟨mem, dst, src⟩) (n := n) (fun _ => rfl)
        (copyWord_iterate hmod') (Nat.not_lt.mp hwrap) hnot ht
      rw [hidle]
      exact ⟨rfl, hn (by omega)⟩

/-! ## Filling -/

/-- The memory, and the pointer of the loops. -/
structure FillState where
  mem : AddrMem
  dst : BitVec 64

/-- `*(uint8_t *)dst++ = byte`. -/
def setByte (byte : BitVec 8) (s : FillState) : FillState := ⟨Function.update s.mem s.dst byte, s.dst + 1⟩

/-- `*(uint32_t *)dst = word`, and the pointer behind the word. -/
def setWord (word : BitVec 32) (s : FillState) : FillState := ⟨storeWord s.mem s.dst word, s.dst + 4⟩

/-- `byte | byte << 8 | byte << 16 | byte << 24`; the byte is promoted. -/
def wordOfByte (byte : BitVec 8) : BitVec 32 :=
  byte.setWidth 32 ||| byte.setWidth 32 <<< 8 ||| byte.setWidth 32 <<< 16 ||| byte.setWidth 32 <<< 24

/-- `memset`: the memory and the value; each loop takes less than `k` rounds. -/
def memset (k : Nat) (mem : AddrMem) (dst : BitVec 64) (c : BitVec 32) (n : BitVec 64) :
    Option (AddrMem × BitVec 64) :=
  let max := dst + n
  let byte := (c &&& 0xff).setWidth 8
  (byteWordByte FillState.dst (setByte byte) (setWord (wordOfByte byte)) max k ⟨mem, dst⟩).map fun s => (s.mem, dst)

/-- The memory in which the `n` bytes at `dst` equal `b`, and the others are as they were. -/
def fillBytes (mem : AddrMem) (dst : BitVec 64) (b : BitVec 8) (n : Nat) : AddrMem :=
  fun a => if (a - dst).toNat < n then b else mem a

theorem extractLsb'_wordOfByte (b : BitVec 8) :
    (wordOfByte b).extractLsb' 0 8 = b ∧ (wordOfByte b).extractLsb' 8 8 = b ∧ (wordOfByte b).extractLsb' 16 8 = b ∧
      (wordOfByte b).extractLsb' 24 8 = b := by
  refine ⟨?_, ?_, ?_, ?_⟩ <;> apply BitVec.eq_of_getLsbD_eq <;> intro i hi <;>
    simp [wordOfByte, BitVec.getLsbD_extractLsb'] <;> grind

/-- **A word is set as four bytes are.** -/
theorem setWord_eq (b : BitVec 8) (s : FillState) : setWord (wordOfByte b) s = (setByte b)^[4] s := by
  obtain ⟨mem, dst⟩ := s
  obtain ⟨h₀, h₁, h₂, h₃⟩ := extractLsb'_wordOfByte b
  have hd : dst + 1 + 1 = dst + 2 ∧ dst + 2 + 1 = dst + 3 ∧ dst + 3 + 1 = dst + 4 := by
    refine ⟨?_, ?_, ?_⟩ <;> rw [BitVec.add_assoc] <;> rfl
  have hiter : (setByte b)^[4] ⟨mem, dst⟩ = setByte b (setByte b (setByte b (setByte b ⟨mem, dst⟩))) := rfl
  rw [hiter]
  simp only [setWord, setByte, storeWord, h₀, h₁, h₂, h₃, hd]

/-- Bytes that are set one by one. -/
theorem setByte_iterate (mem : AddrMem) (dst : BitVec 64) (b : BitVec 8) {n : Nat} (hn : n ≤ 2 ^ 64) :
    ((setByte b)^[n] ⟨mem, dst⟩).mem = fillBytes mem dst b n := by
  induction n with
  | zero =>
      funext a
      exact (if_neg (Nat.not_lt_zero _)).symm
  | succ n ih =>
      have hdst := dst_iterate_byte FillState.dst (setByte b) (fun _ => rfl) ⟨mem, dst⟩ n
      rw [Function.iterate_succ_apply']
      show Function.update ((setByte b)^[n] ⟨mem, dst⟩).mem ((setByte b)^[n] ⟨mem, dst⟩).dst b = _
      rw [ih (Nat.le_of_succ_le hn), hdst]
      funext a
      have hlt := a.isLt
      have hlt' := dst.isLt
      -- the address that is set is the next one
      have hiff : a = dst + BitVec.ofNat 64 n ↔ (a - dst).toNat = n := by
        rw [← BitVec.toNat_inj, BitVec.toNat_add, BitVec.toNat_ofNat, BitVec.toNat_sub]
        omega
      rw [Function.update_apply]
      simp only [fillBytes, hiff, Nat.lt_succ_iff_lt_or_eq]
      by_cases heq : (a - dst).toNat = n
      · rw [if_pos heq, if_pos (Or.inr heq)]
      · simp only [heq, or_false, if_false]

/-- The byte is `c` modulo 256. -/
theorem setWidth_and_mask (c : BitVec 32) : (c &&& 0xff).setWidth 8 = BitVec.ofInt 8 c.toInt := by
  have hlt := c.isLt
  have hint := BitVec.toInt_eq_toNat_cond c
  have hmask : c.toNat &&& (0xff : BitVec 32).toNat = c.toNat % 2 ^ 8 := Nat.and_two_pow_sub_one_eq_mod c.toNat 8
  apply BitVec.eq_of_toNat_eq
  rw [BitVec.toNat_setWidth, BitVec.toNat_and, hmask, BitVec.toNat_ofInt]
  split at hint <;> omega

/-- **`memset` fills a range that fits.** -/
theorem memset_eq {dst n : BitVec 64} (hfit : FastFits dst n) (mem : AddrMem) (c : BitVec 32) :
    memset (n.toNat + 1) mem dst c n = some (fillBytes mem dst (BitVec.ofInt 8 c.toInt) n.toNat, dst) := by
  have hloop := byteWordByte_eq FillState.dst (setByte (BitVec.ofInt 8 c.toInt))
    (setWord (wordOfByte (BitVec.ofInt 8 c.toInt))) (s := ⟨mem, dst⟩) (fun _ => rfl) (fun i => setWord_eq _ _) hfit
  simp only [memset, setWidth_and_mask, hloop, Option.map_some]
  rw [setByte_iterate mem dst _ n.isLt.le]

/-- **A range that does not fit**: `memset` does not return, or it sets nothing. -/
theorem memset_of_not_fits {mem mem' : AddrMem} {dst dst' n : BitVec 64} {c : BitVec 32} {k : Nat}
    (hfit : ¬ FastFits dst n) (h : memset k mem dst c n = some (mem', dst')) : mem' = mem ∧ n ≠ 0 := by
  have hD := dst.isLt
  simp only [memset] at h
  obtain ⟨t, ht, heq⟩ := Option.map_eq_some_iff.mp h
  cases heq
  rw [FastFits] at hfit
  by_cases hwrap : dst.toNat + n.toNat < 2 ^ 64
  · have hlast : 2 ^ 64 - 4 ≤ dst.toNat + n.toNat := by omega
    have hnone := byteWordByte_eq_none FillState.dst (setByte ((c &&& 0xff).setWidth 8))
      (setWord (wordOfByte ((c &&& 0xff).setWidth 8))) (s := ⟨mem, dst⟩) (n := n)
      (fun _ => rfl) (fun _ => rfl) hlast hwrap k
    rw [hnone] at ht
    cases ht
  · have hnot : dst.toNat < 2 ^ 64 - 4 ∨ n.toNat < 4 := by omega
    have hidle := byteWordByte_idle FillState.dst (setByte ((c &&& 0xff).setWidth 8))
      (setWord (wordOfByte ((c &&& 0xff).setWidth 8))) (s := ⟨mem, dst⟩) (n := n)
      (fun _ => rfl) (fun i => setWord_eq _ _) (Nat.not_lt.mp hwrap) hnot ht
    rw [hidle]
    refine ⟨rfl, ?_⟩
    rintro rfl
    exact hwrap (by simpa using hD)

/-! ## When the memory is as the loop over the bytes leaves it -/

/-- Two ranges of `n` bytes that do not overlap. -/
def NoOverlap (dst src n : BitVec 64) : Prop :=
  ∀ i j, i < n.toNat → j < n.toNat → dst + BitVec.ofNat 64 i ≠ src + BitVec.ofNat 64 j

/-- **`memcpy` and `memset` do what the loop over the bytes does** iff the range fits: they return, and leave that
memory, whatever it was before. -/
theorem fast_memory_iff :
    (∀ dst src n, NoOverlap dst src n →
      ((∀ mem, ∃ k, memcpy k mem dst src n = some (copyBytes mem dst src n.toNat, dst)) ↔ CopyFits dst src n)) ∧
    ∀ dst c n,
      (∀ mem, ∃ k, memset k mem dst c n = some (fillBytes mem dst (BitVec.ofInt 8 c.toInt) n.toNat, dst)) ↔
        FastFits dst n := by
  refine ⟨fun dst src n hapart => ⟨fun hall => ?_, fun hfit mem => ⟨_, memcpy_eq hfit mem⟩⟩,
    fun dst c n => ⟨fun hall => ?_, fun hfit mem => ⟨_, memset_eq hfit mem c⟩⟩⟩
  · by_contra hfit
    -- memory in which the first bytes differ
    obtain ⟨k, hk⟩ := hall fun a => if a = src then 1 else 0
    obtain ⟨hmem, hn⟩ := memcpy_of_not_fits hfit hk
    have hn' : n.toNat ≠ 0 := fun h => hn (BitVec.eq_of_toNat_eq h)
    have hne : dst ≠ src := by
      have h := hapart 0 0 (Nat.pos_of_ne_zero hn') (Nat.pos_of_ne_zero hn')
      simpa using h
    have hfst := copyBytes_dst (fun a => if a = src then 1 else 0) dst src hn' n.isLt
    have hzero : (fun a => if a = src then (1 : BitVec 8) else 0) dst = 0 := if_neg hne
    rw [hmem, if_pos rfl] at hfst
    exact absurd (hzero.symm.trans hfst) (by decide)
  · by_contra hfit
    -- memory without a byte of the value
    obtain ⟨k, hk⟩ := hall fun _ => BitVec.ofInt 8 c.toInt + 1
    obtain ⟨hmem, hn⟩ := memset_of_not_fits hfit hk
    have hn' : (0#64).toNat < n.toNat := Nat.pos_of_ne_zero fun h => hn (BitVec.eq_of_toNat_eq h)
    have hfst := congrFun hmem dst
    rw [fillBytes, BitVec.sub_self, if_pos hn'] at hfst
    have hnat := congrArg BitVec.toNat hfst
    rw [BitVec.toNat_add] at hnat
    have hlt := (BitVec.ofInt 8 c.toInt).isLt
    have hone : (1 : BitVec 8).toNat = 1 := rfl
    omega

/-- Nine bytes, with the last byte of a word first, are copied and set. -/
theorem fast_memory_iff_nine :
    (∀ mem, ∃ k, memcpy k mem 0x2003 0x1003 9 = some (copyBytes mem 0x2003 0x1003 9, 0x2003)) ∧
      ∀ mem, ∃ k, memset k mem 0x2003 (-1) 9 = some (fillBytes mem 0x2003 0xff 9, 0x2003) := by
  have hapart : NoOverlap 0x2003 0x1003 9 := by
    intro i j hi hj heq
    have hnine : (9 : BitVec 64).toNat = 9 := rfl
    have hnat := congrArg BitVec.toNat heq
    rw [BitVec.toNat_add, BitVec.toNat_add, BitVec.toNat_ofNat, BitVec.toNat_ofNat] at hnat
    have hdst : (0x2003 : BitVec 64).toNat = 0x2003 := rfl
    have hsrc : (0x1003 : BitVec 64).toNat = 0x1003 := rfl
    omega
  refine ⟨(fast_memory_iff.1 _ _ _ hapart).mpr ?_, (fast_memory_iff.2 0x2003 (-1) 9).mpr ?_⟩
  · rw [CopyFits, if_neg (by decide), FastFits]
    decide
  · rw [FastFits]
    decide

/-- The four bytes before the last four of the address space: neither function returns. -/
theorem fast_memory_wrong :
    NoOverlap 0xFFFFFFFFFFFFFFF8 0x1000 4 ∧ (0xFFFFFFFFFFFFFFF8 : BitVec 64).toNat + (4 : BitVec 64).toNat < 2 ^ 64 ∧
      (∀ k mem, memcpy k mem 0xFFFFFFFFFFFFFFF8 0x1000 4 = none) ∧
      ∀ k mem c, memset k mem 0xFFFFFFFFFFFFFFF8 c 4 = none := by
  have hlast : 2 ^ 64 - 4 ≤ (0xFFFFFFFFFFFFFFF8 : BitVec 64).toNat + (4 : BitVec 64).toNat := by decide
  have hend : (0xFFFFFFFFFFFFFFF8 : BitVec 64).toNat + (4 : BitVec 64).toNat < 2 ^ 64 := by decide
  refine ⟨?_, hend, fun k mem => ?_, fun k mem c => ?_⟩
  · intro i j hi hj heq
    have hfour : (4 : BitVec 64).toNat = 4 := rfl
    have hnat := congrArg BitVec.toNat heq
    rw [BitVec.toNat_add, BitVec.toNat_add, BitVec.toNat_ofNat, BitVec.toNat_ofNat] at hnat
    have hdst : (0xFFFFFFFFFFFFFFF8 : BitVec 64).toNat = 0xFFFFFFFFFFFFFFF8 := rfl
    have hsrc : (0x1000 : BitVec 64).toNat = 0x1000 := rfl
    omega
  · have hnone := byteWordByte_eq_none CopyState.dst copyByte copyWord
      (s := ⟨mem, 0xFFFFFFFFFFFFFFF8, 0x1000⟩) (n := 4) (fun _ => rfl) (fun _ => rfl) hlast hend k
    rw [memcpy, if_neg (by decide), hnone]
    rfl
  · have hnone := byteWordByte_eq_none FillState.dst (setByte ((c &&& 0xff).setWidth 8))
      (setWord (wordOfByte ((c &&& 0xff).setWidth 8))) (s := ⟨mem, 0xFFFFFFFFFFFFFFF8⟩) (n := 4)
      (fun _ => rfl) (fun _ => rfl) hlast hend k
    simp only [memset, hnone, Option.map_none]

end Jrinx
