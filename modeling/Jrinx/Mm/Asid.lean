import Jrinx.Lib.Epochs
import Jrinx.Mm.Bitmap
import Jrinx.Types

/-! # Address-space identifiers

`kern/mm/asid.c` and the part of `proc_run` that chooses the identifier under which a partition runs, for
one hart. A generation is a `uint64_t`; a new one begins when the identifiers are used up.

* **`procRunAsid`** — the identifier of the partition that is dispatched.
* **`AsidsSound`** — it is in use, and partitions of the current generation have different ones.
* **`asids_sound`** — over every run in which the generation does not come back to zero. -/

namespace Jrinx

/-! ## The identifiers of a hart -/

/-- The arrays of `asid.c` at the index of the hart, and the fields of the partitions that belong to it. -/
structure AsidState where
  asidMax : Nat
  generation : Nat
  bitmap : Bitmap
  bitmapSize : Nat
  paCpusAsid : PartId → Nat
  paCpusAsidGeneration : PartId → Nat

/-- `asid_inc_generation`. -/
def asidIncGeneration (s : AsidState) : AsidState :=
  { s with
    generation := (s.generation + 1) % 2 ^ 64
    bitmap := bitmapClear s.bitmap s.bitmapSize }

/-- `asid_alloc`; `none` is `-KER_ASID_ER`. -/
def asidAlloc (s : AsidState) : Option (Nat × AsidState) :=
  let bit := bitmapFindFirstZeroBit s.bitmap s.bitmapSize
  if s.asidMax < bit then none else some (bit, { s with bitmap := bitmapSetBit s.bitmap bit })

/-- The loop of `proc_run`, for at most `n` rounds. -/
def asidLoop (p : PartId) : Nat → AsidState → Option AsidState
  | 0, _ => none
  | n + 1, s =>
      match asidAlloc s with
      | some (asid, s) => some { s with paCpusAsid := Function.update s.paCpusAsid p asid }
      | none => asidLoop p n (asidIncGeneration s)

/-- `proc_run`, for a process of the partition `p`, as far as the identifiers are concerned. -/
def procRunAsid (n : Nat) (p : PartId) (s : AsidState) : Option AsidState :=
  if s.paCpusAsidGeneration p < s.generation then
    (asidLoop p n s).map fun s =>
      { s with paCpusAsidGeneration := Function.update s.paCpusAsidGeneration p s.generation }
  else some s

/-- `asid_init` and `part_alloc`: nothing is in use, and no partition has an identifier yet. -/
structure AsidState.Initial (s : AsidState) : Prop where
  max_le : s.asidMax ≤ 0xffff
  generation : s.generation = 1
  size : s.bitmapSize = Jrinx.bitmapSize (s.asidMax + 1)
  clear : ∀ n < s.bitmapSize * 64, bitmapGetBit s.bitmap n = false
  partGeneration : ∀ p, s.paCpusAsidGeneration p = 0

/-- The states that dispatches lead to, with the number of generations that began on the way. -/
inductive Dispatched (s : AsidState) : ℕ → AsidState → Prop
  | init : Dispatched s 0 s
  | run {r : ℕ} {t u : AsidState} (p : PartId) (n : ℕ) (h : Dispatched s r t)
      (done : procRunAsid n p t = some u) :
      Dispatched s (r + if u.generation = t.generation then 0 else 1) u

/-- **The identifiers are sound**: every dispatch chooses one, which is in use then, and the partitions of
the current generation have different ones. -/
structure AsidsSound (s : AsidState) : Prop where
  terminates : ∀ p, ∃ n t, procRunAsid n p s = some t
  used : ∀ p n t, procRunAsid n p s = some t →
    t.paCpusAsid p ≤ t.asidMax ∧ bitmapGetBit t.bitmap (t.paCpusAsid p) = true
  distinct : ∀ p q, p ≠ q → s.paCpusAsidGeneration p = s.generation →
    s.paCpusAsidGeneration q = s.generation → s.paCpusAsid p ≠ s.paCpusAsid q

/-! ## The loop -/

variable {s t : AsidState} {p : PartId} {n : ℕ}

/-- The bitmap has room for all identifiers. -/
structure AsidState.Sized (s : AsidState) : Prop where
  max_le : s.asidMax ≤ 0xffff
  size : s.bitmapSize = Jrinx.bitmapSize (s.asidMax + 1)

theorem AsidState.Sized.pos (h : s.Sized) : 0 < s.bitmapSize := by
  rw [h.size, Jrinx.bitmapSize]
  omega

theorem AsidState.Sized.max_lt (h : s.Sized) : s.asidMax < s.bitmapSize * 64 := by
  rw [h.size, Jrinx.bitmapSize]
  omega

theorem AsidState.Sized.small (h : s.Sized) : (s.bitmapSize + 1) * 64 ≤ 2 ^ 32 := by
  have hmax := h.max_le
  rw [h.size, Jrinx.bitmapSize]
  omega

/-- An identifier that `asid_alloc` gives out was not in use. -/
theorem asidAlloc_eq_some {asid : ℕ} (hs : s.Sized) (h : asidAlloc s = some (asid, t)) :
    asid ≤ s.asidMax ∧ bitmapGetBit s.bitmap asid = false ∧
      t = { s with bitmap := bitmapSetBit s.bitmap asid } := by
  unfold asidAlloc at h
  dsimp only at h
  split at h
  · exact absurd h (by simp)
  · rename_i hle
    rw [Option.some.injEq, Prod.mk.injEq] at h
    obtain ⟨rfl, rfl⟩ := h
    have hbit := not_lt.mp hle
    exact ⟨hbit, not_marked_findFirstZeroBit hs.small (hbit.trans_lt hs.max_lt), rfl⟩

/-- In a new generation the first identifier is free. -/
theorem asidAlloc_incGeneration (hs : s.Sized) : asidAlloc (asidIncGeneration s) =
    some (0, { asidIncGeneration s with bitmap := bitmapSetBit (asidIncGeneration s).bitmap 0 }) := by
  rw [asidAlloc]
  have hfirst : bitmapFindFirstZeroBit (asidIncGeneration s).bitmap (asidIncGeneration s).bitmapSize = 0 :=
    findFirstZeroBit_clear s.bitmap hs.pos
  simp only [hfirst, Nat.not_lt_zero, if_false]

/-- What the loop leads to. -/
inductive Chosen (p : PartId) (s : AsidState) : AsidState → Prop
  /-- An identifier was free. -/
  | fresh (asid : ℕ) (le : asid ≤ s.asidMax) (free : bitmapGetBit s.bitmap asid = false) :
      Chosen p s
        { s with
          bitmap := bitmapSetBit s.bitmap asid
          paCpusAsid := Function.update s.paCpusAsid p asid }
  /-- A new generation began. -/
  | renew :
      Chosen p s
        { s with
          generation := (s.generation + 1) % 2 ^ 64
          bitmap := bitmapSetBit (bitmapClear s.bitmap s.bitmapSize) 0
          paCpusAsid := Function.update s.paCpusAsid p 0 }

/-- **The loop ends after two rounds at most.** -/
theorem asidLoop_eq_some (hs : s.Sized) (h : asidLoop p n s = some t) : Chosen p s t := by
  cases n with
  | zero => exact absurd h (by simp [asidLoop])
  | succ n =>
      rw [asidLoop] at h
      cases ha : asidAlloc s with
      | some x =>
          obtain ⟨asid, s'⟩ := x
          obtain ⟨hle, hfree, rfl⟩ := asidAlloc_eq_some hs ha
          rw [ha] at h
          rw [← Option.some.inj h]
          exact .fresh asid hle hfree
      | none =>
          rw [ha] at h
          cases n with
          | zero => exact absurd h (by simp [asidLoop])
          | succ n =>
              dsimp only at h
              rw [asidLoop, asidAlloc_incGeneration hs] at h
              rw [← Option.some.inj h]
              exact .renew

theorem exists_asidLoop (hs : s.Sized) (p : PartId) : ∃ t, asidLoop p 2 s = some t := by
  rw [asidLoop]
  cases ha : asidAlloc s with
  | some x => exact ⟨_, rfl⟩
  | none =>
      dsimp only
      rw [asidLoop, asidAlloc_incGeneration hs]
      exact ⟨_, rfl⟩

/-- What a dispatch leads to. -/
theorem procRunAsid_eq_some (hs : s.Sized) (h : procRunAsid n p s = some t) :
    s.generation ≤ s.paCpusAsidGeneration p ∧ t = s ∨
      s.paCpusAsidGeneration p < s.generation ∧ ∃ s', Chosen p s s' ∧
        t = { s' with paCpusAsidGeneration :=
          Function.update s'.paCpusAsidGeneration p s'.generation } := by
  unfold procRunAsid at h
  split at h
  · rename_i hold
    obtain ⟨s', hloop, rfl⟩ := Option.map_eq_some_iff.mp h
    exact Or.inr ⟨hold, s', asidLoop_eq_some hs hloop, rfl⟩
  · rename_i hnew
    exact Or.inl ⟨not_lt.mp hnew, (Option.some.inj h).symm⟩

/-! ## The invariant -/

/-- The pool of identifiers of the hart. -/
def AsidState.pool (s : AsidState) : Epochs PartId where
  used := {n | n < s.bitmapSize * 64 ∧ bitmapGetBit s.bitmap n = true}
  epoch := s.generation
  number := s.paCpusAsid
  since := s.paCpusAsidGeneration

/-- After `r` generations have begun: the pool is in order. -/
structure AsidState.Inv (s : AsidState) (r : ℕ) : Prop where
  sized : s.Sized
  generation : s.generation = r + 1
  pool : s.pool.Inv
  le_max : ∀ p, s.paCpusAsidGeneration p = s.generation → s.paCpusAsid p ≤ s.asidMax

theorem AsidState.Initial.inv (h : s.Initial) : s.Inv 0 := by
  have hnone : ∀ p, s.paCpusAsidGeneration p ≠ s.generation := by
    intro p
    rw [h.partGeneration, h.generation]
    decide
  refine ⟨⟨h.max_le, h.size⟩, h.generation, ⟨?_, ?_, ?_⟩, fun p hp => absurd hp (hnone p)⟩
  · intro p
    show s.paCpusAsidGeneration p ≤ s.generation
    rw [h.partGeneration]
    exact Nat.zero_le _
  · exact fun p hp => absurd hp (hnone p)
  · exact fun p q _ hp _ => absurd hp (hnone p)

/-- **A dispatch keeps the pool in order**, unless the generation comes back to zero. -/
theorem AsidState.Inv.procRun {r : ℕ} (hi : s.Inv r) (h : procRunAsid n p s = some t)
    (hwrap : t.generation ≠ s.generation → r + 2 < 2 ^ 64) :
    t.Inv (r + if t.generation = s.generation then 0 else 1) := by
  rcases procRunAsid_eq_some hi.sized h with ⟨-, rfl⟩ | ⟨hold, s', hc, rfl⟩
  · simpa using hi
  have hnot : ¬ s.pool.Current p := hold.ne
  -- an identifier that is free in this generation, or the first one of the next
  cases hc with
  | fresh asid hle hfree =>
      simp only [if_true, Nat.add_zero]
      have hlt : asid < s.bitmapSize * 64 := hle.trans_lt hi.sized.max_lt
      have hgrant := Epochs.Grant.fresh (e := s.pool) (i := p) asid hnot fun hmem => by
        rw [AsidState.pool, Set.mem_ofPred_eq, hfree] at hmem
        exact absurd hmem.2 (by decide)
      refine ⟨⟨hi.sized.max_le, hi.sized.size⟩, hi.generation, ?_, fun q hq => ?_⟩
      · have hinv := hgrant.inv hi.pool
        convert hinv using 1
        simp only [AsidState.pool, Epochs.mk.injEq, and_true]
        ext m
        simp only [Set.mem_ofPred_eq, Set.mem_insert_iff, bitmapGetBit_setBit]
        constructor
        · rintro ⟨hm, rfl | hset⟩
          · exact Or.inl rfl
          · exact Or.inr ⟨hm, hset⟩
        · rintro (rfl | ⟨hm, hset⟩)
          · exact ⟨hlt, Or.inl rfl⟩
          · exact ⟨hm, Or.inr hset⟩
      · by_cases hqp : q = p
        · simp [hqp, hle]
        · simp only [Function.update_of_ne hqp] at hq ⊢
          exact hi.le_max q hq
  | renew =>
      have hgen := hi.generation
      have hmod : (s.generation + 1) % 2 ^ 64 ≠ s.generation := by omega
      -- the generation does not come back to zero, so that the next one is new
      have hlt : r + 2 < 2 ^ 64 := hwrap hmod
      have hnext : (s.generation + 1) % 2 ^ 64 = s.generation + 1 := Nat.mod_eq_of_lt (by omega)
      simp only [if_neg hmod]
      have hgrant := Epochs.Grant.renew (e := s.pool) (i := p) 0 hnot
      refine ⟨⟨hi.sized.max_le, hi.sized.size⟩, by rw [hnext, hgen], ?_, fun q hq => ?_⟩
      · have hinv := hgrant.inv hi.pool
        convert hinv using 1
        simp only [AsidState.pool, Epochs.mk.injEq, hnext, and_true]
        ext m
        simp only [Set.mem_ofPred_eq, Set.mem_singleton_iff, bitmapGetBit_setBit]
        constructor
        · rintro ⟨hm, rfl | hset⟩
          · rfl
          · rw [bitmapGetBit_clear hm] at hset
            exact absurd hset (by decide)
        · rintro rfl
          have hpos := hi.sized.pos
          exact ⟨by omega, Or.inl rfl⟩
      · by_cases hqp : q = p
        · simp [hqp]
        · simp only [Function.update_of_ne hqp] at hq
          have hpast : s.paCpusAsidGeneration q ≤ s.generation := hi.pool.past q
          rw [hnext] at hq
          omega

theorem Dispatched.inv {s₀ : AsidState} {r : ℕ} (h : Dispatched s₀ r s) (h₀ : s₀.Initial)
    (hr : r < 2 ^ 64 - 1) : s.Inv r := by
  induction h with
  | init => exact h₀.inv
  | @run r t u p n _ done ih =>
      refine (ih (by omega)).procRun done fun hne => ?_
      rw [if_neg hne] at hr
      omega

theorem AsidState.Inv.sound {r : ℕ} (hi : s.Inv r) : AsidsSound s where
  terminates p := by
    obtain ⟨t, ht⟩ := exists_asidLoop hi.sized p
    by_cases hold : s.paCpusAsidGeneration p < s.generation
    · exact ⟨2, _, by rw [procRunAsid, if_pos hold, ht]; rfl⟩
    · exact ⟨0, s, by rw [procRunAsid, if_neg hold]⟩
  used p n t h := by
    rcases procRunAsid_eq_some hi.sized h with ⟨hcur, rfl⟩ | ⟨-, s', hc, rfl⟩
    · have heq := le_antisymm (hi.pool.past p) hcur
      exact ⟨hi.le_max p heq, (hi.pool.marked p heq).2⟩
    · cases hc with
      | fresh asid hle hfree =>
          simp only [Function.update_self]
          exact ⟨hle, (bitmapGetBit_setBit _ _ _).mpr (Or.inl rfl)⟩
      | renew =>
          simp only [Function.update_self]
          exact ⟨Nat.zero_le _, (bitmapGetBit_setBit _ _ _).mpr (Or.inl rfl)⟩
  distinct p q hne hp hq := hi.pool.distinct p q hne hp hq

/-- **Identifiers are not shared**, as long as the generation does not come back to zero. -/
theorem asids_sound {s₀ : AsidState} {r : ℕ} (h₀ : s₀.Initial) (h : Dispatched s₀ r s)
    (hr : r < 2 ^ 64 - 1) : AsidsSound s :=
  (h.inv h₀ hr).sound

/-! ## The generation comes back -/

/-- A hart with the single identifier `0`, for partitions that have none yet. -/
def oneIdentifier : AsidState :=
  { asidMax := 0, generation := 1, bitmap := fun _ => 0#64, bitmapSize := 1, paCpusAsid := fun _ => 0
    paCpusAsidGeneration := fun _ => 0 }

theorem initial_oneIdentifier : oneIdentifier.Initial where
  max_le := by decide
  generation := rfl
  size := rfl
  clear n _ := by simp [oneIdentifier, bitmapGetBit]
  partGeneration _ := rfl

/-- After two partitions took turns: every dispatch began a new generation. -/
structure TookTurns (n : ℕ) (s : AsidState) : Prop where
  asidMax : s.asidMax = 0
  bitmapSize : s.bitmapSize = 1
  bitmap : s.bitmap = bitmapSetBit (fun _ => 0#64) 0
  generation : s.generation = n + 1
  asid : ∀ p, s.paCpusAsid p = 0
  last : s.paCpusAsidGeneration ((n + 1) % 2) = n + 1
  before : s.paCpusAsidGeneration (n % 2) = n
  never : s.paCpusAsidGeneration 2 = 0

/-- When the identifier is in use, a dispatch begins a new generation. -/
theorem TookTurns.procRun (h : TookTurns n s) : procRunAsid 2 (n % 2) s = some
    { s with
      generation := (n + 2) % 2 ^ 64
      paCpusAsid := Function.update s.paCpusAsid (n % 2) 0
      paCpusAsidGeneration := Function.update s.paCpusAsidGeneration (n % 2) ((n + 2) % 2 ^ 64) } := by
  have hnone : asidAlloc s = none := by
    have hfull : bitmapFindFirstZeroBit (bitmapSetBit (fun _ => 0#64) 0) 1 = 1 := by decide
    rw [asidAlloc, h.bitmap, h.bitmapSize, hfull, h.asidMax]
    rfl
  have hs : s.Sized := ⟨by rw [h.asidMax]; decide, by rw [h.bitmapSize, h.asidMax]; rfl⟩
  have hclear : bitmapClear s.bitmap s.bitmapSize = fun _ => 0#64 := by
    funext i
    rw [h.bitmap, h.bitmapSize, bitmapClear]
    split
    · rfl
    · rename_i hi
      rw [bitmapSetBit, Function.update_of_ne]
      omega
  rw [procRunAsid, if_pos (by rw [h.before, h.generation]; exact Nat.lt_succ_self n), asidLoop, hnone]
  dsimp only
  rw [asidLoop, asidAlloc_incGeneration hs]
  simp only [asidIncGeneration, hclear, Option.map_some, h.generation, ← h.bitmap]

theorem exists_tookTurns (n : ℕ) (hn : n + 1 < 2 ^ 64) :
    ∃ s, Dispatched oneIdentifier n s ∧ TookTurns n s := by
  induction n with
  | zero =>
      have hdone : procRunAsid 1 1 oneIdentifier = some
          { oneIdentifier with
            bitmap := bitmapSetBit (fun _ => 0#64) 0
            paCpusAsid := Function.update (fun _ => 0) 1 0
            paCpusAsidGeneration := Function.update (fun _ => 0) 1 1 } := rfl
      have hrun := Dispatched.init.run 1 1 hdone
      simp only [show oneIdentifier.generation = 1 from rfl, if_true, Nat.add_zero] at hrun
      refine ⟨_, hrun, rfl, rfl, rfl, rfl, fun p => ?_, rfl, rfl, rfl⟩
      by_cases hp : p = 1 <;> simp [hp]
  | succ n ih =>
      obtain ⟨s, hrun, h⟩ := ih (by omega)
      -- two partitions share one identifier, so that every turn begins a generation
      have hnext : (n + 2) % 2 ^ 64 = n + 2 := Nat.mod_eq_of_lt hn
      have hdone := h.procRun
      rw [hnext] at hdone
      have hrun' := hrun.run (n % 2) 2 hdone
      rw [if_neg (show ¬ n + 2 = s.generation by rw [h.generation]; omega)] at hrun'
      refine ⟨_, hrun', h.asidMax, h.bitmapSize, h.bitmap, rfl, fun p => ?_, ?_, ?_, ?_⟩
      · by_cases hp : p = n % 2
        · simp [hp]
        · simp [hp, h.asid]
      · simp [show (n + 1 + 1) % 2 = n % 2 by omega]
      · have hne : (n + 1) % 2 ≠ n % 2 := by omega
        simp [hne, h.last]
      · have hne : 2 ≠ n % 2 := by omega
        simp [hne, h.never]

/-- The identifiers are not always different: when the generation comes back to zero, a partition that was
never dispatched counts as one of the current generation. -/
theorem asids_shared : ¬ ∀ (s₀ s : AsidState) (r : ℕ), s₀.Initial → Dispatched s₀ r s → AsidsSound s := by
  intro hall
  obtain ⟨s, hrun, h⟩ := exists_tookTurns (2 ^ 64 - 2) (by norm_num)
  have hsound := hall _ _ _ initial_oneIdentifier (hrun.run 0 2 h.procRun)
  have heq := hsound.distinct 0 2 (by decide) (by simp) (by simpa using h.never)
  simp [h.asid] at heq

/-- A hart with the identifiers `0` and `1`. -/
def twoIdentifiers : AsidState :=
  { oneIdentifier with asidMax := 1 }

/-- A dispatch on a hart with two identifiers. -/
theorem asids_sound_two : ∃ s r, Dispatched twoIdentifiers r s ∧ r < 2 ^ 64 - 1 ∧ AsidsSound s := by
  have hi : twoIdentifiers.Initial :=
    ⟨by decide, rfl, rfl, initial_oneIdentifier.clear, fun _ => rfl⟩
  obtain ⟨t, ht⟩ := exists_asidLoop ⟨hi.max_le, hi.size⟩ 3
  have hdone : procRunAsid 2 3 twoIdentifiers = some
      { t with paCpusAsidGeneration := Function.update t.paCpusAsidGeneration 3 t.generation } := by
    have hlt : twoIdentifiers.paCpusAsidGeneration 3 < twoIdentifiers.generation := by decide
    rw [procRunAsid, if_pos hlt, ht]
    rfl
  have hrun := Dispatched.init.run 3 2 hdone
  have hr : ∀ a b : ℕ, (0 + if a = b then 0 else 1) < 2 ^ 64 - 1 := by
    intro a b
    split <;> norm_num
  exact ⟨_, _, hrun, hr _ _, asids_sound hi hrun (hr _ _)⟩

end Jrinx
