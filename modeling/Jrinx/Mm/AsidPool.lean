import Mathlib.Data.Finset.Card
import Mathlib.Order.Bounds.Basic
import Jrinx.Lib.Runs
import Jrinx.Mm.Asid

/-! # Which identifier is allocated

`asid_alloc`, `asid_free` and `asid_inc_generation` in any order, on one hart. Behind the bitmap lies memory of
somebody else, which may hold anything and change at any time; the search looks at a word of it when every word of
the bitmap is full.

* **`AsidPool`**, **`asidStep`** — a hart with the identifiers that it gave out and has not taken back.
* **`AsidsExact`**, **`asids_exact`** — what is given out, refused and taken back, in every state of every run.
* **`asid_reads_iff`** — when the search stays inside the bitmap. -/

namespace Jrinx

/-! ## The calls -/

/-- `asid_free`; `none` is `-KER_ASID_ER`. -/
def asidFree (s : AsidState) (asid : Nat) : Option AsidState :=
  if s.asidMax < asid ∨ bitmapGetBit s.bitmap asid = false then none
  else some { s with bitmap := bitmapClrBit s.bitmap asid }

/-- What happens next. -/
inductive AsidCall where
  | alloc
  | free (asid : Nat)
  | incGeneration
  /-- Somebody else writes the words that lie behind the bitmap. -/
  | behind (words : Bitmap)

/-- A hart with the identifiers that are allocated: those that `asid_alloc` returned in this generation, without
those that `asid_free` took back. -/
structure AsidPool where
  state : AsidState
  allocated : Finset ℕ

/-- One call. -/
def asidStep (p : AsidPool) : AsidCall → Except Empty AsidPool
  | .alloc =>
      match asidAlloc p.state with
      | some (asid, s) => .ok ⟨s, insert asid p.allocated⟩
      | none => .ok p
  | .free asid =>
      match asidFree p.state asid with
      | some s => .ok ⟨s, p.allocated.erase asid⟩
      | none => .ok p
  | .incGeneration => .ok ⟨asidIncGeneration p.state, ∅⟩
  | .behind words =>
      .ok { p with
        state := { p.state with bitmap := fun i => if i < p.state.bitmapSize then p.state.bitmap i else words i } }

/-- After `asid_init`. -/
structure AsidPool.Initial (p : AsidPool) : Prop where
  state : p.state.Initial
  allocated : p.allocated = ∅

/-- **Allocation is exact** on a hart with the identifiers up to `m`. -/
structure AsidsExact (m : ℕ) (p : AsidPool) : Prop where
  /-- As long as not all are allocated, the least one that is not is given out. -/
  alloc : p.allocated.card < m + 1 → ∃ asid s, asidAlloc p.state = some (asid, s) ∧
    asid ≤ m ∧ IsLeast {n | n ∉ p.allocated} asid ∧
    ∀ n, bitmapGetBit s.bitmap n = true ↔ n = asid ∨ bitmapGetBit p.state.bitmap n = true
  /-- Otherwise the call fails, and nothing changes. -/
  full : ¬ p.allocated.card < m + 1 → asidAlloc p.state = none ∧ asidStep p .alloc = .ok p
  /-- What is taken back is in range and allocated. -/
  free : ∀ asid, (asidFree p.state asid).isSome ↔ asid ≤ m ∧ asid ∈ p.allocated
  /-- No other identifier is released. -/
  freed : ∀ asid s, asidFree p.state asid = some s →
    ∀ n, bitmapGetBit s.bitmap n = true ↔ n ≠ asid ∧ bitmapGetBit p.state.bitmap n = true
  /-- The bitmap says what is allocated. -/
  marked : ∀ n ≤ m, bitmapGetBit p.state.bitmap n = true ↔ n ∈ p.allocated
  /-- Nothing is allocated in a new generation. -/
  incGeneration : ∀ n ≤ m, bitmapGetBit (asidIncGeneration p.state).bitmap n = false

/-! ## The invariant -/

/-- The bits of the bitmap are the identifiers that are allocated. -/
structure AsidPool.Inv (p : AsidPool) : Prop where
  sized : p.state.Sized
  le_max : ∀ n ∈ p.allocated, n ≤ p.state.asidMax
  marked : ∀ n < p.state.bitmapSize * 64, bitmapGetBit p.state.bitmap n = true ↔ n ∈ p.allocated

namespace AsidPool

variable {p q : AsidPool} {s : AsidState} {asid n : ℕ}

/-- They are all allocated when they are as many as there are. -/
theorem Inv.card_lt_iff (hi : p.Inv) :
    p.allocated.card < p.state.asidMax + 1 ↔ ∃ n ≤ p.state.asidMax, n ∉ p.allocated := by
  have hsub : p.allocated ⊆ Finset.range (p.state.asidMax + 1) := by
    intro n hn
    rw [Finset.mem_range]
    exact Nat.lt_succ_of_le (hi.le_max n hn)
  constructor
  · intro hlt
    by_contra hnone
    push Not at hnone
    have heq : p.allocated = Finset.range (p.state.asidMax + 1) := by
      apply hsub.antisymm
      intro n hn
      exact hnone n (Nat.lt_succ_iff.mp (Finset.mem_range.mp hn))
    rw [heq, Finset.card_range] at hlt
    exact absurd hlt (Nat.lt_irrefl _)
  · rintro ⟨n, hn, hfree⟩
    have hproper : p.allocated ⊂ Finset.range (p.state.asidMax + 1) := by
      refine Finset.ssubset_iff_of_subset hsub |>.mpr ⟨n, ?_, hfree⟩
      rw [Finset.mem_range]
      exact Nat.lt_succ_of_le hn
    have hcard := Finset.card_lt_card hproper
    rwa [Finset.card_range] at hcard

/-- An identifier that is given out is the least one that is not allocated. -/
theorem Inv.alloc_eq_some (hi : p.Inv) (h : asidAlloc p.state = some (asid, s)) :
    asid ≤ p.state.asidMax ∧ IsLeast {n | n ∉ p.allocated} asid ∧
      s = { p.state with bitmap := bitmapSetBit p.state.bitmap asid } := by
  obtain ⟨hle, hfree, hs⟩ := asidAlloc_eq_some hi.sized h
  have hlt := hle.trans_lt hi.sized.max_lt
  refine ⟨hle, ⟨?_, fun n hn => ?_⟩, hs⟩
  · intro hmem
    rw [(hi.marked asid hlt).mpr hmem] at hfree
    cases hfree
  · by_contra hbefore
    rw [not_le] at hbefore
    have hfound : asid = bitmapFindFirstZeroBit p.state.bitmap p.state.bitmapSize := by
      unfold asidAlloc at h
      dsimp only at h
      split at h
      · cases h
      · exact (congrArg Prod.fst (Option.some.inj h)).symm
    have hmark := marked_of_lt_findFirstZeroBit hi.sized.small (hbefore.trans hlt) (hfound ▸ hbefore)
    exact hn ((hi.marked n (hbefore.trans hlt)).mp hmark)

/-- The call fails when everything is allocated, and only then. -/
theorem Inv.alloc_eq_none_iff (hi : p.Inv) :
    asidAlloc p.state = none ↔ ¬ p.allocated.card < p.state.asidMax + 1 := by
  rw [hi.card_lt_iff]
  constructor
  · rintro h ⟨n, hn, hfree⟩
    unfold asidAlloc at h
    dsimp only at h
    split at h
    · -- the search went past `n`, whose bit it found set
      rename_i hpast
      have hlt := hn.trans_lt hi.sized.max_lt
      exact hfree ((hi.marked n hlt).mp (marked_of_lt_findFirstZeroBit hi.sized.small hlt (hn.trans_lt hpast)))
    · cases h
  · intro hall
    by_contra hsome
    obtain ⟨⟨a, s⟩, ha⟩ := Option.ne_none_iff_exists'.mp hsome
    obtain ⟨hle, hleast, -⟩ := hi.alloc_eq_some ha
    exact hall ⟨a, hle, hleast.1⟩

theorem Inv.free_eq_some_iff (hi : p.Inv) : asidFree p.state asid = some s ↔
    asid ≤ p.state.asidMax ∧ asid ∈ p.allocated ∧
      s = { p.state with bitmap := bitmapClrBit p.state.bitmap asid } := by
  unfold asidFree
  constructor
  · intro h
    split at h
    · cases h
    · rename_i hok
      rw [not_or, not_lt, Bool.not_eq_false] at hok
      exact ⟨hok.1, (hi.marked asid (hok.1.trans_lt hi.sized.max_lt)).mp hok.2, (Option.some.inj h).symm⟩
  · rintro ⟨hle, hmem, rfl⟩
    rw [if_neg]
    rw [not_or, not_lt, Bool.not_eq_false]
    exact ⟨hle, (hi.marked asid (hle.trans_lt hi.sized.max_lt)).mpr hmem⟩

theorem Inv.step (hi : p.Inv) {e : AsidCall} (hs : asidStep p e = .ok q) : q.Inv := by
  -- the bitmap marks exactly the identifiers in use, also over a write behind its last word
  cases e with
  | alloc =>
      rw [asidStep] at hs
      split at hs
      next a s ha =>
        cases hs
        obtain ⟨hle, -, rfl⟩ := hi.alloc_eq_some ha
        refine ⟨⟨hi.sized.max_le, hi.sized.size⟩, fun n hn => ?_, fun n hn => ?_⟩
        · rcases Finset.mem_insert.mp hn with rfl | hold
          · exact hle
          · exact hi.le_max n hold
        · show bitmapGetBit (bitmapSetBit p.state.bitmap a) n = true ↔ _
          rw [bitmapGetBit_setBit, hi.marked n hn, Finset.mem_insert]
      next =>
        cases hs
        exact hi
  | free a =>
      rw [asidStep] at hs
      split at hs
      next s ha =>
        cases hs
        obtain ⟨-, -, rfl⟩ := hi.free_eq_some_iff.mp ha
        refine ⟨⟨hi.sized.max_le, hi.sized.size⟩, fun n hn => hi.le_max n (Finset.mem_of_mem_erase hn),
          fun n hn => ?_⟩
        show bitmapGetBit (bitmapClrBit p.state.bitmap a) n = true ↔ _
        rw [bitmapGetBit_clrBit, hi.marked n hn, Finset.mem_erase]
      next =>
        cases hs
        exact hi
  | incGeneration =>
      cases hs
      refine ⟨⟨hi.sized.max_le, hi.sized.size⟩, fun n hn => absurd hn (Finset.notMem_empty n), fun n hn => ?_⟩
      have hn : n < p.state.bitmapSize * 64 := hn
      show bitmapGetBit (bitmapClear p.state.bitmap p.state.bitmapSize) n = true ↔ n ∈ (∅ : Finset ℕ)
      rw [bitmapGetBit_clear hn]
      simp
  | behind words =>
      cases hs
      refine ⟨⟨hi.sized.max_le, hi.sized.size⟩, hi.le_max, fun n hn => ?_⟩
      -- the bits below the last identifier are in the words of the bitmap
      have hword : n / 64 < p.state.bitmapSize := Nat.div_lt_of_lt_mul (by rwa [Nat.mul_comm])
      rw [← hi.marked n hn]
      simp only [bitmapGetBit, if_pos hword]

theorem Initial.inv (h : p.Initial) : p.Inv := by
  refine ⟨⟨h.state.max_le, h.state.size⟩, fun n hn => ?_, fun n hn => ?_⟩
  · rw [h.allocated] at hn
    exact absurd hn (Finset.notMem_empty n)
  · rw [h.state.clear n hn, h.allocated]
    simp

/-- The calls do not change how many identifiers there are. -/
theorem asidMax_step {e : AsidCall} (hs : asidStep p e = .ok q) : q.state.asidMax = p.state.asidMax := by
  -- the calls write the bitmap and the generation
  cases e with
  | alloc =>
      rw [asidStep] at hs
      split at hs
      next a s ha =>
        cases hs
        unfold asidAlloc at ha
        dsimp only at ha
        split at ha
        · cases ha
        · cases ha
          rfl
      next =>
        cases hs
        rfl
  | free a =>
      rw [asidStep] at hs
      split at hs
      next s ha =>
        cases hs
        unfold asidFree at ha
        split at ha
        · cases ha
        · cases ha
          rfl
      next =>
        cases hs
        rfl
  | incGeneration =>
      cases hs
      rfl
  | behind words =>
      cases hs
      rfl

theorem Inv.exact (hi : p.Inv) : AsidsExact p.state.asidMax p where
  alloc hlt := by
    obtain ⟨⟨a, s⟩, ha⟩ := Option.ne_none_iff_exists'.mp (mt hi.alloc_eq_none_iff.mp (not_not.mpr hlt))
    obtain ⟨hle, hleast, rfl⟩ := hi.alloc_eq_some ha
    exact ⟨a, _, ha, hle, hleast, bitmapGetBit_setBit p.state.bitmap a⟩
  full hfull := by
    have hnone := hi.alloc_eq_none_iff.mpr hfull
    exact ⟨hnone, by rw [asidStep, hnone]⟩
  free asid := by
    rw [Option.isSome_iff_exists]
    constructor
    · rintro ⟨s, hs⟩
      obtain ⟨hle, hmem, -⟩ := hi.free_eq_some_iff.mp hs
      exact ⟨hle, hmem⟩
    · rintro ⟨hle, hmem⟩
      exact ⟨_, hi.free_eq_some_iff.mpr ⟨hle, hmem, rfl⟩⟩
  freed asid s hs n := by
    obtain ⟨-, -, rfl⟩ := hi.free_eq_some_iff.mp hs
    exact bitmapGetBit_clrBit p.state.bitmap asid n
  marked n hn := hi.marked n (hn.trans_lt hi.sized.max_lt)
  incGeneration n hn := bitmapGetBit_clear (hn.trans_lt hi.sized.max_lt)

end AsidPool

variable {p p₀ : AsidPool} {tr : List (AsidPool × AsidCall)}

/-- **Allocation is exact** in every state of every run, whatever lies behind the bitmap. -/
theorem asids_exact (h₀ : p₀.Initial) (hrun : Exec asidStep p₀ tr p) :
    Throughout (AsidsExact p₀.state.asidMax) tr p := by
  have hok : AllSteps (fun _ _ => True) tr := fun _ _ => trivial
  have hinv : Throughout (fun p => p.Inv ∧ p.state.asidMax = p₀.state.asidMax) tr p := by
    refine hrun.throughout_of_forall ⟨h₀.inv, rfl⟩ hok ?_
    rintro p e q ⟨hi, hmax⟩ - hs
    exact ⟨hi.step hs, (AsidPool.asidMax_step hs).trans hmax⟩
  have hexact : ∀ q : AsidPool, q.Inv ∧ q.state.asidMax = p₀.state.asidMax → AsidsExact p₀.state.asidMax q := by
    rintro q ⟨hi, hmax⟩
    rw [← hmax]
    exact hi.exact
  exact ⟨fun x hx => hexact _ (hinv.1 x hx), hexact _ hinv.2⟩

/-- A hart with the identifiers `0` and `1`, of which none is allocated. -/
def freshPool : AsidPool := ⟨twoIdentifiers, ∅⟩

theorem initial_freshPool : freshPool.Initial where
  state := ⟨by decide, rfl, rfl, initial_oneIdentifier.clear, fun _ => rfl⟩
  allocated := rfl

/-- After two identifiers were given out and the first one came back, it is given out again. -/
theorem asids_exact_two : ∃ p : AsidPool, p.allocated = {1} ∧ AsidsExact 1 p := by
  obtain ⟨p, hrun, hp⟩ := Exec.of_checkRun asidStep freshPool [.alloc, .alloc, .free 0]
    (fun p => p.allocated = {1}) (by decide +kernel)
  exact ⟨p, by simpa using hp, (asids_exact initial_freshPool hrun).2⟩

/-! ## The words that are read -/

/-- The search on behalf of `asid_alloc` reads no word but those of the bitmap. -/
def ReadsInside (p : AsidPool) (e : AsidCall) : Prop :=
  e = .alloc → ∀ i ∈ findFirstZeroBitReads p.state.bitmap p.state.bitmapSize 0, i < p.state.bitmapSize

/-- At a call of `asid_alloc` not all identifiers are allocated, or the last word of the bitmap has bits that stand
for none. -/
def LeavesZeroBit (p : AsidPool) (e : AsidCall) : Prop :=
  e = .alloc → p.allocated.card < p.state.asidMax + 1 ∨ ¬ 64 ∣ p.state.asidMax + 1

theorem AsidPool.Inv.readsInside_iff (hi : p.Inv) (e : AsidCall) : ReadsInside p e ↔ LeavesZeroBit p e := by
  refine imp_congr_right fun _ => ?_
  have hsize : p.state.bitmapSize = p.state.asidMax / 64 + 1 := hi.sized.size
  rw [reads_lt_iff, hi.card_lt_iff]
  constructor
  · rintro ⟨n, hn, hbit⟩
    by_contra hnone
    rw [not_or, not_not] at hnone
    -- every bit stands for an identifier
    have hle : n ≤ p.state.asidMax := by omega
    refine hnone.1 ⟨n, hle, fun hmem => ?_⟩
    rw [(hi.marked n hn).mpr hmem] at hbit
    cases hbit
  · intro h
    obtain ⟨n, hn, hfree⟩ : ∃ n < p.state.bitmapSize * 64, n ∉ p.allocated := by
      rcases h with ⟨n, hle, hfree⟩ | hdvd
      · exact ⟨n, hle.trans_lt hi.sized.max_lt, hfree⟩
      · refine ⟨p.state.asidMax + 1, by omega, fun hmem => ?_⟩
        exact absurd (hi.le_max _ hmem) (Nat.not_succ_le_self _)
    refine ⟨n, hn, ?_⟩
    rw [← Bool.not_eq_true, hi.marked n hn]
    exact hfree

/-- **The search stays inside the bitmap** in every call of a run, exactly when no call comes while all identifiers
are allocated and fill its words. -/
theorem asid_reads_iff (h₀ : p₀.Initial) (hrun : Exec asidStep p₀ tr p) :
    AllSteps ReadsInside tr ↔ AllSteps LeavesZeroBit tr :=
  hrun.allSteps_iff h₀.inv (fun _ _ _ hi hs => hi.step hs) fun _ e _ hi _ => hi.readsInside_iff e

/-- One call on a hart with two identifiers. -/
theorem asid_reads_iff_first : ∃ tr : List (AsidPool × AsidCall), tr ≠ [] ∧ AllSteps ReadsInside tr := by
  obtain ⟨q, hq⟩ : ∃ q, asidStep freshPool .alloc = .ok q := ⟨_, rfl⟩
  refine ⟨_, ?_, (asid_reads_iff initial_freshPool (Exec.nil.snoc hq)).mpr fun x hx _ => Or.inl ?_⟩
  · simp
  · obtain rfl : x = (freshPool, .alloc) := by simpa using hx
    decide

/-- A hart with as many identifiers as a word has bits. -/
def wordPool : AsidPool := ⟨{ oneIdentifier with asidMax := 63 }, ∅⟩

/-- The search does not always stay inside: when all identifiers are allocated, it reads the word behind them. -/
theorem asid_reads_behind : ¬ ∀ (p₀ p : AsidPool) (tr : List (AsidPool × AsidCall)), p₀.Initial →
    Exec asidStep p₀ tr p → AllSteps ReadsInside tr := by
  intro hall
  have h₀ : wordPool.Initial := ⟨⟨by decide, rfl, rfl, initial_oneIdentifier.clear, fun _ => rfl⟩, rfl⟩
  obtain ⟨p, hrun, hp⟩ := Exec.of_checkRun asidStep wordPool (List.replicate 64 .alloc)
    (fun p => p.allocated.card = 64 && p.state.asidMax = 63) (by decide +kernel)
  simp only [Bool.and_eq_true, decide_eq_true_eq] at hp
  have hinv := hrun.invariant h₀.inv fun _ _ _ hi hs => hi.step hs
  obtain ⟨q, hq⟩ : ∃ q, asidStep p .alloc = .ok q := ⟨p, (hinv.exact.full (by omega)).2⟩
  have hinside : ReadsInside p .alloc := hall _ _ _ h₀ (hrun.snoc hq) (p, .alloc) (by simp)
  have hroom := (hinv.readsInside_iff .alloc).mp hinside rfl
  rw [hp.1, hp.2] at hroom
  exact absurd hroom (by decide)

end Jrinx
