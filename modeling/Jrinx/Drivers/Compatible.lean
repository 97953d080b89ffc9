import Jrinx.Drivers.FlatTree

/-! # Compatible strings

`dt_match_strlist`, by which a driver looks for its name among the strings of a property. One scan goes over the
bytes of all strings and begins anew at every byte that does not fit, also in the middle of a string, and not at the
byte itself.

* **`dtMatchStrlist`** — the scan.
* **`FalseStarts`** — what lies before the place where the scan succeeds.
* **`dt_match_strlist_iff`** — when the answer is whether the name is one of the strings. -/

namespace Jrinx

/-! ## The scan -/

/-- The loop of `dt_match_strlist`: `i` bytes fit, and `j` bytes are read, before those that are left. -/
def dtMatchLoop (targetBytes : List UInt8) : List UInt8 → Nat → Nat → Nat × Nat
  | [], i, j => (i, j)
  | b :: rest, i, j =>
      if i < targetBytes.length then
        if targetBytes[i]? ≠ some b then dtMatchLoop targetBytes rest 0 (j + 1)
        else dtMatchLoop targetBytes rest (i + 1) (j + 1)
      else (i, j)

/-- `dt_match_strlist`: the number of bytes read is returned as an `int`. The bytes of the target are those up to
its terminator, as far as `strlen` counts them. -/
def dtMatchStrlist (propValues : List UInt8) (propLen : Nat) (target : List UInt8) : Int :=
  let targetBytesLen := (strlen target + 1) % wordSize
  if propLen < targetBytesLen then 0
  else
    let (i, j) := dtMatchLoop ((target ++ [0]).take targetBytesLen) propValues 0 0
    if i = targetBytesLen then Int.bmod j (2 ^ 32) else 0

/-- The value of a property: strings, each with its terminator. -/
def strlistBytes (strs : List DtName) : List UInt8 := strs.flatMap fun s => s.1 ++ [0]

/-! ## False starts -/

/-- Bytes that the scan for `t` passes: again and again a beginning of `t` and a byte that does not continue it. -/
inductive FalseStarts (t : List UInt8) : List UInt8 → Prop
  | nil : FalseStarts t []
  | cons {i : Nat} {b : UInt8} {u : List UInt8} (lt : i < t.length) (ne : t[i]? ≠ some b) (rest : FalseStarts t u) :
      FalseStarts t (t.take i ++ b :: u)

/-- The scan for `t` succeeds in these bytes. -/
def Occurs (t bytes : List UInt8) : Prop := ∃ u v, FalseStarts t u ∧ bytes = u ++ (t ++ v)

section Scan

variable {t bytes rest w : List UInt8} {i j : Nat} {b : UInt8}

theorem take_succ_of_getElem? (h : t[i]? = some b) : t.take (i + 1) = t.take i ++ [b] := by
  rw [List.take_add_one, h]
  rfl

/-- Two beginnings of `t`, each with a byte behind it that does not continue it, are the same. -/
theorem falseStart_unique {i' : Nat} {b' : UInt8} {r r' : List UInt8} (hi : i < t.length) (hi' : i' < t.length)
    (hb : t[i]? ≠ some b) (hb' : t[i']? ≠ some b') (h : t.take i ++ b :: r = t.take i' ++ b' :: r') :
    i = i' ∧ b = b' ∧ r = r' := by
  -- where the shorter beginning ends, the longer one goes on as `t` does
  have hshort : ∀ {i i' : Nat} {b b' : UInt8} {r r' : List UInt8}, i' < t.length → t[i]? ≠ some b →
      t.take i ++ b :: r = t.take i' ++ b' :: r' → ¬ i < i' := by
    intro i i' b b' r r' hi' hb h hlt
    have hget := congrArg (·[i]?) h
    have hlen : (t.take i).length = i := List.length_take_of_le (hlt.le.trans hi'.le)
    have hlen' : i < (t.take i').length := by rwa [List.length_take_of_le hi'.le]
    simp only [List.getElem?_append_left hlen', List.getElem?_take_of_lt hlt] at hget
    rw [List.getElem?_append_right hlen.le, hlen, Nat.sub_self] at hget
    exact hb hget.symm
  have heq : i = i' := by
    have h₁ := hshort hi' hb h
    have h₂ := hshort hi hb' h.symm
    omega
  subst heq
  have htail := List.append_cancel_left h
  rw [List.cons.injEq] at htail
  exact ⟨rfl, htail⟩

/-- A byte that does not fit ends a false start. -/
theorem exists_falseStarts_iff (hi : i < t.length) (hb : t[i]? ≠ some b) (hw : ∀ r, t.take i ++ b :: r ≠ w) :
    (∃ u, FalseStarts t u ∧ t.take i ++ b :: rest = u ++ w) ↔ ∃ u, FalseStarts t u ∧ rest = u ++ w := by
  constructor
  · rintro ⟨u, hu, heq⟩
    cases hu with
    | nil => exact absurd heq (hw rest)
    | @cons i' b' u lt ne hu =>
        rw [List.append_assoc, List.cons_append] at heq
        obtain ⟨-, -, hrest⟩ := falseStart_unique hi lt hb ne heq
        exact ⟨u, hu, hrest⟩
  · rintro ⟨u, hu, rfl⟩
    exact ⟨_, .cons hi hb hu, by rw [List.append_assoc, List.cons_append]⟩

/-- Once all bytes fit, the loop is over. -/
theorem dtMatchLoop_of_le (hi : t.length ≤ i) : dtMatchLoop t bytes i j = (i, j) := by
  cases bytes with
  | nil => rfl
  | cons b rest => rw [dtMatchLoop, if_neg (not_lt.mpr hi)]

/-- A byte that does not fit sends the scan back to the beginning. -/
theorem occurs_cons_iff (hi : i < t.length) (hb : t[i]? ≠ some b) :
    Occurs t (t.take i ++ b :: rest) ↔ Occurs t rest := by
  have hiff : ∀ v, (∃ u, FalseStarts t u ∧ t.take i ++ b :: rest = u ++ (t ++ v)) ↔
      ∃ u, FalseStarts t u ∧ rest = u ++ (t ++ v) := by
    intro v
    apply exists_falseStarts_iff hi hb
    intro r heq
    have hget := congrArg (·[i]?) heq
    have hlen : (t.take i).length = i := List.length_take_of_le hi.le
    simp only [List.getElem?_append_left hi] at hget
    rw [List.getElem?_append_right hlen.le, hlen, Nat.sub_self] at hget
    exact hb hget.symm
  constructor
  · rintro ⟨u, v, hu⟩
    obtain ⟨u', hu'⟩ := (hiff v).mp ⟨u, hu⟩
    exact ⟨u', v, hu'⟩
  · rintro ⟨u, v, hu⟩
    obtain ⟨u', hu'⟩ := (hiff v).mpr ⟨u, hu⟩
    exact ⟨u', v, hu'⟩

/-- **The scan succeeds** behind false starts. -/
theorem dtMatchLoop_fst_iff (hi : i < t.length) :
    (dtMatchLoop t bytes i j).1 = t.length ↔ Occurs t (t.take i ++ bytes) := by
  induction bytes generalizing i j with
  | nil =>
      constructor
      · intro h
        exact absurd h hi.ne
      · rintro ⟨u, v, -, h⟩
        have hlen := congrArg List.length h
        simp only [List.length_append, List.length_take, List.length_nil] at hlen
        omega
  | cons b rest ih =>
      rw [dtMatchLoop, if_pos hi]
      by_cases hb : t[i]? = some b
      · rw [if_neg (not_not.mpr hb)]
        have hstep : t.take i ++ b :: rest = t.take (i + 1) ++ rest := by
          rw [take_succ_of_getElem? hb, List.append_assoc, List.singleton_append]
        rw [hstep]
        rcases Nat.lt_or_ge (i + 1) t.length with hlt | hge
        · exact ih hlt
        · rw [dtMatchLoop_of_le hge]
          refine iff_of_true (le_antisymm hi hge) ⟨[], rest, .nil, ?_⟩
          rw [List.take_of_length_le hge, List.nil_append]
      · rw [if_pos hb, ih (Nat.zero_lt_of_lt hi), occurs_cons_iff hi hb]
        rfl

/-- The bytes that are read are counted. -/
theorem dtMatchLoop_snd : j ≤ (dtMatchLoop t bytes i j).2 ∧ (dtMatchLoop t bytes i j).2 ≤ j + bytes.length ∧
    ((dtMatchLoop t bytes i j).2 = j → (dtMatchLoop t bytes i j).1 = i) := by
  induction bytes generalizing i j with
  | nil => exact ⟨le_rfl, le_rfl, fun _ => rfl⟩
  | cons b rest ih =>
      rw [dtMatchLoop, List.length_cons]
      split
      · split
        · obtain ⟨hle, hge, -⟩ := @ih 0 (j + 1)
          refine ⟨by omega, by omega, fun h => by omega⟩
        · obtain ⟨hle, hge, -⟩ := @ih (i + 1) (j + 1)
          refine ⟨by omega, by omega, fun h => by omega⟩
      · exact ⟨le_rfl, Nat.le_add_right _ _, fun _ => rfl⟩

end Scan

/-! ## Strings -/

/-- A string in which the scan for `target` succeeds. -/
def Misleads (target s : List UInt8) : Prop := ∃ u, FalseStarts (target ++ [0]) u ∧ s = u ++ target

section Strings

variable {target s bytes rest : List UInt8} {i : Nat}

/-- One string: the scan succeeds at its terminator, or begins anew behind it. -/
theorem occurs_string (htarget : (0 : UInt8) ∉ target) (hs : (0 : UInt8) ∉ s) (hi : i ≤ target.length) :
    Occurs (target ++ [0]) ((target ++ [0]).take i ++ (s ++ 0 :: rest)) ↔
      (∃ u, FalseStarts (target ++ [0]) u ∧ (target ++ [0]).take i ++ s = u ++ target) ∨
        Occurs (target ++ [0]) rest := by
  have hlen : (target ++ [0]).length = target.length + 1 := List.length_append
  have hlast : (target ++ [0])[target.length]? = some 0 := by simp
  have hmem : ∀ {i}, i < target.length → (target ++ [0])[i]? ≠ some 0 := by
    intro i hlt heq
    rw [List.getElem?_append_left hlt] at heq
    exact htarget (List.mem_of_getElem? heq)
  have hshort : ∀ {i} {r : List UInt8}, i ≤ target.length → target.length < i + r.length →
      (target ++ [0]).take i ++ r ≠ target := by
    intro i r hi hlt heq
    have hl := congrArg List.length heq
    rw [List.length_append, List.length_take_of_le (by omega)] at hl
    omega
  induction s generalizing i with
  | nil =>
      rw [List.nil_append, List.append_nil]
      rcases hi.eq_or_lt with rfl | hlt
      · -- everything fits
        refine iff_of_true ⟨[], rest, .nil, ?_⟩ (Or.inl ⟨[], .nil, ?_⟩)
        · rw [List.take_left, List.nil_append, List.append_assoc, List.singleton_append]
        · rw [List.take_left, List.nil_append]
      · rw [occurs_cons_iff (by omega) (hmem hlt)]
        constructor
        · exact Or.inr
        · rintro (⟨u, -, heq⟩ | hrest)
          · have hl := congrArg List.length heq
            rw [List.length_append, List.length_take_of_le (by omega)] at hl
            omega
          · exact hrest
  | cons b s ih =>
      obtain ⟨hb0, hs⟩ := List.ne_and_not_mem_of_not_mem_cons hs
      rw [List.cons_append]
      by_cases hb : (target ++ [0])[i]? = some b
      · have hlt : i < target.length := by
          refine lt_of_le_of_ne hi ?_
          rintro rfl
          rw [hlast, Option.some.injEq] at hb
          exact hb0 hb
        have hstep : ∀ r, (target ++ [0]).take i ++ b :: r = (target ++ [0]).take (i + 1) ++ r := by
          intro r
          rw [take_succ_of_getElem? hb, List.append_assoc, List.singleton_append]
        rw [hstep, hstep]
        exact ih hs hlt
      · rw [occurs_cons_iff (by omega) hb]
        have hzero := ih hs (Nat.zero_le target.length)
        rw [List.take_zero, List.nil_append, List.nil_append] at hzero
        refine hzero.trans ?_
        -- the string is longer than what fitted
        by_cases hend : i = target.length
        · rw [exists_falseStarts_iff (by omega) hb fun r => hshort hi (by simp [hend])]
        · rw [exists_falseStarts_iff (by omega) hb]
          intro r heq
          have hget := congrArg (·[i]?) heq
          have hl : ((target ++ [0]).take i).length = i := List.length_take_of_le (by omega)
          simp only [List.getElem?_append_right hl.le, hl, Nat.sub_self, List.getElem?_cons_zero] at hget
          rw [List.getElem?_append_left (by omega)] at hb
          exact hb hget.symm

/-- **The scan of a list of strings** succeeds when one of them misleads it. -/
theorem occurs_strlist {target : List UInt8} (htarget : (0 : UInt8) ∉ target) (strs : List DtName) :
    Occurs (target ++ [0]) (strlistBytes strs) ↔ ∃ s ∈ strs, Misleads target s := by
  induction strs with
  | nil =>
      refine iff_of_false ?_ (by simp)
      rintro ⟨u, v, -, heq⟩
      have hl := congrArg List.length heq
      simp [strlistBytes] at hl
  | cons s strs ih =>
      have hcons : strlistBytes (s :: strs) = (target ++ [0]).take 0 ++ (s.1 ++ 0 :: strlistBytes strs) := by
        simp [strlistBytes]
      rw [hcons, occurs_string htarget s.2 (Nat.zero_le _), ih]
      simp [Misleads]

end Strings

/-! ## The answer -/

/-- The answer is right: it is not zero when the target is one of the strings, and only then. -/
def MatchesRightly (strs : List DtName) (target : DtName) : Prop :=
  dtMatchStrlist (strlistBytes strs) (strlistBytes strs).length target.1 ≠ 0 ↔ target ∈ strs

/-- The condition: unless the target is one of the strings, the scan for it succeeds in none. A target of `2 ^ 31`
bytes and more, which `strlen` does not count, is not one of them, nor do the bytes that are compared occur. -/
def NotMisled (strs : List DtName) (target : DtName) : Prop :=
  if target.1.length < 2 ^ 31 then target ∈ strs ∨ ∀ s ∈ strs, ¬ Misleads target.1 s
  else target ∉ strs ∧ (target.1.length % 2 ^ 32 < 2 ^ 31 →
    ¬ Occurs (target.1.take (target.1.length % 2 ^ 32 + 1)) (strlistBytes strs))

section Answer

variable {strs : List DtName} {target : DtName}

/-- `strlen` up to the range of an `int`, modulo that range. -/
theorem strlen_eq_mod {str : List UInt8} (h : str.length % 2 ^ 32 < 2 ^ 31) : strlen str = str.length % 2 ^ 32 := by
  unfold strlen
  rw [Int.bmod_def]
  omega

/-- Other lengths become more bytes than any property has, or none. -/
theorem strlen_of_not_lt {str : List UInt8} (h : ¬ str.length % 2 ^ 32 < 2 ^ 31) :
    (strlen str + 1) % wordSize = 0 ∨ 2 ^ 63 ≤ (strlen str + 1) % wordSize := by
  rw [wordSize_eq]
  unfold strlen
  generalize str.length = n at h ⊢
  have hbmod : Int.bmod n (2 ^ 32) = (n : ℤ) % 4294967296 - 4294967296 := by
    rw [Int.bmod_def]
    omega
  rw [hbmod]
  omega

/-- The scan for them succeeds nowhere. -/
theorem dtMatchStrlist_of_not_lt {values str : List UInt8} (hlen : values.length < 2 ^ 32)
    (h : ¬ str.length % 2 ^ 32 < 2 ^ 31) : dtMatchStrlist values values.length str = 0 := by
  rw [dtMatchStrlist]
  rcases strlen_of_not_lt h with hzero | hbig
  · rw [hzero]
    have hloop : dtMatchLoop [] values 0 0 = (0, 0) := dtMatchLoop_of_le (Nat.zero_le _)
    simp [hloop]
  · exact if_pos (by omega)

/-- **The scan decides** whether the bytes that are compared occur. -/
theorem dtMatchStrlist_ne_zero_iff {values str : List UInt8} (hlen : values.length < 2 ^ 32)
    (hstr : (strlen str + 1) % wordSize = strlen str + 1) (htake : strlen str ≤ str.length) :
    dtMatchStrlist values values.length str ≠ 0 ↔ Occurs ((str ++ [0]).take (strlen str + 1)) values := by
  have hl : ((str ++ [0]).take (strlen str + 1)).length = strlen str + 1 := by
    apply List.length_take_of_le
    rw [List.length_append, List.length_singleton]
    exact Nat.succ_le_succ htake
  rw [dtMatchStrlist]
  simp only [hstr]
  generalize (str ++ [0]).take (strlen str + 1) = t at hl
  split
  · -- the property is too short
    rename_i hshort
    refine iff_of_false (fun h => h rfl) ?_
    rintro ⟨u, v, -, rfl⟩
    simp only [List.length_append] at hshort
    omega
  · have hpos : 0 < t.length := by omega
    have hfst : (dtMatchLoop t values 0 0).1 = t.length ↔ Occurs t (t.take 0 ++ values) := dtMatchLoop_fst_iff hpos
    have hsnd : 0 ≤ (dtMatchLoop t values 0 0).2 ∧ (dtMatchLoop t values 0 0).2 ≤ 0 + values.length ∧
        ((dtMatchLoop t values 0 0).2 = 0 → (dtMatchLoop t values 0 0).1 = 0) := dtMatchLoop_snd
    obtain ⟨-, hle, hzero⟩ := hsnd
    rw [List.take_zero, List.nil_append, hl] at hfst
    rw [← hfst]
    split
    · rename_i hall
      refine iff_of_true ?_ hall
      -- bytes were read, and fewer than an `int` counts twice
      have hread : (dtMatchLoop t values 0 0).2 ≠ 0 := fun h => by
        rw [hzero h] at hall
        omega
      rw [Int.bmod_def]
      omega
    · rename_i hall
      exact iff_of_false (fun h => h rfl) hall

theorem length_le_strlistBytes (h : target ∈ strs) : target.1.length < (strlistBytes strs).length := by
  induction strs with
  | nil => cases h
  | cons s strs ih =>
      rw [strlistBytes, List.flatMap_cons, List.length_append, List.length_append, List.length_singleton]
      rcases List.mem_cons.mp h with rfl | h
      · omega
      · have := ih h
        rw [strlistBytes] at this
        omega

/-- The scan succeeds in the target itself. -/
theorem misleads_self (target : List UInt8) : Misleads target target := ⟨[], .nil, rfl⟩

/-- **The answer is right** exactly when the scan is not misled, for every property of whole strings. -/
theorem dt_match_strlist_iff (strs : List DtName) (target : DtName) (hlen : (strlistBytes strs).length < 2 ^ 32) :
    MatchesRightly strs target ↔ NotMisled strs target := by
  rw [MatchesRightly, NotMisled]
  -- the length of the target is an int, and is taken as a size
  by_cases hk : target.1.length % 2 ^ 32 < 2 ^ 31
  · have hstr := strlen_eq_mod hk
    -- the terminator is compared too
    have hmod : (strlen target.1 + 1) % wordSize = strlen target.1 + 1 := by
      rw [hstr, wordSize_eq, Nat.mod_eq_of_lt]
      omega
    rw [dtMatchStrlist_ne_zero_iff hlen hmod (by rw [hstr]; exact Nat.mod_le _ _), hstr]
    split
    · rename_i hsmall
      rw [Nat.mod_eq_of_lt (by omega), List.take_of_length_le (by simp), occurs_strlist target.2]
      constructor
      · intro hiff
        by_cases hmem : target ∈ strs
        · exact Or.inl hmem
        · exact Or.inr fun s hs hmis => hmem (hiff.mp ⟨s, hs, hmis⟩)
      · rintro (hmem | hnone)
        · exact iff_of_true ⟨target, hmem, misleads_self _⟩ hmem
        · refine iff_of_false ?_ fun hmem => hnone target hmem (misleads_self _)
          rintro ⟨s, hs, hmis⟩
          exact hnone s hs hmis
    · rename_i hbig
      -- a target longer than the list is not in it
      have hnot : target ∉ strs := fun hmem => by
        have := length_le_strlistBytes hmem
        omega
      rw [List.take_append_of_le_length (by omega)]
      simp only [hnot, hk, iff_false, not_false_eq_true, true_and, true_implies]
  · rw [dtMatchStrlist_of_not_lt hlen hk, if_neg (by omega)]
    simp only [ne_eq, not_true_eq_false, false_iff, hk, false_implies, and_true]

/-- The name that `cpus_check` looks for. -/
def riscvName : DtName := ⟨[114, 105, 115, 99, 118], by decide⟩

/-- The only string is the target. -/
theorem dt_match_strlist_iff_self : MatchesRightly [riscvName] riscvName :=
  (dt_match_strlist_iff _ _ (by decide)).mpr (Or.inl (List.mem_singleton.mpr rfl))

/-- The answer is not always right: the name at the end of a longer one counts. -/
theorem dt_match_strlist_wrong : ¬ ∀ (strs : List DtName) (target : DtName), target.1 ≠ [] →
    (strlistBytes strs).length < 2 ^ 32 → MatchesRightly strs target := by
  intro hall
  have hright := hall [⟨45 :: riscvName.1, by decide⟩] riscvName (by decide) (by decide)
  rw [MatchesRightly] at hright
  have hmem := hright.mp (by decide +kernel)
  exact absurd hmem (by decide)

end Answer

end Jrinx
