import Jrinx.Boot.Tables

/-! # The encoder of the configuration

`scripts/python/sysconf.py` writes the tables of a configuration file as the arguments of the kernel. An
item is a mapping whose keys come in the order of the file.

* **`encodeConf`** — the arguments, and **`argStr`** with which the kernel finds one of them.
* **`atoi_toString`** — what `atoi` makes of a number that was written.
* **`argWords_encodeConf`**, **`argStr_confArg`** — the kernel finds the text of every table that is not empty. -/

namespace Jrinx

/-! ## The encoder -/

/-- The values of an item. -/
inductive ConfVal where
  | str (s : String)
  | int (n : Int)
  | strs (l : List String)
  deriving DecidableEq, Repr

/-- What `ITEM_ENCODING_FUNC` makes of a value: the expressions of `memory` and `max-msg-size` are read as
the numbers they stand for. -/
def encodeVal : ConfVal → String
  | .str s => s
  | .int n => toString n
  | .strs l => String.ofList (['&'].intercalate (l.map String.toList))

/-- `encode_item`. -/
def encodeItem (kv : String × ConfVal) : List Char := kv.1.toList ++ '=' :: (encodeVal kv.2).toList

/-- The text of a table. -/
def encodeTable (items : List (List (String × ConfVal))) : List Char :=
  [';'].intercalate (items.map fun it => [','].intercalate (it.map encodeItem))

/-- The tables of a configuration file. -/
structure SysConf where
  partitions : List (List (String × ConfVal))
  scheduler : List (List (String × ConfVal))
  queuingPorts : List (List (String × ConfVal))
  channel : List (List (String × ConfVal))

/-- An option with its table, unless the table is empty. -/
def confArg (opt : String) (items : List (List (String × ConfVal))) : List (List Char) :=
  if items = [] then [] else [opt.toList, encodeTable items]

/-- The list `res` of `encode_conf`. -/
def confArgs (conf : SysConf) : List (List Char) :=
  confArg "--pa-conf" conf.partitions ++ confArg "--sc-conf" conf.scheduler ++
    confArg "--qp-conf" conf.queuingPorts ++ confArg "--ch-conf" conf.channel

/-- `encode_conf`. -/
def encodeConf (conf : SysConf) : List Char := [' '].intercalate (confArgs conf)

/-- The words that `args_evaluate` separates. -/
def argWords (text : List Char) : List (List Char) := (text.splitOn ' ').filter (· ≠ [])

/-- What `args_parse` stores for an option with a string. -/
def argStr (opt : String) : List (List Char) → Option (List Char)
  | w :: v :: ws => if w = opt.toList then some v else argStr opt ws
  | _ => none

/-! ## Numbers -/

theorem bmod_mul_add_bmod (a b : Int) (n : Nat) (m : Nat) :
    Int.bmod (Int.bmod a n * m + b) n = Int.bmod (a * m + b) n := by
  rw [← Int.bmod_add_bmod, Int.bmod_mul_bmod, Int.bmod_add_bmod]

/-- The digits of a number, read with wrap-around. -/
theorem foldl_digits (l : List Char) (h : ∀ c ∈ l, c.isDigit = true) (res : Int) (init : ℕ)
    (hres : Int.bmod res (2 ^ 64) = Int.bmod init (2 ^ 64)) :
    Int.bmod (l.foldl (fun res c => Int.bmod (res * 10 + c.toNat - '0'.toNat) (2 ^ 64)) res) (2 ^ 64) =
      Int.bmod (Nat.ofDigitChars 10 l init) (2 ^ 64) := by
  induction l generalizing res init with
  | nil => simpa using hres
  | cons c l ih =>
      rw [List.foldl_cons, Nat.ofDigitChars_cons]
      apply ih fun c' hc' => h c' (List.mem_cons_of_mem c hc')
      have hdigit : '0'.toNat ≤ c.toNat := by
        have hc := h c (by simp)
        simp only [Char.isDigit, ge_iff_le, Bool.and_eq_true, decide_eq_true_eq] at hc
        exact hc.1
      have hcast : ((10 * init + (c.toNat - '0'.toNat) : ℕ) : Int) =
          (init : Int) * (10 : ℕ) + ((c.toNat : Int) - '0'.toNat) := by
        rw [Nat.cast_add, Nat.cast_sub hdigit]
        push_cast
        ring
      have hstep : res * 10 + (c.toNat : Int) - '0'.toNat =
          res * (10 : ℕ) + ((c.toNat : Int) - '0'.toNat) := by
        push_cast
        ring
      rw [Int.bmod_bmod, hcast, hstep, ← bmod_mul_add_bmod, hres, bmod_mul_add_bmod]

theorem strtolSign_digits {l : List Char} (h : ∀ c ∈ l, c.isDigit = true) (sign : Int) :
    strtolSign l sign = (sign, l) := by
  cases l with
  | nil => rfl
  | cons c l =>
      have hc := h c (by simp)
      have hm : c ≠ '-' := fun heq => absurd (heq ▸ hc) (by decide)
      have hp : c ≠ '+' := fun heq => absurd (heq ▸ hc) (by decide)
      rw [strtolSign, if_neg hm, if_neg hp]

theorem isDigit_of_mem_repr (n : ℕ) : ∀ c ∈ n.repr.toList, c.isDigit = true := by
  intro c hc
  rw [Nat.toList_repr] at hc
  exact Nat.isDigit_of_mem_toDigits (by decide) (by decide) hc

/-- `strtol` reads a natural number after its sign. -/
theorem bmod_strtol_digits (n : ℕ) (sign : Int) :
    Int.bmod (sign * n.repr.toList.foldl
      (fun res c => Int.bmod (res * 10 + c.toNat - '0'.toNat) (2 ^ 64)) 0) (2 ^ 64) =
      Int.bmod (sign * n) (2 ^ 64) := by
  have hread := foldl_digits n.repr.toList (isDigit_of_mem_repr n) 0 0 rfl
  rw [Nat.toList_repr, Nat.ofDigitChars_ten_toDigits] at hread
  rw [Nat.toList_repr, mul_comm, ← Int.bmod_mul_bmod, hread, Int.bmod_mul_bmod, mul_comm]

/-- **A number that was written is read as an `int`.** -/
theorem atoi_toString (n : Int) : atoi (toString n) = Int.bmod n (2 ^ 32) := by
  have hdvd : 2 ^ 32 ∣ 2 ^ 64 := by decide
  rw [atoi, strtol, Int.bmod_bmod_of_dvd hdvd, Int.toString_eq_repr, Int.repr_eq_if]
  split
  · rename_i hn
    have hsign := strtolSign_digits (isDigit_of_mem_repr n.toNat) 1
    simp only [hsign]
    rw [← Int.bmod_bmod_of_dvd hdvd, bmod_strtol_digits, Int.bmod_bmod_of_dvd hdvd, one_mul,
      Int.toNat_of_nonneg hn]
  · rename_i hn
    have hsign : strtolSign ("-" ++ (-n).toNat.repr).toList 1 = (-1, (-n).toNat.repr.toList) := by
      rw [String.toList_append]
      show strtolSign ('-' :: (-n).toNat.repr.toList) 1 = _
      rw [strtolSign, if_pos rfl, strtolSign_digits (isDigit_of_mem_repr _)]
    simp only [hsign]
    have hneg : ((-n).toNat : Int) = -n := Int.toNat_of_nonneg (by omega)
    rw [← Int.bmod_bmod_of_dvd hdvd, bmod_strtol_digits, Int.bmod_bmod_of_dvd hdvd, hneg, neg_mul_neg,
      one_mul]

/-- The characters of a number. -/
theorem of_mem_toString {n : Int} {c : Char} (h : c ∈ (toString n).toList) : c.isDigit = true ∨ c = '-' := by
  rw [Int.toString_eq_repr, Int.repr_eq_if] at h
  split at h
  · exact Or.inl (isDigit_of_mem_repr _ c h)
  · rw [String.toList_append] at h
    rcases List.mem_append.mp h with h | h
    · exact Or.inr (List.mem_singleton.mp h)
    · exact Or.inl (isDigit_of_mem_repr _ c h)

/-! ## The arguments -/

/-- An item as the decoder sees it. -/
def fieldsOf (it : List (String × ConfVal)) : Fields := it.map fun kv => (kv.1, encodeVal kv.2)

theorem encodeTable_eq (items : List (List (String × ConfVal))) :
    encodeTable items = tableText (items.map fieldsOf) := by
  rw [encodeTable, tableText, List.map_map]
  refine congrArg _ (List.map_congr_left fun it _ => ?_)
  rw [Function.comp_apply, fieldsOf, List.map_map]
  rfl

/-- The words of a table: it has items, its items have fields, and no string of it contains a space. -/
structure Spaceless (items : List (List (String × ConfVal))) : Prop where
  fields : ∀ it ∈ items, it ≠ []
  spaceless : ∀ it ∈ items, ∀ kv ∈ fieldsOf it, ' ' ∉ kv.1.toList ∧ ' ' ∉ kv.2.toList

theorem Spaceless.notMem {items : List (List (String × ConfVal))} (h : Spaceless items) :
    ' ' ∉ encodeTable items := by
  rw [encodeTable_eq]
  intro hmem
  rcases of_mem_tableText hmem with hc | hc | hc | ⟨_, hit, kv, hkv, hc⟩
  · exact absurd hc (by decide)
  · exact absurd hc (by decide)
  · exact absurd hc (by decide)
  · obtain ⟨it, hmem, rfl⟩ := List.mem_map.mp hit
    obtain ⟨hk, hv⟩ := h.spaceless it hmem kv hkv
    exact hc.elim hk hv

theorem Spaceless.ne_nil {items : List (List (String × ConfVal))} (h : Spaceless items) (hne : items ≠ []) :
    encodeTable items ≠ [] := by
  obtain ⟨it, items, rfl⟩ := List.exists_cons_of_ne_nil hne
  obtain ⟨kv, it, rfl⟩ := List.exists_cons_of_ne_nil (h.fields it (by simp))
  have hitem : '=' ∈ [','].intercalate ((kv :: it).map encodeItem) :=
    mem_intercalate_of_mem _ (List.mem_map_of_mem (List.mem_cons_self (a := kv))) (by simp [encodeItem])
  have htable : '=' ∈ encodeTable ((kv :: it) :: items) :=
    mem_intercalate_of_mem _ (List.mem_map_of_mem List.mem_cons_self) hitem
  intro hnil
  rw [hnil] at htable
  exact absurd htable (by simp)

theorem argStr_confArg (opt opt' : String) (items : List (List (String × ConfVal)))
    (ws : List (List Char)) : argStr opt (confArg opt' items ++ ws) =
      if items ≠ [] ∧ opt' = opt then some (encodeTable items) else argStr opt ws := by
  rw [confArg]
  by_cases hitems : items = []
  · simp [hitems]
  · by_cases hopt : opt' = opt
    · simp [hitems, hopt, argStr]
    · have hne : opt'.toList ≠ opt.toList := fun heq => hopt (String.toList_inj.mp heq)
      simp [hitems, hopt, argStr, hne]

/-- The words of the arguments are those that were joined. -/
theorem argWords_encodeConf {conf : SysConf} (hp : Spaceless conf.partitions) (hs : Spaceless conf.scheduler)
    (hq : Spaceless conf.queuingPorts) (hc : Spaceless conf.channel) :
    argWords (encodeConf conf) = confArgs conf := by
  have harg : ∀ {opt : String} {items : List (List (String × ConfVal))}, ' ' ∉ opt.toList →
      opt.toList ≠ [] → Spaceless items → ∀ w ∈ confArg opt items, ' ' ∉ w ∧ w ≠ [] := by
    intro opt items hopt hne hi w hw
    rw [confArg] at hw
    split at hw
    · exact absurd hw (by simp)
    · rename_i hitems
      rcases List.mem_pair.mp hw with rfl | rfl
      · exact ⟨hopt, hne⟩
      · exact ⟨hi.notMem, hi.ne_nil hitems⟩
  -- no argument is empty or has a space, so that the spaces are those between the arguments
  have hall : ∀ w ∈ confArgs conf, ' ' ∉ w ∧ w ≠ [] := by
    intro w hw
    simp only [confArgs, List.mem_append] at hw
    rcases hw with ((hw | hw) | hw) | hw
    · exact harg (by decide) (by decide) hp w hw
    · exact harg (by decide) (by decide) hs w hw
    · exact harg (by decide) (by decide) hq w hw
    · exact harg (by decide) (by decide) hc w hw
  rw [argWords, encodeConf]
  by_cases hnil : confArgs conf = []
  · rw [hnil]
    simp
  · rw [List.splitOn_intercalate ' ' (fun w hw => (hall w hw).1) hnil, List.filter_eq_self]
    exact fun w hw => by simpa using (hall w hw).2

end Jrinx
