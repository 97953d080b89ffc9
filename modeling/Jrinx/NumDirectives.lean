import Jrinx.Printfmt

/-! # Directives for numbers

A directive for a number has a flag, a width, some `l`s and a conversion. The text that it stands for denotes the
value of the argument in its C type. What `vprintfmt` prints is that text for the conversion with a sign and for
arguments of type `long`. An `unsigned int` from `2 ^ 31` on is printed as the `unsigned long` with the same sign.

* **`NumDirective`**, **`NumDirective.denote`** — a directive, and the text that it stands for.
* **`NumDirective.printed`** — the text that is printed.
* **`vprintfmt_num_iff`** — when they are the same. -/

namespace Jrinx

/-! ## What a directive stands for -/

/-- The conversions of numbers. -/
inductive NumConv where
  | b | d | D | o | O | u | U | x | X
  deriving DecidableEq

namespace NumConv

def char : NumConv → Char
  | b => 'b'
  | d => 'd'
  | D => 'D'
  | o => 'o'
  | O => 'O'
  | u => 'u'
  | U => 'U'
  | x => 'x'
  | X => 'X'

def base : NumConv → Nat
  | b => 2
  | o | O => 8
  | d | D | u | U => 10
  | x | X => 16

/-- Whether the type of the argument has a sign. -/
def isSigned : NumConv → Bool
  | d | D => true
  | _ => false

def upcase : NumConv → Bool
  | X => true
  | _ => false

theorem two_le_base (conv : NumConv) : 2 ≤ conv.base := by
  cases conv <;> decide

theorem base_le (conv : NumConv) : conv.base ≤ 16 := by
  cases conv <;> decide

end NumConv

/-- The flags. -/
inductive NumFlag where
  | none | minus | zero

def NumFlag.text : NumFlag → List Char
  | none => []
  | minus => ['-']
  | zero => ['0']

/-- **A directive for a number.** Without a flag, a width does not start with the digit that is one. -/
structure NumDirective where
  flag : NumFlag
  width : List Char
  longs : Nat
  conv : NumConv
  width_digits : ∀ c ∈ width, '0' ≤ c ∧ c ≤ '9'
  width_flag : flag = .none → width.head? ≠ some '0'

namespace NumDirective

variable (dir : NumDirective)

/-- What stands behind the `%`. -/
def body : List Char := dir.flag.text ++ dir.width ++ List.replicate dir.longs 'l' ++ [dir.conv.char]

def text : List Char := '%' :: dir.body

/-- The number that the text of the width denotes. -/
def widthVal : Nat := valueOf 10 dir.width

def ladjust : Bool := match dir.flag with
  | .minus => true
  | _ => false

def padc : Char := match dir.flag with
  | .zero => '0'
  | _ => ' '

/-- The value of an argument in its C type. -/
def value : VaArg → Option Int
  | .int v => if dir.longs ≠ 0 then none else some (if dir.conv.isSigned then v.toInt else v.toNat)
  | .long v => if dir.longs ≠ 0 then some (if dir.conv.isSigned then v.toInt else v.toNat) else none
  | _ => none

/-- **The text that the directive stands for**, for an argument with the value `z`. -/
def denote (z : Int) : List Char :=
  paddedText dir.ladjust dir.padc dir.widthVal (if z < 0 then ['-'] else [])
    (numeral dir.conv.base dir.conv.upcase z.natAbs)

/-- The directive prints that text, wherever it stands in a format. -/
def Prints (arg : VaArg) (z : Int) : Prop :=
  ∀ pre rest ap t, '%' ∉ pre → vprintfmt rest ap = some t →
    vprintfmt (pre ++ dir.text ++ rest) (arg :: ap) = some (pre ++ dir.denote z ++ t)

/-! ## What is printed -/

/-- The text that is printed for an argument that was read. -/
def printed (num : BitVec 64) : Option (List Char) :=
  if dir.conv.isSigned then
    printNum (if num.slt 0 then -num else num) 10 (num.slt 0) (signed 32 dir.widthVal) dir.ladjust dir.padc false
  else printNum num dir.conv.base false (signed 32 dir.widthVal) dir.ladjust dir.padc dir.conv.upcase

theorem padc_eq : dir.padc = ' ' ∨ dir.padc = '0' := by
  unfold padc
  split
  · exact Or.inr rfl
  · exact Or.inl rfl

end NumDirective

/-- The loop over the width, up to what is not a digit. -/
theorem fmtWidth_eq {ds : List Char} (hds : ∀ c ∈ ds, '0' ≤ c ∧ c ≤ '9') {c : Char} (hc : ¬ ('0' ≤ c ∧ c ≤ '9'))
    (fmt : List Char) (x : Nat) :
    fmtWidth (ds ++ c :: fmt) (signed 32 x) =
      (signed 32 (ds.foldl (fun v c => v * 10 + digitVal c) x : Nat), c :: fmt) := by
  induction ds generalizing x with
  | nil =>
      rw [List.nil_append, fmtWidth, if_neg hc]
      rfl
  | cons d ds ih =>
      obtain ⟨hlo, hhi⟩ := hds d List.mem_cons_self
      have hval : (digitVal d : Int) = d.toNat - '0'.toNat := by
        have hle : '0'.toNat ≤ d.toNat := hlo
        rw [digitVal, if_pos hhi]
        omega
      have hstep : signed 32 (signed 32 x * 10 + d.toNat - '0'.toNat) = signed 32 (x * 10 + digitVal d : Nat) := by
        push_cast
        rw [hval, Int.add_sub_assoc, signed, signed, signed, ← Int.bmod_add_bmod, Int.bmod_mul_bmod, Int.bmod_add_bmod]
        rfl
      rw [List.cons_append, fmtWidth, if_pos ⟨hlo, hhi⟩, hstep, List.foldl_cons]
      exact ih (fun c hc => hds c (List.mem_cons_of_mem d hc)) _

/-- The loop over the `l`s. -/
theorem fmtLong_eq {c : Char} (hc : c ≠ 'l') (n : Nat) (fmt : List Char) (longFlag : Bool) :
    fmtLong (List.replicate n 'l' ++ c :: fmt) longFlag = (longFlag || decide (n ≠ 0), c :: fmt) := by
  induction n generalizing longFlag with
  | zero =>
      rw [List.replicate_zero, List.nil_append, fmtLong.eq_def]
      split
      · rename_i heq
        cases heq
        exact absurd rfl hc
      · simp
  | succ n ih =>
      rw [List.replicate_succ, List.cons_append, fmtLong, ih]
      simp

namespace NumDirective

variable (dir : NumDirective)

/-- Without a flag, a format does not start with one. -/
theorem fmtFlag_eq_self {fmt : List Char} (hminus : fmt.head? ≠ some '-') (hzero : fmt.head? ≠ some '0') :
    fmtFlag fmt = (false, ' ', fmt) := by
  rw [fmtFlag.eq_def]
  split
  · exact absurd rfl hminus
  · exact absurd rfl hzero
  · rfl

theorem char_not_digit (conv : NumConv) : ¬ ('0' ≤ conv.char ∧ conv.char ≤ '9') := by
  cases conv <;> decide

theorem char_ne_l (conv : NumConv) : conv.char ≠ 'l' := by
  cases conv <;> decide

theorem char_ne_flag (conv : NumConv) : conv.char ≠ '-' ∧ conv.char ≠ '0' := by
  cases conv <;> decide

/-- The flag is read. -/
theorem fmtFlag_text (rest : List Char) :
    fmtFlag (dir.flag.text ++ (dir.width ++ (List.replicate dir.longs 'l' ++ dir.conv.char :: rest))) =
      (dir.ladjust, dir.padc, dir.width ++ (List.replicate dir.longs 'l' ++ dir.conv.char :: rest)) := by
  cases hflag : dir.flag with
  | minus => simp only [ladjust, padc, hflag]; rfl
  | zero => simp only [ladjust, padc, hflag]; rfl
  | none =>
      simp only [ladjust, padc, hflag]
      obtain ⟨hminus, hzero⟩ := char_ne_flag dir.conv
      -- the first character is of the width, an `l` or the conversion
      cases hw : dir.width with
      | cons c w =>
          have hc := dir.width_digits c (by simp [hw])
          have hc0 := dir.width_flag hflag
          rw [hw] at hc0
          refine fmtFlag_eq_self ?_ hc0
          rintro ⟨rfl⟩
          exact absurd hc (by decide)
      | nil =>
          cases dir.longs with
          | zero => exact fmtFlag_eq_self (by simpa [NumFlag.text] using hminus) (by simpa [NumFlag.text] using hzero)
          | succ n =>
              exact fmtFlag_eq_self (by simp [NumFlag.text, List.replicate_succ])
                (by simp [NumFlag.text, List.replicate_succ])

/-- The width is read, as an `int`. -/
theorem fmtWidth_text (rest : List Char) :
    fmtWidth (dir.width ++ (List.replicate dir.longs 'l' ++ dir.conv.char :: rest)) 0 =
      (signed 32 dir.widthVal, List.replicate dir.longs 'l' ++ dir.conv.char :: rest) := by
  have hfilter : dir.width.filter (· ≠ ' ') = dir.width := by
    rw [List.filter_eq_self]
    intro c hc
    refine decide_eq_true ?_
    rintro rfl
    exact absurd (dir.width_digits ' ' hc) (by decide)
  have hzero : signed 32 ((0 : Nat) : Int) = 0 := by decide
  rw [widthVal, valueOf, hfilter, ← hzero]
  cases dir.longs with
  | zero => exact fmtWidth_eq dir.width_digits (char_not_digit dir.conv) rest 0
  | succ n => exact fmtWidth_eq dir.width_digits (by decide) (List.replicate n 'l' ++ dir.conv.char :: rest) 0

/-- The flag, the width and the `l`s are read. -/
theorem fmtDirective_body (rest : List Char) (ap : List VaArg) :
    fmtDirective (dir.body ++ rest) ap =
      fmtConv (decide (dir.longs ≠ 0)) (signed 32 dir.widthVal) dir.ladjust dir.padc (dir.conv.char :: rest) ap := by
  have hbody : dir.body ++ rest =
      dir.flag.text ++ (dir.width ++ (List.replicate dir.longs 'l' ++ dir.conv.char :: rest)) := by simp [body]
  rw [fmtDirective, hbody, dir.fmtFlag_text]
  simp only [dir.fmtWidth_text, fmtLong_eq (char_ne_l dir.conv), Bool.false_or]

theorem fmtUnsigned_eq (base : Nat) (upcase longFlag : Bool) (width : Int) (ladjust : Bool) (padc : Char)
    (fmt : List Char) (ap : List VaArg) :
    fmtUnsigned base upcase longFlag width ladjust padc fmt ap =
      (vaNum longFlag ap).bind fun r =>
        (printNum r.1 base false width ladjust padc upcase).map fun out => (out, fmt, r.2) := by
  rw [fmtUnsigned]
  cases vaNum longFlag ap with
  | none => rfl
  | some r =>
      rw [Option.bind_some, Option.map_eq_bind]
      rfl

theorem fmtSigned_eq (longFlag : Bool) (width : Int) (ladjust : Bool) (padc : Char) (fmt : List Char)
    (ap : List VaArg) :
    fmtSigned longFlag width ladjust padc fmt ap =
      (vaNum longFlag ap).bind fun r =>
        (printNum (if r.1.slt 0 then -r.1 else r.1) 10 (r.1.slt 0) width ladjust padc false).map fun out =>
          (out, fmt, r.2) := by
  rw [fmtSigned]
  cases vaNum longFlag ap with
  | none => rfl
  | some r =>
      rw [Option.bind_some, Option.map_eq_bind]
      rfl

/-- The argument is read, and its text printed. -/
theorem fmtConv_char (longFlag : Bool) (rest : List Char) (ap : List VaArg) :
    fmtConv longFlag (signed 32 dir.widthVal) dir.ladjust dir.padc (dir.conv.char :: rest) ap =
      (vaNum longFlag ap).bind fun r => (dir.printed r.1).map fun out => (out, rest, r.2) := by
  cases hconv : dir.conv <;>
    simp only [NumConv.char, fmtConv, fmtUnsigned_eq, fmtSigned_eq, printed, hconv, NumConv.isSigned, NumConv.base,
      NumConv.upcase, Bool.false_eq_true, if_true, if_false]

/-- The `long` into which an argument is read. -/
def num : VaArg → BitVec 64
  | .int v => v.signExtend 64
  | .long v => v
  | _ => 0

/-- The argument of the type that the directive names is read. -/
theorem vaNum_eq {arg : VaArg} {z : Int} (harg : dir.value arg = some z) (ap : List VaArg) :
    vaNum (decide (dir.longs ≠ 0)) (arg :: ap) = some (num arg, ap) := by
  cases arg with
  | int v =>
      by_cases hl : dir.longs ≠ 0
      · rw [value, if_pos hl] at harg
        cases harg
      · rw [vaNum, if_neg (by simpa using hl)]
        rfl
  | long v =>
      by_cases hl : dir.longs ≠ 0
      · rw [vaNum, if_pos (by simpa using hl)]
        rfl
      · rw [value, if_neg hl] at harg
        cases harg
  | _ => cases harg

/-- **A directive prints its text** iff that is what is printed for the argument. -/
theorem prints_iff {arg : VaArg} {z : Int} (harg : dir.value arg = some z) :
    dir.Prints arg z ↔ dir.printed (num arg) = some (dir.denote z) := by
  have hrun : ∀ pre rest ap, '%' ∉ pre → vprintfmt (pre ++ dir.text ++ rest) (arg :: ap) =
      (dir.printed (num arg)).bind fun out => (vprintfmt rest ap).map fun t => pre ++ out ++ t := by
    intro pre rest ap hpre
    have hfmt : pre ++ dir.text ++ rest = pre ++ '%' :: (dir.body ++ rest) := by simp [text]
    have hne : dir.body ++ rest ≠ [] := by simp [body]
    rw [hfmt, vprintfmt_directive hpre hne, dir.fmtDirective_body, dir.fmtConv_char, dir.vaNum_eq harg,
      Option.bind_some]
    cases dir.printed (num arg) <;> rfl
  constructor
  · intro h
    have hempty := h [] [] [] [] List.not_mem_nil rfl
    rw [hrun [] [] [] List.not_mem_nil] at hempty
    have hnil : vprintfmt [] [] = some [] := rfl
    rw [hnil] at hempty
    cases hp : dir.printed (num arg) with
    | none =>
        rw [hp] at hempty
        cases hempty
    | some out =>
        rw [hp] at hempty
        simpa using hempty
  · intro h pre rest ap t hpre ht
    rw [hrun pre rest ap hpre, h, ht]
    rfl

/-! ## When it is the text that the directive stands for -/

/-- A width from `2 ^ 31 - 70` on is too much for the size of the buffer. -/
theorem printed_ne_of_width (hW : ¬ dir.widthVal + 70 < 2 ^ 31) (v : BitVec 64) (z : Int) :
    dir.printed v ≠ some (dir.denote z) := by
  have hlong : dir.widthVal ≤ (dir.denote z).length := by
    rw [denote, paddedText]
    split
    · simp only [List.length_append, List.length_replicate]
      omega
    · split <;> simp only [List.length_append, List.length_replicate] <;> omega
  have hfit := fitsSigned_signed 32 (dir.widthVal : Int)
  have hlt : signed 32 (dir.widthVal : Int) < 2 ^ 31 := by
    have := hfit.2
    omega
  -- what is printed is shorter, if anything is
  have hshort : ∀ {u : BitVec 64} {base neg up}, dir.widthVal < 2 ^ 31 ∨ 2 ^ 31 ≤ dir.widthVal →
      printNum u base neg (signed 32 dir.widthVal) dir.ladjust dir.padc up ≠ some (dir.denote z) := by
    rintro u base neg up (hw | hw) heq
    · have hself : signed 32 (dir.widthVal : Int) = dir.widthVal := signed_eq_self.mpr ⟨by omega, by omega⟩
      have hcap : signed 32 (signed 32 (dir.widthVal : Int) + 70) ≤ 0 := by
        rw [hself, signed, Int.bmod_def]
        split <;> omega
      rw [printNum_eq_none hcap] at heq
      cases heq
    · have := length_of_printNum hlt heq
      omega
  unfold printed
  split
  · exact hshort (Nat.lt_or_ge _ _)
  · exact hshort (Nat.lt_or_ge _ _)

/-- A number without a sign can be read off the text that the directive stands for. -/
theorem valueOf_denote (v : Nat) : valueOf dir.conv.base (dir.denote v) = v := by
  have hnum := valueOf_numeral dir.conv.two_le_base dir.conv.base_le dir.conv.upcase v
  rw [denote, if_neg (by omega), Int.natAbs_natCast, paddedText]
  split
  · rw [List.nil_append, valueOf_append_spaces, hnum]
  · split
    · rw [List.nil_append, valueOf_zeros_append, hnum]
    · rw [List.append_nil, valueOf_spaces_append, hnum]

/-- The absolute value of a `long`, which is an `unsigned long`. -/
theorem toNat_abs (v : BitVec 64) : (if v.slt 0 then -v else v).toNat = v.toInt.natAbs := by
  have hlt := v.isLt
  have hint := BitVec.toInt_eq_toNat_cond v
  have hslt : v.slt 0 = true ↔ v.toInt < 0 := BitVec.slt_iff_toInt_lt
  by_cases hneg : v.slt 0 = true
  · have hneg' := hslt.mp hneg
    rw [if_pos hneg, BitVec.toNat_neg]
    split at hint <;> omega
  · have hneg' : ¬ v.toInt < 0 := fun h => hneg (hslt.mpr h)
    rw [if_neg hneg]
    split at hint <;> omega

/-- **What is printed** is the value of the `long` into which the argument was read, or of the `unsigned long`. -/
theorem printed_eq (hW : dir.widthVal + 70 < 2 ^ 31) (v : BitVec 64) :
    dir.printed v = some (dir.denote (if dir.conv.isSigned then v.toInt else v.toNat)) := by
  have hself : signed 32 (dir.widthVal : Int) = dir.widthVal := signed_eq_self.mpr ⟨by omega, by omega⟩
  unfold printed
  rw [hself, denote]
  by_cases hs : dir.conv.isSigned = true
  · have hbase : dir.conv.base = 10 ∧ dir.conv.upcase = false := by
      cases hconv : dir.conv <;> rw [hconv] at hs <;> first | exact ⟨rfl, rfl⟩ | cases hs
    have hslt : v.slt 0 = true ↔ v.toInt < 0 := BitVec.slt_iff_toInt_lt
    have hsign : (if v.slt 0 = true then ['-'] else []) = if v.toInt < 0 then ['-'] else [] := if_congr hslt rfl rfl
    rw [if_pos hs, if_pos hs, printNum_eq (by decide) hW dir.padc_eq, hsign, toNat_abs, hbase.1, hbase.2]
  · have hpos : ¬ (v.toNat : Int) < 0 := by omega
    rw [if_neg hs, if_neg hs, printNum_eq dir.conv.two_le_base hW dir.padc_eq, if_neg hpos, Int.natAbs_natCast]
    rfl

/-- An `int` with the sign is extended to the same number, an `unsigned int` only below `2 ^ 31`. -/
theorem toNat_signExtend_eq_iff (v : BitVec 32) : (v.signExtend 64).toNat = v.toNat ↔ v.toNat < 2 ^ 31 := by
  have hlt := v.isLt
  have hint : (v.signExtend 64).toInt = v.toInt := BitVec.toInt_signExtend_of_le (by decide)
  rw [BitVec.toInt_eq_toNat_cond, BitVec.toInt_eq_toNat_cond] at hint
  split at hint <;> split at hint <;> omega

end NumDirective

/-- **When a number is printed faithfully**: in a field of less than `2 ^ 31 - 70` characters, if the conversion is
one with a sign, or the argument is a `long`, or its value is below `2 ^ 31`. -/
theorem vprintfmt_num_iff (dir : NumDirective) {arg : VaArg} {z : Int} (harg : dir.value arg = some z) :
    dir.Prints arg z ↔
      dir.widthVal + 70 < 2 ^ 31 ∧ (dir.conv.isSigned = true ∨ dir.longs ≠ 0 ∨ z < 2 ^ 31) := by
  rw [dir.prints_iff harg]
  by_cases hW : dir.widthVal + 70 < 2 ^ 31
  · rw [dir.printed_eq hW, and_iff_right hW]
    by_cases hs : dir.conv.isSigned = true
    · -- the sign is extended
      refine iff_of_true ?_ (Or.inl hs)
      have hz : (NumDirective.num arg).toInt = z := by
        cases arg with
        | int v =>
            by_cases hl : dir.longs ≠ 0 <;> simp [NumDirective.value, hl, hs] at harg
            rw [← harg]
            exact BitVec.toInt_signExtend_of_le (by decide)
        | long v =>
            by_cases hl : dir.longs ≠ 0 <;> simp [NumDirective.value, hl, hs] at harg
            exact harg
        | _ => cases harg
      rw [if_pos hs, hz]
    · rw [if_neg hs]
      cases arg with
      | int v =>
          by_cases hl : dir.longs ≠ 0 <;> simp [NumDirective.value, hl, hs] at harg
          subst harg
          have hiff := NumDirective.toNat_signExtend_eq_iff v
          constructor
          · intro heq
            have hval := congrArg (valueOf dir.conv.base) (Option.some.inj heq)
            rw [dir.valueOf_denote, dir.valueOf_denote] at hval
            have := hiff.mp hval
            exact Or.inr (Or.inr (by omega))
          · rintro (h | h | h)
            · exact absurd h hs
            · exact absurd h hl
            · have hlt : v.toNat < 2 ^ 31 := by omega
              show some (dir.denote ((v.signExtend 64).toNat : Int)) = _
              rw [hiff.mpr hlt]
      | long v =>
          by_cases hl : dir.longs ≠ 0 <;> simp [NumDirective.value, hl, hs] at harg
          subst harg
          exact iff_of_true rfl (Or.inr (Or.inl hl))
      | _ => cases harg
  · exact iff_of_false (dir.printed_ne_of_width hW _ z) fun h => hW h.1

/-- `%-6lX` -/
def leftHex : NumDirective where
  flag := .minus
  width := ['6']
  longs := 1
  conv := .X
  width_digits c hc := by
    obtain rfl := List.mem_singleton.mp hc
    decide
  width_flag := by simp

theorem vprintfmt_num_iff_long : leftHex.Prints (.long 0xFFFFFFFF) 0xFFFFFFFF :=
  (vprintfmt_num_iff leftHex rfl).mpr ⟨by decide, Or.inr (Or.inl (by decide))⟩

/-- `%x` -/
def plainHex : NumDirective where
  flag := .none
  width := []
  longs := 0
  conv := .x
  width_digits := by simp
  width_flag := by simp

/-- The largest `unsigned int` is printed as the largest `unsigned long`. -/
theorem vprintfmt_num_wrong :
    plainHex.value (.int 0xFFFFFFFF) = some 0xFFFFFFFF ∧ plainHex.denote 0xFFFFFFFF = "ffffffff".toList ∧
      vprintfmt "%x".toList [.int 0xFFFFFFFF] = some "ffffffffffffffff".toList ∧
      ¬ plainHex.Prints (.int 0xFFFFFFFF) 0xFFFFFFFF := by
  have hprint : vprintfmt "%x".toList [.int 0xFFFFFFFF] = some "ffffffffffffffff".toList := by decide
  have hdenote : plainHex.denote 0xFFFFFFFF = "ffffffff".toList := by decide
  refine ⟨rfl, hdenote, hprint, fun h => ?_⟩
  have hown := h [] [] [] [] List.not_mem_nil rfl
  rw [hdenote] at hown
  exact absurd (hprint.symm.trans hown) (by decide)

end Jrinx
