import Jrinx.Lib.Buffers
import Jrinx.Lib.Numerals
import Jrinx.Lib.Signed
import Mathlib.Data.List.TakeWhile

/-! # Formatted printing

`lib/printfmt.c`. Every conversion of a number reads its argument into a `long` and prints that as an
`unsigned long`: an `int` is extended by its sign on the way, also where the conversion is one without a sign. The
digits go into a buffer of 70 bytes more than the width, last one first, are padded there and turned round.

* **`printNum`**, **`printNum_eq`** — the digits of a number in a field of some width.
* **`vprintfmt`** — the text of a format with its arguments; `none` is an access that C does not define.
* **`vprintfmt_directive`** — directive after directive. -/

namespace Jrinx

/-! ## The printers -/

/-- `do { … } while (u != 0)`: the digits of `u` behind what is written, the last one first. -/
def digitLoop (base : Nat) (upcase : Bool) (cap : Int) : Nat → Nat → List Char → Option (List Char)
  | 0, _, _ => none
  | n + 1, u, buf => do
      let buf ← bufWrite cap buf buf.length (digitOf upcase (u % base))
      if u / base ≠ 0 then digitLoop base upcase cap n (u / base) buf else some buf

/-- The buffer after the padding: behind the digits, or between the digits and the sign. -/
def numPad (cap : Int) (negFlag ladjust : Bool) (padc : Char) (buf : List Char) (length : Nat) : Option (List Char) :=
  let actualLength := buf.length
  let padc := if ladjust then ' ' else padc
  if negFlag && !ladjust && padc == '0' then do
    let buf ← bufFill cap padc buf (actualLength - 1) (length - 1 - (actualLength - 1))
    bufWrite cap buf (length - 1) '-'
  else bufFill cap padc buf actualLength (length - actualLength)

/-- The sign, behind the digits. -/
def numSign (cap : Int) (negFlag : Bool) (buf : List Char) : Option (List Char) :=
  if negFlag then bufWrite cap buf buf.length '-' else some buf

/-- The digits and the sign are padded and turned round. -/
def numField (cap : Int) (negFlag : Bool) (length : Int) (ladjust : Bool) (padc : Char) (buf : List Char) :
    Option (List Char) := do
  let actualLength := buf.length
  let length := if length < actualLength then actualLength else length.toNat
  let buf ← numPad cap negFlag ladjust padc buf length
  let buf ← bufReverse buf 0 (if ladjust then actualLength - 1 else length - 1)
  bufRead buf length

/-- `print_num`; the buffer has `length + 70` bytes, in the arithmetic of an `int`. -/
def printNum (u : BitVec 64) (base : Nat) (negFlag : Bool) (length : Int) (ladjust : Bool) (padc : Char)
    (upcase : Bool) : Option (List Char) := do
  let cap := signed 32 (length + 70)
  let buf ← digitLoop base upcase cap 64 u.toNat []
  let buf ← numSign cap negFlag buf
  numField cap negFlag length ladjust padc buf

/-- `print_char`. -/
def printChar (c : Char) (length : Int) (ladjust : Bool) : List Char :=
  let length := if length < 1 then 1 else length.toNat
  if ladjust then c :: List.replicate (length - 1) ' ' else List.replicate (length - 1) ' ' ++ [c]

/-- `print_str`. -/
def printStr (s : List Char) (length : Int) (ladjust : Bool) : List Char :=
  let length := if length < s.length then s.length else length.toNat
  if ladjust then s ++ List.replicate (length - s.length) ' ' else List.replicate (length - s.length) ' ' ++ s

/-- `print_mem_range_style`. -/
def printMemRangeStyle (addr size : BitVec 64) (length : Int) (ladjust : Bool) (padc : Char) : Option (List Char) := do
  let lo ← printNum addr 16 false length ladjust padc false
  let hi ← printNum (addr + size) 16 false length ladjust padc false
  some ("[".toList ++ lo ++ ", ".toList ++ hi ++ ")".toList)

/-- The units of `_print_bytes_style`. -/
def byteUnits : List String := [" B", " KiB", " MiB", " GiB", " TiB"]

/-- `_print_bytes_style`, for at most so many recursions; `none` is also a read beyond the units. -/
def printBytesStyleRec : Nat → BitVec 64 → Nat → Option (List Char)
  | 0, _, _ => none
  | n + 1, size, shift =>
      if size = 0 ∧ shift = 0 then some "0".toList
      else do
        let rem := size &&& ((1#64 <<< 10) - 1)
        let quo := size >>> 10
        let pre ← if quo ≠ 0 then printBytesStyleRec n quo (shift + 1) else some []
        if rem ≠ 0 then do
          let sep := if quo ≠ 0 then " + ".toList else []
          let num ← printNum rem 10 false 0 false ' ' false
          let unit ← byteUnits[shift]?
          some (pre ++ sep ++ num ++ unit.toList.take (if shift ≠ 0 then 4 else 2))
        else some pre

/-- `print_bytes_style`; a recursion takes ten bits off, so that there are at most seven of them. -/
def printBytesStyle (size : BitVec 64) : Option (List Char) := printBytesStyleRec 7 size 0

/-- `SYS_TIME_SECOND`, as a `long`. -/
def secondBits : BitVec 64 := 1000000

/-- `%pT`. -/
def printTime (time : BitVec 64) : Option (List Char) := do
  let sec := time.sdiv secondBits
  let microsec := time - sec * secondBits
  let s ← printNum sec 10 false 0 false ' ' false
  let us ← printNum microsec 10 false 6 false '0' false
  some (s ++ printChar '.' 1 false ++ us)

/-! ## The format -/

/-- An argument, with what it points to. -/
inductive VaArg where
  /-- An `int` or an `unsigned int`. -/
  | int (v : BitVec 32)
  /-- A `long` or an `unsigned long`. -/
  | long (v : BitVec 64)
  | str (s : List Char)
  | memRange (addr size : BitVec 64)
  | bytes (size : BitVec 64)
  | time (t : BitVec 64)

/-- `long_flag ? va_arg(ap, long int) : va_arg(ap, int)`, as a `long`. -/
def vaNum (longFlag : Bool) : List VaArg → Option (BitVec 64 × List VaArg)
  | .long v :: ap => if longFlag then some (v, ap) else none
  | .int v :: ap => if longFlag then none else some (v.signExtend 64, ap)
  | _ => none

/-- The flag: `ladjust`, `padc` and the rest of the format. -/
def fmtFlag : List Char → Bool × Char × List Char
  | '-' :: fmt => (true, ' ', fmt)
  | '0' :: fmt => (false, '0', fmt)
  | fmt => (false, ' ', fmt)

/-- The loop over the digits of the width, which is an `int`. -/
def fmtWidth : List Char → Int → Int × List Char
  | [], width => (width, [])
  | c :: fmt, width =>
      if '0' ≤ c ∧ c ≤ '9' then fmtWidth fmt (signed 32 (width * 10 + c.toNat - '0'.toNat)) else (width, c :: fmt)

/-- The loop over the `l`s. -/
def fmtLong : List Char → Bool → Bool × List Char
  | 'l' :: fmt, _ => fmtLong fmt true
  | fmt, longFlag => (longFlag, fmt)

/-- A conversion without a sign. -/
def fmtUnsigned (base : Nat) (upcase longFlag : Bool) (width : Int) (ladjust : Bool) (padc : Char) (fmt : List Char)
    (ap : List VaArg) : Option (List Char × List Char × List VaArg) := do
  let (num, ap) ← vaNum longFlag ap
  let out ← printNum num base false width ladjust padc upcase
  some (out, fmt, ap)

/-- The conversion with a sign. -/
def fmtSigned (longFlag : Bool) (width : Int) (ladjust : Bool) (padc : Char) (fmt : List Char) (ap : List VaArg) :
    Option (List Char × List Char × List VaArg) := do
  let (num, ap) ← vaNum longFlag ap
  let negFlag := num.slt 0
  let num := if negFlag then -num else num
  let out ← printNum num 10 negFlag width ladjust padc false
  some (out, fmt, ap)

/-- `switch (*fmt)`: the text, and what is left of the format and of the arguments. -/
def fmtConv (longFlag : Bool) (width : Int) (ladjust : Bool) (padc : Char) :
    List Char → List VaArg → Option (List Char × List Char × List VaArg)
  | 'b' :: fmt, ap => fmtUnsigned 2 false longFlag width ladjust padc fmt ap
  | 'd' :: fmt, ap => fmtSigned longFlag width ladjust padc fmt ap
  | 'D' :: fmt, ap => fmtSigned longFlag width ladjust padc fmt ap
  | 'o' :: fmt, ap => fmtUnsigned 8 false longFlag width ladjust padc fmt ap
  | 'O' :: fmt, ap => fmtUnsigned 8 false longFlag width ladjust padc fmt ap
  | 'u' :: fmt, ap => fmtUnsigned 10 false longFlag width ladjust padc fmt ap
  | 'U' :: fmt, ap => fmtUnsigned 10 false longFlag width ladjust padc fmt ap
  | 'x' :: fmt, ap => fmtUnsigned 16 false longFlag width ladjust padc fmt ap
  | 'X' :: fmt, ap => fmtUnsigned 16 true longFlag width ladjust padc fmt ap
  | 'c' :: fmt, .int v :: ap => some (printChar (Char.ofNat (v.toNat % 256)) width ladjust, fmt, ap)
  | 's' :: fmt, .str s :: ap => some (printStr s width ladjust, fmt, ap)
  | 'p' :: 'M' :: fmt, .memRange addr size :: ap => do
      let out ← printMemRangeStyle addr size width ladjust padc
      some (out, fmt, ap)
  | 'p' :: 'B' :: fmt, .bytes size :: ap => do
      let out ← printBytesStyle size
      some (out, fmt, ap)
  | 'p' :: 'T' :: fmt, .time t :: ap => do
      let out ← printTime t
      some (out, fmt, ap)
  -- the argument is missing or of another type
  | 'c' :: _, _ | 's' :: _, _ | 'p' :: 'M' :: _, _ | 'p' :: 'B' :: _, _ | 'p' :: 'T' :: _, _ => none
  | 'p' :: fmt, ap => some ([], fmt, ap)
  -- the end of the format
  | [], ap => some ([], [], ap)
  | c :: fmt, ap => some ([c], fmt, ap)

/-- What stands behind a `%`. -/
def fmtDirective (fmt : List Char) (ap : List VaArg) : Option (List Char × List Char × List VaArg) :=
  let (ladjust, padc, fmt) := fmtFlag fmt
  let (width, fmt) := fmtWidth fmt 0
  let (longFlag, fmt) := fmtLong fmt false
  fmtConv longFlag width ladjust padc fmt ap

/-- The loop of `vprintfmt`, for at most so many directives. -/
def vprintfmtLoop : Nat → List Char → List VaArg → Option (List Char)
  | 0, _, _ => none
  | n + 1, fmt, ap =>
      let s := fmt.takeWhile (· ≠ '%')
      match fmt.dropWhile (· ≠ '%') with
      | [] => some s
      | [_] => some s
      | _ :: fmt => do
          let (out, fmt, ap) ← fmtDirective fmt ap
          let rest ← vprintfmtLoop n fmt ap
          some (s ++ out ++ rest)

/-- `vprintfmt`: the text that is put out. -/
def vprintfmt (fmt : List Char) (ap : List VaArg) : Option (List Char) := vprintfmtLoop (fmt.length + 1) fmt ap

/-! ## What the printers put out -/

variable {base n u : Nat} {up negFlag ladjust : Bool} {cap length : Int} {padc : Char} {buf buf' : List Char}

/-- The loop leaves the digits. -/
theorem digitLoop_eq (hb : 2 ≤ base) (hn : n ≠ 0) (hu : u < base ^ n)
    (hcap : (buf.length + (lsdDigits base u).length : Int) ≤ cap) :
    digitLoop base up cap n u buf = some (buf ++ (lsdDigits base u).map (digitOf up)) := by
  induction n generalizing u buf with
  | zero => exact absurd rfl hn
  | succ n ih =>
      rw [lsdDigits_eq hb] at hcap ⊢
      rw [List.length_cons] at hcap
      rw [digitLoop, bufWrite_end (by omega), Option.bind_eq_bind, Option.bind_some]
      by_cases hq : u / base = 0
      · rw [if_neg (not_not.mpr hq), if_pos hq]
        rfl
      · have hlt : u / base < base ^ n := by
          rw [Nat.div_lt_iff_lt_mul (by omega)]
          rwa [Nat.pow_succ] at hu
        have hn' : n ≠ 0 := by
          rintro rfl
          exact hq (Nat.lt_one_iff.mp hlt)
        rw [if_neg hq] at hcap ⊢
        rw [if_pos hq, ih hn' hlt (by rw [List.length_append, List.length_singleton]; push_cast at hcap ⊢; omega)]
        rw [List.append_assoc, List.map_cons, List.singleton_append]

/-- There is no digit without room. -/
theorem digitLoop_eq_none (hcap : cap ≤ buf.length) : digitLoop base up cap n u buf = none := by
  cases n with
  | zero => rfl
  | succ n => rw [digitLoop, bufWrite_eq_none hcap]; rfl

theorem length_of_digitLoop (h : digitLoop base up cap n u buf = some buf') : buf'.length ≤ buf.length + n := by
  induction n generalizing u buf with
  | zero => cases h
  | succ n ih =>
      rw [digitLoop] at h
      obtain ⟨mid, hmid, h⟩ := Option.bind_eq_some_iff.mp h
      have hlen := length_of_bufWrite hmid
      split at h
      · have := ih h
        omega
      · cases h
        omega

/-- Where the padding is put behind the digits and the sign. -/
theorem numPad_behind {W : Nat} (hcase : ¬ (negFlag = true ∧ ladjust = false ∧ padc = '0'))
    (hcap : (max buf.length W : Int) ≤ cap) :
    numPad cap negFlag ladjust padc buf (max buf.length W) =
      some (buf ++ List.replicate (W - buf.length) (if ladjust then ' ' else padc)) := by
  have hpads : max buf.length W - buf.length = W - buf.length := by omega
  have hfill : bufFill cap (if ladjust then ' ' else padc) (buf ++ []) buf.length (W - buf.length) =
      some (buf ++ List.replicate (W - buf.length) (if ladjust then ' ' else padc)) :=
    bufFill_eq rfl (Nat.zero_le _) (by omega)
  rw [List.append_nil] at hfill
  rw [numPad, if_neg, hpads, hfill]
  cases negFlag <;> cases ladjust <;> simp_all

/-- Where the padding is put between the digits and the sign, which is written anew. -/
theorem numPad_between {ds : List Char} {W : Nat} (hcap : (max (ds.length + 1) W : Int) ≤ cap) :
    numPad cap true false '0' (ds ++ ['-']) (max (ds.length + 1) W) =
      some (ds ++ List.replicate (W - (ds.length + 1)) '0' ++ ['-']) := by
  have hlen : (ds ++ ['-']).length = ds.length + 1 := by simp
  have hpads : max (ds.length + 1) W - 1 - ds.length = W - (ds.length + 1) := by omega
  have hcond : (true && !false && (if (false : Bool) then ' ' else '0') == '0') = true := rfl
  simp only [numPad, hcond, if_true, hlen, Nat.add_sub_cancel, hpads]
  by_cases hW : W ≤ ds.length + 1
  · -- there is nothing to pad
    have hzero : W - (ds.length + 1) = 0 := by omega
    have hend : max (ds.length + 1) W - 1 = ds.length := by omega
    rw [hzero, hend]
    show bufWrite cap (ds ++ ['-']) ds.length '-' = _
    rw [bufWrite_last (by omega)]
    simp
  · have hend : max (ds.length + 1) W - 1 = (ds ++ List.replicate (W - (ds.length + 1)) '0').length := by
      rw [List.length_append, List.length_replicate]
      omega
    rw [bufFill_eq rfl (by rw [List.length_singleton]; omega) (by omega)]
    rw [hend]
    exact bufWrite_end (by rw [← hend]; omega)

/-- **The text of a field** of some width: the padding stands on the right, between sign and number, or on the
left. -/
def paddedText (ladjust : Bool) (padc : Char) (W : Nat) (sign num : List Char) : List Char :=
  let pad := W - (sign.length + num.length)
  if ladjust then sign ++ num ++ List.replicate pad ' '
  else if padc = '0' then sign ++ List.replicate pad '0' ++ num
  else List.replicate pad ' ' ++ sign ++ num

/-- What is turned round is written. -/
theorem bufRead_reversed (l post : List Char) {e k : Nat} (he : e = l.length - 1) (hk : k = (l ++ post).length) :
    ((bufReverse (l ++ post) 0 e).bind fun buf => bufRead buf k) = some (l.reverse ++ post) := by
  have hlen : k = (l.reverse ++ post).length := by rw [hk]; simp
  rw [he, bufReverse_all, Option.bind_some, bufRead, if_pos hlen.le, hlen, List.take_length]

/-- The field of what was written. -/
theorem numField_eq {ds : List Char} {W : Nat} (hcap : (max (ds.length + 1) W : Int) ≤ cap)
    (hpad : padc = ' ' ∨ padc = '0') :
    numField cap negFlag W ladjust padc (ds ++ if negFlag then ['-'] else []) =
      some (paddedText ladjust padc W (if negFlag then ['-'] else []) ds.reverse) := by
  -- the buffer without padding, and the length with it
  obtain ⟨sign, hsign⟩ : ∃ sign : List Char, sign = if negFlag then ['-'] else [] := ⟨_, rfl⟩
  have hs : sign.length ≤ 1 := by
    rw [hsign]
    cases negFlag <;> simp
  have hrev : sign.reverse = sign := by
    rw [hsign]
    cases negFlag <;> rfl
  have hlen : (ds ++ sign).length = ds.length + sign.length := List.length_append
  have hmax : (if (W : Int) < ((ds ++ sign).length : Nat) then (ds ++ sign).length else (W : Int).toNat) =
      max (ds ++ sign).length W := by
    split <;> omega
  rw [← hsign]
  simp only [numField, Option.bind_eq_bind]
  rw [hmax]
  by_cases hcase : negFlag = true ∧ ladjust = false ∧ padc = '0'
  · obtain ⟨rfl, rfl, rfl⟩ := hcase
    subst hsign
    have hW : W - (ds.length + 1) = W - (['-'].length + ds.reverse.length) := by simp [Nat.add_comm]
    have hlen' : (ds ++ ['-']).length = ds.length + 1 := by simp
    rw [if_pos rfl, hlen', numPad_between hcap, Option.bind_some]
    have hback := bufRead_reversed (ds ++ List.replicate (W - (ds.length + 1)) '0' ++ ['-']) []
      (e := max (ds.length + 1) W - 1) (k := max (ds.length + 1) W) (by simp; omega) (by simp; omega)
    rw [List.append_nil] at hback
    refine hback.trans ?_
    simp [paddedText, hW]
  · have hroom : (max (ds ++ sign).length W : Int) ≤ cap := by omega
    rw [numPad_behind hcase hroom, Option.bind_some]
    have hW : W - (ds ++ sign).length = W - (sign.length + ds.reverse.length) := by simp [Nat.add_comm]
    cases ladjust with
    | true =>
        have hback := bufRead_reversed (ds ++ sign) (List.replicate (W - (ds ++ sign).length) ' ')
          (e := (ds ++ sign).length - 1) (k := max (ds ++ sign).length W) rfl (by simp; omega)
        refine hback.trans ?_
        simp only [paddedText]
        rw [← hW]
        simp [hrev]
    | false =>
        have hback := bufRead_reversed (ds ++ sign ++ List.replicate (W - (ds ++ sign).length) padc) []
          (e := max (ds ++ sign).length W - 1) (k := max (ds ++ sign).length W) (by simp; omega) (by simp; omega)
        rw [List.append_nil] at hback
        refine hback.trans ?_
        rcases hpad with rfl | rfl
        · simp only [paddedText]
          rw [← hW]
          simp [hrev]
        · have hnil : sign = [] := by
            rw [hsign, if_neg]
            exact fun h => hcase ⟨h, rfl, rfl⟩
          simp [paddedText, hnil]

/-- **`print_num` prints the field**, where the size of its buffer is an `int`. -/
theorem printNum_eq {u : BitVec 64} {W : Nat} (hb : 2 ≤ base) (hW : W + 70 < 2 ^ 31) (hpad : padc = ' ' ∨ padc = '0') :
    printNum u base negFlag W ladjust padc up =
      some (paddedText ladjust padc W (if negFlag then ['-'] else []) (numeral base up u.toNat)) := by
  have hcap : signed 32 (W + 70) = (W : Int) + 70 := signed_eq_self.mpr ⟨by omega, by omega⟩
  -- in base two there are most digits
  have hu : u.toNat < base ^ 64 := u.isLt.trans_le (Nat.pow_le_pow_left hb 64)
  have hds := length_lsdDigits_le hb (by omega) hu
  have hloop : digitLoop base up ((W : Int) + 70) 64 u.toNat [] =
      some ([] ++ (lsdDigits base u.toNat).map (digitOf up)) :=
    digitLoop_eq hb (by omega) hu (by rw [List.length_nil]; omega)
  have hlen : ((lsdDigits base u.toNat).map (digitOf up)).length ≤ 64 := by rwa [List.length_map]
  rw [List.nil_append] at hloop
  simp only [printNum, hcap, hloop, Option.bind_eq_bind, Option.bind_some, numeral]
  generalize (lsdDigits base u.toNat).map (digitOf up) = ds at hlen
  have hsign : numSign ((W : Int) + 70) negFlag ds = some (ds ++ if negFlag then ['-'] else []) := by
    cases negFlag with
    | false => simp [numSign]
    | true => exact bufWrite_end (by omega)
  rw [hsign, Option.bind_some]
  exact numField_eq (by omega) hpad

/-- Where the size of the buffer is not positive, nothing is printed. -/
theorem printNum_eq_none {u : BitVec 64} (hcap : signed 32 (length + 70) ≤ 0) :
    printNum u base negFlag length ladjust padc up = none := by
  have hloop : digitLoop base up (signed 32 (length + 70)) 64 u.toNat [] = none := digitLoop_eq_none hcap
  simp only [printNum, hloop, Option.bind_eq_bind, Option.bind_none]

/-- What is printed is not longer than an `int` says. -/
theorem length_of_printNum {u : BitVec 64} {t : List Char} (hlength : length < 2 ^ 31)
    (h : printNum u base negFlag length ladjust padc up = some t) : t.length < 2 ^ 31 := by
  simp only [printNum, Option.bind_eq_bind] at h
  obtain ⟨ds, hds, h⟩ := Option.bind_eq_some_iff.mp h
  obtain ⟨buf, hbuf, h⟩ := Option.bind_eq_some_iff.mp h
  simp only [numField, Option.bind_eq_bind] at h
  obtain ⟨pad, -, h⟩ := Option.bind_eq_some_iff.mp h
  obtain ⟨rev, -, h⟩ := Option.bind_eq_some_iff.mp h
  have hdl := length_of_digitLoop hds
  rw [List.length_nil] at hdl
  have hbl : buf.length ≤ 65 := by
    rw [numSign] at hbuf
    split at hbuf
    · have := length_of_bufWrite hbuf
      omega
    · cases hbuf
      omega
  rw [length_of_bufRead h]
  split <;> omega

/-! ## Directive after directive -/

theorem length_fmtFlag (fmt : List Char) : (fmtFlag fmt).2.2.length ≤ fmt.length := by
  rw [fmtFlag.eq_def]
  split <;> simp

theorem length_fmtWidth (fmt : List Char) (width : Int) : (fmtWidth fmt width).2.length ≤ fmt.length := by
  induction fmt generalizing width with
  | nil => exact Nat.le_refl _
  | cons c fmt ih =>
      rw [fmtWidth]
      split
      · exact (ih _).trans (Nat.le_succ _)
      · exact Nat.le_refl _

theorem length_fmtLong (fmt : List Char) (longFlag : Bool) : (fmtLong fmt longFlag).2.length ≤ fmt.length := by
  induction fmt generalizing longFlag with
  | nil => exact Nat.le_refl _
  | cons c fmt ih =>
      rw [fmtLong.eq_def]
      split
      · rename_i heq
        cases heq
        exact (ih true).trans (Nat.le_succ _)
      · exact Nat.le_refl _

theorem length_of_fmtConv {longFlag : Bool} {width : Int} {fmt fmt' out : List Char} {ap ap' : List VaArg}
    (h : fmtConv longFlag width ladjust padc fmt ap = some (out, fmt', ap')) : fmt'.length ≤ fmt.length := by
  unfold fmtConv at h
  split at h <;> simp [fmtUnsigned, fmtSigned, Option.bind_eq_some_iff] at h <;> grind

theorem length_of_fmtDirective {fmt fmt' out : List Char} {ap ap' : List VaArg}
    (h : fmtDirective fmt ap = some (out, fmt', ap')) : fmt'.length ≤ fmt.length := by
  have hflag := length_fmtFlag fmt
  have hwidth := length_fmtWidth (fmtFlag fmt).2.2 0
  have hlong := length_fmtLong (fmtWidth (fmtFlag fmt).2.2 0).2 false
  have hconv : fmt'.length ≤ (fmtLong (fmtWidth (fmtFlag fmt).2.2 0).2 false).2.length := length_of_fmtConv h
  omega

/-- More steps than there are characters make no difference. -/
theorem vprintfmtLoop_fuel {n m : Nat} {fmt : List Char} (ap : List VaArg) (hn : fmt.length < n) (hm : fmt.length < m) :
    vprintfmtLoop n fmt ap = vprintfmtLoop m fmt ap := by
  induction n generalizing m fmt ap with
  | zero => exact absurd hn (Nat.not_lt_zero _)
  | succ n ih =>
      cases m with
      | zero => exact absurd hm (Nat.not_lt_zero _)
      | succ m =>
          have hdrop : (fmt.dropWhile (· ≠ '%')).length ≤ fmt.length := (List.dropWhile_sublist _).length_le
          simp only [vprintfmtLoop]
          split
          · rfl
          · rfl
          · rename_i c fmt₁ _ heq
            rw [heq, List.length_cons] at hdrop
            cases hdir : fmtDirective fmt₁ ap with
            | none => rfl
            | some r =>
                obtain ⟨out, fmt₂, ap₂⟩ := r
                have hlen := length_of_fmtDirective hdir
                simp only [Option.bind_eq_bind, Option.bind_some]
                rw [ih (m := m) ap₂ (by omega) (by omega)]

/-- Text is put out as it is. -/
theorem vprintfmt_text {pre : List Char} (hpre : '%' ∉ pre) (ap : List VaArg) : vprintfmt pre ap = some pre := by
  have hall : ∀ c ∈ pre, decide (c ≠ '%') = true := fun c hc => decide_eq_true fun heq => hpre (heq ▸ hc)
  rw [vprintfmt, vprintfmtLoop]
  simp only [List.dropWhile_eq_nil_iff.mpr hall, List.takeWhile_eq_self_iff.mpr hall]

/-- **One directive**, and then the rest of the format with the rest of the arguments. -/
theorem vprintfmt_directive {pre fmt : List Char} (hpre : '%' ∉ pre) (hfmt : fmt ≠ []) (ap : List VaArg) :
    vprintfmt (pre ++ '%' :: fmt) ap =
      (fmtDirective fmt ap).bind fun r => (vprintfmt r.2.1 r.2.2).map fun t => pre ++ r.1 ++ t := by
  have hall : ∀ c ∈ pre, decide (c ≠ '%') = true := fun c hc => decide_eq_true fun heq => hpre (heq ▸ hc)
  have htake : (pre ++ '%' :: fmt).takeWhile (· ≠ '%') = pre := by
    rw [List.takeWhile_append_of_pos hall, List.takeWhile_cons_of_neg (by simp), List.append_nil]
  have hdrop : (pre ++ '%' :: fmt).dropWhile (· ≠ '%') = '%' :: fmt := by
    rw [List.dropWhile_append_of_pos hall, List.dropWhile_cons_of_neg (by simp)]
  obtain ⟨c, fmt, rfl⟩ := List.exists_cons_of_ne_nil hfmt
  rw [vprintfmt, vprintfmtLoop]
  simp only [htake, hdrop]
  cases hdir : fmtDirective (c :: fmt) ap with
  | none => rfl
  | some r =>
      obtain ⟨out, fmt₂, ap₂⟩ := r
      have hlen := length_of_fmtDirective hdir
      simp only [Option.bind_eq_bind, Option.bind_some]
      rw [vprintfmtLoop_fuel (m := fmt₂.length + 1) ap₂ (by simp at hlen ⊢; omega) (Nat.lt_succ_self _), vprintfmt]
      cases vprintfmtLoop (fmt₂.length + 1) fmt₂ ap₂ <;> rfl

end Jrinx
