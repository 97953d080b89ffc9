import Jrinx.Boot.Sysconf
import Jrinx.Boot.Args

/-! # The words of the boot arguments

`args_evaluate` trims its text, copies it with one more space, plants a terminator at the first space of every
gap, and walks over the strings. The block for the copy is one byte too small, and the other spaces of a gap
stay in front of the next word.

* **`argsEvaluate`** — the function up to its call of `args_parse`.
* **`Tokenised`** — the words are passed, and nothing is written outside of the block.
* **`argsEvaluate_passed`** — what is passed, for every text.
* **`tokenised_iff`** — the texts for which all is well. -/

namespace Jrinx

/-! ## The function -/

/-- The loop of `strlen`, which counts in an `int`. -/
def strlenFrom : (n : Int) → List Char → Int
  | n, [] => n
  | n, _ :: s => strlenFrom (Int.bmod (n + 1) (2 ^ 32)) s

/-- `strlen` of a text. -/
def strlenText (s : List Char) : Nat := sizeOfInt (strlenFrom 0 s)

/-- The loop that takes the spaces from the end. -/
def trimEnd (byte : Nat → Char) : Nat → Nat
  | 0 => 0
  | 1 => 1
  | len + 2 => if byte (len + 1) = ' ' then trimEnd byte (len + 1) else len + 2

/-- The first pass: the number of arguments, and the text with its terminators. `k` says that the last byte
belonged to a word. -/
def plantNuls : (k : Bool) → List Char → Nat × List Char
  | _, [] => (0, [])
  | k, c :: raw =>
      if c = ' ' then
        if k then ((plantNuls false raw).1 + 1, nul :: (plantNuls false raw).2)
        else ((plantNuls false raw).1, c :: (plantNuls false raw).2)
      else ((plantNuls true raw).1, c :: (plantNuls true raw).2)

/-- The indices of the terminators that the first pass plants. -/
def plantWrites : (k : Bool) → (i : Nat) → List Char → List Nat
  | _, _, [] => []
  | k, i, c :: raw =>
      if c = ' ' then if k then i :: plantWrites false (i + 1) raw else plantWrites false (i + 1) raw
      else plantWrites true (i + 1) raw

/-- The second pass: `cnt + 1` strings one after the other; `none` is a read past the end. -/
def argsList : (cnt : Nat) → List Char → Option (List (List Char))
  | 0, raw => (skipStr raw).map fun _ => [cstr raw]
  | cnt + 1, raw => (skipStr raw).bind fun rest => (argsList cnt rest).map (cstr raw :: ·)

/-- What `args_evaluate` does with its text. -/
structure Evaluation where
  /-- The arguments that `args_parse` is called with, if it is called. -/
  passed : Option (List (List Char))
  /-- The size of the block for `args_raw`. -/
  requested : Nat
  /-- The indices of `args_raw` that are written. -/
  writes : List Nat

/-- The text behind its leading spaces. -/
def argsText (bootargs : CString) : List Char := bootargs.val.dropWhile (· = ' ')

/-- A byte of the text; the memory behind it is `beyond`. -/
def argsByte (beyond : Nat → Char) (bootargs : CString) (i : Nat) : Char :=
  (argsText bootargs ++ [nul])[i]?.getD (beyond i)

/-- `bootargs_len`, after both loops. -/
def bootargsLen (beyond : Nat → Char) (bootargs : CString) : Nat :=
  trimEnd (argsByte beyond bootargs) (strlenText (argsText bootargs))

/-- The copy of the text, with the space behind it. -/
def argsRaw (beyond : Nat → Char) (bootargs : CString) : List Char :=
  (List.range (bootargsLen beyond bootargs)).map (argsByte beyond bootargs) ++ [' ']

/-- `args_evaluate`. -/
def argsEvaluate (beyond : Nat → Char) (bootargs : CString) : Evaluation :=
  let len := bootargsLen beyond bootargs
  let raw := argsRaw beyond bootargs
  if len = 0 then ⟨none, 0, []⟩
  else
    -- behind the space of the copy stands one more terminator
    { passed := argsList ((plantNuls false raw).1 - 1) ((plantNuls false raw).2 ++ [nul])
      requested := (len + 1) % wordSize
      writes := List.range len ++ [len, len + 1] ++ plantWrites false 0 raw }

/-- **The text is tokenised**: its words are passed, if there are any, and every write is inside of the
block. -/
def Tokenised (beyond : Nat → Char) (bootargs : CString) : Prop :=
  (argsEvaluate beyond bootargs).passed =
      (if argWords bootargs.val = [] then none else some (argWords bootargs.val)) ∧
    ∀ i ∈ (argsEvaluate beyond bootargs).writes, i < (argsEvaluate beyond bootargs).requested

/-! ## Words -/

theorem argWords_append (t t' : List Char) : argWords (t ++ ' ' :: t') = argWords t ++ argWords t' := by
  rw [argWords, List.splitOn_append_cons_self, List.filter_append]
  rfl

theorem argWords_word {w : List Char} (hw : ' ' ∉ w) (hne : w ≠ []) : argWords w = [w] := by
  rw [argWords, List.splitOn_eq_singleton hw]
  simp [hne]

theorem argWords_replicate (n : Nat) : argWords (List.replicate n ' ') = [] := by
  induction n with
  | zero => rfl
  | succ n ih =>
      have happend := argWords_append [] (List.replicate n ' ')
      rw [ih] at happend
      exact happend

theorem argWords_spaces (n : Nat) (t : List Char) : argWords (List.replicate n ' ' ++ t) = argWords t := by
  induction n with
  | zero => rfl
  | succ n ih => exact (argWords_append [] _).trans ih

/-- The spaces around a text do not matter. -/
theorem argWords_trim (a b : Nat) (t : List Char) :
    argWords (List.replicate a ' ' ++ (t ++ List.replicate b ' ')) = argWords t := by
  rw [argWords_spaces]
  cases b with
  | zero => rw [List.replicate_zero, List.append_nil]
  | succ b => rw [List.replicate_succ, argWords_append, argWords_replicate, List.append_nil]

/-- A text without words has spaces only. -/
theorem argWords_eq_nil {t : List Char} : argWords t = [] ↔ ∀ c ∈ t, c = ' ' := by
  constructor
  · intro h c hc
    have hjoin : [' '].intercalate (t.splitOn ' ') = t := List.intercalate_splitOn ' '
    rw [← hjoin] at hc
    rcases mem_intercalate hc with hc | ⟨w, hw, hc⟩
    · exact List.mem_singleton.mp hc
    · have hnil := List.filter_eq_nil_iff.mp h w hw
      simp only [decide_eq_true_eq, not_not] at hnil
      exact absurd hc (by simp [hnil])
  · intro h
    rw [List.eq_replicate_of_mem h]
    exact argWords_replicate _

/-! ## Texts without words -/

section Blank

variable {beyond : Nat → Char} {bootargs : CString}

theorem trimEnd_eq_zero {byte : Nat → Char} {len : Nat} : trimEnd byte len = 0 ↔ len = 0 := by
  induction len using trimEnd.induct byte with
  | case1 => simp [trimEnd]
  | case2 => simp [trimEnd]
  | case3 len hc ih =>
      rw [trimEnd, if_pos hc, ih]
      simp
  | case4 len hc =>
      rw [trimEnd, if_neg hc]

/-- A text of spaces is passed over. -/
theorem argsEvaluate_of_blank (h : ∀ c ∈ bootargs.val, c = ' ') (beyond : Nat → Char) :
    argsEvaluate beyond bootargs = ⟨none, 0, []⟩ := by
  have hnil : argsText bootargs = [] := List.dropWhile_eq_nil_iff.mpr fun c hc => decide_eq_true (h c hc)
  refine if_pos (trimEnd_eq_zero.mpr ?_)
  rw [hnil]
  rfl

theorem argsEvaluate_of_ne (h : bootargsLen beyond bootargs ≠ 0) : argsEvaluate beyond bootargs =
    { passed := argsList ((plantNuls false (argsRaw beyond bootargs)).1 - 1)
        ((plantNuls false (argsRaw beyond bootargs)).2 ++ [nul])
      requested := (bootargsLen beyond bootargs + 1) % wordSize
      writes := List.range (bootargsLen beyond bootargs) ++
        [bootargsLen beyond bootargs, bootargsLen beyond bootargs + 1] ++
        plantWrites false 0 (argsRaw beyond bootargs) } := if_neg h

/-- A copy has one write behind its block. -/
theorem argsEvaluate_writes (h : (argsEvaluate beyond bootargs).passed ≠ none) :
    ∃ i ∈ (argsEvaluate beyond bootargs).writes, (argsEvaluate beyond bootargs).requested ≤ i := by
  have hlen : bootargsLen beyond bootargs ≠ 0 := by
    intro hlen
    exact h (congrArg Evaluation.passed (if_pos hlen))
  rw [argsEvaluate_of_ne hlen]
  exact ⟨bootargsLen beyond bootargs + 1, by simp, Nat.mod_le _ _⟩

/-- **The words are passed and the writes stay inside** exactly when the text has spaces only. -/
theorem tokenised_iff (beyond : Nat → Char) (bootargs : CString) :
    Tokenised beyond bootargs ↔ ∀ c ∈ bootargs.val, c = ' ' := by
  constructor
  · rintro ⟨hpassed, hinside⟩
    by_contra hblank
    have hwords : argWords bootargs.val ≠ [] := fun h => hblank (argWords_eq_nil.mp h)
    rw [if_neg hwords] at hpassed
    obtain ⟨i, hi, hle⟩ := argsEvaluate_writes (by rw [hpassed]; simp)
    exact absurd (hinside i hi) (Nat.not_lt.mpr hle)
  · intro hblank
    rw [Tokenised, argsEvaluate_of_blank hblank, if_pos (argWords_eq_nil.mpr hblank)]
    exact ⟨rfl, fun i hi => absurd hi List.not_mem_nil⟩

/-- One word of one letter: the terminator behind its space is the third byte of a block of two. -/
theorem tokenised_oneWord : ¬ ∀ (beyond : Nat → Char) (bootargs : CString), Tokenised beyond bootargs := by
  intro hall
  obtain ⟨hpassed, hinside⟩ := hall (fun _ => nul) ⟨['x'], by decide⟩
  have hwords : argWords ['x'] = [['x']] := argWords_word (by decide) (by decide)
  rw [hwords] at hpassed
  obtain ⟨i, hi, hle⟩ := argsEvaluate_writes (by rw [hpassed]; simp)
  exact absurd (hinside i hi) (Nat.not_lt.mpr hle)

end Blank

/-! ## Texts with words -/

/-- A word, and others: in front of each stand one space and some more. -/
def gapped (w : List Char) (l : List (Nat × List Char)) : List Char :=
  w ++ l.flatMap fun x => ' ' :: (List.replicate x.1 ' ' ++ x.2)

/-- The strings that are left of it: the first space of a gap becomes the terminator. -/
def gappedArgs (w : List Char) (l : List (Nat × List Char)) : List (List Char) :=
  w :: l.map fun x => List.replicate x.1 ' ' ++ x.2

/-- A word has at least one character, and no space. -/
def IsWord (w : List Char) : Prop := w ≠ [] ∧ ' ' ∉ w

section Words

variable {w : List Char} {l : List (Nat × List Char)}

theorem gapped_cons (w : List Char) (x : Nat × List Char) (l : List (Nat × List Char)) :
    gapped w (x :: l) = w ++ ' ' :: (List.replicate x.1 ' ' ++ gapped x.2 l) := by
  simp [gapped]

theorem gappedArgs_cons (w : List Char) (x : Nat × List Char) (l : List (Nat × List Char)) :
    gappedArgs w (x :: l) = w :: (List.replicate x.1 ' ' ++ x.2) ::
      l.map fun x => List.replicate x.1 ' ' ++ x.2 := rfl

/-- **The words of a text with gaps.** -/
theorem argWords_gapped (hw : IsWord w) (hl : ∀ x ∈ l, IsWord x.2) :
    argWords (gapped w l) = w :: l.map Prod.snd := by
  induction l generalizing w with
  | nil =>
      rw [gapped, List.flatMap_nil, List.append_nil, argWords_word hw.2 hw.1]
      rfl
  | cons x l ih =>
      obtain ⟨hx, hl⟩ := List.forall_mem_cons.mp hl
      rw [gapped_cons, argWords_append, argWords_word hw.2 hw.1, argWords_spaces, ih hx hl]
      rfl

/-! ### Trimming -/

theorem strlenFrom_eq (s : List Char) {n : Nat} (h : n + s.length < 2 ^ 31) :
    strlenFrom n s = (n + s.length : Nat) := by
  induction s generalizing n with
  | nil => rfl
  | cons c s ih =>
      rw [List.length_cons] at h ⊢
      have hstep : Int.bmod ((n : Int) + 1) (2 ^ 32) = (n + 1 : Nat) :=
        Int.bmod_eq_of_le_mul_two (by push_cast; omega) (by push_cast; omega)
      rw [strlenFrom, hstep, ih (by omega), show n + 1 + s.length = n + (s.length + 1) by omega]

theorem strlenText_eq {s : List Char} (h : s.length < 2 ^ 31) : strlenText s = s.length := by
  have hfrom := strlenFrom_eq s (n := 0) (by omega)
  rw [strlenText, show (0 : Int) = (0 : Nat) from rfl, hfrom, sizeOfInt]
  omega

/-- The spaces at the end are taken. -/
theorem trimEnd_add {byte : Nat → Char} {n : Nat} (hlast : byte n ≠ ' ') (b : Nat)
    (hspaces : ∀ i, n < i → i ≤ n + b → byte i = ' ') : trimEnd byte (n + 1 + b) = n + 1 := by
  induction b with
  | zero =>
      cases n with
      | zero => rfl
      | succ n => exact if_neg hlast
  | succ b ih =>
      rw [show n + 1 + (b + 1) = n + b + 2 by omega, trimEnd, if_pos (hspaces _ (by omega) (by omega)),
        show n + b + 1 = n + 1 + b by omega]
      exact ih fun i hlt hle => hspaces i hlt (by omega)

/-- The last character belongs to a word. -/
theorem gapped_eq_concat (hw : IsWord w) (hl : ∀ x ∈ l, IsWord x.2) :
    ∃ t c, gapped w l = t ++ [c] ∧ c ≠ ' ' := by
  have hword : ∀ {v : List Char}, IsWord v → ∃ t c, v = t ++ [c] ∧ c ≠ ' ' := by
    intro v hv
    refine ⟨v.dropLast, v.getLast hv.1, (List.dropLast_append_getLast hv.1).symm, fun heq => hv.2 ?_⟩
    exact heq ▸ List.getLast_mem hv.1
  induction l generalizing w with
  | nil =>
      rw [gapped, List.flatMap_nil, List.append_nil]
      exact hword hw
  | cons x l ih =>
      obtain ⟨hx, hl⟩ := List.forall_mem_cons.mp hl
      obtain ⟨t, c, heq, hc⟩ := ih hx hl
      refine ⟨w ++ ' ' :: (List.replicate x.1 ' ' ++ t), c, ?_, hc⟩
      rw [gapped_cons, heq]
      simp

/-- **The copy is the text between its outer spaces.** -/
theorem argsRaw_gapped {bootargs : CString} {a b : Nat} (beyond : Nat → Char) (hw : IsWord w)
    (hl : ∀ x ∈ l, IsWord x.2)
    (htext : bootargs.val = List.replicate a ' ' ++ (gapped w l ++ List.replicate b ' '))
    (hlen : (gapped w l).length + b < 2 ^ 31) :
    bootargsLen beyond bootargs = (gapped w l).length ∧ argsRaw beyond bootargs = gapped w l ++ [' '] := by
  -- the text ends with a character of its last word
  obtain ⟨t, c, hcore, hc⟩ := gapped_eq_concat hw hl
  -- the spaces in front are skipped
  have htail : argsText bootargs = gapped w l ++ List.replicate b ' ' := by
    obtain ⟨d, v, rfl⟩ := List.exists_cons_of_ne_nil hw.1
    have hd : d ≠ ' ' := fun heq => hw.2 (by simp [heq])
    rw [argsText, htext, List.dropWhile_append_of_pos (by simp)]
    exact List.dropWhile_cons_of_neg (by simpa using hd)
  have hbyte : ∀ i, i < (gapped w l).length → argsByte beyond bootargs i = (gapped w l)[i]?.getD ' ' := by
    intro i hi
    rw [argsByte, htail, List.append_assoc, List.getElem?_append_left hi, List.getElem?_eq_getElem hi]
    rfl
  -- behind the last word there are spaces only, and the end is moved back over them
  have hspaces : ∀ i, t.length < i → i ≤ t.length + b → argsByte beyond bootargs i = ' ' := by
    intro i hlt hle
    have hlt' : i < (gapped w l ++ List.replicate b ' ').length := by
      simp only [hcore, List.length_append, List.length_singleton, List.length_replicate]
      omega
    rw [argsByte, htail, List.getElem?_append_left hlt', List.getElem?_append_right (by simp [hcore]; omega),
      List.getElem?_replicate_of_lt (by simp [hcore] at hlt' ⊢; omega)]
    rfl
  have hlast : argsByte beyond bootargs t.length ≠ ' ' := by
    rw [hbyte _ (by simp [hcore]), hcore]
    simpa using hc
  have hlength : bootargsLen beyond bootargs = (gapped w l).length := by
    rw [bootargsLen, htail, strlenText_eq (by simpa using hlen), List.length_append, List.length_replicate, hcore,
      List.length_append, List.length_singleton]
    exact trimEnd_add hlast b hspaces
  refine ⟨hlength, ?_⟩
  rw [argsRaw, hlength]
  congr 1
  refine List.ext_getElem (by simp) fun i hi hi' => ?_
  rw [List.getElem_map, List.getElem_range, hbyte i hi', List.getElem?_eq_getElem hi']
  rfl

/-! ### The two passes -/

theorem plantNuls_true (hw : ' ' ∉ w) (rest : List Char) : plantNuls true (w ++ ' ' :: rest) =
    ((plantNuls false rest).1 + 1, w ++ nul :: (plantNuls false rest).2) := by
  induction w with
  | nil => rfl
  | cons c w ih =>
      obtain ⟨hc, hw⟩ := List.ne_and_not_mem_of_not_mem_cons hw
      rw [List.cons_append, plantNuls, if_neg fun heq => hc heq.symm, ih hw]
      rfl

/-- A word gets its terminator. -/
theorem plantNuls_word (hw : IsWord w) (rest : List Char) : plantNuls false (w ++ ' ' :: rest) =
    ((plantNuls false rest).1 + 1, w ++ nul :: (plantNuls false rest).2) := by
  obtain ⟨c, w, rfl⟩ := List.exists_cons_of_ne_nil hw.1
  obtain ⟨hc, hw⟩ := List.ne_and_not_mem_of_not_mem_cons hw.2
  rw [List.cons_append, plantNuls, if_neg fun heq => hc heq.symm, plantNuls_true hw]
  rfl

/-- Other spaces stay as they are. -/
theorem plantNuls_spaces (n : Nat) (rest : List Char) : plantNuls false (List.replicate n ' ' ++ rest) =
    ((plantNuls false rest).1, List.replicate n ' ' ++ (plantNuls false rest).2) := by
  induction n with
  | zero => rfl
  | succ n ih =>
      rw [List.replicate_succ, List.cons_append, plantNuls, if_pos rfl, if_neg Bool.false_ne_true, ih]
      rfl

/-- **The first pass** leaves one string for each word. -/
theorem plantNuls_gapped (hw : IsWord w) (hl : ∀ x ∈ l, IsWord x.2) :
    plantNuls false (gapped w l ++ [' ']) = (l.length + 1, strings (gappedArgs w l)) := by
  induction l generalizing w with
  | nil =>
      rw [gapped, List.flatMap_nil, List.append_nil, plantNuls_word hw]
      simp [plantNuls, gappedArgs]
  | cons x l ih =>
      obtain ⟨hx, hl⟩ := List.forall_mem_cons.mp hl
      rw [gapped_cons, List.append_assoc, List.cons_append, List.append_assoc, plantNuls_word hw,
        plantNuls_spaces, ih hx hl, gappedArgs_cons, strings_cons, strings_cons, gappedArgs, strings_cons]
      simp

/-- **The second pass** finds the strings. -/
theorem argsList_strings (ws : List (List Char)) (hws : ∀ v ∈ ws, nul ∉ v) (hw : nul ∉ w) (rest : List Char) :
    argsList ws.length (strings (w :: ws) ++ rest) = some (w :: ws) := by
  induction ws generalizing w with
  | nil =>
      rw [strings_cons, List.append_assoc, List.cons_append]
      rw [List.length_nil, argsList, skipStr_append hw, cstr_append hw]
      rfl
  | cons v ws ih =>
      obtain ⟨hv, hws⟩ := List.forall_mem_cons.mp hws
      rw [strings_cons, List.append_assoc, List.cons_append, List.length_cons, argsList, skipStr_append hw,
        cstr_append hw, Option.bind_some, ih hws hv]
      rfl

/-- **What is passed**: the strings that begin behind the first space of each gap. -/
theorem argsEvaluate_passed {bootargs : CString} {a b : Nat} (beyond : Nat → Char) (hw : IsWord w)
    (hl : ∀ x ∈ l, IsWord x.2)
    (htext : bootargs.val = List.replicate a ' ' ++ (gapped w l ++ List.replicate b ' '))
    (hlen : (gapped w l).length + b < 2 ^ 31) :
    (argsEvaluate beyond bootargs).passed = some (gappedArgs w l) := by
  obtain ⟨hlength, hraw⟩ := argsRaw_gapped beyond hw hl htext hlen
  have hnul : ∀ {v : List Char}, v ⊆ bootargs.val → nul ∉ v := fun hsub hin => bootargs.property (hsub hin)
  have hpos : bootargsLen beyond bootargs ≠ 0 := by
    obtain ⟨t, c, hcore, -⟩ := gapped_eq_concat hw hl
    rw [hlength, hcore]
    simp
  rw [argsEvaluate_of_ne hpos, hraw, plantNuls_gapped hw hl, Nat.add_sub_cancel]
  have hlen' : (l.map fun x => List.replicate x.1 ' ' ++ x.2).length = l.length := List.length_map _
  rw [← hlen', gappedArgs]
  refine argsList_strings _ (fun v hv => ?_) (hnul ?_) _
  · obtain ⟨x, hx, rfl⟩ := List.mem_map.mp hv
    refine hnul fun c hc => ?_
    rw [htext, gapped]
    refine List.mem_append_right _ (List.mem_append_left _ (List.mem_append_right _ ?_))
    exact List.mem_flatMap.mpr ⟨x, hx, List.mem_cons_of_mem _ hc⟩
  · intro c hc
    rw [htext, gapped]
    exact List.mem_append_right _ (List.mem_append_left _ (List.mem_append_left _ hc))

/-- **The words themselves are passed** exactly when no two of them are more than one space apart. -/
theorem argsEvaluate_words_iff {bootargs : CString} {a b : Nat} (beyond : Nat → Char) (hw : IsWord w)
    (hl : ∀ x ∈ l, IsWord x.2)
    (htext : bootargs.val = List.replicate a ' ' ++ (gapped w l ++ List.replicate b ' '))
    (hlen : (gapped w l).length + b < 2 ^ 31) :
    (argsEvaluate beyond bootargs).passed = some (argWords bootargs.val) ↔ ∀ x ∈ l, x.1 = 0 := by
  rw [argsEvaluate_passed beyond hw hl htext hlen, htext, argWords_trim, argWords_gapped hw hl, gappedArgs,
    Option.some.injEq,
    List.cons.injEq, and_iff_right rfl, List.map_inj_left]
  refine forall₂_congr fun x _ => ?_
  constructor
  · intro heq
    have hlen := congrArg List.length heq
    rw [List.length_append, List.length_replicate] at hlen
    omega
  · intro hzero
    rw [hzero]
    rfl

end Words

end Jrinx
