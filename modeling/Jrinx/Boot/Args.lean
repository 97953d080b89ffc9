import Jrinx.Boot.Bootargs

/-! # The arguments of the kernel

`args_parse` walks over the arguments. A round looks at one of them; how far the loop moves on is an output
of the helpers that the round calls. A round that calls none of them moves by what `pos_push` happens to hold,
and a bare dash is read behind its terminator.

* **`argsRound`**, **`argsLoop`**, **`argsParse`** — the parser, with what it reads, takes and stores.
* **`NamePos`** — the positions where the name of an option is expected.
* **`Accounts`** — every argument is accounted for.
* **`args_accounts_iff`** — the arguments for which this is so. -/

namespace Jrinx

/-! ## Strings and options -/

/-- A C string without its terminator. -/
abbrev CString := { w : List Char // nul ∉ w }

/-- `enum arg_opt_t`. `ARG_END` ends the table and is not among them. -/
inductive ArgOptT where
  | boolean
  | integer
  | string
  deriving DecidableEq, Repr

/-- `struct arg_opt`, without the help text. A target is the variable that is set. -/
structure ArgOpt where
  argType : ArgOptT
  argShortName : Char
  argLongName : CString
  argTarget : Nat
  deriving DecidableEq

/-- `enum arg_error_t`. `ARGP_PANIC` is for types outside of the enumeration. -/
inductive ArgError where
  | success
  | unknownArg
  | missingVal
  deriving DecidableEq, Repr

/-- `parse_ret_t`. -/
structure ParseRet where
  error : ArgError
  value : Nat
  deriving DecidableEq, Repr

/-- What is stored in a target: a number, or the pointer of an argument. -/
inductive ArgVal where
  | int (n : Int)
  | arg (pos : Nat)
  deriving DecidableEq, Repr

/-- What the parser does. -/
inductive ArgEvent where
  /-- It reads `argv[pos][idx]`. -/
  | read (pos idx : Nat)
  /-- It takes the argument as the name of an option. -/
  | name (pos : Nat) (opt : ArgOpt)
  /-- It takes the argument as the value of the option before it. -/
  | value (pos : Nat)
  /-- It sets a target. -/
  | store (target : Nat) (val : ArgVal)
  deriving DecidableEq

/-- What the parser finds where nothing has been written: `pos_push` in the `n`-th round, and the memory
behind the terminators. -/
structure Undef where
  posPush : Nat → Nat
  byte : Nat → Nat → Char

/-- One round: the result so far, the variable `pos_push`, and what was done. -/
structure Round where
  ret : ParseRet
  posPush : Nat
  log : List ArgEvent

/-! ## The parser -/

/-- `argv[pos][idx]`. -/
def argByte (u : Undef) (argv : List CString) (pos idx : Nat) : Char :=
  match argv[pos]? with
  | some w => (w.val ++ [nul])[idx]?.getD (u.byte pos idx)
  | none => u.byte pos idx

/-- Reads of the bytes of an argument from `start` on. -/
def argReads (pos start n : Nat) : List ArgEvent := (List.range' start n).map (ArgEvent.read pos)

/-- `args_assign`: the value is the next argument. `atoi` reads all of it. -/
def argsAssign (opt : ArgOpt) (argv : List CString) (pos : Nat) : Round :=
  match opt.argType, argv[pos + 1]? with
  | .boolean, _ => ⟨⟨.success, 0⟩, 0, [.name pos opt, .store opt.argTarget (.int 1)]⟩
  | _, none => ⟨⟨.missingVal, pos⟩, 1, []⟩
  | .integer, some nxt =>
      ⟨⟨.success, 0⟩, 1, [.name pos opt, .value (pos + 1)] ++ argReads (pos + 1) 0 (nxt.val.length + 1) ++
        [.store opt.argTarget (.int (atoi (String.ofList nxt.val)))]⟩
  | .string, some _ =>
      ⟨⟨.success, 0⟩, 1, [.name pos opt, .value (pos + 1), .store opt.argTarget (.arg (pos + 1))]⟩

/-- `args_parse_short_arg_name`. -/
def argsParseShortArgName (opts : List ArgOpt) (name : Char) : Option ArgOpt :=
  opts.find? fun opt => opt.argShortName = name

/-- `args_parse_short_arg`. -/
def argsParseShortArg (u : Undef) (opts : List ArgOpt) (argv : List CString) (n pos : Nat) : Round :=
  match argsParseShortArgName opts (argByte u argv pos 1) with
  | none => ⟨⟨.unknownArg, pos⟩, u.posPush n, []⟩
  | some opt => argsAssign opt argv pos

/-- `strcmp(p, q) == 0`, and how many bytes of `q` it reads. -/
def strcmpScan : List Char → List Char → Bool × Nat
  | [], q => (q.isEmpty, 1)
  | _ :: _, [] => (false, 1)
  | c :: p, d :: q => if c = d then ((strcmpScan p q).1, (strcmpScan p q).2 + 1) else (false, 1)

/-- `args_parse_long_arg_name`: the option, and how much of the name each comparison reads. -/
def argsParseLongArgName : List ArgOpt → List Char → Option ArgOpt × List Nat
  | [], _ => (none, [])
  | opt :: opts, name =>
      let s := strcmpScan opt.argLongName.val name
      if s.1 then (some opt, [s.2])
      else ((argsParseLongArgName opts name).1, s.2 :: (argsParseLongArgName opts name).2)

/-- `args_parse_long_arg`, for an argument of more than two bytes. -/
def argsParseLongArg (u : Undef) (opts : List ArgOpt) (argv : List CString) (n pos : Nat) : Round :=
  let name := ((argv[pos]?.map Subtype.val).getD []).drop 2
  let found := argsParseLongArgName opts name
  let reads := found.2.flatMap (argReads pos 2)
  match found.1 with
  | none => ⟨⟨.unknownArg, pos⟩, u.posPush n, reads⟩
  | some opt =>
      let r := argsAssign opt argv pos
      { r with log := reads ++ r.log }

/-- The body of the loop in the `n`-th round, without the last addition. -/
def argsRound (u : Undef) (opts : List ArgOpt) (argv : List CString) (n i : Nat) : Round :=
  if argByte u argv i 0 ≠ '-' then ⟨⟨.unknownArg, i⟩, u.posPush n, argReads i 0 1⟩
  else
    -- whatever the second byte is, one of the two conditions reads the third
    let r :=
      if argByte u argv i 1 ≠ '-' ∧ argByte u argv i 2 = nul then argsParseShortArg u opts argv n i
      else if argByte u argv i 1 = '-' ∧ argByte u argv i 2 ≠ nul then argsParseLongArg u opts argv n i
      else ⟨⟨.success, 0⟩, u.posPush n, []⟩
    { r with log := argReads i 0 3 ++ r.log }

/-- The loop from the position `i` on. -/
def argsLoop (u : Undef) (opts : List ArgOpt) (argv : List CString) :
    (fuel n i : Nat) → Option (ParseRet × List ArgEvent)
  | 0, _, _ => none
  | fuel + 1, n, i =>
      if i < argv.length then
        let r := argsRound u opts argv n i
        if r.ret.error ≠ .success then some (r.ret, r.log)
        else
          match argsLoop u opts argv fuel (n + 1) (((i + r.posPush) % wordSize + 1) % wordSize) with
          | none => none
          | some (ret, log) => some (ret, r.log ++ log)
      else some (⟨.success, 0⟩, [])

/-- `args_parse`. -/
def argsParse (u : Undef) (opts : List ArgOpt) (argv : List CString) (fuel : Nat) :
    Option (ParseRet × List ArgEvent) :=
  argsLoop u opts argv fuel 0 0

/-! ## What the parser is for -/

/-- The argument names an option. -/
def ArgOpt.Names (opt : ArgOpt) (w : List Char) : Prop :=
  w = ['-', opt.argShortName] ∧ opt.argShortName ≠ '-' ∨
    w = '-' :: '-' :: opt.argLongName.val ∧ opt.argLongName.val ≠ []

/-- The option has a value. -/
def ArgOpt.Valued (opt : ArgOpt) : Prop := opt.argType ≠ .boolean

/-- The argument that an event takes. -/
def ArgEvent.taken : ArgEvent → Option Nat
  | .name pos _ => some pos
  | .value pos => some pos
  | .read _ _ => none
  | .store _ _ => none

/-- Where the parser stopped. -/
def ParseRet.stop (ret : ParseRet) (argc : Nat) : Nat := if ret.error = .success then argc else ret.value

/-- **Every argument from `i` on is accounted for** by a result and what was done for it. -/
structure AccountsFrom (opts : List ArgOpt) (argv : List CString) (i : Nat) (ret : ParseRet)
    (log : List ArgEvent) : Prop where
  /-- No byte behind a terminator is read. -/
  reads : ∀ pos idx, .read pos idx ∈ log → ∃ w ∈ argv[pos]?, idx ≤ w.val.length
  /-- The arguments before the last one that was looked at were taken in order, each of them once. -/
  taken : log.filterMap ArgEvent.taken = List.range' i (ret.stop argv.length - i)
  name : ∀ pos opt, .name pos opt ∈ log → opt ∈ opts ∧ ∃ w ∈ argv[pos]?, opt.Names w.val
  value : ∀ pos, .value pos ∈ log → ∃ q opt, pos = q + 1 ∧ .name q opt ∈ log ∧ opt.Valued
  /-- An error has the position of an argument. -/
  error : ret.error ≠ .success → i ≤ ret.value ∧ ret.value < argv.length
  unknown : ret.error = .unknownArg → ∀ opt ∈ opts, ∀ w ∈ argv[ret.value]?, ¬ opt.Names w.val
  missing : ret.error = .missingVal →
    ret.value + 1 = argv.length ∧ ∃ opt ∈ opts, opt.Valued ∧ ∃ w ∈ argv[ret.value]?, opt.Names w.val

/-- **Every argument is accounted for**: the parser ends, its result and what it does are the same whatever
the memory holds that nobody has written, and every argument has its place. -/
def Accounts (opts : List ArgOpt) (argv : List CString) : Prop :=
  ∃ ret log, (∀ u, ∃ fuel, argsParse u opts argv fuel = some (ret, log)) ∧
    AccountsFrom opts argv 0 ret log

/-! ## The condition -/

/-- A dash and one more letter, or two dashes and a name. -/
def OptionShape (w : List Char) : Prop :=
  (∃ c, c ≠ '-' ∧ w = ['-', c]) ∨ ∃ c name, w = '-' :: '-' :: c :: name

/-- The first option of the table with that name. -/
def optionNamed (opts : List ArgOpt) (w : List Char) : Option ArgOpt :=
  match w with
  | ['-', c] => if c = '-' then none else opts.find? fun opt => opt.argShortName = c
  | '-' :: '-' :: c :: name => opts.find? fun opt => opt.argLongName.val = c :: name
  | _ => none

/-- **The positions where the name of an option is expected**: the first, the one after a flag, and the one
after an option with its value. -/
inductive NamePos (opts : List ArgOpt) (argv : List CString) : Nat → Prop where
  | first : NamePos opts argv 0
  | flag {i : Nat} {w : CString} {opt : ArgOpt} (h : NamePos opts argv i) (hw : argv[i]? = some w)
      (hopt : optionNamed opts w.val = some opt) (hflag : ¬ opt.Valued) : NamePos opts argv (i + 1)
  | valued {i : Nat} {w : CString} {opt : ArgOpt} (h : NamePos opts argv i) (hw : argv[i]? = some w)
      (hopt : optionNamed opts w.val = some opt) (hvalued : opt.Valued) (hlt : i + 1 < argv.length) :
      NamePos opts argv (i + 2)

/-! ## Names -/

theorem strcmpScan_fst (p q : List Char) : (strcmpScan p q).1 = true ↔ p = q := by
  induction p generalizing q with
  | nil => cases q <;> simp [strcmpScan]
  | cons c p ih =>
      cases q with
      | nil => simp [strcmpScan]
      | cons d q =>
          rw [strcmpScan]
          split
          · rename_i hc
            rw [List.cons.injEq, and_iff_right hc]
            exact ih q
          · rename_i hc
            simp [hc]

/-- The comparison ends at a terminator. -/
theorem strcmpScan_snd_le (p q : List Char) : (strcmpScan p q).2 ≤ q.length + 1 := by
  induction p generalizing q with
  | nil => simp [strcmpScan]
  | cons c p ih =>
      cases q with
      | nil => simp [strcmpScan]
      | cons d q =>
          rw [strcmpScan]
          split
          · exact Nat.succ_le_succ (ih q)
          · simp

theorem argsParseLongArgName_fst (opts : List ArgOpt) (name : List Char) :
    (argsParseLongArgName opts name).1 = opts.find? fun opt => opt.argLongName.val = name := by
  induction opts with
  | nil => rfl
  | cons opt opts ih =>
      rw [argsParseLongArgName, List.find?_cons]
      by_cases h : opt.argLongName.val = name
      · have hscan := (strcmpScan_fst opt.argLongName.val name).mpr h
        rw [if_pos hscan]
        simp [h]
      · have hscan : (strcmpScan opt.argLongName.val name).1 = false :=
          Bool.eq_false_iff.mpr fun heq => h ((strcmpScan_fst _ _).mp heq)
        simpa [hscan, h] using ih

theorem argsParseLongArgName_snd (opts : List ArgOpt) (name : List Char) :
    ∀ n ∈ (argsParseLongArgName opts name).2, n ≤ name.length + 1 := by
  induction opts with
  | nil => simp [argsParseLongArgName]
  | cons opt opts ih =>
      intro n hn
      rw [argsParseLongArgName] at hn
      split at hn
      · rw [List.mem_singleton.mp hn]
        exact strcmpScan_snd_le _ _
      · rcases List.mem_cons.mp hn with rfl | hn
        · exact strcmpScan_snd_le _ _
        · exact ih n hn

/-- **The option that is found has the name**, and it is in the table. -/
theorem names_of_optionNamed {opts : List ArgOpt} {w : List Char} {opt : ArgOpt}
    (h : optionNamed opts w = some opt) : opt ∈ opts ∧ opt.Names w := by
  unfold optionNamed at h
  split at h
  · rename_i c
    split at h
    · exact absurd h (by simp)
    · rename_i hc
      have hname : opt.argShortName = c := by simpa using List.find?_some h
      exact ⟨List.mem_of_find?_eq_some h, Or.inl ⟨by rw [hname], by rwa [hname]⟩⟩
  · have hname := List.find?_some h
    rw [decide_eq_true_eq] at hname
    exact ⟨List.mem_of_find?_eq_some h, Or.inr ⟨by rw [hname], by simp [hname]⟩⟩
  · exact absurd h (by simp)

theorem shape_of_optionNamed {opts : List ArgOpt} {w : List Char} {opt : ArgOpt}
    (h : optionNamed opts w = some opt) : OptionShape w := by
  rcases (names_of_optionNamed h).2 with ⟨rfl, hne⟩ | ⟨rfl, hne⟩
  · exact Or.inl ⟨_, hne, rfl⟩
  · obtain ⟨c, name, heq⟩ := List.exists_cons_of_ne_nil hne
    exact Or.inr ⟨c, name, by rw [heq]⟩

/-- What is not found is in no entry of the table. -/
theorem not_names_of_optionNamed {opts : List ArgOpt} {w : List Char} (h : optionNamed opts w = none) :
    ∀ opt ∈ opts, ¬ opt.Names w := by
  rintro opt hopt (⟨rfl, hne⟩ | ⟨rfl, hne⟩)
  · rw [optionNamed, if_neg hne, List.find?_eq_none] at h
    exact absurd rfl (of_decide_eq_false (Bool.eq_false_iff.mpr (h opt hopt)))
  · obtain ⟨c, name, heq⟩ := List.exists_cons_of_ne_nil hne
    rw [heq, optionNamed, List.find?_eq_none] at h
    exact absurd heq (of_decide_eq_false (Bool.eq_false_iff.mpr (h opt hopt)))

/-! ## One round -/

section Rounds

variable {u : Undef} {opts : List ArgOpt} {argv : List CString} {i n : Nat} {w : CString}

theorem argByte_of_lt {idx : Nat} (hw : argv[i]? = some w) (hidx : idx < (w.val ++ [nul]).length) :
    argByte u argv i idx = (w.val ++ [nul])[idx] := by
  rw [argByte, hw]
  simp only [List.getElem?_eq_getElem hidx, Option.getD_some]

/-- What is read of an argument whose shape is that of an option. -/
def nameReads (opts : List ArgOpt) (w : List Char) (i : Nat) : List ArgEvent :=
  argReads i 0 3 ++
    match w with
    | '-' :: '-' :: c :: name => (argsParseLongArgName opts (c :: name)).2.flatMap (argReads i 2)
    | _ => []

theorem nameReads_short (c : Char) (i : Nat) : nameReads opts ['-', c] i = argReads i 0 3 := by
  simp [nameReads]

theorem nameReads_long (c : Char) (name : List Char) (i : Nat) :
    nameReads opts ('-' :: '-' :: c :: name) i =
      argReads i 0 3 ++ (argsParseLongArgName opts (c :: name)).2.flatMap (argReads i 2) := rfl

variable (u opts n) in
/-- The round of an argument that is no option. -/
theorem argsRound_of_ne (hw : argv[i]? = some w) (hdash : w.val.head? ≠ some '-') :
    argsRound u opts argv n i = ⟨⟨.unknownArg, i⟩, u.posPush n, argReads i 0 1⟩ := by
  have hne : argByte u argv i 0 ≠ '-' := by
    rw [argByte_of_lt hw (by simp)]
    cases hval : w.val with
    | nil =>
        simp only [List.nil_append, List.getElem_cons_zero]
        decide
    | cons c rest => simpa [hval] using hdash
  rw [argsRound, if_pos hne]

variable (u opts n) in
/-- **The round of an option** does not look at what nobody has written. -/
theorem argsRound_of_shape (hw : argv[i]? = some w) (hshape : OptionShape w.val) :
    argsRound u opts argv n i =
      match optionNamed opts w.val with
      | none => ⟨⟨.unknownArg, i⟩, u.posPush n, nameReads opts w.val i⟩
      | some opt =>
          { argsAssign opt argv i with log := nameReads opts w.val i ++ (argsAssign opt argv i).log } := by
  -- a short option is a dash and one character; a long one begins with two dashes
  rcases hshape with ⟨c, hc, hval⟩ | ⟨c, name, hval⟩
  · have h0 : argByte u argv i 0 = '-' := by
      rw [argByte_of_lt hw (by simp [hval])]
      simp [hval]
    have h1 : argByte u argv i 1 = c := by
      rw [argByte_of_lt hw (by simp [hval])]
      simp [hval]
    have h2 : argByte u argv i 2 = nul := by
      rw [argByte_of_lt hw (by simp [hval])]
      simp [hval]
    rw [argsRound, if_neg (not_not.mpr h0), if_pos ⟨h1 ▸ hc, h2⟩, argsParseShortArg, h1, hval,
      nameReads_short, optionNamed, if_neg hc, argsParseShortArgName]
    cases opts.find? fun opt => opt.argShortName = c with
    | none => simp
    | some opt => rfl
  · have h0 : argByte u argv i 0 = '-' := by
      rw [argByte_of_lt hw (by simp [hval])]
      simp [hval]
    have h1 : argByte u argv i 1 = '-' := by
      rw [argByte_of_lt hw (by simp [hval])]
      simp [hval]
    have h2 : argByte u argv i 2 ≠ nul := by
      rw [argByte_of_lt hw (by simp [hval])]
      have hc : c ≠ nul := fun heq => w.property (by rw [hval, heq]; simp)
      simpa [hval] using hc
    have hname : ((argv[i]?.map Subtype.val).getD []).drop 2 = c :: name := by
      rw [hw, Option.map_some, Option.getD_some, hval]
      rfl
    rw [argsRound, if_neg (not_not.mpr h0), if_neg (fun h => h.1 h1), if_pos ⟨h1, h2⟩, argsParseLongArg,
      hname, hval, nameReads_long, optionNamed, argsParseLongArgName_fst]
    cases opts.find? fun opt => opt.argLongName.val = c :: name with
    | none => rfl
    | some opt => simp

variable (u opts n) in
/-- A bare dash, two dashes, or a dash with more than one letter: the round goes on by what `pos_push` is. -/
theorem argsRound_of_not_shape (hw : argv[i]? = some w) (hdash : w.val.head? = some '-')
    (hshape : ¬ OptionShape w.val) (hbyte : u.byte i 2 ≠ nul) :
    argsRound u opts argv n i = ⟨⟨.success, 0⟩, u.posPush n, argReads i 0 3 ++ []⟩ := by
  obtain ⟨rest, hval⟩ : ∃ rest, w.val = '-' :: rest := by
    cases hw' : w.val with
    | nil => simp [hw'] at hdash
    | cons c rest =>
        rw [hw', List.head?_cons, Option.some.injEq] at hdash
        exact ⟨rest, by rw [hdash]⟩
  have h0 : argByte u argv i 0 = '-' := by
    rw [argByte_of_lt hw (by simp [hval])]
    simp [hval]
  have hneither : ¬ (argByte u argv i 1 ≠ '-' ∧ argByte u argv i 2 = nul) ∧
      ¬ (argByte u argv i 1 = '-' ∧ argByte u argv i 2 ≠ nul) := by
    cases rest with
    | nil =>
        have h1 : argByte u argv i 1 = nul := by
          rw [argByte_of_lt hw (by simp [hval])]
          simp [hval]
        -- the third byte is behind the terminator
        have h2 : argByte u argv i 2 = u.byte i 2 := by simp [argByte, hw, hval]
        rw [h1, h2]
        exact ⟨fun h => hbyte h.2, fun h => absurd h.1 (by decide)⟩
    | cons c rest =>
        have h1 : argByte u argv i 1 = c := by
          rw [argByte_of_lt hw (by simp [hval])]
          simp [hval]
        rw [h1]
        cases rest with
        | nil =>
            have h2 : argByte u argv i 2 = nul := by
              rw [argByte_of_lt hw (by simp [hval])]
              simp [hval]
            exact ⟨fun h => hshape (Or.inl ⟨c, h.1, hval⟩), fun h => h.2 h2⟩
        | cons d rest =>
            have h2 : argByte u argv i 2 ≠ nul := by
              have hd : d ≠ nul := fun heq => w.property (by rw [hval, heq]; simp)
              rw [argByte_of_lt hw (by simp [hval])]
              simpa [hval] using hd
            exact ⟨fun h => h2 h.2, fun h => hshape (Or.inr ⟨d, rest, by rw [hval, h.1]⟩)⟩
  rw [argsRound, if_neg (not_not.mpr h0), if_neg hneither.1, if_neg hneither.2]

theorem mem_argReads {pos start len : Nat} {e : ArgEvent} (h : e ∈ argReads pos start len) :
    ∃ idx, e = .read pos idx ∧ idx < start + len := by
  obtain ⟨idx, hidx, rfl⟩ := List.mem_map.mp h
  exact ⟨idx, rfl, (List.mem_range'_1.mp hidx).2⟩

/-- **An option is read up to its terminator.** -/
theorem mem_nameReads {e : ArgEvent} (hshape : OptionShape w.val) (h : e ∈ nameReads opts w.val i) :
    ∃ idx, e = .read i idx ∧ idx ≤ w.val.length := by
  rcases hshape with ⟨c, hc, hval⟩ | ⟨c, name, hval⟩
  · rw [hval, nameReads_short] at h
    obtain ⟨idx, rfl, hidx⟩ := mem_argReads h
    rw [hval]
    exact ⟨idx, rfl, Nat.le_of_lt_succ hidx⟩
  · rw [hval, nameReads_long] at h
    rw [hval]
    rcases List.mem_append.mp h with h | h
    · obtain ⟨idx, rfl, hidx⟩ := mem_argReads h
      refine ⟨idx, rfl, ?_⟩
      simp only [List.length_cons]
      omega
    · obtain ⟨len, hlen, h⟩ := List.mem_flatMap.mp h
      obtain ⟨idx, rfl, hidx⟩ := mem_argReads h
      have hle := argsParseLongArgName_snd opts (c :: name) len hlen
      refine ⟨idx, rfl, ?_⟩
      simp only [List.length_cons] at hle ⊢
      omega

end Rounds

/-! ## The log -/

section Logs

variable {opts : List ArgOpt} {argv : List CString} {i : Nat} {w : CString} {opt : ArgOpt} {ret : ParseRet}
  {log : List ArgEvent}

/-- **Some arguments are taken**, and the others are accounted for. -/
theorem AccountsFrom.take {k : Nat} {new : List ArgEvent} (h : AccountsFrom opts argv (i + k) ret log)
    (hle : i + k ≤ argv.length)
    (hreads : ∀ pos idx, .read pos idx ∈ new → ∃ w ∈ argv[pos]?, idx ≤ w.val.length)
    (htaken : new.filterMap ArgEvent.taken = List.range' i k)
    (hname : ∀ pos opt, .name pos opt ∈ new → opt ∈ opts ∧ ∃ w ∈ argv[pos]?, opt.Names w.val)
    (hvalue : ∀ pos, .value pos ∈ new → ∃ q opt, pos = q + 1 ∧ .name q opt ∈ new ∧ opt.Valued) :
    AccountsFrom opts argv i ret (new ++ log) where
  reads pos idx hmem := (List.mem_append.mp hmem).elim (hreads pos idx) (h.reads pos idx)
  taken := by
    -- the parser stops behind what was taken
    have hstop : i + k ≤ ret.stop argv.length := by
      unfold ParseRet.stop
      split
      · exact hle
      · rename_i herr
        exact (h.error herr).1
    have hsplit : ret.stop argv.length - i = k + (ret.stop argv.length - (i + k)) := by omega
    rw [List.filterMap_append, htaken, h.taken, hsplit, ← List.range'_append_1]
  name pos opt hmem := (List.mem_append.mp hmem).elim (hname pos opt) (h.name pos opt)
  value pos hmem := by
    rcases List.mem_append.mp hmem with hmem | hmem
    · obtain ⟨q, opt, hq, hin, hv⟩ := hvalue pos hmem
      exact ⟨q, opt, hq, List.mem_append_left _ hin, hv⟩
    · obtain ⟨q, opt, hq, hin, hv⟩ := h.value pos hmem
      exact ⟨q, opt, hq, List.mem_append_right _ hin, hv⟩
  error herr := ⟨(Nat.le_add_right i k).trans (h.error herr).1, (h.error herr).2⟩
  unknown := h.unknown
  missing := h.missing

/-- The end of the arguments. -/
theorem accountsFrom_end (hi : argv.length ≤ i) : AccountsFrom opts argv i ⟨.success, 0⟩ [] where
  reads _ _ h := absurd h List.not_mem_nil
  taken := by
    rw [ParseRet.stop, if_pos rfl, Nat.sub_eq_zero_of_le hi]
    rfl
  name _ _ h := absurd h List.not_mem_nil
  value _ h := absurd h List.not_mem_nil
  error h := absurd rfl h
  unknown h := absurd h (by decide)
  missing h := absurd h (by decide)

/-- An argument that is refused: it has been read, and nothing else was done. -/
theorem accountsFrom_refused {err : ArgError} (hw : argv[i]? = some w) (herr : err ≠ .success)
    (hlog : ∀ e ∈ log, ∃ idx, e = .read i idx ∧ idx ≤ w.val.length)
    (hunknown : err = .unknownArg → ∀ opt ∈ opts, ¬ opt.Names w.val)
    (hmissing : err = .missingVal → i + 1 = argv.length ∧ ∃ opt ∈ opts, opt.Valued ∧ opt.Names w.val) :
    AccountsFrom opts argv i ⟨err, i⟩ log where
  reads pos idx hmem := by
    obtain ⟨idx', heq, hle⟩ := hlog _ hmem
    obtain ⟨rfl, rfl⟩ := ArgEvent.read.inj heq
    exact ⟨w, hw, hle⟩
  taken := by
    -- the log has reads only
    have hnone : log.filterMap ArgEvent.taken = [] := by
      refine List.filterMap_eq_nil_iff.mpr fun e he => ?_
      obtain ⟨idx, rfl, -⟩ := hlog e he
      rfl
    rw [hnone, ParseRet.stop, if_neg herr, Nat.sub_self]
    rfl
  name pos opt hmem := by
    obtain ⟨idx, heq, -⟩ := hlog _ hmem
    exact absurd heq (by simp)
  value pos hmem := by
    obtain ⟨idx, heq, -⟩ := hlog _ hmem
    exact absurd heq (by simp)
  error _ := ⟨le_rfl, (List.getElem?_eq_some_iff.mp hw).1⟩
  unknown h opt hopt w' hw' := by
    obtain rfl := Option.some.inj (hw.symm.trans hw')
    exact hunknown h opt hopt
  missing h := by
    obtain ⟨hlast, opt, hopt, hvalued, hnames⟩ := hmissing h
    exact ⟨hlast, opt, hopt, hvalued, w, hw, hnames⟩

/-- An event that takes no argument, and reads none but that at `pos`. -/
def ArgEvent.Quiet (argv : List CString) (pos : Nat) (e : ArgEvent) : Prop :=
  (∃ idx, e = .read pos idx ∧ ∃ w ∈ argv[pos]?, idx ≤ w.val.length) ∨ ∃ target val, e = .store target val

theorem ArgEvent.Quiet.taken {pos : Nat} {e : ArgEvent} (h : e.Quiet argv pos) : e.taken = none := by
  rcases h with ⟨idx, rfl, -⟩ | ⟨target, val, rfl⟩
  · rfl
  · rfl

theorem filterMap_quiet {pos : Nat} {l : List ArgEvent} (h : ∀ e ∈ l, e.Quiet argv pos) :
    l.filterMap ArgEvent.taken = [] :=
  List.filterMap_eq_nil_iff.mpr fun e he => (h e he).taken

theorem quiet_nameReads (hw : argv[i]? = some w) (hshape : OptionShape w.val) :
    ∀ e ∈ nameReads opts w.val i, e.Quiet argv i := by
  intro e he
  obtain ⟨idx, rfl, hle⟩ := mem_nameReads hshape he
  exact Or.inl ⟨idx, rfl, w, hw, hle⟩

/-- A flag takes no value. -/
theorem argsAssign_flag (hflag : ¬ opt.Valued) (argv : List CString) (i : Nat) :
    argsAssign opt argv i = ⟨⟨.success, 0⟩, 0, [.name i opt] ++ [.store opt.argTarget (.int 1)]⟩ := by
  have htype : opt.argType = .boolean := not_not.mp hflag
  rw [argsAssign, htype]
  rfl

/-- The value is missing. -/
theorem argsAssign_missing (hvalued : opt.Valued) (hnone : argv[i + 1]? = none) :
    argsAssign opt argv i = ⟨⟨.missingVal, i⟩, 1, []⟩ := by
  unfold argsAssign
  cases htype : opt.argType with
  | boolean => exact absurd htype hvalued
  | integer => simp only [hnone]
  | string => simp only [hnone]

/-- **The next argument is the value.** -/
theorem argsAssign_valued {nxt : CString} (hvalued : opt.Valued) (hsome : argv[i + 1]? = some nxt) :
    ∃ rest, argsAssign opt argv i = ⟨⟨.success, 0⟩, 1, [.name i opt, .value (i + 1)] ++ rest⟩ ∧
      ∀ e ∈ rest, e.Quiet argv (i + 1) := by
  unfold argsAssign
  cases htype : opt.argType with
  | boolean => exact absurd htype hvalued
  | integer =>
      simp only [hsome]
      refine ⟨argReads (i + 1) 0 (nxt.val.length + 1) ++ [.store opt.argTarget _], by rw [List.append_assoc],
        fun e he => ?_⟩
      rcases List.mem_append.mp he with he | he
      · obtain ⟨idx, rfl, hidx⟩ := mem_argReads he
        exact Or.inl ⟨idx, rfl, nxt, hsome, by omega⟩
      · exact Or.inr ⟨_, _, List.mem_singleton.mp he⟩
  | string =>
      simp only [hsome]
      exact ⟨[.store opt.argTarget _], rfl, fun e he => Or.inr ⟨_, _, List.mem_singleton.mp he⟩⟩

/-- **An option with what belongs to it**, and the other arguments. -/
theorem AccountsFrom.option {k : Nat} {new : List ArgEvent} (h : AccountsFrom opts argv (i + k) ret log)
    (hle : i + k ≤ argv.length) (hw : argv[i]? = some w) (hopt : optionNamed opts w.val = some opt)
    (htaken : new.filterMap ArgEvent.taken = List.range' i k) (hname : .name i opt ∈ new)
    (hnew : ∀ e ∈ new, e = .name i opt ∨ (e = .value (i + 1) ∧ opt.Valued) ∨ ∃ pos, e.Quiet argv pos) :
    AccountsFrom opts argv i ret (new ++ log) := by
  obtain ⟨hin, hnames⟩ := names_of_optionNamed hopt
  refine h.take hle (fun pos idx he => ?_) htaken (fun pos opt' he => ?_) (fun pos he => ?_)
  · rcases hnew _ he with heq | ⟨heq, -⟩ | ⟨pos', ⟨idx', heq, hbound⟩ | ⟨target, val, heq⟩⟩
    · exact absurd heq (by simp)
    · exact absurd heq (by simp)
    · obtain ⟨rfl, rfl⟩ := ArgEvent.read.inj heq
      exact hbound
    · exact absurd heq (by simp)
  · rcases hnew _ he with heq | ⟨heq, -⟩ | ⟨pos', ⟨idx', heq, -⟩ | ⟨target, val, heq⟩⟩
    · obtain ⟨rfl, rfl⟩ := ArgEvent.name.inj heq
      exact ⟨hin, w, hw, hnames⟩
    · exact absurd heq (by simp)
    · exact absurd heq (by simp)
    · exact absurd heq (by simp)
  · rcases hnew _ he with heq | ⟨heq, hvalued⟩ | ⟨pos', ⟨idx', heq, -⟩ | ⟨target, val, heq⟩⟩
    · exact absurd heq (by simp)
    · exact ⟨i, opt, ArgEvent.value.inj heq, hname, hvalued⟩
    · exact absurd heq (by simp)
    · exact absurd heq (by simp)

/-- **A flag**, and the others from the next argument on. -/
theorem AccountsFrom.flag (h : AccountsFrom opts argv (i + 1) ret log) (hw : argv[i]? = some w)
    (hshape : OptionShape w.val)
    (hopt : optionNamed opts w.val = some opt) (hflag : ¬ opt.Valued) :
    AccountsFrom opts argv i ret ((nameReads opts w.val i ++ (argsAssign opt argv i).log) ++ log) := by
  have hlt := (List.getElem?_eq_some_iff.mp hw).1
  rw [argsAssign_flag hflag]
  refine h.option hlt hw hopt ?_ (by simp) (fun e he => ?_)
  · rw [List.filterMap_append, filterMap_quiet (quiet_nameReads hw hshape)]
    rfl
  · rcases List.mem_append.mp he with he | he
    · exact Or.inr (Or.inr ⟨i, quiet_nameReads hw hshape e he⟩)
    · rcases List.mem_append.mp he with he | he
      · exact Or.inl (List.mem_singleton.mp he)
      · exact Or.inr (Or.inr ⟨i, Or.inr ⟨_, _, List.mem_singleton.mp he⟩⟩)

/-- **An option with its value**, and the others behind them. -/
theorem AccountsFrom.valued {nxt : CString} (h : AccountsFrom opts argv (i + 2) ret log)
    (hw : argv[i]? = some w) (hnxt : argv[i + 1]? = some nxt) (hshape : OptionShape w.val)
    (hopt : optionNamed opts w.val = some opt)
    (hvalued : opt.Valued) :
    AccountsFrom opts argv i ret ((nameReads opts w.val i ++ (argsAssign opt argv i).log) ++ log) := by
  have hlt := (List.getElem?_eq_some_iff.mp hnxt).1
  obtain ⟨rest, hassign, hquiet⟩ := argsAssign_valued hvalued hnxt
  rw [hassign]
  refine h.option hlt hw hopt ?_ (by simp) (fun e he => ?_)
  · rw [List.filterMap_append, filterMap_quiet (quiet_nameReads hw hshape), List.filterMap_append,
      filterMap_quiet hquiet]
    rfl
  · rcases List.mem_append.mp he with he | he
    · exact Or.inr (Or.inr ⟨i, quiet_nameReads hw hshape e he⟩)
    · rcases List.mem_append.mp he with he | he
      · rcases List.mem_cons.mp he with he | he
        · exact Or.inl he
        · exact Or.inr (Or.inl ⟨List.mem_singleton.mp he, hvalued⟩)
      · exact Or.inr (Or.inr ⟨i + 1, hquiet e he⟩)

end Logs

/-! ## The run -/

section Run

variable {opts : List ArgOpt} {argv : List CString}

/-- Where the name of an option is expected, there is one, or something that is no option at all. -/
def NamesShaped (opts : List ArgOpt) (argv : List CString) : Prop :=
  ∀ i, NamePos opts argv i → ∀ w ∈ argv[i]?, w.val.head? = some '-' → OptionShape w.val

theorem argsLoop_of_error {u : Undef} {n i : Nat} (hi : i < argv.length)
    (herr : (argsRound u opts argv n i).ret.error ≠ .success) (fuel : Nat) :
    argsLoop u opts argv (fuel + 1) n i =
      some ((argsRound u opts argv n i).ret, (argsRound u opts argv n i).log) := by
  rw [argsLoop, if_pos hi]
  simp only [if_pos herr]

theorem argsLoop_of_success {u : Undef} {n i : Nat} (hi : i < argv.length)
    (herr : (argsRound u opts argv n i).ret.error = .success) (fuel : Nat) :
    argsLoop u opts argv (fuel + 1) n i =
      (argsLoop u opts argv fuel (n + 1)
        (((i + (argsRound u opts argv n i).posPush) % wordSize + 1) % wordSize)).map
        fun x => (x.1, (argsRound u opts argv n i).log ++ x.2) := by
  rw [argsLoop, if_pos hi]
  simp only [herr, ne_eq, not_true_eq_false, if_false]
  cases argsLoop u opts argv fuel (n + 1)
    (((i + (argsRound u opts argv n i).posPush) % wordSize + 1) % wordSize) <;> rfl

/-- One round of an option that is served: the loop goes on behind it. -/
theorem argsLoop_of_option {u : Undef} {n i : Nat} (k : Nat) {w : CString} {opt : ArgOpt}
    (hw : argv[i]? = some w) (hopt : optionNamed opts w.val = some opt)
    (hret : (argsAssign opt argv i).ret.error = .success) (hpush : (argsAssign opt argv i).posPush = k)
    (hlt : i + k + 1 < wordSize) (fuel : Nat) :
    argsLoop u opts argv (fuel + 1) n i = (argsLoop u opts argv fuel (n + 1) (i + k + 1)).map
      fun x => (x.1, (nameReads opts w.val i ++ (argsAssign opt argv i).log) ++ x.2) := by
  have hround := argsRound_of_shape u opts n hw (shape_of_optionNamed hopt)
  rw [hopt] at hround
  have hi := (List.getElem?_eq_some_iff.mp hw).1
  have hnext : ((i + k) % wordSize + 1) % wordSize = i + k + 1 := by
    rw [Nat.mod_eq_of_lt (show i + k < wordSize by omega), Nat.mod_eq_of_lt hlt]
  rw [argsLoop_of_success hi (by rw [hround]; exact hret), hround]
  dsimp only
  rw [hpush, hnext]

/-- **The run lemma**: from a position where a name is expected. -/
theorem argsLoop_accounts (hlen : argv.length < wordSize) (hshaped : NamesShaped opts argv) {i : Nat}
    (hpos : NamePos opts argv i) (hi : i ≤ argv.length) :
    ∃ ret log, (∀ u n, ∃ fuel, argsLoop u opts argv fuel n i = some (ret, log)) ∧
      AccountsFrom opts argv i ret log := by
  induction hm : argv.length - i using Nat.strong_induction_on generalizing i with
  | _ m ih =>
      rcases hi.eq_or_lt with rfl | hlt
      · refine ⟨_, _, fun u n => ⟨1, ?_⟩, accountsFrom_end le_rfl⟩
        rw [argsLoop, if_neg (Nat.lt_irrefl _)]
      have hw : argv[i]? = some argv[i] := List.getElem?_eq_getElem hlt
      by_cases hdash : argv[i].val.head? = some '-'
      · have hshape := hshaped i hpos _ hw hdash
        cases hopt : optionNamed opts argv[i].val with
        | none =>
            -- an unknown option
            refine ⟨⟨.unknownArg, i⟩, nameReads opts argv[i].val i, fun u n => ⟨1, ?_⟩,
              accountsFrom_refused hw (by decide) (fun e he => mem_nameReads hshape he)
                (fun _ => not_names_of_optionNamed hopt) (fun h => absurd h (by decide))⟩
            have hround := argsRound_of_shape u opts n hw hshape
            rw [hopt] at hround
            rw [argsLoop_of_error hlt (by simp [hround]), hround]
        | some opt =>
            by_cases hvalued : opt.Valued
            · rcases Nat.lt_or_ge (i + 1) argv.length with hnext | hlast
              · have hnxt : argv[i + 1]? = some argv[i + 1] := List.getElem?_eq_getElem hnext
                obtain ⟨rest, hassign, -⟩ := argsAssign_valued hvalued hnxt
                obtain ⟨ret, log, hloop, hacc⟩ := ih (argv.length - (i + 2)) (by omega)
                  (hpos.valued hw hopt hvalued hnext) hnext rfl
                refine ⟨ret, _, fun u n => ?_, hacc.valued hw hnxt hshape hopt hvalued⟩
                obtain ⟨fuel, hfuel⟩ := hloop u (n + 1)
                refine ⟨fuel + 1, ?_⟩
                rw [argsLoop_of_option 1 hw hopt (by rw [hassign]) (by rw [hassign]) (by omega), hfuel]
                rfl
              · -- the value of the last argument is missing
                have hnone : argv[i + 1]? = none := List.getElem?_eq_none hlast
                refine ⟨⟨.missingVal, i⟩, nameReads opts argv[i].val i, fun u n => ⟨1, ?_⟩,
                  accountsFrom_refused hw (by decide) (fun e he => mem_nameReads hshape he)
                    (fun h => absurd h (by decide)) (fun _ => ⟨by omega, opt,
                      (names_of_optionNamed hopt).1, hvalued, (names_of_optionNamed hopt).2⟩)⟩
                have hround := argsRound_of_shape u opts n hw hshape
                rw [hopt] at hround
                simp only [argsAssign_missing hvalued hnone, List.append_nil] at hround
                rw [argsLoop_of_error hlt (by simp [hround]), hround]
            · obtain ⟨ret, log, hloop, hacc⟩ := ih (argv.length - (i + 1)) (by omega)
                (hpos.flag hw hopt hvalued) hlt rfl
              refine ⟨ret, _, fun u n => ?_, hacc.flag hw hshape hopt hvalued⟩
              obtain ⟨fuel, hfuel⟩ := hloop u (n + 1)
              refine ⟨fuel + 1, ?_⟩
              rw [argsLoop_of_option 0 hw hopt (by rw [argsAssign_flag hvalued])
                (by rw [argsAssign_flag hvalued]) (by omega), hfuel]
              rfl
      · -- no option at all
        refine ⟨⟨.unknownArg, i⟩, argReads i 0 1, fun u n => ⟨1, ?_⟩,
          accountsFrom_refused hw (by decide) (fun e he => ?_) (fun _ opt _ hnames => ?_)
            (fun h => absurd h (by decide))⟩
        · have hround := argsRound_of_ne u opts n hw hdash
          rw [argsLoop_of_error hlt (by simp [hround]), hround]
        · obtain ⟨idx, rfl, hidx⟩ := mem_argReads he
          exact ⟨idx, rfl, by omega⟩
        · rcases hnames with ⟨hval, -⟩ | ⟨hval, -⟩
          · exact hdash (by rw [hval]; rfl)
          · exact hdash (by rw [hval]; rfl)

/-! ## Where it fails -/

/-- Memory in which a parser that moves on by `pos_push` stays where it is. -/
def badUndef : Undef := ⟨fun _ => wordSize - 1, fun _ _ => 'x'⟩

/-- The parser looks at the same argument again and again. -/
theorem argsLoop_stuck (hlen : argv.length < wordSize) {i : Nat} {w : CString} (hw : argv[i]? = some w)
    (hdash : w.val.head? = some '-') (hshape : ¬ OptionShape w.val) (fuel n : Nat) :
    argsLoop badUndef opts argv fuel n i = none := by
  induction fuel generalizing n with
  | zero => rfl
  | succ fuel ih =>
      have hi := (List.getElem?_eq_some_iff.mp hw).1
      have hround := argsRound_of_not_shape badUndef opts n hw hdash hshape
        (show 'x' ≠ nul by decide)
      have hnext : ((i + (wordSize - 1)) % wordSize + 1) % wordSize = i := by
        rw [Nat.mod_add_mod, show i + (wordSize - 1) + 1 = i + wordSize by omega, Nat.add_mod_right,
          Nat.mod_eq_of_lt (hi.trans hlen)]
      rw [argsLoop_of_success hi (by rw [hround]), hround]
      show (argsLoop badUndef opts argv fuel (n + 1)
        (((i + (wordSize - 1)) % wordSize + 1) % wordSize)).map _ = _
      rw [hnext, ih]
      rfl

/-- **Where a run does not end from a position that it comes to, it does not end.** -/
theorem NamePos.stuck (hlen : argv.length < wordSize) {u : Undef} {i : Nat} (hpos : NamePos opts argv i)
    (hstuck : ∀ fuel n, argsLoop u opts argv fuel n i = none) (fuel n : Nat) :
    argsLoop u opts argv fuel n 0 = none := by
  induction hpos generalizing fuel n with
  | first => exact hstuck fuel n
  | flag _ hw hopt hflag ih =>
      refine ih (fun fuel n => ?_) fuel n
      have hi := (List.getElem?_eq_some_iff.mp hw).1
      cases fuel with
      | zero => rfl
      | succ fuel =>
          rw [argsLoop_of_option 0 hw hopt (by rw [argsAssign_flag hflag]) (by rw [argsAssign_flag hflag])
            (by omega), hstuck]
          rfl
  | valued _ hw hopt hvalued hlt ih =>
      refine ih (fun fuel n => ?_) fuel n
      obtain ⟨rest, hassign, -⟩ := argsAssign_valued hvalued (List.getElem?_eq_getElem hlt)
      cases fuel with
      | zero => rfl
      | succ fuel =>
          rw [argsLoop_of_option 1 hw hopt (by rw [hassign]) (by rw [hassign]) (by omega), hstuck]
          rfl

/-- **Every argument is accounted for** exactly when, wherever the name of an option is expected, an argument
that begins with a dash is a dash with one more letter or two dashes with a name. -/
theorem args_accounts_iff (hlen : argv.length < wordSize) : Accounts opts argv ↔ NamesShaped opts argv := by
  constructor
  · rintro ⟨ret, log, hrun, -⟩ i hpos w hw hdash
    by_contra hshape
    obtain ⟨fuel, hfuel⟩ := hrun badUndef
    rw [argsParse, hpos.stuck hlen (argsLoop_stuck hlen hw hdash hshape)] at hfuel
    exact absurd hfuel (by simp)
  · intro hshaped
    obtain ⟨ret, log, hloop, hacc⟩ := argsLoop_accounts hlen hshaped .first (Nat.zero_le _)
    exact ⟨ret, log, fun u => hloop u 0, hacc⟩

end Run

/-- `args_collections`. -/
def argsCollections : List ArgOpt :=
  [⟨.string, 't', ⟨"test".toList, by decide⟩, 0⟩, ⟨.string, 'p', ⟨"pa-conf".toList, by decide⟩, 1⟩,
    ⟨.string, 'h', ⟨"sc-conf".toList, by decide⟩, 2⟩, ⟨.string, 's', ⟨"sp-conf".toList, by decide⟩, 3⟩,
    ⟨.string, 'q', ⟨"qp-conf".toList, by decide⟩, 4⟩, ⟨.string, 'c', ⟨"ch-conf".toList, by decide⟩, 5⟩,
    ⟨.boolean, nul, ⟨"debug-dt".toList, by decide⟩, 6⟩,
    ⟨.boolean, nul, ⟨"debug-as-switch".toList, by decide⟩, 7⟩,
    ⟨.integer, nul, ⟨"debug-tick-interval".toList, by decide⟩, 8⟩,
    ⟨.integer, nul, ⟨"debug-tick-num".toList, by decide⟩, 9⟩]

/-- A bare dash is fine where it is a value. -/
theorem args_accounts_dashValue :
    Accounts argsCollections [⟨"-t".toList, by decide⟩, ⟨"-".toList, by decide⟩] := by
  refine (args_accounts_iff (by rw [wordSize_eq]; decide)).mpr fun i hpos w hw hdash => ?_
  have hi : i = 0 ∨ i = 2 := by
    clear hw hdash
    induction hpos with
    | first => exact Or.inl rfl
    | @flag i w opt _ hw hopt hflag ih =>
        rcases ih with rfl | rfl
        · obtain rfl := Option.some.inj hw
          obtain rfl : opt = argsCollections[0] := Option.some.inj (hopt.symm.trans rfl)
          exact absurd (show ArgOptT.string ≠ .boolean by decide) hflag
        · exact absurd hw (by simp)
    | valued _ hw hopt hvalued hlt ih =>
        rcases ih with rfl | rfl
        · exact Or.inr rfl
        · exact absurd hw (by simp)
  rcases hi with rfl | rfl
  · obtain rfl := Option.some.inj hw
    exact Or.inl ⟨'t', by decide, rfl⟩
  · exact absurd hw (by simp)

/-- A bare dash is read behind its terminator. Where a zero follows, it is taken for the first option without
a short name. -/
theorem args_accounts_dash :
    ¬ ∀ (opts : List ArgOpt) (argv : List CString), argv.length < wordSize → Accounts opts argv := by
  intro hall
  obtain ⟨ret, log, hrun, hacc⟩ := hall argsCollections [⟨['-'], by decide⟩] (by rw [wordSize_eq]; decide)
  let u : Undef := ⟨fun _ => 0, fun _ _ => nul⟩
  obtain ⟨fuel, hfuel⟩ := hrun u
  have hread : .read 0 2 ∈ log := by
    cases fuel with
    | zero => exact absurd hfuel (by simp [argsParse, argsLoop])
    | succ fuel =>
        have hround : argsRound u argsCollections [⟨['-'], by decide⟩] 0 0 =
            ⟨⟨.success, 0⟩, 0, argReads 0 0 3 ++ [.name 0 argsCollections[6], .store 6 (.int 1)]⟩ := rfl
        rw [argsParse, argsLoop_of_success (by decide) (by rw [hround]), hround,
          Option.map_eq_some_iff] at hfuel
        obtain ⟨⟨ret', log'⟩, -, heq⟩ := hfuel
        rw [← (Prod.mk.inj heq).2]
        simp [argReads, List.range']
  obtain ⟨w, hw, hle⟩ := hacc.reads 0 2 hread
  obtain rfl := Option.some.inj hw
  exact absurd hle (by decide)

end Jrinx
