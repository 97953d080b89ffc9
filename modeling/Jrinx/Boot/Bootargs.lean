import Jrinx.Lib.CText
import Jrinx.PortConfs

/-! # The boot arguments

The decoders of `kern/lib/bootargs.c`. All four copy their text, replace the separators by terminators and
walk over the strings: a key, its value, and two scans to the next key. They differ in the keys and in what
they do with the values, so the walk is written once.

* **`confDecode`** — the walk, with a function that stores one field.
* **`partField`**, **`schedField`**, **`portField`**, **`chanField`** — the fields of the four tables.
* **`doPartitionsCreate`**, **`doSchedCreate`**, **`doQueuingPortsRegister`**, **`doChannelCreate`** — the
  decoders, with the loops over their records. -/

namespace Jrinx

/-- How a decoder fails. -/
inductive ConfError where
  /-- It returns `-KER_ARG_ER`. -/
  | argEr
  /-- It reads past the end of the text, or writes through the null pointer of a failed `kalloc`. -/
  | fault
  deriving DecidableEq, Repr

/-! ## Numbers -/

/-- The signs in front of a number, and what follows them. -/
def strtolSign : List Char → Int → Int × List Char
  | [], sign => (sign, [])
  | c :: str, sign =>
      if c = '-' then strtolSign str (-sign)
      else if c = '+' then strtolSign str sign
      else (sign, c :: str)

/-- `strtol`, in arithmetic that wraps like a `long`. -/
def strtol (str : String) : Int :=
  let s := strtolSign str.toList 1
  Int.bmod (s.1 * s.2.foldl (fun res c => Int.bmod (res * 10 + c.toNat - '0'.toNat) (2 ^ 64)) 0)
    (2 ^ 64)

/-- `atoi`, which converts the `long` to an `int`. -/
def atoi (str : String) : Int := Int.bmod (strtol str) (2 ^ 32)

/-- An `int` that is stored in a `size_t`. -/
def sizeOfInt (n : Int) : Nat := (n % 2 ^ 64).toNat

/-! ## The walk -/

section Walk

variable {ρ σ : Type}

/-- The text of the copy: every separator is a terminator. -/
def confRaw (conf : List Char) : List Char :=
  conf.map (fun c => if c = ';' ∨ c = ',' ∨ c = '=' then nul else c) ++ [nul]

/-- The inner loop: `n` more fields of the record `r`. A field may change the text behind its key. -/
def confItem (field : String → List Char → ρ → Except ConfError (ρ × List Char)) :
    Nat → ρ → List Char → Except ConfError (ρ × List Char)
  | 0, r, buf => .ok (r, buf)
  | n + 1, r, buf =>
      if buf = [] then .error .argEr
      else
        let key := cstr buf
        match field (String.ofList key) (buf.drop (key.length + 1)) r with
        | .error e => .error e
        | .ok (r, value) =>
            match (skipStr (buf.take (key.length + 1) ++ value)).bind skipStr with
            | none => .error .fault
            | some buf => confItem field n r buf

/-- The outer loop: the records from the position `p` on. A record is what `kalloc` left there until its
fields are stored. -/
def confItems (field : String → List Char → ρ → Except ConfError (ρ × List Char)) (n : Nat)
    (uninit : Nat → ρ) (p : Nat) : Nat → List Char → Except ConfError (List ρ)
  | 0, _ => .ok []
  | cnt + 1, buf =>
      match confItem field n (uninit p) buf with
      | .error e => .error e
      | .ok (r, buf) =>
          match confItems field n uninit (p + 1) cnt buf with
          | .error e => .error e
          | .ok rs => .ok (r :: rs)

/-- A decoder up to its records, which have `n` fields and take `size` bytes each. The length of the text is
counted in an `int`; `kalloc` says which sizes the heap serves. -/
def confDecode (field : String → List Char → ρ → Except ConfError (ρ × List Char)) (n size : Nat)
    (kalloc : Nat → Bool) (uninit : Nat → ρ) (conf : List Char) : Except ConfError (List ρ) :=
  let conf := cstr conf
  let cnt := conf.count ';' + 1
  if conf.length < 2 ^ 31 ∧ kalloc (conf.length + 1) = true ∧ kalloc (cnt * size) = true then
    confItems field n uninit 0 cnt (confRaw conf)
  else .error .fault

/-- The loop over the records, which ends at the first error. -/
def createAll (create : ρ → σ → Option σ) : List ρ → σ → Except ConfError σ
  | [], s => .ok s
  | r :: rs, s =>
      match create r s with
      | none => .error .argEr
      | some s => createAll create rs s

/-- A field whose value is one string, which stays as it is. -/
def plainField (store : String → String → ρ → Option ρ) (key : String) (value : List Char) (r : ρ) :
    Except ConfError (ρ × List Char) :=
  match store key (String.ofList (cstr value)) r with
  | none => .error .argEr
  | some r => .ok (r, value)

/-! ## The tables -/

/-- `struct part_conf`. -/
@[ext] structure PartConf where
  paName : String
  paProg : String
  paMemReq : Nat
  paPeriod : Int
  paDuration : Int
  deriving DecidableEq, Repr

/-- The fields of a partition. -/
def partField (key value : String) (pc : PartConf) : Option PartConf :=
  if key = "name" then some { pc with paName := value }
  else if key = "prog" then some { pc with paProg := value }
  else if key = "memory" then
    if sizeOfInt (atoi value) = 0 then none else some { pc with paMemReq := sizeOfInt (atoi value) }
  else if key = "period" then some { pc with paPeriod := atoi value }
  else if key = "duration" then some { pc with paDuration := atoi value }
  else none

/-- `do_partitions_create`. -/
def doPartitionsCreate (kalloc : Nat → Bool) (uninit : Nat → PartConf) (partCreate : PartConf → σ → Option σ)
    (conf : List Char) (s : σ) : Except ConfError σ :=
  (confDecode (plainField partField) 5 40 kalloc uninit conf).bind fun pcs => createAll partCreate pcs s

/-- `struct sched_conf`. -/
@[ext] structure SchedConf where
  scPaName : String
  scOffset : Int
  scDuration : Int
  deriving DecidableEq, Repr

/-- The fields of a window. -/
def schedField (key value : String) (sc : SchedConf) : Option SchedConf :=
  if key = "part" then some { sc with scPaName := value }
  else if key = "offset" then some { sc with scOffset := atoi value }
  else if key = "duration" then some { sc with scDuration := atoi value }
  else none

/-- `do_sched_create`. -/
def doSchedCreate (kalloc : Nat → Bool) (uninit : Nat → SchedConf)
    (schedModuleAdd : SchedConf → σ → Option σ) (conf : List Char) (s : σ) : Except ConfError σ :=
  (confDecode (plainField schedField) 3 24 kalloc uninit conf).bind fun scs =>
    createAll schedModuleAdd scs s

/-- The fields of a queuing port. -/
def portField (key value : String) (qpc : QueuingPortConf) : Option QueuingPortConf :=
  if key = "name" then some { qpc with qpcName := value }
  else if key = "part" then some { qpc with qpcPaName := value }
  else if key = "direction" then
    if value = "src" then some { qpc with qpcDir := .source }
    else if value = "dst" then some { qpc with qpcDir := .destination }
    else none
  else if key = "max-msg-size" then some { qpc with qpcMaxMsgSize := sizeOfInt (atoi value) }
  else if key = "max-nb-msg" then some { qpc with qpcMaxNbMsg := sizeOfInt (atoi value) }
  else none

/-- `do_queuing_ports_register`. -/
def doQueuingPortsRegister (kalloc : Nat → Bool) (uninit : Nat → QueuingPortConf) (conf : List Char)
    (k : Kernel) : Except ConfError Kernel :=
  (confDecode (plainField portField) 5 64 kalloc uninit conf).map fun qpcs =>
    qpcs.foldl queuingPortRegister k

/-- Replace the ampersands of a string by terminators. -/
def splitPorts : List Char → List Char
  | [] => []
  | c :: buf =>
      if c = nul then c :: buf
      else if c = '&' then nul :: splitPorts buf
      else c :: splitPorts buf

/-- The `n` strings at a pointer. -/
def portNames : Nat → List Char → List String
  | 0, _ => []
  | n + 1, buf => String.ofList (cstr buf) :: portNames n ((skipStr buf).getD [])

/-- The fields of a channel. The names of the ports are separated in place. -/
def chanField (kalloc : Nat → Bool) (key : String) (value : List Char) (cc : ChannelConf) :
    Except ConfError (ChannelConf × List Char) :=
  if key = "media" then
    if String.ofList (cstr value) = "memory" then .ok (cc, value) else .error .argEr
  else if key = "type" then
    if String.ofList (cstr value) = "queuing" then .ok ({ cc with ccType := .queuing }, value)
    else if String.ofList (cstr value) = "sampling" then .ok ({ cc with ccType := .sampling }, value)
    else .error .argEr
  else if key = "ports" then
    let cnt := (cstr value).count '&' + 1
    if kalloc ((cnt + 1) * 8) = true then
      .ok ({ cc with ccPortNames := portNames cnt (splitPorts value) }, splitPorts value)
    else .error .fault
  else .error .argEr

/-- `do_channel_create`. -/
def doChannelCreate (kalloc : Nat → Bool) (uninit : Nat → ChannelConf)
    (channelCreate : ChannelConf → σ → Option σ) (conf : List Char) (s : σ) : Except ConfError σ :=
  (confDecode (chanField kalloc) 3 16 kalloc uninit conf).bind fun ccs => createAll channelCreate ccs s

end Walk

end Jrinx
