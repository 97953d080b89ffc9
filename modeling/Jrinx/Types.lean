import Mathlib.Tactic.NormNum

/-! # Machine words, layout constants and the enumerations of the services

`include/types.h`, `include/layouts.h` and the unsigned 64-bit arithmetic of the kernel. Sizes and
identifiers are naturals below `wordSize`, with the wrap-around written out where the code relies on
it; `sys_time_t` is an integer.

* **`wordSize`**, **`wordSub`**, **`alignUp`** — unsigned arithmetic.
* **`RetCode`**, **`OpMode`**, **`ProcState`**, **`WaitingReason`**, … — the C enumerations. -/

namespace Jrinx

/-! ## Unsigned words -/

/-- The number of values of a `size_t`: unsigned arithmetic wraps there. It is kept irreducible, so
that no proof unfolds a number of that size. -/
@[irreducible] def wordSize : Nat := 2 ^ 64

theorem wordSize_eq : wordSize = 2 ^ 64 := by
  rw [wordSize]

theorem wordSize_pos : 0 < wordSize := by
  rw [wordSize_eq]
  norm_num

/-- Unsigned subtraction of words, which wraps below zero. -/
def wordSub (a b : Nat) : Nat := if b ≤ a then a - b else a + wordSize - b

theorem wordSub_of_le {a b : Nat} (h : b ≤ a) : wordSub a b = a - b := if_pos h

/-- `align_down`. -/
def alignDown (x align : Nat) : Nat := x - x % align

/-- `align_up`: the addition of `align - 1` wraps. -/
def alignUp (x align : Nat) : Nat := alignDown ((x + (align - 1)) % wordSize) align

/-! ## Layout -/

/-- `PGSIZE`. -/
def pgSize : Nat := 0x1000

/-- `KSTKSIZE`. -/
def kstkSize : Nat := 0x10000

/-- `USTKSIZEMAX`. -/
def ustkSizeMax : Nat := 0x80000

/-- `USTKLIMIT`. -/
def ustkLimit : Nat := 0x2000000000

/-- `XSTKLIMIT`. -/
def xstkLimit : Nat := 0x3000000000

/-- `COMM_BASE`. -/
def commBase : Nat := 0x3100000000

/-- `COMM_LIMT`. -/
def commLimt : Nat := 0x3400000000

/-- `CHAN_BASE`. -/
def chanBase : Nat := 0x3500000000

/-- `CHAN_LIMT`. -/
def chanLimt : Nat := 0x3800000000

/-- `sizeof(struct comm_msg)`: the size header before the data of a message. -/
def commMsgSize : Nat := 8

/-- `SYSTEM_TIME_INFINITE_VAL`, which is `INTMAX_MAX`. -/
def systemTimeInfiniteVal : Int := 0x7fffffffffffffff

/-! ## Enumerations -/

/-- `ret_code_t`. -/
inductive RetCode where
  | noError
  | noAction
  | notAvailable
  | invalidParam
  | invalidConfig
  | invalidMode
  | timedOut
  deriving DecidableEq, Repr

/-- `op_mode_t`. The field is written before the argument is checked, so that a value outside the
enumeration can be stored in it. -/
inductive OpMode where
  | idle
  | coldStart
  | warmStart
  | normal
  | other (n : Nat)
  deriving DecidableEq, Repr

/-- The value stored when a 64-bit argument is assigned to an `op_mode_t`. -/
def OpMode.ofWord (n : Nat) : OpMode :=
  match n % 2 ^ 32 with
  | 0 => .idle
  | 1 => .coldStart
  | 2 => .warmStart
  | 3 => .normal
  | m => .other m

/-- `start_cond_t`. -/
inductive StartCond where
  | normalStart
  | partitionRestart
  | hmModuleRestart
  | hmPartitionRestart
  deriving DecidableEq, Repr

/-- `proc_state_t`. -/
inductive ProcState where
  | dormant
  | ready
  | running
  | waiting
  | faulted
  deriving DecidableEq, Repr

/-- `proc_waiting_reason_t`. -/
inductive WaitingReason where
  | previousStarted
  | delayedStarted
  | suspended
  | suspendedWithTimeout
  | bufferBlocked
  | bufferBlockedWithTimeout
  | blackboardBlocked
  | blackboardBlockedWithTimeout
  | queuingPortBlocked
  | queuingPortBlockedWithTimeout
  | timedWaitTimeout
  deriving DecidableEq, Repr

/-- `deadline_t`. -/
inductive Deadline where
  | soft
  | hard
  deriving DecidableEq, Repr

/-- `port_dir_t`. -/
inductive PortDir where
  | source
  | destination
  deriving DecidableEq, Repr

/-- `que_disc_t`: every value other than `FIFO` selects the branch for `PRIORITY`. -/
inductive QueDisc where
  | fifo
  | priority
  deriving DecidableEq, Repr

/-- `empty_ind_t`. -/
inductive EmptyInd where
  | empty
  | occupied
  deriving DecidableEq, Repr

/-- `proc_id_t`. Identifiers count up from one; zero never names anything. -/
abbrev ProcId := Nat

/-- `part_id_t`. -/
abbrev PartId := Nat

/-- `buf_id_t`. -/
abbrev BufId := Nat

/-- `bb_id_t`. -/
abbrev BbId := Nat

/-- `que_port_id_t`. -/
abbrev PortId := Nat

/-- The position of a `struct channel` among the channels created at boot. -/
abbrev ChanId := Nat

end Jrinx
