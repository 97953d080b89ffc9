import Jrinx.Lib.Bytes
import Jrinx.Types

/-! # Circular buffers and the messages in them

`lib/circbuf.c` and the way `buffer_send`/`buffer_recv` and `queuing_port_send`/`queuing_port_recv`
lay a message out in a slot. All counters are 64-bit words, kept here as naturals with the
wrap-around written out; `cc_buf` is the block of bytes the buffer owns, addressed by offset.

* **`CircbufHolds cc m q`** — the representation invariant: the buffer `cc`, made for messages of at
  most `m` bytes, holds exactly the messages `q`, oldest first.
* **`circbufHolds_init`**, **`circbufHolds_reset`**, **`circbufHolds_commSend`**,
  **`circbufHolds_commRecv`** — every operation acts on the held messages as on a bounded queue. -/

namespace Jrinx

/-- `struct circbuf`. -/
structure Circbuf where
  /-- The bytes `cc_buf` points to. -/
  ccBuf : Nat → UInt8
  ccEleSize : Nat
  ccCap : Nat
  ccCnt : Nat
  ccHead : Nat
  ccTail : Nat

/-- `circbuf_init`: the tail starts one element before the buffer, modulo the word size. -/
def circbufInit (buf : Nat → UInt8) (eleSize cap : Nat) : Circbuf :=
  { ccBuf := buf, ccEleSize := eleSize, ccCap := cap, ccCnt := 0, ccHead := 0,
    ccTail := (wordSize - eleSize) % wordSize }

/-- `circbuf_reset`. -/
def circbufReset (cc : Circbuf) : Circbuf :=
  { cc with ccHead := 0, ccTail := (wordSize - cc.ccEleSize) % wordSize, ccCnt := 0 }

/-- `circbuf_is_full`. -/
def circbufIsFull (cc : Circbuf) : Bool := cc.ccCnt == cc.ccCap

/-- `circbuf_is_empty`. -/
def circbufIsEmpty (cc : Circbuf) : Bool := cc.ccCnt == 0

/-- `circbuf_enqu_st`: the tail moves on, and its new value is the offset to write at. -/
def circbufEnquSt (cc : Circbuf) : Circbuf :=
  { cc with
    ccTail := (cc.ccTail + cc.ccEleSize) % wordSize % (cc.ccCap * cc.ccEleSize % wordSize) }

/-- `circbuf_enqu_ed`. -/
def circbufEnquEd (cc : Circbuf) : Circbuf :=
  { cc with ccCnt := (cc.ccCnt + 1) % wordSize }

/-- `circbuf_dequ_st`: the head is the offset to read at. The unsigned `cc_cnt` wraps at zero. -/
def circbufDequSt (cc : Circbuf) : Circbuf :=
  { cc with ccCnt := if cc.ccCnt = 0 then wordSize - 1 else cc.ccCnt - 1 }

/-- `circbuf_dequ_ed`. -/
def circbufDequEd (cc : Circbuf) : Circbuf :=
  { cc with
    ccHead := (cc.ccHead + cc.ccEleSize) % wordSize % (cc.ccCap * cc.ccEleSize % wordSize) }

/-! ## Messages in slots -/

/-- The length and the bytes of the message at offset `off`, as the header there gives them. -/
def readMsg (buf : Nat → UInt8) (off : Nat) : Nat × List UInt8 :=
  let len := fromLe (loadBytes buf off commMsgSize)
  (len, loadBytes buf (off + commMsgSize) len)

/-- Write the header and the data of a message at offset `off`. -/
def writeMsg (buf : Nat → UInt8) (off : Nat) (msg : List UInt8) : Nat → UInt8 :=
  storeBytes (storeBytes buf off (leBytes commMsgSize msg.length)) (off + commMsgSize) msg

/-- The body shared by `buffer_send` and `queuing_port_send`. -/
def commSend (cc : Circbuf) (msg : List UInt8) : Circbuf :=
  let cc₁ := circbufEnquSt cc
  circbufEnquEd { cc₁ with ccBuf := writeMsg cc₁.ccBuf cc₁.ccTail msg }

/-- The body shared by `buffer_recv` and `queuing_port_recv`: the length and the bytes delivered. -/
def commRecv (cc : Circbuf) : (Nat × List UInt8) × Circbuf :=
  let cc₁ := circbufDequSt cc
  (readMsg cc₁.ccBuf cc₁.ccHead, circbufDequEd cc₁)

/-- What was written is read back, length and bytes. -/
theorem readMsg_writeMsg_self (buf : Nat → UInt8) (off : Nat) (msg : List UInt8)
    (hlen : msg.length < wordSize) :
    readMsg (writeMsg buf off msg) off = (msg.length, msg) := by
  have hhdr : fromLe (loadBytes (writeMsg buf off msg) off commMsgSize) = msg.length := by
    rw [writeMsg, loadBytes_storeBytes_disjoint _ _ _ _ _ (Or.inl le_rfl)]
    have hself := loadBytes_storeBytes_self buf off (leBytes commMsgSize msg.length)
    rw [length_leBytes] at hself
    have hbytes : 256 ^ commMsgSize = wordSize := by
      rw [wordSize_eq, commMsgSize]
      norm_num
    rw [hself, fromLe_leBytes, hbytes]
    exact Nat.mod_eq_of_lt hlen
  rw [readMsg]
  simp only [hhdr]
  rw [writeMsg, loadBytes_storeBytes_self]

/-- A message whose slot a write does not overlap is read as before. -/
theorem readMsg_writeMsg_disjoint (buf : Nat → UInt8) (off off' e : Nat) (msg : List UInt8)
    (hmsg : commMsgSize + msg.length ≤ e) (hfit : commMsgSize + (readMsg buf off').1 ≤ e)
    (hdisj : off' + e ≤ off ∨ off + e ≤ off') :
    readMsg (writeMsg buf off msg) off' = readMsg buf off' := by
  have hread : ∀ b n, off' ≤ b → b + n ≤ off' + e →
      loadBytes (writeMsg buf off msg) b n = loadBytes buf b n := by
    intro b n hlo hhi
    rw [writeMsg, loadBytes_storeBytes_disjoint _ _ _ _ _ (by omega),
      loadBytes_storeBytes_disjoint _ _ _ _ _ (by rw [length_leBytes]; omega)]
  have hhdr := hread off' commMsgSize le_rfl (by omega)
  rw [readMsg] at hfit
  simp only [readMsg, hhdr]
  rw [hread _ _ (Nat.le_add_right _ _) (by omega)]

/-! ## The representation invariant -/

/-- **The buffer holds `q`.** The buffer was made for messages of at most `maxMsg` bytes and its
storage does not wrap the word size; `slot` is the slot of the oldest message, the messages follow in
successive slots, and the tail is where the next enqueue will find its slot — also right after
`circbuf_init`, when the tail is minus one element. -/
structure CircbufHolds (cc : Circbuf) (maxMsg : Nat) (q : List (List UInt8)) : Prop where
  eleSize : cc.ccEleSize = maxMsg + commMsgSize
  cap_pos : 0 < cc.ccCap
  storage_lt : cc.ccCap * cc.ccEleSize < wordSize
  cnt : cc.ccCnt = q.length
  cnt_le : q.length ≤ cc.ccCap
  fits : ∀ m ∈ q, m.length ≤ maxMsg
  layout : ∃ slot < cc.ccCap,
    cc.ccHead = slot * cc.ccEleSize ∧
    (cc.ccTail + cc.ccEleSize) % wordSize % (cc.ccCap * cc.ccEleSize)
      = ((slot + q.length) % cc.ccCap) * cc.ccEleSize ∧
    ∀ i (hi : i < q.length),
      readMsg cc.ccBuf (((slot + i) % cc.ccCap) * cc.ccEleSize) = ((q[i]).length, q[i])

/-- `circbuf_init` makes an empty buffer of at least one slot. -/
theorem circbufHolds_init (buf : Nat → UInt8) (maxMsg cap : Nat) (hcap : 0 < cap)
    (hsto : cap * (maxMsg + commMsgSize) < wordSize) :
    CircbufHolds (circbufInit buf (maxMsg + commMsgSize) cap) maxMsg [] := by
  have hle : maxMsg + commMsgSize ≤ wordSize :=
    (Nat.le_mul_of_pos_left _ hcap).trans hsto.le
  refine ⟨rfl, hcap, hsto, rfl, Nat.zero_le _, by simp, 0, hcap, by simp [circbufInit], ?_, ?_⟩
  · -- the tail is minus one element, so that the first enqueue lands on offset zero
    have htail : ((wordSize - (maxMsg + commMsgSize)) % wordSize + (maxMsg + commMsgSize)) % wordSize
        = 0 := by
      rw [Nat.mod_add_mod, Nat.sub_add_cancel hle, Nat.mod_self]
    simp [circbufInit, htail]
  · intro i hi
    exact absurd hi (Nat.not_lt_zero i)

/-- `circbuf_reset` drops exactly the messages held. -/
theorem circbufHolds_reset {cc : Circbuf} {maxMsg : Nat} {q : List (List UInt8)}
    (h : CircbufHolds cc maxMsg q) : CircbufHolds (circbufReset cc) maxMsg [] := by
  have hinit := circbufHolds_init cc.ccBuf maxMsg cc.ccCap h.cap_pos (h.eleSize ▸ h.storage_lt)
  rw [← h.eleSize] at hinit
  exact hinit

/-- A full buffer is one that holds as many messages as it has slots. -/
theorem CircbufHolds.isFull_iff {cc : Circbuf} {maxMsg : Nat} {q : List (List UInt8)}
    (h : CircbufHolds cc maxMsg q) : circbufIsFull cc = true ↔ q.length = cc.ccCap := by
  rw [circbufIsFull, beq_iff_eq, h.cnt]

/-- An empty buffer is one that holds no message. -/
theorem CircbufHolds.isEmpty_iff {cc : Circbuf} {maxMsg : Nat} {q : List (List UInt8)}
    (h : CircbufHolds cc maxMsg q) : circbufIsEmpty cc = true ↔ q = [] := by
  rw [circbufIsEmpty, beq_iff_eq, h.cnt, List.length_eq_zero_iff]

/-- The element size of a buffer that holds anything is positive. -/
theorem CircbufHolds.eleSize_pos {cc : Circbuf} {maxMsg : Nat} {q : List (List UInt8)}
    (h : CircbufHolds cc maxMsg q) : 0 < cc.ccEleSize := by
  rw [h.eleSize]
  exact Nat.add_pos_right _ (by decide)

/-- Moving an offset on by one slot, in word arithmetic, when the storage does not wrap. -/
theorem CircbufHolds.advance {cc : Circbuf} {maxMsg : Nat} {q : List (List UInt8)}
    (h : CircbufHolds cc maxMsg q) {s : Nat} (hs : s < cc.ccCap) :
    (s * cc.ccEleSize + cc.ccEleSize) % wordSize % (cc.ccCap * cc.ccEleSize)
      = ((s + 1) % cc.ccCap) * cc.ccEleSize := by
  have hlt : s * cc.ccEleSize + cc.ccEleSize < wordSize := by
    rw [← Nat.succ_mul]
    exact (Nat.mul_le_mul_right _ hs).trans_lt h.storage_lt
  rw [Nat.mod_eq_of_lt hlt, slot_advance]

/-- **Sending appends.** A buffer that is not full takes a message of admitted length as its newest. -/
theorem circbufHolds_commSend {cc : Circbuf} {maxMsg : Nat} {q : List (List UInt8)}
    (h : CircbufHolds cc maxMsg q) {msg : List UInt8} (hmsg : msg.length ≤ maxMsg)
    (hroom : q.length < cc.ccCap) : CircbufHolds (commSend cc msg) maxMsg (q ++ [msg]) := by
  obtain ⟨slot, hslot, hhead, htail, hmsgs⟩ := h.layout
  have hmod : cc.ccCap * cc.ccEleSize % wordSize = cc.ccCap * cc.ccEleSize :=
    Nat.mod_eq_of_lt h.storage_lt
  have hcap_lt : cc.ccCap < wordSize :=
    (Nat.le_mul_of_pos_right _ h.eleSize_pos).trans_lt h.storage_lt
  have hnew : (slot + q.length) % cc.ccCap < cc.ccCap := Nat.mod_lt _ h.cap_pos
  -- the offset that `circbuf_enqu_st` computes is the first free slot
  have hoff : (circbufEnquSt cc).ccTail = ((slot + q.length) % cc.ccCap) * cc.ccEleSize := by
    rw [circbufEnquSt, hmod, htail]
  have hlen : (q ++ [msg]).length = q.length + 1 := by simp
  refine ⟨h.eleSize, h.cap_pos, h.storage_lt, ?_, ?_, ?_, slot, hslot, hhead, ?_, ?_⟩
  · show (cc.ccCnt + 1) % wordSize = (q ++ [msg]).length
    rw [hlen, h.cnt, Nat.mod_eq_of_lt (by omega)]
  · rw [hlen]
    exact hroom
  · intro m hm
    rcases List.mem_append.mp hm with hold | hnewm
    · exact h.fits m hold
    · rw [List.mem_singleton.mp hnewm]
      exact hmsg
  · show ((circbufEnquSt cc).ccTail + cc.ccEleSize) % wordSize % (cc.ccCap * cc.ccEleSize) = _
    rw [hoff, h.advance hnew, hlen, Nat.mod_add_mod, Nat.add_assoc]
    rfl
  · intro i hi
    rw [hlen] at hi
    show readMsg (writeMsg cc.ccBuf (circbufEnquSt cc).ccTail msg)
      (((slot + i) % cc.ccCap) * cc.ccEleSize) = (((q ++ [msg])[i]).length, (q ++ [msg])[i])
    rw [hoff]
    by_cases hold : i < q.length
    · -- an older message sits in another slot, which the write does not touch
      have hne : (slot + i) % cc.ccCap ≠ (slot + q.length) % cc.ccCap := by
        intro heq
        exact absurd (slot_injective (hold.trans hroom) hroom heq) hold.ne
      have hfit : commMsgSize + (readMsg cc.ccBuf (((slot + i) % cc.ccCap) * cc.ccEleSize)).1
          ≤ cc.ccEleSize := by
        rw [hmsgs i hold, h.eleSize, Nat.add_comm]
        exact Nat.add_le_add_right (h.fits _ (List.getElem_mem hold)) _
      rw [readMsg_writeMsg_disjoint cc.ccBuf _ _ cc.ccEleSize msg
        (by rw [h.eleSize]; omega) hfit (slot_disjoint hne), hmsgs i hold]
      simp [hold]
    · have hi' : i = q.length := by omega
      have hsmall : msg.length < wordSize := by
        have hele : maxMsg ≤ cc.ccEleSize := by rw [h.eleSize]; exact Nat.le_add_right _ _
        have := (Nat.le_mul_of_pos_left cc.ccEleSize h.cap_pos).trans_lt h.storage_lt
        omega
      subst hi'
      rw [readMsg_writeMsg_self _ _ _ hsmall]
      simp

/-- **Receiving takes the oldest.** A buffer that holds a message delivers exactly that message,
length and bytes, and keeps the others. -/
theorem circbufHolds_commRecv {cc : Circbuf} {maxMsg : Nat} {m : List UInt8}
    {q : List (List UInt8)} (h : CircbufHolds cc maxMsg (m :: q)) :
    (commRecv cc).1 = (m.length, m) ∧ CircbufHolds (commRecv cc).2 maxMsg q := by
  obtain ⟨slot, hslot, hhead, htail, hmsgs⟩ := h.layout
  have hmod : cc.ccCap * cc.ccEleSize % wordSize = cc.ccCap * cc.ccEleSize :=
    Nat.mod_eq_of_lt h.storage_lt
  have hcap_lt : cc.ccCap < wordSize :=
    (Nat.le_mul_of_pos_right _ h.eleSize_pos).trans_lt h.storage_lt
  have hcnt := h.cnt
  have hcntle := h.cnt_le
  rw [List.length_cons] at hcnt hcntle htail
  constructor
  · -- the head stands at the slot of the oldest message
    have hfirst := hmsgs 0 (Nat.succ_pos _)
    simp only [Nat.add_zero, Nat.mod_eq_of_lt hslot, List.getElem_cons_zero] at hfirst
    rw [← hhead] at hfirst
    exact hfirst
  · refine ⟨h.eleSize, h.cap_pos, h.storage_lt, ?_, Nat.le_of_succ_le hcntle,
      fun x hx => h.fits x (List.mem_cons_of_mem _ hx), (slot + 1) % cc.ccCap,
      Nat.mod_lt _ h.cap_pos, ?_, ?_, ?_⟩
    · show (if cc.ccCnt = 0 then wordSize - 1 else cc.ccCnt - 1) = q.length
      rw [if_neg (by omega)]
      omega
    · show (cc.ccHead + cc.ccEleSize) % wordSize % (cc.ccCap * cc.ccEleSize % wordSize)
        = ((slot + 1) % cc.ccCap) * cc.ccEleSize
      -- the head moves by one slot
      rw [hmod, hhead, h.advance hslot]
    · show (cc.ccTail + cc.ccEleSize) % wordSize % (cc.ccCap * cc.ccEleSize)
        = (((slot + 1) % cc.ccCap + q.length) % cc.ccCap) * cc.ccEleSize
      rw [htail, ← slot_succ_add]
    · intro i hi
      -- what was behind the oldest message moves up by one place
      have hnext := hmsgs (i + 1) (Nat.succ_lt_succ hi)
      rw [← slot_succ_add] at hnext
      exact hnext

end Jrinx
