import Jrinx.Circbuf
import Jrinx.Kernel
import Jrinx.Lib.Runs

/-! # Rings of elements

`lib/circbuf.c` for elements of any size, as the serial drivers use it, and as buffers and channels do between
`circbuf_enqu_st` and `circbuf_enqu_ed`. The tail of a ring that was reset lies one element before it, modulo the
word size; the modulo by the size of the ring brings the next one to its start.

* **`circbufQueued`** — the elements in a ring, oldest first.
* **`RingOk`** — where head and tail stand, with one rule for each operation.
* **`ringStep`**, **`RingRefines`**, **`ring_refines`** — a ring is a bounded queue, over every run. -/

namespace Jrinx

/-! ## The operations -/

/-- `circbuf_enqu_st`, bytes written at the offset it returns, and `circbuf_enqu_ed`. -/
def circbufPut (cc : Circbuf) (bs : List UInt8) : Circbuf :=
  let cc₁ := circbufEnquSt cc
  circbufEnquEd { cc₁ with ccBuf := storeBytes cc₁.ccBuf cc₁.ccTail bs }

/-- `circbuf_enqueue`; `ele` is the memory from the element on. -/
def circbufEnqueue (cc : Circbuf) (ele : Nat → UInt8) : Circbuf := circbufPut cc (loadBytes ele 0 cc.ccEleSize)

/-- `circbuf_dequeue`: the bytes of the element. -/
def circbufDequeue (cc : Circbuf) : List UInt8 × Circbuf :=
  let cc₁ := circbufDequSt cc
  (loadBytes cc₁.ccBuf cc₁.ccHead cc₁.ccEleSize, circbufDequEd cc₁)

/-- `buffer_send` and `queuing_port_send` put a header and the message. -/
theorem commSend_eq_put (cc : Circbuf) (msg : List UInt8) :
    commSend cc msg = circbufPut cc (leBytes commMsgSize msg.length ++ msg) := by
  have hwrite : ∀ (buf : Nat → UInt8) (off : Nat),
      writeMsg buf off msg = storeBytes buf off (leBytes commMsgSize msg.length ++ msg) := by
    intro buf off
    rw [writeMsg, ← storeBytes_append, length_leBytes]
  rw [commSend, circbufPut]
  rw [hwrite]

/-- `buffer_recv` and `queuing_port_recv` take an element. -/
theorem commRecv_snd (cc : Circbuf) : (commRecv cc).2 = (circbufDequeue cc).2 := rfl

/-- Where the `i`-th element lies. -/
def circbufSlot (cc : Circbuf) (i : Nat) : Nat := (cc.ccHead + i * cc.ccEleSize) % (cc.ccCap * cc.ccEleSize)

/-- The elements in the ring, oldest first. -/
def circbufQueued (cc : Circbuf) : List (List UInt8) :=
  (List.range cc.ccCnt).map fun i => loadBytes cc.ccBuf (circbufSlot cc i) cc.ccEleSize

/-! ## Head and tail -/

/-- A ring of `n` elements of `e` bytes: the head is at a slot, and the tail is where the next element goes to the
slot behind the last one. -/
structure RingOk (e n : Nat) (cc : Circbuf) : Prop where
  ele_pos : 0 < e
  cap_pos : 0 < n
  storage_lt : n * e < wordSize
  eleSize : cc.ccEleSize = e
  cap : cc.ccCap = n
  cnt_le : cc.ccCnt ≤ n
  slots : ∃ slot < n, cc.ccHead = slot * e ∧ (cc.ccTail + e) % wordSize % (n * e) = (slot + cc.ccCnt) % n * e

namespace RingOk

variable {e n : Nat} {cc : Circbuf}

theorem init (buf : Nat → UInt8) (he : 0 < e) (hn : 0 < n) (hsto : n * e < wordSize) :
    RingOk e n (circbufInit buf e n) := by
  refine ⟨he, hn, hsto, rfl, rfl, Nat.zero_le n, 0, hn, by simp [circbufInit], ?_⟩
  have hle : e ≤ wordSize := (Nat.le_mul_of_pos_left e hn).trans hsto.le
  show ((wordSize - e) % wordSize + e) % wordSize % (n * e) = (0 + 0) % n * e
  rw [Nat.mod_add_mod, Nat.sub_add_cancel hle, Nat.mod_self, Nat.zero_mod, Nat.zero_mod, Nat.zero_mul]

theorem reset (h : RingOk e n cc) : RingOk e n (circbufReset cc) := by
  have hinit := RingOk.init cc.ccBuf h.ele_pos h.cap_pos h.storage_lt
  rw [← h.eleSize, ← h.cap] at hinit ⊢
  exact hinit

theorem mod_eq (h : RingOk e n cc) : cc.ccCap * cc.ccEleSize % wordSize = n * e := by
  rw [h.cap, h.eleSize, Nat.mod_eq_of_lt h.storage_lt]

theorem cap_lt (h : RingOk e n cc) : n < wordSize :=
  (Nat.le_mul_of_pos_right n h.ele_pos).trans_lt h.storage_lt

theorem slot_eq (h : RingOk e n cc) {slot : Nat} (hhead : cc.ccHead = slot * e) (i : Nat) :
    circbufSlot cc i = (slot + i) % n * e := by
  rw [circbufSlot, h.cap, h.eleSize, hhead, ← Nat.add_mul, Nat.mul_mod_mul_right]

/-- One slot on, in the arithmetic of words. -/
theorem advance (h : RingOk e n cc) {s : Nat} (hs : s < n) :
    (s * e + e) % wordSize % (n * e) = (s + 1) % n * e := by
  have hlt : s * e + e < wordSize := by
    rw [← Nat.succ_mul]
    exact (Nat.mul_le_mul_right e hs).trans_lt h.storage_lt
  rw [Nat.mod_eq_of_lt hlt, slot_advance]

theorem isFull_iff (h : RingOk e n cc) : circbufIsFull cc = true ↔ cc.ccCnt = n := by
  rw [circbufIsFull, beq_iff_eq, h.cap]

/-- The offset that `circbuf_enqu_st` returns is the slot behind the last element. -/
theorem enquSt_tail (h : RingOk e n cc) : (circbufEnquSt cc).ccTail = circbufSlot cc cc.ccCnt := by
  obtain ⟨slot, -, hhead, htail⟩ := h.slots
  rw [h.slot_eq hhead, circbufEnquSt, h.mod_eq, h.eleSize]
  exact htail

/-- The slots of a ring that is not full, with the next one, do not overlap. -/
theorem slot_apart (h : RingOk e n cc) {i j : Nat} (hi : i < n) (hj : j < n) (hij : i ≠ j) :
    circbufSlot cc i + e ≤ circbufSlot cc j ∨ circbufSlot cc j + e ≤ circbufSlot cc i := by
  obtain ⟨slot, -, hhead, -⟩ := h.slots
  rw [h.slot_eq hhead, h.slot_eq hhead]
  exact slot_disjoint fun heq => hij (slot_injective hi hj heq)

/-- **Nothing is overwritten** in a ring that is not full. -/
theorem put_keeps (h : RingOk e n cc) {bs : List UInt8} (hbs : bs.length ≤ e) (hroom : cc.ccCnt < n) {i : Nat}
    (hi : i < cc.ccCnt) :
    loadBytes (circbufPut cc bs).ccBuf (circbufSlot cc i) e = loadBytes cc.ccBuf (circbufSlot cc i) e := by
  show loadBytes (storeBytes cc.ccBuf (circbufEnquSt cc).ccTail bs) (circbufSlot cc i) e = _
  rw [h.enquSt_tail]
  apply loadBytes_storeBytes_disjoint
  have := h.slot_apart (hi.trans hroom) hroom hi.ne
  omega

theorem put (h : RingOk e n cc) (bs : List UInt8) (hroom : cc.ccCnt < n) : RingOk e n (circbufPut cc bs) := by
  obtain ⟨slot, hslot, hhead, -⟩ := h.slots
  have hcnt : (circbufPut cc bs).ccCnt = cc.ccCnt + 1 := by
    show (cc.ccCnt + 1) % wordSize = cc.ccCnt + 1
    exact Nat.mod_eq_of_lt (by have := h.cap_lt; omega)
  refine ⟨h.ele_pos, h.cap_pos, h.storage_lt, h.eleSize, h.cap, by omega, slot, hslot, hhead, ?_⟩
  show ((circbufEnquSt cc).ccTail + e) % wordSize % (n * e) = _
  rw [h.enquSt_tail, h.slot_eq hhead, h.advance (Nat.mod_lt _ h.cap_pos), hcnt, Nat.mod_add_mod, Nat.add_assoc]

/-- **An element that is put is the newest**: what its slot holds. -/
theorem queued_put (h : RingOk e n cc) {bs : List UInt8} (hbs : bs.length ≤ e) (hroom : cc.ccCnt < n) :
    circbufQueued (circbufPut cc bs) =
      circbufQueued cc ++ [loadBytes (circbufPut cc bs).ccBuf (circbufPut cc bs).ccTail e] := by
  have hcnt : (circbufPut cc bs).ccCnt = cc.ccCnt + 1 := by
    show (cc.ccCnt + 1) % wordSize = cc.ccCnt + 1
    exact Nat.mod_eq_of_lt (by have := h.cap_lt; omega)
  have hslot : ∀ i, circbufSlot (circbufPut cc bs) i = circbufSlot cc i := fun i => rfl
  rw [circbufQueued, hcnt, List.range_succ, List.map_append, List.map_singleton, circbufQueued]
  congr 1
  · apply List.map_congr_left
    intro i hi
    rw [hslot, (h.put bs hroom).eleSize, h.eleSize]
    exact h.put_keeps hbs hroom (List.mem_range.mp hi)
  · rw [hslot, (h.put bs hroom).eleSize]
    show [loadBytes _ _ e] = [loadBytes _ (circbufEnquSt cc).ccTail e]
    rw [h.enquSt_tail]

theorem dequeue (h : RingOk e n cc) (hcnt : cc.ccCnt ≠ 0) : RingOk e n (circbufDequeue cc).2 := by
  obtain ⟨slot, hslot, hhead, htail⟩ := h.slots
  have hnew : (circbufDequeue cc).2.ccCnt = cc.ccCnt - 1 := if_neg hcnt
  have hle := h.cnt_le
  refine ⟨h.ele_pos, h.cap_pos, h.storage_lt, h.eleSize, h.cap, by omega, (slot + 1) % n, Nat.mod_lt _ h.cap_pos, ?_,
    ?_⟩
  · show (cc.ccHead + cc.ccEleSize) % wordSize % (cc.ccCap * cc.ccEleSize % wordSize) = _
    rw [h.mod_eq, h.eleSize, hhead, h.advance hslot]
  · show (cc.ccTail + e) % wordSize % (n * e) = _
    rw [htail, hnew, slot_succ_add, show cc.ccCnt - 1 + 1 = cc.ccCnt by omega]

/-- **The oldest element is taken**, and the others stay. -/
theorem queued_dequeue (h : RingOk e n cc) (hcnt : cc.ccCnt ≠ 0) :
    circbufQueued cc = (circbufDequeue cc).1 :: circbufQueued (circbufDequeue cc).2 := by
  obtain ⟨slot, hslot, hhead, -⟩ := h.slots
  obtain ⟨c, hc⟩ := Nat.exists_eq_succ_of_ne_zero hcnt
  have hnew : (circbufDequeue cc).2.ccCnt = c := by
    show (if cc.ccCnt = 0 then wordSize - 1 else cc.ccCnt - 1) = c
    rw [if_neg hcnt, hc, Nat.succ_sub_one]
  have hhead' : (circbufDequeue cc).2.ccHead = (slot + 1) % n * e := by
    show (cc.ccHead + cc.ccEleSize) % wordSize % (cc.ccCap * cc.ccEleSize % wordSize) = _
    rw [h.mod_eq, h.eleSize, hhead, h.advance hslot]
  rw [circbufQueued, hc, List.range_succ_eq_map, List.map_cons, List.map_map, circbufQueued, hnew]
  congr 1
  · show loadBytes cc.ccBuf (circbufSlot cc 0) cc.ccEleSize = loadBytes cc.ccBuf cc.ccHead cc.ccEleSize
    rw [h.slot_eq hhead, Nat.add_zero, Nat.mod_eq_of_lt hslot, hhead]
  · apply List.map_congr_left
    intro i _
    show loadBytes cc.ccBuf (circbufSlot cc (i + 1)) cc.ccEleSize = loadBytes cc.ccBuf _ cc.ccEleSize
    rw [(h.dequeue hcnt).slot_eq hhead', h.slot_eq hhead, slot_succ_add]

end RingOk

/-! ## Runs -/

/-- What happens next to a ring. -/
inductive RingOp where
  | enqueue (ele : Nat → UInt8)
  /-- Bytes are written between `circbuf_enqu_st` and `circbuf_enqu_ed`. -/
  | put (bs : List UInt8)
  /-- `circbuf_dequeue`, or the element is read between `circbuf_dequ_st` and `circbuf_dequ_ed`. -/
  | dequeue
  | reset

/-- A ring with the elements that were enqueued and dequeued since it was reset. -/
structure Ring where
  cc : Circbuf
  enqueued : List (List UInt8)
  dequeued : List (List UInt8)

/-- One operation; a full ring takes no element, an empty one gives none, and no more bytes are written than an
element has. -/
def ringStep (r : Ring) : RingOp → Except Fault Ring
  | .enqueue ele =>
      if circbufIsFull r.cc then .error .disabled
      else .ok { r with
        cc := circbufEnqueue r.cc ele
        enqueued := r.enqueued ++ [loadBytes ele 0 r.cc.ccEleSize] }
  | .put bs =>
      if circbufIsFull r.cc || decide (r.cc.ccEleSize < bs.length) then .error .disabled
      else
        let cc := circbufPut r.cc bs
        .ok { r with cc := cc, enqueued := r.enqueued ++ [loadBytes cc.ccBuf cc.ccTail cc.ccEleSize] }
  | .dequeue =>
      if circbufIsEmpty r.cc then .error .disabled
      else
        let (ele, cc) := circbufDequeue r.cc
        .ok { r with cc := cc, dequeued := r.dequeued ++ [ele] }
  | .reset => .ok ⟨circbufReset r.cc, [], []⟩

/-- After `circbuf_init`. -/
def ringInit (buf : Nat → UInt8) (e n : Nat) : Ring := ⟨circbufInit buf e n, [], []⟩

/-- **A ring is a bounded queue** of at most `n` elements of `e` bytes. -/
structure RingRefines (e n : Nat) (r : Ring) : Prop where
  /-- What was dequeued, and then what is queued, is what was enqueued. -/
  fifo : r.dequeued ++ circbufQueued r.cc = r.enqueued
  bounded : (circbufQueued r.cc).length ≤ n
  head : e ∣ r.cc.ccHead ∧ r.cc.ccHead < n * e
  /-- Once something was enqueued since the ring was reset. -/
  tail : r.enqueued ≠ [] → e ∣ r.cc.ccTail ∧ r.cc.ccTail < n * e
  /-- The bytes of the queued elements stay when one more is put. -/
  intact : ∀ bs : List UInt8, bs.length ≤ e → circbufIsFull r.cc = false → ∀ i < (circbufQueued r.cc).length,
    loadBytes (circbufPut r.cc bs).ccBuf (circbufSlot r.cc i) e = loadBytes r.cc.ccBuf (circbufSlot r.cc i) e

/-- The invariant. -/
structure RingInv (e n : Nat) (r : Ring) : Prop where
  ok : RingOk e n r.cc
  fifo : r.dequeued ++ circbufQueued r.cc = r.enqueued
  tail : r.enqueued ≠ [] → ∃ t < n, r.cc.ccTail = t * e

@[simp] theorem length_circbufQueued (cc : Circbuf) : (circbufQueued cc).length = cc.ccCnt := by
  simp [circbufQueued]

/-- After an element was put, its slot holds its bytes. -/
theorem put_tail (cc : Circbuf) (bs : List UInt8) :
    loadBytes (circbufPut cc bs).ccBuf (circbufPut cc bs).ccTail bs.length = bs :=
  loadBytes_storeBytes_self cc.ccBuf (circbufEnquSt cc).ccTail bs

variable {e n : Nat} {r r' : Ring}

theorem RingInv.put (hi : RingInv e n r) {bs : List UInt8} (hbs : bs.length ≤ e)
    (hfull : circbufIsFull r.cc = false) : RingInv e n { r with
      cc := circbufPut r.cc bs
      enqueued := r.enqueued ++ [loadBytes (circbufPut r.cc bs).ccBuf (circbufPut r.cc bs).ccTail e] } := by
  have hroom : r.cc.ccCnt < n := by
    have hne : r.cc.ccCnt ≠ n := fun heq => by
      rw [hi.ok.isFull_iff.mpr heq] at hfull
      cases hfull
    exact lt_of_le_of_ne hi.ok.cnt_le hne
  refine ⟨hi.ok.put bs hroom, ?_, fun _ => ?_⟩
  · show r.dequeued ++ circbufQueued (circbufPut r.cc bs) = _
    rw [hi.ok.queued_put hbs hroom, ← List.append_assoc, hi.fifo]
  · obtain ⟨slot, -, hhead, -⟩ := hi.ok.slots
    refine ⟨(slot + r.cc.ccCnt) % n, Nat.mod_lt _ hi.ok.cap_pos, ?_⟩
    show (circbufEnquSt r.cc).ccTail = _
    rw [hi.ok.enquSt_tail, hi.ok.slot_eq hhead]

theorem RingInv.step (hi : RingInv e n r) {op : RingOp} (hs : ringStep r op = .ok r') : RingInv e n r' := by
  cases op with
  | enqueue ele =>
      rw [ringStep] at hs
      split at hs
      · cases hs
      · rename_i hfull
        cases hs
        have hlen : (loadBytes ele 0 r.cc.ccEleSize).length = e := by rw [length_loadBytes, hi.ok.eleSize]
        have hput := hi.put hlen.le (by simpa using hfull)
        -- `enqueue` copies as many bytes as an element has
        have hself := put_tail r.cc (loadBytes ele 0 r.cc.ccEleSize)
        rw [hlen] at hself
        rw [hself] at hput
        exact hput
  | put bs =>
      rw [ringStep] at hs
      split at hs
      · cases hs
      · rename_i hok
        cases hs
        rw [Bool.or_eq_true, not_or, decide_eq_true_eq, not_lt, hi.ok.eleSize] at hok
        have hele : (circbufPut r.cc bs).ccEleSize = e := hi.ok.eleSize
        rw [hele]
        exact hi.put hok.2 (by simpa using hok.1)
  | dequeue =>
      rw [ringStep] at hs
      split at hs
      · cases hs
      · rename_i hempty
        cases hs
        -- what is taken out first is what was put in first
        have hcnt : r.cc.ccCnt ≠ 0 := by simpa [circbufIsEmpty] using hempty
        refine ⟨hi.ok.dequeue hcnt, ?_, fun hne => ?_⟩
        · have hfifo := hi.fifo
          rw [hi.ok.queued_dequeue hcnt] at hfifo
          show (r.dequeued ++ [(circbufDequeue r.cc).1]) ++ circbufQueued (circbufDequeue r.cc).2 = r.enqueued
          rw [List.append_assoc]
          exact hfifo
        · exact hi.tail hne
  | reset =>
      cases hs
      exact ⟨hi.ok.reset, rfl, fun hne => absurd rfl hne⟩

theorem RingInv.init (buf : Nat → UInt8) (he : 0 < e) (hn : 0 < n) (hsto : n * e < wordSize) :
    RingInv e n (ringInit buf e n) :=
  ⟨.init buf he hn hsto, rfl, fun hne => absurd rfl hne⟩

theorem RingInv.refines (hi : RingInv e n r) : RingRefines e n r where
  fifo := hi.fifo
  bounded := (length_circbufQueued r.cc).trans_le hi.ok.cnt_le
  head := by
    obtain ⟨slot, hslot, hhead, -⟩ := hi.ok.slots
    rw [hhead]
    exact ⟨Dvd.intro_left slot rfl, Nat.mul_lt_mul_of_pos_right hslot hi.ok.ele_pos⟩
  tail hne := by
    obtain ⟨t, ht, heq⟩ := hi.tail hne
    rw [heq]
    exact ⟨Dvd.intro_left t rfl, Nat.mul_lt_mul_of_pos_right ht hi.ok.ele_pos⟩
  intact bs hbs hfull i hlt := by
    rw [length_circbufQueued] at hlt
    have hne : r.cc.ccCnt ≠ n := fun heq => by
      rw [hi.ok.isFull_iff.mpr heq] at hfull
      cases hfull
    exact hi.ok.put_keeps hbs (lt_of_le_of_ne hi.ok.cnt_le hne) hlt

/-- **A ring is a bounded queue** in every state of every run. -/
theorem ring_refines (buf : Nat → UInt8) (he : 0 < e) (hn : 0 < n) (hsto : n * e < wordSize)
    {tr : List (Ring × RingOp)} (hrun : Exec ringStep (ringInit buf e n) tr r) : Throughout (RingRefines e n) tr r := by
  have hok : AllSteps (fun _ _ => True) tr := fun _ _ => trivial
  have hinv := hrun.throughout_of_forall (RingInv.init buf he hn hsto) hok fun _ _ _ hi _ hs => hi.step hs
  exact ⟨fun x hx => (hinv.1 x hx).refines, hinv.2.refines⟩

/-- A ring of two elements of one byte, over one revolution. -/
theorem ring_refines_two : ∃ r : Ring, r.dequeued = [[7], [8]] ∧ circbufQueued r.cc = [[9]] ∧ RingRefines 1 2 r := by
  obtain ⟨r, hrun, hr⟩ := Exec.of_checkRun ringStep (ringInit (fun _ => 0) 1 2)
    [.enqueue fun _ => 7, .put [8], .dequeue, .dequeue, .enqueue fun _ => 9]
    (fun r => decide (r.dequeued = [[7], [8]]) && decide (circbufQueued r.cc = [[9]])) (by decide +kernel)
  simp only [Bool.and_eq_true, decide_eq_true_eq] at hr
  have hsto : 2 * 1 < wordSize := by rw [wordSize_eq]; decide
  exact ⟨r, hr.1, hr.2, (ring_refines _ (by decide) (by decide) hsto hrun).2⟩

/-- The tail is not always inside, from the first element on: a reset takes it in front of the ring again. -/
theorem ring_tail_outside : ¬ ∀ (buf : Nat → UInt8) (e n : Nat) (tr : List (Ring × RingOp)) (r : Ring), 0 < e →
    0 < n → n * e < wordSize → Exec ringStep (ringInit buf e n) tr r →
    (∃ x ∈ tr, ∃ ele, x.2 = .enqueue ele) → r.cc.ccTail < n * e := by
  intro hall
  obtain ⟨r, hrun, hr⟩ := Exec.of_checkRun ringStep (ringInit (fun _ => 0) 1 2) [.enqueue fun _ => 7, .reset]
    (fun r => decide (r.cc.ccTail = wordSize - 1)) (by decide +kernel)
  have hlt := hall _ 1 2 _ r (by decide) (by decide) (by rw [wordSize_eq]; decide) hrun
    ⟨(ringInit (fun _ => 0) 1 2, .enqueue fun _ => 7), by simp [traceEvents, ringStep, ringInit, circbufInit,
      circbufIsFull], _, rfl⟩
  rw [of_decide_eq_true hr, wordSize_eq] at hlt
  exact absurd hlt (by decide)

end Jrinx
