import Jrinx.Rings

/-! # Serial drivers

`kern/drivers/serial`: the drivers `sifiveuart0` and `uart16550a`. The device is a FIFO of the bytes it received; a
read of its data register takes one off, and while it is empty the register reads as anything. Bytes arrive before
any read of a register. Which interrupts are enabled is left out: an interrupt may come at any time.

* **`sifiveuart0HandleInt`**, **`uart16550aHandleInt`**, **`serialGetc`** — the drivers, register by register.
* **`InputKept`** — no byte was lost, doubled or made up.
* **`serial_input_kept_iff`** — of which runs of which driver this holds. -/

namespace Jrinx

/-! ## The device -/

/-- `COM_RXDATA_EMPTY`. -/
def comRxdataEmpty : BitVec 32 := 0x80000000#32

/-- `COM_TXDATA_FULL`. -/
def comTxdataFull : BitVec 32 := 0x80000000#32

/-- `COM_IPE_TXWM`. -/
def comIpeTxwm : BitVec 8 := 0x1#8

/-- `COM_IPE_RXWM`. -/
def comIpeRxwm : BitVec 8 := 0x2#8

/-- `COM_LSR_DATA_AVAIL`. -/
def comLsrDataAvail : BitVec 8 := 0b00000001#8

/-- `COM_LSR_THR_EMPTY`. -/
def comLsrThrEmpty : BitVec 8 := 0b00100000#8

/-- `COM_IIR_CAUSE`. -/
def comIirCause : BitVec 8 := 0b00001110#8

/-- `SERIAL_BUFFER_SIZE`. -/
def serialBufferSize : Nat := 4096

/-- What the device does meanwhile; the reads of its registers are counted from zero. -/
structure UartEnv where
  /-- The bytes that arrive before a read. -/
  arrivals : Nat → List UInt8
  /-- The data bits of a read while the FIFO is empty. -/
  idle : Nat → UInt8
  /-- The transmitter has room. -/
  txReady : Nat → Bool
  /-- The transmitter asks for more. -/
  txPending : Bool
  /-- The bytes wait for long: another cause of the same interrupt. -/
  timeout : Bool

/-- A driver with its device; `received` and `returned` are what arrived and what `getc` returned so far. -/
structure Uart where
  rdBuf : Circbuf
  wrBuf : Circbuf
  fifo : List UInt8
  sent : List UInt8
  received : List UInt8
  returned : List UInt8

namespace Uart

variable (u : Uart)

/-- Bytes arrive. -/
def receive (bs : List UInt8) : Uart := { u with fifo := u.fifo ++ bs, received := u.received ++ bs }

/-- The data register is read. -/
def readData (idle : UInt8) : UInt8 × Uart :=
  match u.fifo with
  | [] => (idle, u)
  | b :: l => (b, { u with fifo := l })

/-- A byte is put into the ring of received bytes. -/
def enqueue (b : UInt8) : Uart := { u with rdBuf := circbufEnqueue u.rdBuf fun _ => b }

/-- The bytes that no `getc` returned yet, oldest first. -/
def pending : List UInt8 := (circbufQueued u.rdBuf).flatten ++ u.fifo

end Uart

/-- The byte that `circbuf_dequeue` stores in a `uint8_t`. -/
def dequeueByte (cc : Circbuf) : UInt8 × Circbuf := ((circbufDequeue cc).1.headD 0, (circbufDequeue cc).2)

/-- The byte that `getc` gives for a byte of input. -/
def reported (data : UInt8) : UInt8 := if data = 0xff then 0 else data

/-- `circbuf_enqueue(&data)`, of one byte of a little-endian word. -/
def firstByte (data : BitVec 32) : UInt8 := UInt8.ofNat data.toNat

section Drivers

variable (env : UartEnv)

/-- The loop of the handlers that sends what is in the ring, for at most `n` rounds; `ready` is its test of the
status register. -/
def txLoop (ready : Nat → Uart → Bool) : Nat → Nat → Uart → Except Fault Uart
  | 0, _, _ => .error .disabled
  | n + 1, i, u =>
      let u := u.receive (env.arrivals i)
      if ready i u then
        if circbufIsEmpty u.wrBuf then .ok u
        else
          let (data, wrBuf) := dequeueByte u.wrBuf
          txLoop ready n (i + 1) { u with wrBuf := wrBuf, sent := u.sent ++ [data] }
      else .ok u

/-! ## `sifiveuart0` -/

/-- `COM_RXDATA`. -/
def sifiveRxdata (i : Nat) (u : Uart) : BitVec 32 × Uart :=
  let (b, u') := u.readData (env.idle i)
  ((if u.fifo = [] then comRxdataEmpty else 0#32) ||| BitVec.ofNat 32 b.toNat, u')

/-- `COM_TXDATA`. -/
def sifiveTxdata (i : Nat) : BitVec 32 := if env.txReady i then 0#32 else comTxdataFull

/-- `COM_IP`; the watermark of the receiver is zero. -/
def sifiveIp (u : Uart) : BitVec 8 :=
  (if u.fifo = [] then 0#8 else comIpeRxwm) ||| (if env.txPending then comIpeTxwm else 0#8)

/-- The loop of `sifiveuart0_handle_int` over the received bytes, from the read `i` on. -/
def sifiveRxLoop : Nat → Nat → Uart → Except Fault (Nat × Uart)
  | 0, _, _ => .error .disabled
  | n + 1, i, u =>
      let (data, u) := sifiveRxdata env i (u.receive (env.arrivals i))
      if data &&& comRxdataEmpty ≠ 0#32 then
        if circbufIsFull u.rdBuf then .ok (i + 1, u)
        else sifiveRxLoop n (i + 1) (u.enqueue (firstByte data))
      else .ok (i + 1, u)

/-- The part of `sifiveuart0_handle_int` that sends. -/
def sifiveTx (ip : BitVec 8) (i : Nat) (u : Uart) : Except Fault Uart :=
  if ip &&& comIpeTxwm ≠ 0#8 then
    txLoop env (fun i _ => sifiveTxdata env i &&& comTxdataFull = 0#32) (u.wrBuf.ccCap + 1) i u
  else .ok u

/-- `sifiveuart0_handle_int`. -/
def sifiveuart0HandleInt (u : Uart) : Except Fault Uart :=
  let u := u.receive (env.arrivals 0)
  let ip := sifiveIp env u
  if ip &&& comIpeRxwm ≠ 0#8 then do
    let (i, u) ← sifiveRxLoop env (u.rdBuf.ccCap + 1) 1 u
    sifiveTx env ip i u
  else sifiveTx env ip 1 u

/-- The part of `sifiveuart0_getc` that reads the device. -/
def sifiveuart0Read (u : Uart) : Option UInt8 × Uart :=
  let (rxdata, u) := sifiveRxdata env 0 (u.receive (env.arrivals 0))
  if rxdata &&& comRxdataEmpty ≠ 0#32 then (none, u) else (some (reported (firstByte rxdata)), u)

/-! ## `uart16550a` -/

/-- `COM_LSR`. -/
def uart16550aLsr (i : Nat) (u : Uart) : BitVec 8 :=
  (if u.fifo = [] then 0#8 else comLsrDataAvail) ||| (if env.txReady i then comLsrThrEmpty else 0#8)

/-- `COM_IIR`. -/
def uart16550aIir (u : Uart) : BitVec 8 :=
  if u.fifo = [] then (if env.txPending then 0b0010#8 else 0b0001#8)
  else if env.timeout then 0b1100#8 else 0b0100#8

/-- The loop of `uart16550a_handle_int` over the received bytes, from the read `i` on. -/
def uart16550aRxLoop : Nat → Nat → Uart → Except Fault Uart
  | 0, _, _ => .error .disabled
  | n + 1, i, u =>
      let u := u.receive (env.arrivals i)
      if uart16550aLsr env i u &&& comLsrDataAvail ≠ 0#8 then
        if circbufIsFull u.rdBuf then .ok u
        else
          let (data, u) := (u.receive (env.arrivals (i + 1))).readData (env.idle (i + 1))
          uart16550aRxLoop n (i + 2) (u.enqueue data)
      else .ok u

/-- `uart16550a_handle_int`; other causes are fatal. -/
def uart16550aHandleInt (u : Uart) : Except Fault Uart :=
  let u := u.receive (env.arrivals 0)
  let cause := uart16550aIir env u &&& comIirCause
  if cause = 0b0100#8 ∨ cause = 0b1100#8 then uart16550aRxLoop env (u.rdBuf.ccCap + 1) 1 u
  else if cause = 0b0010#8 then
    txLoop env (fun i u => uart16550aLsr env i u &&& comLsrThrEmpty ≠ 0#8) (u.wrBuf.ccCap + 1) 1 u
  else .error .panic

/-- The part of `uart16550a_getc` that reads the device. -/
def uart16550aRead (u : Uart) : Option UInt8 × Uart :=
  let u := u.receive (env.arrivals 0)
  if uart16550aLsr env 0 u &&& comLsrDataAvail = 0#8 then (none, u)
  else
    let (data, u) := (u.receive (env.arrivals 1)).readData (env.idle 1)
    (some (reported data), u)

end Drivers

/-! ## Both drivers -/

/-- The drivers. -/
inductive SerialDriver where
  | sifiveuart0
  | uart16550a
  deriving DecidableEq

/-- `handle_int` of a driver. -/
def SerialDriver.handleInt : SerialDriver → UartEnv → Uart → Except Fault Uart
  | .sifiveuart0 => sifiveuart0HandleInt
  | .uart16550a => uart16550aHandleInt

/-- How a driver reads a byte from the device. -/
def SerialDriver.read : SerialDriver → UartEnv → Uart → Option UInt8 × Uart
  | .sifiveuart0 => sifiveuart0Read
  | .uart16550a => uart16550aRead

/-- `sifiveuart0_getc` and `uart16550a_getc`. -/
def serialGetc (driver : SerialDriver) (env : UartEnv) (u : Uart) : Option UInt8 × Uart :=
  if circbufIsEmpty u.rdBuf then driver.read env u
  else
    let (data, rdBuf) := dequeueByte u.rdBuf
    (some (reported data), { u with rdBuf := rdBuf })

/-- `sifiveuart0_putc` and `uart16550a_putc`. -/
def serialPutc (u : Uart) (c : UInt8) : Uart :=
  if circbufIsFull u.wrBuf then u else { u with wrBuf := circbufEnqueue u.wrBuf fun _ => c }

/-- What happens next. -/
inductive UartEvent where
  | arrive (bs : List UInt8)
  | interrupt (env : UartEnv)
  | getc (env : UartEnv)
  | putc (c : UInt8)

/-- One step. -/
def uartStep (driver : SerialDriver) (u : Uart) : UartEvent → Except Fault Uart
  | .arrive bs => .ok (u.receive bs)
  | .interrupt env => driver.handleInt env u
  | .getc env =>
      let (c, u) := serialGetc driver env u
      .ok { u with returned := u.returned ++ c.toList }
  | .putc c => .ok (serialPutc u c)

/-- After the probe of a device that received nothing yet. -/
def uartInit (rdData wrData : Nat → UInt8) : Uart where
  rdBuf := circbufInit rdData 1 serialBufferSize
  wrBuf := circbufInit wrData 1 serialBufferSize
  fifo := []
  sent := []
  received := []
  returned := []

/-- **Input is kept**: what was returned, and then what is in the ring and in the device, is what the device
received. -/
def InputKept (u : Uart) : Prop := u.returned ++ u.pending.map reported = u.received.map reported

/-- The driver is `uart16550a`, or the event is no interrupt of `sifiveuart0` that finds a byte in the device. -/
def FindsNoInput (driver : SerialDriver) (u : Uart) (e : UartEvent) : Prop :=
  driver = .sifiveuart0 → ∀ env, e = .interrupt env → u.fifo ++ env.arrivals 0 = []

/-! ## What the drivers do to the input -/

/-- The input so far is carried along: nothing was returned meanwhile, and what arrived is behind what was there. -/
structure Carries (u u' : Uart) : Prop where
  rd : RingOk 1 serialBufferSize u'.rdBuf
  wr : RingOk 1 serialBufferSize u'.wrBuf
  returned : u'.returned = u.returned
  input : ∃ bs, u'.received = u.received ++ bs ∧ u'.pending = u.pending ++ bs

variable {env : UartEnv} {u u' : Uart} {driver : SerialDriver} {i n : Nat} {b : UInt8}

/-- The rings of a driver. -/
structure Uart.Ok (u : Uart) : Prop where
  rd : RingOk 1 serialBufferSize u.rdBuf
  wr : RingOk 1 serialBufferSize u.wrBuf

theorem Uart.Ok.carries (h : u.Ok) : Carries u u := ⟨h.rd, h.wr, rfl, [], by simp, by simp⟩

theorem Carries.ok (h : Carries u u') : u'.Ok := ⟨h.rd, h.wr⟩

theorem Carries.trans {u'' : Uart} (h : Carries u u') (h' : Carries u' u'') : Carries u u'' := by
  obtain ⟨bs, hrec, hpend⟩ := h.input
  obtain ⟨bs', hrec', hpend'⟩ := h'.input
  refine ⟨h'.rd, h'.wr, h'.returned.trans h.returned, bs ++ bs', ?_, ?_⟩
  · rw [hrec', hrec, List.append_assoc]
  · rw [hpend', hpend, List.append_assoc]

theorem Uart.Ok.receive (h : u.Ok) (bs : List UInt8) : Carries u (u.receive bs) :=
  ⟨h.rd, h.wr, rfl, bs, rfl, (List.append_assoc _ _ _).symm⟩

/-- Carrying the input along keeps it. -/
theorem Carries.inputKept (h : Carries u u') (hk : InputKept u) : InputKept u' := by
  obtain ⟨bs, hrec, hpend⟩ := h.input
  rw [InputKept, h.returned, hrec, hpend, List.map_append, List.map_append, ← List.append_assoc]
  rw [InputKept] at hk
  rw [hk]

/-- The bytes in a ring after one more was put. -/
theorem RingOk.flatten_enqueue {cc : Circbuf} (h : RingOk 1 n cc) (hroom : cc.ccCnt < n) (b : UInt8) :
    (circbufQueued (circbufEnqueue cc fun _ => b)).flatten = (circbufQueued cc).flatten ++ [b] := by
  have hbytes : loadBytes (fun _ => b) 0 cc.ccEleSize = [b] := by
    rw [h.eleSize]
    rfl
  have hself := put_tail cc [b]
  rw [circbufEnqueue, hbytes, h.queued_put (by simp) hroom, List.flatten_append]
  rw [List.length_singleton] at hself
  rw [hself]
  rfl

theorem RingOk.enqueue {cc : Circbuf} (h : RingOk 1 n cc) (hroom : cc.ccCnt < n) (b : UInt8) :
    RingOk 1 n (circbufEnqueue cc fun _ => b) := h.put _ hroom

/-- The bytes in a ring before the oldest was taken. -/
theorem RingOk.flatten_dequeue {cc : Circbuf} (h : RingOk 1 n cc) (hcnt : cc.ccCnt ≠ 0) :
    (circbufQueued cc).flatten = (dequeueByte cc).1 :: (circbufQueued (dequeueByte cc).2).flatten := by
  have hone : (circbufDequeue cc).1.length = 1 := by
    show (loadBytes _ _ cc.ccEleSize).length = 1
    rw [length_loadBytes, h.eleSize]
  obtain ⟨b, hb⟩ := List.length_eq_one_iff.mp hone
  rw [h.queued_dequeue hcnt, List.flatten_cons, dequeueByte, hb]
  rfl

theorem RingOk.dequeueByte {cc : Circbuf} (h : RingOk 1 n cc) (hcnt : cc.ccCnt ≠ 0) :
    RingOk 1 n (dequeueByte cc).2 := h.dequeue hcnt

theorem RingOk.ccCnt_enqueue {cc : Circbuf} (h : RingOk 1 n cc) (hroom : cc.ccCnt < n) (ele : Nat → UInt8) :
    (circbufEnqueue cc ele).ccCnt = cc.ccCnt + 1 := by
  show (cc.ccCnt + 1) % wordSize = cc.ccCnt + 1
  exact Nat.mod_eq_of_lt (by have := h.cap_lt; omega)

theorem RingOk.lt_of_not_full {cc : Circbuf} (h : RingOk 1 n cc) (hfull : ¬ circbufIsFull cc = true) : cc.ccCnt < n :=
  lt_of_le_of_ne h.cnt_le fun heq => hfull (h.isFull_iff.mpr heq)

theorem ccCnt_ne_zero {cc : Circbuf} (h : ¬ circbufIsEmpty cc = true) : cc.ccCnt ≠ 0 := by
  simpa [circbufIsEmpty] using h

/-- A byte that is moved from the device to the ring is carried along. -/
theorem Uart.Ok.move (h : u.Ok) (hroom : u.rdBuf.ccCnt < serialBufferSize) {l : List UInt8} (hfifo : u.fifo = b :: l) :
    Carries u ({ u with fifo := l }.enqueue b) := by
  refine ⟨h.rd.enqueue hroom b, h.wr, rfl, [], ?_, ?_⟩
  · exact (List.append_nil _).symm
  · show (circbufQueued (circbufEnqueue u.rdBuf fun _ => b)).flatten ++ l = u.pending ++ []
    rw [h.rd.flatten_enqueue hroom, List.append_assoc, List.append_nil, Uart.pending, hfifo]
    rfl

/-- Sending does not touch the input, and it ends. -/
theorem txLoop_carries (env : UartEnv) (ready : Nat → Uart → Bool) (h : u.Ok) (hn : u.wrBuf.ccCnt < n) :
    ∃ u', txLoop env ready n i u = .ok u' ∧ Carries u u' := by
  induction n generalizing i u with
  | zero => omega
  | succ n ih =>
      have hrecv := h.receive (env.arrivals i)
      rw [txLoop]
      dsimp only
      split
      · split
        · exact ⟨_, rfl, hrecv⟩
        · rename_i hempty
          have hcnt := ccCnt_ne_zero hempty
          have hcnt' : u.wrBuf.ccCnt ≠ 0 := hcnt
          have hless : (dequeueByte u.wrBuf).2.ccCnt = u.wrBuf.ccCnt - 1 := if_neg hcnt'
          have hsend : Carries (u.receive (env.arrivals i))
              { u.receive (env.arrivals i) with
                wrBuf := (dequeueByte u.wrBuf).2
                sent := u.sent ++ [(dequeueByte u.wrBuf).1] } :=
            ⟨h.rd, h.wr.dequeueByte hcnt', rfl, [], by simp, by simp [Uart.pending]⟩
          obtain ⟨u', hloop, hrest⟩ := ih (i := i + 1) hsend.ok (by
            show (dequeueByte u.wrBuf).2.ccCnt < n
            omega)
          exact ⟨u', hloop, (hrecv.trans hsend).trans hrest⟩
      · exact ⟨_, rfl, hrecv⟩

/-- The bit says that there is a byte. -/
theorem fifo_ne_nil_of_lsr (h : ¬ uart16550aLsr env i u &&& comLsrDataAvail = 0#8) : u.fifo ≠ [] := by
  intro hnil
  apply h
  rw [uart16550aLsr, if_pos hnil]
  cases env.txReady i <;> decide

/-- **The loop of `uart16550a`** moves bytes from the device to the ring, and ends. -/
theorem uart16550aRxLoop_carries (env : UartEnv) (h : u.Ok) (hn : serialBufferSize < n + u.rdBuf.ccCnt) :
    ∃ u', uart16550aRxLoop env n i u = .ok u' ∧ Carries u u' := by
  induction n generalizing i u with
  | zero =>
      have := h.rd.cnt_le
      omega
  | succ n ih =>
      have hrecv := h.receive (env.arrivals i)
      rw [uart16550aRxLoop]
      dsimp only
      split
      · rename_i havail
        split
        · exact ⟨_, rfl, hrecv⟩
        · rename_i hfull
          have hroom : u.rdBuf.ccCnt < serialBufferSize := h.rd.lt_of_not_full hfull
          have hrecv' := hrecv.trans (hrecv.ok.receive (env.arrivals (i + 1)))
          -- the byte is still there when the data register is read
          obtain ⟨b, l, hfifo⟩ : ∃ b l, ((u.receive (env.arrivals i)).receive (env.arrivals (i + 1))).fifo = b :: l := by
            obtain ⟨b, l, hbl⟩ := List.exists_cons_of_ne_nil (fifo_ne_nil_of_lsr havail)
            exact ⟨b, l ++ env.arrivals (i + 1), by rw [Uart.receive, hbl]; rfl⟩
          have hmove := hrecv'.ok.move hroom hfifo
          have hmore : serialBufferSize < n + (circbufEnqueue u.rdBuf fun _ => b).ccCnt := by
            rw [h.rd.ccCnt_enqueue hroom]
            omega
          rw [Uart.readData, hfifo]
          dsimp only
          obtain ⟨u', hloop, hrest⟩ := ih (i := i + 2) hmove.ok hmore
          exact ⟨u', hloop, (hrecv'.trans hmove).trans hrest⟩
      · exact ⟨_, rfl, hrecv⟩

theorem sifiveTx_carries (env : UartEnv) (h : u.Ok) (ip : BitVec 8) (i : Nat) :
    ∃ u', sifiveTx env ip i u = .ok u' ∧ Carries u u' := by
  rw [sifiveTx]
  split
  · apply txLoop_carries env _ h
    have := h.wr.cnt_le
    rw [h.wr.cap]
    omega
  · exact ⟨u, rfl, h.carries⟩

/-- A byte sets no bit beyond the data bits. -/
theorem rxdata_byte (b : UInt8) : (0#32 ||| BitVec.ofNat 32 b.toNat) &&& comRxdataEmpty = 0#32 ∧
    firstByte (0#32 ||| BitVec.ofNat 32 b.toNat) = b := by
  have hall : ∀ n < 256, (0#32 ||| BitVec.ofNat 32 n) &&& comRxdataEmpty = 0#32 ∧
      firstByte (0#32 ||| BitVec.ofNat 32 n) = UInt8.ofNat n := by
    decide +kernel
  obtain ⟨hbit, hbyte⟩ := hall b.toNat b.toNat_lt
  exact ⟨hbit, hbyte.trans (UInt8.ofNat_toNat)⟩

/-- `sifiveuart0` without a byte in the device. -/
theorem sifiveuart0HandleInt_carries (h : u.Ok) (hnone : u.fifo ++ env.arrivals 0 = []) :
    ∃ u', sifiveuart0HandleInt env u = .ok u' ∧ Carries u u' := by
  have hrecv := h.receive (env.arrivals 0)
  have hip : sifiveIp env (u.receive (env.arrivals 0)) &&& comIpeRxwm = 0#8 := by
    rw [sifiveIp, if_pos (show (u.receive (env.arrivals 0)).fifo = [] from hnone)]
    cases env.txPending <;> decide
  unfold sifiveuart0HandleInt
  dsimp only
  rw [if_neg (not_not.mpr hip)]
  obtain ⟨u', hsend, hsent⟩ := sifiveTx_carries env hrecv.ok (sifiveIp env (u.receive (env.arrivals 0))) 1
  exact ⟨u', hsend, hrecv.trans hsent⟩

/-- **`sifiveuart0` with a byte in the device**: its loop reads the byte and ends, since the bit that it waits for is
not set. -/
theorem sifiveuart0HandleInt_drops (h : u.Ok) (hsome : u.fifo ++ env.arrivals 0 ≠ [])
    (hs : sifiveuart0HandleInt env u = .ok u') : ∃ v b l, Carries u v ∧ v.fifo = b :: l ∧
      Carries { v with fifo := l } u' := by
  have hip : sifiveIp env (u.receive (env.arrivals 0)) &&& comIpeRxwm ≠ 0#8 := by
    rw [sifiveIp, if_neg (show ¬ (u.receive (env.arrivals 0)).fifo = [] from hsome)]
    cases env.txPending <;> decide
  have hrecv := (h.receive (env.arrivals 0)).trans ((h.receive (env.arrivals 0)).ok.receive (env.arrivals 1))
  obtain ⟨b, l, hfifo⟩ : ∃ b l, ((u.receive (env.arrivals 0)).receive (env.arrivals 1)).fifo = b :: l := by
    obtain ⟨b, l, hbl⟩ := List.exists_cons_of_ne_nil hsome
    refine ⟨b, l ++ env.arrivals 1, ?_⟩
    show u.fifo ++ env.arrivals 0 ++ env.arrivals 1 = _
    rw [hbl]
    rfl
  unfold sifiveuart0HandleInt at hs
  dsimp only at hs
  rw [if_pos hip, sifiveRxLoop] at hs
  have hread : sifiveRxdata env 1 ((u.receive (env.arrivals 0)).receive (env.arrivals 1)) =
      (0#32 ||| BitVec.ofNat 32 b.toNat, { (u.receive (env.arrivals 0)).receive (env.arrivals 1) with fifo := l }) := by
    rw [sifiveRxdata, Uart.readData, hfifo]
    rfl
  rw [hread] at hs
  dsimp only at hs
  rw [if_neg (not_not.mpr (rxdata_byte b).1)] at hs
  have hok : Uart.Ok { (u.receive (env.arrivals 0)).receive (env.arrivals 1) with fifo := l } := ⟨h.rd, h.wr⟩
  obtain ⟨w, hsend, hsent⟩ := sifiveTx_carries env hok (sifiveIp env (u.receive (env.arrivals 0))) 2
  obtain rfl : w = u' := Except.ok.inj (hsend.symm.trans hs)
  exact ⟨_, b, l, hrecv, hfifo, hsent⟩

/-- `uart16550a` in every case but that of an interrupt without a cause. -/
theorem uart16550aHandleInt_carries (h : u.Ok) (hs : uart16550aHandleInt env u = .ok u') : Carries u u' := by
  have hrecv := h.receive (env.arrivals 0)
  unfold uart16550aHandleInt at hs
  dsimp only at hs
  split at hs
  · have hn : serialBufferSize < u.rdBuf.ccCap + 1 + u.rdBuf.ccCnt := by
      rw [h.rd.cap]
      omega
    obtain ⟨w, hloop, hmoved⟩ := uart16550aRxLoop_carries env (i := 1) hrecv.ok hn
    obtain rfl : w = u' := Except.ok.inj (hloop.symm.trans hs)
    exact hrecv.trans hmoved
  · split at hs
    · have hn : u.wrBuf.ccCnt < u.wrBuf.ccCap + 1 := by
        have := h.wr.cnt_le
        rw [h.wr.cap]
        omega
      obtain ⟨w, hloop, hsent⟩ := txLoop_carries env (i := 1)
        (fun i u => decide (uart16550aLsr env i u &&& comLsrThrEmpty ≠ 0#8)) hrecv.ok hn
      obtain rfl : w = u' := Except.ok.inj (hloop.symm.trans hs)
      exact hrecv.trans hsent
    · cases hs

/-- **What a driver reads from the device** is its oldest byte. -/
theorem read_spec (driver : SerialDriver) (env : UartEnv) (h : u.Ok) :
    (∃ v, driver.read env u = (none, v) ∧ Carries u v) ∨
      ∃ v b l, Carries u v ∧ v.rdBuf = u.rdBuf ∧ v.fifo = b :: l ∧
        driver.read env u = (some (reported b), { v with fifo := l }) := by
  have hrecv := h.receive (env.arrivals 0)
  cases driver with
  | sifiveuart0 =>
      show (∃ v, sifiveuart0Read env u = _ ∧ _) ∨ ∃ v b l, _ ∧ _ ∧ _ ∧ sifiveuart0Read env u = _
      rw [sifiveuart0Read, sifiveRxdata, Uart.readData]
      cases hfifo : (u.receive (env.arrivals 0)).fifo with
      | nil =>
          left
          refine ⟨_, ?_, hrecv⟩
          -- the empty bit is set, whatever the data bits read as
          have hempty : (comRxdataEmpty ||| BitVec.ofNat 32 (env.idle 0).toNat) &&& comRxdataEmpty ≠ 0#32 := by
            have hall : ∀ n < 256, (comRxdataEmpty ||| BitVec.ofNat 32 n) &&& comRxdataEmpty ≠ 0#32 := by
              decide +kernel
            exact hall _ (env.idle 0).toNat_lt
          simp [hempty]
      | cons b l =>
          right
          refine ⟨_, b, l, hrecv, rfl, hfifo, ?_⟩
          obtain ⟨hbit, hbyte⟩ := rxdata_byte b
          simp only [reduceCtorEq, if_false]
          rw [if_neg (not_not.mpr hbit), hbyte]
  | uart16550a =>
      show (∃ v, uart16550aRead env u = _ ∧ _) ∨ ∃ v b l, _ ∧ _ ∧ _ ∧ uart16550aRead env u = _
      unfold uart16550aRead
      dsimp only
      split
      · exact Or.inl ⟨_, rfl, hrecv⟩
      · rename_i havail
        right
        -- the status said that there is a byte, and no byte is lost until it is read
        obtain ⟨b, l, hfifo⟩ : ∃ b l, ((u.receive (env.arrivals 0)).receive (env.arrivals 1)).fifo = b :: l := by
          obtain ⟨b, l, hbl⟩ := List.exists_cons_of_ne_nil (fifo_ne_nil_of_lsr havail)
          exact ⟨b, l ++ env.arrivals 1, by rw [Uart.receive, hbl]; rfl⟩
        refine ⟨_, b, l, hrecv.trans (hrecv.ok.receive (env.arrivals 1)), rfl, hfifo, ?_⟩
        rw [Uart.readData, hfifo]

/-! ## Runs -/

/-- A byte that is returned is taken off the input that is pending. -/
theorem InputKept.take (hk : InputKept u) {v : Uart} (hrec : v.received = u.received) (hret : v.returned = u.returned)
    (hpend : u.pending = b :: v.pending) : InputKept { v with returned := v.returned ++ [reported b] } := by
  rw [InputKept, hpend] at hk
  show (v.returned ++ [reported b]) ++ v.pending.map reported = v.received.map reported
  rw [hrec, hret, ← hk, List.append_assoc]
  rfl

theorem serialGetc_kept (driver : SerialDriver) (h : u.Ok) (hk : InputKept u) (env : UartEnv) :
    ∃ c v, serialGetc driver env u = (c, v) ∧ v.Ok ∧ InputKept { v with returned := v.returned ++ c.toList } := by
  unfold serialGetc
  split
  · rename_i hempty
    rcases read_spec driver env h with ⟨v, hread, hc⟩ | ⟨v, b, l, hc, hrd, hfifo, hread⟩
    · refine ⟨_, _, hread, hc.ok, ?_⟩
      rw [Option.toList_none, List.append_nil]
      exact hc.inputKept hk
    · refine ⟨_, _, hread, ⟨hc.rd, hc.wr⟩, ?_⟩
      -- the ring is empty
      have hnone : circbufQueued u.rdBuf = [] := by
        rw [← List.length_eq_zero_iff, length_circbufQueued]
        simpa [circbufIsEmpty] using hempty
      have hkept := hc.inputKept hk
      refine hkept.take (v := { v with fifo := l }) rfl rfl ?_
      rw [Uart.pending, Uart.pending, hrd, hnone, hfifo]
      rfl
  · rename_i hempty
    have hcnt := ccCnt_ne_zero hempty
    refine ⟨_, _, rfl, ⟨h.rd.dequeueByte hcnt, h.wr⟩, ?_⟩
    refine hk.take (v := { u with rdBuf := (dequeueByte u.rdBuf).2 }) rfl rfl ?_
    rw [Uart.pending, h.rd.flatten_dequeue hcnt]
    rfl

/-- **A step keeps the input**, unless it is an interrupt of `sifiveuart0` that finds a byte in the device. -/
theorem uartStep_kept {e : UartEvent} (h : u.Ok) (hk : InputKept u) (hf : FindsNoInput driver u e)
    (hs : uartStep driver u e = .ok u') : u'.Ok ∧ InputKept u' := by
  cases e with
  | arrive bs =>
      cases hs
      have hc := h.receive bs
      exact ⟨hc.ok, hc.inputKept hk⟩
  | interrupt env =>
      have hc : Carries u u' := by
        cases driver with
        | sifiveuart0 =>
            obtain ⟨w, hint, hc⟩ := sifiveuart0HandleInt_carries h (hf rfl env rfl)
            obtain rfl : w = u' := Except.ok.inj (hint.symm.trans hs)
            exact hc
        | uart16550a => exact uart16550aHandleInt_carries h hs
      exact ⟨hc.ok, hc.inputKept hk⟩
  | getc env =>
      obtain ⟨c, v, hgetc, hok, hkept⟩ := serialGetc_kept driver h hk env
      rw [uartStep, hgetc] at hs
      cases hs
      exact ⟨⟨hok.rd, hok.wr⟩, hkept⟩
  | putc c =>
      cases hs
      rw [serialPutc]
      split
      · exact ⟨h, hk⟩
      · rename_i hfull
        exact ⟨⟨h.rd, h.wr.enqueue (h.wr.lt_of_not_full hfull) c⟩, hk⟩

/-- **The other steps lose a byte.** -/
theorem uartStep_loses {e : UartEvent} (h : u.Ok) (hk : InputKept u) (hf : ¬ FindsNoInput driver u e)
    (hs : uartStep driver u e = .ok u') : ¬ InputKept u' := by
  unfold FindsNoInput at hf
  push Not at hf
  obtain ⟨rfl, env, rfl, hsome⟩ := hf
  obtain ⟨v, b, l, hc, hfifo, hc'⟩ := sifiveuart0HandleInt_drops h hsome hs
  intro hkept
  have hlen := congrArg List.length (hc.inputKept hk)
  have hlen' := congrArg List.length hkept
  obtain ⟨bs, hrec, hpend⟩ := hc'.input
  have hret : u'.returned = v.returned := hc'.returned
  have hshort : v.pending.length = (Uart.pending { v with fifo := l }).length + 1 := by
    simp only [Uart.pending, List.length_append, hfifo, List.length_cons]
    omega
  rw [hret, hrec, hpend] at hlen'
  simp only [List.length_append, List.length_map] at hlen hlen'
  omega

theorem ok_uartInit (rdData wrData : Nat → UInt8) : (uartInit rdData wrData).Ok := by
  have hsto : serialBufferSize * 1 < wordSize := by
    rw [wordSize_eq]
    decide
  exact ⟨.init rdData (by decide) (by decide) hsto, .init wrData (by decide) (by decide) hsto⟩

/-- **Input is kept** throughout a run exactly when the driver is `uart16550a` or no interrupt of `sifiveuart0` finds
a byte in the device. -/
theorem serial_input_kept_iff (driver : SerialDriver) (rdData wrData : Nat → UInt8)
    {tr : List (Uart × UartEvent)} (hrun : Exec (uartStep driver) (uartInit rdData wrData) tr u) :
    Throughout InputKept tr u ↔ AllSteps (FindsNoInput driver) tr := by
  apply hrun.forall_iff (I := fun u => u.Ok ∧ InputKept u) ⟨ok_uartInit rdData wrData, rfl⟩
  · exact fun u hi => hi.2
  · exact fun u e u' hi hf hs => uartStep_kept hi.1 hi.2 hf hs
  · exact fun u e u' hi hf hs => uartStep_loses hi.1 hi.2 hf hs

/-- A device that is quiet meanwhile. -/
def quietEnv : UartEnv := ⟨fun _ => [], fun _ => 0, fun _ => true, false, false⟩

/-- A byte goes through the ring of `uart16550a`. -/
theorem serial_input_kept_iff_oneByte : ∃ u : Uart, u.returned = [7] ∧ InputKept u := by
  obtain ⟨u, hrun, hu⟩ := Exec.of_checkRun (uartStep .uart16550a) (uartInit (fun _ => 0) fun _ => 0)
    [.arrive [7], .interrupt quietEnv, .getc quietEnv] (fun u => u.returned = [7]) (by decide +kernel)
  refine ⟨u, of_decide_eq_true hu, ?_⟩
  exact ((serial_input_kept_iff .uart16550a _ _ hrun).mpr fun x _ hd => by cases hd).2

/-- Input is not always kept: `sifiveuart0` drops the first byte that an interrupt announces. -/
theorem serial_input_lost : ¬ ∀ (driver : SerialDriver) (rdData wrData : Nat → UInt8) (tr : List (Uart × UartEvent))
    (u : Uart), Exec (uartStep driver) (uartInit rdData wrData) tr u → InputKept u := by
  intro hall
  obtain ⟨u, hrun, hu⟩ := Exec.of_checkRun (uartStep .sifiveuart0) (uartInit (fun _ => 0) fun _ => 0)
    [.arrive [7], .interrupt quietEnv] (fun u => u.returned = [] && u.pending = [] && u.received = [7])
    (by decide +kernel)
  have hkept := hall _ _ _ _ _ hrun
  simp only [Bool.and_eq_true, decide_eq_true_eq] at hu
  obtain ⟨⟨hret, hpend⟩, hrec⟩ := hu
  rw [InputKept, hret, hpend, hrec] at hkept
  exact absurd hkept (by decide)

end Jrinx
