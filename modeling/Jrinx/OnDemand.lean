import Jrinx.Kernel
import Jrinx.Lib.Runs
import Jrinx.Mm.Reserve

/-! # Communication objects backed on demand

`CREATE_BUFFER` and `CREATE_BLACKBOARD` reserve addresses only; the pages are given, and charged to the
budget of the partition, when a message is copied. This is the memory of one partition with its objects,
over every sequence of service calls; other partitions may take frames in between.

* **`CommBuffer.sendTouches`**, **`CommBuffer.recvTouches`** — the addresses that the copies touch.
* **`CommEvent`**, **`commStep`** — the services that use memory, as steps.
* **`CommInv`** — the invariant: the objects lie below `pa_comm_base`, and there is a reserve for them.
* **`comm_objects_usable`** — in the runs that keep the reserve no copy stops the system. -/

namespace Jrinx

namespace OnDemand

/-! ## Objects -/

/-- A buffer; its storage `cc_buf` starts at `ccBase`. -/
structure CommBuffer where
  ccBase : Nat
  bufMaxMsgSize : Nat
  bufBody : Circbuf

/-- A blackboard; `bbData` is the address of its storage. -/
structure CommBoard where
  bbData : Nat
  bbMaxMsgSize : Nat
  bbLen : Nat
  bbEmptyInd : EmptyInd

/-- The memory, and the objects of the partition in the order of their creation. -/
structure CommState where
  mem : Mem
  bufs : List CommBuffer
  bbs : List CommBoard

/-- The accesses of `buffer_send`: the header, and the copy of `len` bytes from `msgAddr`. -/
def CommBuffer.sendTouches (b : CommBuffer) (msgAddr len : Nat) : List Touch :=
  let msg := b.ccBase + (circbufEnquSt b.bufBody).ccTail
  touchesAt msg commMsgSize true ++ memcpyTouches (msg + commMsgSize) msgAddr len

/-- The length of the next message, from its header. -/
def CommBuffer.nextLen (b : CommBuffer) : Nat := (commRecv b.bufBody).1.1

/-- The accesses of `buffer_recv`. -/
def CommBuffer.recvTouches (b : CommBuffer) (msgAddr : Nat) : List Touch :=
  let msg := b.ccBase + (circbufDequSt b.bufBody).ccHead
  touchesAt msg commMsgSize false ++ memcpyTouches msgAddr (msg + commMsgSize) b.nextLen

/-! ## Steps -/

/-- The services that use the memory of the partition. A call that its checks refuse, or that waits, is a
step only if it reaches these functions. -/
inductive CommEvent where
  | createProcess (stackSize : Nat)
  | createBuffer (maxMessageSize maxNbMessage : Nat)
  | createBlackboard (maxMessageSize : Nat)
  | sendBuffer (i msgAddr : Nat) (msg : List UInt8)
  | receiveBuffer (i msgAddr : Nat)
  | displayBlackboard (i msgAddr length : Nat)
  | readBlackboard (i msgAddr : Nat)
  | clearBlackboard (i : Nat)
  /-- The arguments that a service reads and the results that it stores. -/
  | access (touches : List Touch)
  /-- A page fault of a process of the partition. -/
  | pagefault (va : Nat) (store : Bool)
  /-- What others do to the memory. -/
  | others (mem : Mem)

/-- The accesses, one after the other; a page fault that is not served stops the system. -/
def runTouches (pt : PartId) (l : List Touch) (s : CommState) : Except Fault CommState :=
  match l.forM (touch pt) s.mem with
  | .ok _ mem => .ok { s with mem := mem }
  | _ => .error .panic

/-- `part_comm_alloc` for a new object; without room the call is refused. -/
def commAlloc (pt : PartId) (size : Nat) (s : CommState) (make : Nat → CommState → CommState) : CommState :=
  match partCommAlloc pt size s.mem with
  | .ok base mem => make base { s with mem := mem }
  | _ => s

/-- One step, for the partition `pt`. -/
def commStep (pt : PartId) (s : CommState) : CommEvent → Except Fault CommState
  | .createProcess stackSize =>
      match procAllocMem pt stackSize s.mem with
      | .ok _ mem => .ok { s with mem := mem }
      | .err mem => .ok { s with mem := mem }
      | .fatal => .error .panic
  | .createBuffer sz nb =>
      .ok (commAlloc pt (nb * (sz + commMsgSize) % wordSize) s fun base s =>
        { s with bufs := s.bufs ++
          [⟨base, sz, circbufInit (fun _ => 0) ((sz + commMsgSize) % wordSize) nb⟩] })
  | .createBlackboard sz =>
      .ok (commAlloc pt sz s fun base s => { s with bbs := s.bbs ++ [⟨base, sz, 0, .empty⟩] })
  | .sendBuffer i msgAddr msg =>
      match s.bufs[i]? with
      | none => .ok s
      | some b =>
          -- a call that would be refused or would wait touches no storage
          if b.bufMaxMsgSize < msg.length ∨ msg.length = 0 ∨ circbufIsFull b.bufBody = true then .ok s
          else (runTouches pt (b.sendTouches msgAddr msg.length) s).map fun s =>
            { s with bufs := s.bufs.set i { b with bufBody := commSend b.bufBody msg } }
  | .receiveBuffer i msgAddr =>
      match s.bufs[i]? with
      | none => .ok s
      | some b =>
          if circbufIsEmpty b.bufBody = true then .ok s
          else (runTouches pt (b.recvTouches msgAddr) s).map fun s =>
            { s with bufs := s.bufs.set i { b with bufBody := (commRecv b.bufBody).2 } }
  | .displayBlackboard i msgAddr length =>
      match s.bbs[i]? with
      | none => .ok s
      | some bb =>
          if bb.bbMaxMsgSize < length ∨ length = 0 then .ok s
          else (runTouches pt (memcpyTouches bb.bbData msgAddr length) s).map fun s =>
            { s with bbs := s.bbs.set i { bb with bbLen := length, bbEmptyInd := .occupied } }
  | .readBlackboard i msgAddr =>
      match s.bbs[i]? with
      | none => .ok s
      | some bb =>
          if bb.bbEmptyInd = .empty then .ok s
          else runTouches pt (memcpyTouches msgAddr bb.bbData bb.bbLen) s
  | .clearBlackboard i =>
      match s.bbs[i]? with
      | none => .ok s
      | some bb => .ok { s with bbs := s.bbs.set i { bb with bbEmptyInd := .empty } }
  | .access touches => runTouches pt touches s
  | .pagefault va store =>
      match doPagefault pt va false store s.mem with
      | .ok _ mem => .ok { s with mem := mem }
      | _ => .error .panic
  | .others mem => .ok { s with mem := mem }

/-! ## The invariant -/

variable {R : Finset Ppn} {pt : PartId} {s s' : CommState} {lim : Nat}

/-- `pa_comm_base`. -/
def CommState.commTop (pt : PartId) (s : CommState) : Nat := (s.mem.parts pt).paCommBase

/-- The root table of the partition. -/
def CommState.root (pt : PartId) (s : CommState) : Ppn := (s.mem.parts pt).paPgdir

/-- The storage of a buffer lies below `top`, and the buffer is in order; one without slots is always
full. -/
def CommBuffer.Within (top : Nat) (b : CommBuffer) : Prop :=
  commBase ≤ b.ccBase ∧ ((b.bufBody.ccCap = 0 ∧ b.bufBody.ccCnt = 0) ∨
    b.ccBase + b.bufBody.ccCap * b.bufBody.ccEleSize ≤ top ∧
      ∃ q, CircbufHolds b.bufBody b.bufMaxMsgSize q)

/-- The storage of a blackboard lies below `top`. -/
structure CommBoard.Within (top : Nat) (bb : CommBoard) : Prop where
  low : commBase ≤ bb.bbData
  high : bb.bbData + bb.bbMaxMsgSize ≤ top
  len : bb.bbLen ≤ bb.bbMaxMsgSize

/-- **The invariant.** The objects lie between `COMM_BASE` and `pa_comm_base`, and there is a reserve for
every page there that is not mapped. -/
structure CommInv (R : Finset Ppn) (pt : PartId) (s : CommState) : Prop where
  tidy : Tidy R s.mem
  root : s.root pt ∈ R
  low : commBase ≤ s.commTop pt
  high : s.commTop pt ≤ commLimt
  reserve : Reserve s.mem pt (s.commTop pt)
  bufs : ∀ b ∈ s.bufs, b.Within (s.commTop pt)
  bbs : ∀ bb ∈ s.bbs, bb.Within (s.commTop pt)

/-- Every byte from `base` on can be touched. -/
def ReadyBytes (pt : PartId) (s : CommState) (base n : Nat) : Prop :=
  ∀ i < n, Ready s.mem (s.root pt) (s.commTop pt) ((base + i) % wordSize)

/-- A new object of `extent` bytes has room, and there is a reserve for it too; or it is refused. -/
def Roomy (pt : PartId) (s : CommState) (extent : Nat) : Prop :=
  commLimt ≤ (s.commTop pt + extent) % wordSize ∨
    (s.commTop pt + extent < commLimt ∧ Reserve s.mem pt (s.commTop pt + extent))

/-- **The steps that keep the reserve.** A creation leaves or finds a reserve for the storage of all
objects; the bytes of a message and the arguments of a call are mapped; others leave the pages of this
partition and its reserve. -/
def Keeps (R : Finset Ppn) (pt : PartId) (s : CommState) : CommEvent → Prop
  | .createProcess stackSize =>
      (s.mem.parts pt).paMemRem < alignUp stackSize pgSize ∨ StacksBeside s.mem pt stackSize (s.commTop pt)
  | .createBuffer sz nb => Roomy pt s (nb * (sz + commMsgSize))
  | .createBlackboard sz => Roomy pt s sz
  | .sendBuffer _ msgAddr msg => ReadyBytes pt s msgAddr msg.length
  | .receiveBuffer i msgAddr => ∀ b, s.bufs[i]? = some b → ReadyBytes pt s msgAddr b.nextLen
  | .displayBlackboard _ msgAddr length => ReadyBytes pt s msgAddr length
  | .readBlackboard i msgAddr => ∀ bb, s.bbs[i]? = some bb → ReadyBytes pt s msgAddr bb.bbLen
  | .access touches => ∀ t ∈ touches, Ready s.mem (s.root pt) (s.commTop pt) t.va
  | .others mem => Keeping R pt (s.commTop pt) s.mem mem
  | _ => True

/-- **The objects can be used**: no message of admitted length whose bytes can be read stops the system. -/
structure Usable (pt : PartId) (s : CommState) : Prop where
  send : ∀ i msgAddr msg, ReadyBytes pt s msgAddr msg.length →
    ∃ s', commStep pt s (.sendBuffer i msgAddr msg) = .ok s'
  display : ∀ i msgAddr length, ReadyBytes pt s msgAddr length →
    ∃ s', commStep pt s (.displayBlackboard i msgAddr length) = .ok s'

/-! ## Steps keep the invariant -/

theorem CommBuffer.Within.mono {b : CommBuffer} {lim' : Nat} (h : b.Within lim) (hle : lim ≤ lim') :
    b.Within lim' :=
  ⟨h.1, h.2.imp_right fun hb => ⟨hb.1.trans hle, hb.2⟩⟩

theorem CommBoard.Within.mono {bb : CommBoard} {lim' : Nat} (h : bb.Within lim) (hle : lim ≤ lim') :
    bb.Within lim' :=
  ⟨h.low, h.high.trans hle, h.len⟩

/-- Bytes of the storage can be touched. -/
theorem CommInv.readyBytes (hi : CommInv R pt s) {base n : Nat} (hlo : commBase ≤ base)
    (hhi : base + n ≤ s.commTop pt) : ReadyBytes pt s base n := by
  intro i hlt
  have hsmall : base + i < wordSize := by
    have hlim := hi.high
    unfold commLimt at hlim
    rw [wordSize_eq]
    omega
  rw [Nat.mod_eq_of_lt hsmall]
  exact Or.inr ⟨by omega, by omega⟩

/-- **The memory changes** and keeps the reserve. -/
theorem CommInv.keeping (hi : CommInv R pt s) {mem : Mem} (hk : Keeping R pt (s.commTop pt) s.mem mem) :
    CommInv R pt { s with mem := mem } := by
  have htop : CommState.commTop pt { s with mem := mem } = s.commTop pt := hk.commBase
  refine ⟨hk.tidy, ?_, ?_, ?_, ?_, ?_, ?_⟩
  · show (mem.parts pt).paPgdir ∈ R
    rw [hk.pgdir]
    exact hi.root
  · rw [htop]
    exact hi.low
  · rw [htop]
    exact hi.high
  · rw [htop]
    exact hk.reserve
  · rw [htop]
    exact hi.bufs
  · rw [htop]
    exact hi.bbs

/-- **Accesses** to bytes that can be touched do not stop the system. -/
theorem CommInv.runTouches (hi : CommInv R pt s) {l : List Touch}
    (hready : ∀ t ∈ l, Ready s.mem (s.root pt) (s.commTop pt) t.va) :
    ∃ mem, OnDemand.runTouches pt l s = .ok { s with mem := mem } ∧
      Keeping R pt (s.commTop pt) s.mem mem := by
  obtain ⟨mem, hok, hk⟩ := hi.tidy.touches_ready l hi.root hi.reserve hi.high hready
  refine ⟨mem, ?_, hk⟩
  rw [OnDemand.runTouches, hok]

theorem ready_touchesAt {base n : Nat} {store : Bool} (h : ReadyBytes pt s base n) :
    ∀ t ∈ touchesAt base n store, Ready s.mem (s.root pt) (s.commTop pt) t.va := by
  intro t ht
  obtain ⟨i, hi, rfl⟩ := List.mem_map.mp ht
  exact h i (List.mem_range.mp hi)

theorem ready_memcpyTouches {dst src n : Nat} (hdst : ReadyBytes pt s dst n) (hsrc : ReadyBytes pt s src n) :
    ∀ t ∈ memcpyTouches dst src n, Ready s.mem (s.root pt) (s.commTop pt) t.va := by
  intro t ht
  obtain ⟨i, hi, ht⟩ := List.mem_flatMap.mp ht
  rw [List.mem_range] at hi
  simp only [List.mem_cons, List.not_mem_nil, or_false] at ht
  rcases ht with rfl | rfl
  · exact hsrc i hi
  · exact hdst i hi

/-- The slot that the next message goes to. -/
theorem enquSt_slot {cc : Circbuf} {n : Nat} {q : List (List UInt8)} (h : CircbufHolds cc n q) :
    (circbufEnquSt cc).ccTail + cc.ccEleSize ≤ cc.ccCap * cc.ccEleSize := by
  obtain ⟨slot, -, -, htail, -⟩ := h.layout
  have hmod : cc.ccCap * cc.ccEleSize % wordSize = cc.ccCap * cc.ccEleSize := Nat.mod_eq_of_lt h.storage_lt
  rw [circbufEnquSt, hmod, htail, ← Nat.succ_mul]
  exact Nat.mul_le_mul_right _ (Nat.mod_lt _ h.cap_pos)

/-- The slot that the next message is in. -/
theorem dequSt_slot {cc : Circbuf} {n : Nat} {q : List (List UInt8)} (h : CircbufHolds cc n q) :
    (circbufDequSt cc).ccHead + cc.ccEleSize ≤ cc.ccCap * cc.ccEleSize := by
  obtain ⟨slot, hslot, hhead, -⟩ := h.layout
  show cc.ccHead + cc.ccEleSize ≤ _
  rw [hhead, ← Nat.succ_mul]
  exact Nat.mul_le_mul_right _ hslot

/-- What a copy between a message and its slot touches. -/
theorem CommInv.ready_slot (hi : CommInv R pt s) {base n len e : Nat} (hlo : commBase ≤ base)
    (hhi : base + n ≤ s.commTop pt) (hslot : e + (len + commMsgSize) ≤ n) :
    ReadyBytes pt s (base + e) commMsgSize ∧ ReadyBytes pt s (base + e + commMsgSize) len := by
  constructor
  · exact hi.readyBytes (by omega) (by omega)
  · exact hi.readyBytes (by omega) (by omega)

/-- A buffer is replaced by one in the same place. -/
theorem CommInv.setBuf (hi : CommInv R pt s) (i : Nat) {b : CommBuffer} (hb : b.Within (s.commTop pt)) :
    CommInv R pt { s with bufs := s.bufs.set i b } where
  tidy := hi.tidy
  root := hi.root
  low := hi.low
  high := hi.high
  reserve := hi.reserve
  bufs := fun b' hb' => by
    rcases List.mem_or_eq_of_mem_set hb' with hold | rfl
    · exact hi.bufs b' hold
    · exact hb
  bbs := hi.bbs

/-- A blackboard is replaced by one in the same place. -/
theorem CommInv.setBoard (hi : CommInv R pt s) (i : Nat) {bb : CommBoard} (hb : bb.Within (s.commTop pt)) :
    CommInv R pt { s with bbs := s.bbs.set i bb } where
  tidy := hi.tidy
  root := hi.root
  low := hi.low
  high := hi.high
  reserve := hi.reserve
  bufs := hi.bufs
  bbs := fun bb' hb' => by
    rcases List.mem_or_eq_of_mem_set hb' with hold | rfl
    · exact hi.bbs bb' hold
    · exact hb

/-- **`SEND_BUFFER`** of a message that can be read. -/
theorem CommInv.send (hi : CommInv R pt s) (i : Nat) {msgAddr : Nat} {msg : List UInt8}
    (hmsg : ReadyBytes pt s msgAddr msg.length) :
    ∃ s', commStep pt s (.sendBuffer i msgAddr msg) = .ok s' ∧ CommInv R pt s' := by
  cases hb : s.bufs[i]? with
  | none => exact ⟨s, by simp only [commStep, hb], hi⟩
  | some b =>
      by_cases hc : b.bufMaxMsgSize < msg.length ∨ msg.length = 0 ∨ circbufIsFull b.bufBody = true
      · exact ⟨s, by simp only [commStep, hb, if_pos hc], hi⟩
      obtain ⟨hlo, hbody⟩ := hi.bufs b (List.mem_of_getElem? hb)
      rcases hbody with ⟨hcap, hcnt⟩ | ⟨hhi, q, hq⟩
      · -- a buffer without slots is full
        exact absurd (Or.inr (Or.inr (by rw [circbufIsFull, hcap, hcnt]; rfl))) hc
      obtain ⟨hlen, -, hfull⟩ : msg.length ≤ b.bufMaxMsgSize ∧ msg.length ≠ 0 ∧
          circbufIsFull b.bufBody ≠ true := by
        rwa [not_or, not_or, not_lt] at hc
      have hele := hq.eleSize
      have hslot := enquSt_slot hq
      -- the length is written at the head of the slot, the message behind it
      obtain ⟨hhead, hdata⟩ := hi.ready_slot hlo hhi
        (show (circbufEnquSt b.bufBody).ccTail + (msg.length + commMsgSize) ≤ _ by omega)
      have hready : ∀ t ∈ b.sendTouches msgAddr msg.length, Ready s.mem (s.root pt) (s.commTop pt) t.va :=
        List.forall_mem_append.mpr ⟨ready_touchesAt hhead, ready_memcpyTouches hdata hmsg⟩
      obtain ⟨mem, hok, hk⟩ := hi.runTouches hready
      have hroom : q.length < b.bufBody.ccCap :=
        lt_of_le_of_ne hq.cnt_le fun heq => hfull (hq.isFull_iff.mpr heq)
      refine ⟨{ s with mem := mem, bufs := s.bufs.set i { b with bufBody := commSend b.bufBody msg } }, ?_,
        (hi.keeping hk).setBuf i ⟨hlo, Or.inr ⟨?_, _, circbufHolds_commSend hq hlen hroom⟩⟩⟩
      · simp only [commStep, hb, if_neg hc, hok]
        rfl
      · rw [CommState.commTop, hk.commBase]
        exact hhi

/-- **`RECEIVE_BUFFER`** to bytes that can be written. -/
theorem CommInv.receive (hi : CommInv R pt s) (i : Nat) {msgAddr : Nat}
    (hmsg : ∀ b, s.bufs[i]? = some b → ReadyBytes pt s msgAddr b.nextLen) :
    ∃ s', commStep pt s (.receiveBuffer i msgAddr) = .ok s' ∧ CommInv R pt s' := by
  cases hb : s.bufs[i]? with
  | none => exact ⟨s, by simp only [commStep, hb], hi⟩
  | some b =>
      by_cases hc : circbufIsEmpty b.bufBody = true
      · exact ⟨s, by simp only [commStep, hb, if_pos hc], hi⟩
      obtain ⟨hlo, hbody⟩ := hi.bufs b (List.mem_of_getElem? hb)
      rcases hbody with ⟨-, hcnt⟩ | ⟨hhi, q, hq⟩
      · exact absurd (by rw [circbufIsEmpty, hcnt]; rfl) hc
      obtain ⟨msg, q, rfl⟩ := List.exists_cons_of_ne_nil fun hnil => hc (hq.isEmpty_iff.mpr hnil)
      obtain ⟨hnext, hq'⟩ := circbufHolds_commRecv hq
      have hlen : b.nextLen = msg.length := congrArg Prod.fst hnext
      have hfits := hq.fits msg List.mem_cons_self
      have hele := hq.eleSize
      have hslot := dequSt_slot hq
      -- the length is read at the head of the slot, the message behind it
      obtain ⟨hhead, hdata⟩ := hi.ready_slot hlo hhi
        (show (circbufDequSt b.bufBody).ccHead + (b.nextLen + commMsgSize) ≤ _ by omega)
      have hready : ∀ t ∈ b.recvTouches msgAddr, Ready s.mem (s.root pt) (s.commTop pt) t.va :=
        List.forall_mem_append.mpr ⟨ready_touchesAt hhead, ready_memcpyTouches (hmsg b hb) hdata⟩
      obtain ⟨mem, hok, hk⟩ := hi.runTouches hready
      refine ⟨{ s with mem := mem, bufs := s.bufs.set i { b with bufBody := (commRecv b.bufBody).2 } }, ?_,
        (hi.keeping hk).setBuf i ⟨hlo, Or.inr ⟨?_, _, hq'⟩⟩⟩
      · simp only [commStep, hb, if_neg hc, hok]
        rfl
      · rw [CommState.commTop, hk.commBase]
        exact hhi

/-- **`DISPLAY_BLACKBOARD`** of a message that can be read. -/
theorem CommInv.display (hi : CommInv R pt s) (i : Nat) {msgAddr length : Nat}
    (hmsg : ReadyBytes pt s msgAddr length) :
    ∃ s', commStep pt s (.displayBlackboard i msgAddr length) = .ok s' ∧ CommInv R pt s' := by
  cases hb : s.bbs[i]? with
  | none => exact ⟨s, by simp only [commStep, hb], hi⟩
  | some bb =>
      by_cases hc : bb.bbMaxMsgSize < length ∨ length = 0
      · exact ⟨s, by simp only [commStep, hb, if_pos hc], hi⟩
      obtain ⟨hlo, hhi, -⟩ := hi.bbs bb (List.mem_of_getElem? hb)
      have hlen : length ≤ bb.bbMaxMsgSize := not_lt.mp fun hlt => hc (Or.inl hlt)
      have hdata : ReadyBytes pt s bb.bbData length := hi.readyBytes hlo (by omega)
      obtain ⟨mem, hok, hk⟩ := hi.runTouches (ready_memcpyTouches hdata hmsg)
      refine ⟨{ s with mem := mem, bbs := s.bbs.set i { bb with bbLen := length, bbEmptyInd := .occupied } },
        ?_, (hi.keeping hk).setBoard i ⟨hlo, ?_, hlen⟩⟩
      · simp only [commStep, hb, if_neg hc, hok]
        rfl
      · rw [CommState.commTop, hk.commBase]
        exact hhi

/-- `READ_BLACKBOARD` to bytes that can be written. -/
theorem CommInv.read (hi : CommInv R pt s) (i : Nat) {msgAddr : Nat}
    (hmsg : ∀ bb, s.bbs[i]? = some bb → ReadyBytes pt s msgAddr bb.bbLen) :
    ∃ s', commStep pt s (.readBlackboard i msgAddr) = .ok s' ∧ CommInv R pt s' := by
  cases hb : s.bbs[i]? with
  | none => exact ⟨s, by simp only [commStep, hb], hi⟩
  | some bb =>
      by_cases hc : bb.bbEmptyInd = .empty
      · exact ⟨s, by simp only [commStep, hb, if_pos hc], hi⟩
      obtain ⟨hlo, hhi, hlen⟩ := hi.bbs bb (List.mem_of_getElem? hb)
      have hdata : ReadyBytes pt s bb.bbData bb.bbLen := hi.readyBytes hlo (by omega)
      obtain ⟨mem, hok, hk⟩ := hi.runTouches (ready_memcpyTouches (hmsg bb hb) hdata)
      refine ⟨{ s with mem := mem }, ?_, hi.keeping hk⟩
      simp only [commStep, hb, if_neg hc, hok]

/-- **A new object** with room, whose storage the reserve covers. -/
theorem CommInv.commAlloc (hi : CommInv R pt s) {size extent : Nat}
    (hsize : (s.commTop pt + size) % wordSize = (s.commTop pt + extent) % wordSize)
    (hroom : Roomy pt s extent) {make : Nat → CommState → CommState}
    (hmake : ∀ s₁, CommInv R pt s₁ → s.commTop pt + extent < commLimt →
      s₁.commTop pt = s.commTop pt + extent → CommInv R pt (make (s.commTop pt) s₁)) :
    CommInv R pt (OnDemand.commAlloc pt size s make) := by
  -- without room nothing changes
  rcases partCommAlloc_cases pt size s.mem with ⟨-, herr⟩ | ⟨hlt, hok⟩
  · rw [OnDemand.commAlloc, herr]
    exact hi
  have hsum : ((s.mem.parts pt).paCommBase + size) % wordSize = (s.commTop pt + extent) % wordSize := hsize
  rw [hsum] at hlt hok
  obtain ⟨hfits, hres⟩ := hroom.resolve_left (not_le.mpr hlt)
  -- below the limit the sum does not wrap around
  have hsmall : (s.commTop pt + extent) % wordSize = s.commTop pt + extent := by
    refine Nat.mod_eq_of_lt (hfits.trans ?_)
    rw [wordSize_eq]
    decide
  rw [hsmall] at hok
  rw [OnDemand.commAlloc, hok]
  generalize hmem : (s.mem.updPart pt fun p => { p with paCommBase := s.commTop pt + extent }) = mem
  have hparts : mem.parts pt = { s.mem.parts pt with paCommBase := s.commTop pt + extent } := by
    rw [← hmem, parts_updPart]
  have hle : s.commTop pt ≤ s.commTop pt + extent := Nat.le_add_right _ _
  have htop : CommState.commTop pt { s with mem := mem } = s.commTop pt + extent := by
    rw [CommState.commTop, hparts]
  refine hmake _ ⟨?_, ?_, ?_, ?_, ?_, ?_, ?_⟩ hfits htop
  · rw [← hmem]
    exact hi.tidy.congr rfl rfl rfl rfl
  · rw [CommState.root, hparts]
    exact hi.root
  · rw [htop]
    exact hi.low.trans hle
  · rw [htop]
    exact hfits.le
  · rw [htop]
    -- what the object takes is what was kept for it
    constructor
    · rw [hparts, ← hmem]
      exact hres.budget
    · rw [hparts, ← hmem]
      exact hres.frames
  · rw [htop]
    exact fun b hb => (hi.bufs b hb).mono hle
  · rw [htop]
    exact fun bb hb => (hi.bbs bb hb).mono hle

/-- **One step** that keeps the reserve keeps the invariant. -/
theorem CommInv.step (hi : CommInv R pt s) {e : CommEvent} (hkeeps : Keeps R pt s e)
    (h : commStep pt s e = .ok s') : CommInv R pt s' := by
  cases e with
  | createProcess stackSize =>
      cases hmem : procAllocMem pt stackSize s.mem with
      | fatal => simp [commStep, hmem] at h
      | err mem =>
          simp only [commStep, hmem, Except.ok.injEq] at h
          rw [← h, procAllocMem_eq_err hmem]
          exact hi
      | ok stk mem =>
          simp only [commStep, hmem, Except.ok.injEq] at h
          obtain ⟨hrem, -⟩ := procAllocMem_eq_ok.mp hmem
          -- the memory of a process comes from what the reserve leaves
          have hbeside := hkeeps.resolve_left (not_lt.mpr hrem)
          rw [← h]
          exact hi.keeping (hi.tidy.procAllocMem_keeping hi.root hbeside hmem)
  | createBuffer sz nb =>
      rw [← Except.ok.inj h]
      refine hi.commAlloc (Nat.add_mod_mod _ _ _) hkeeps fun s₁ hi₁ hfits htop => ?_
      refine { hi₁ with bufs := fun b hb => ?_ }
      rcases List.mem_append.mp hb with hold | hnew
      · exact hi₁.bufs b hold
      rw [List.mem_singleton.mp hnew]
      refine ⟨hi.low, ?_⟩
      -- a buffer without slots has no storage
      rcases Nat.eq_zero_or_pos nb with rfl | hpos
      · exact Or.inl ⟨rfl, rfl⟩
      have hsto : nb * (sz + commMsgSize) < wordSize := by
        have hlim : commLimt < wordSize := by
          rw [wordSize_eq]
          decide
        exact (Nat.le_add_left _ _).trans_lt (hfits.trans hlim)
      have hele : (sz + commMsgSize) % wordSize = sz + commMsgSize :=
        Nat.mod_eq_of_lt ((Nat.le_mul_of_pos_left _ hpos).trans_lt hsto)
      rw [hele]
      exact Or.inr ⟨htop.ge, [], circbufHolds_init _ sz nb hpos hsto⟩
  | createBlackboard sz =>
      rw [← Except.ok.inj h]
      refine hi.commAlloc rfl hkeeps fun s₁ hi₁ hfits htop => ?_
      refine { hi₁ with bbs := fun bb hb => ?_ }
      rcases List.mem_append.mp hb with hold | hnew
      · exact hi₁.bbs bb hold
      rw [List.mem_singleton.mp hnew]
      exact ⟨hi.low, htop.ge, Nat.zero_le _⟩
  | sendBuffer i msgAddr msg =>
      obtain ⟨s'', hok, hi'⟩ := hi.send i hkeeps
      rwa [← Except.ok.inj (hok.symm.trans h)]
  | receiveBuffer i msgAddr =>
      obtain ⟨s'', hok, hi'⟩ := hi.receive i hkeeps
      rwa [← Except.ok.inj (hok.symm.trans h)]
  | displayBlackboard i msgAddr length =>
      obtain ⟨s'', hok, hi'⟩ := hi.display i hkeeps
      rwa [← Except.ok.inj (hok.symm.trans h)]
  | readBlackboard i msgAddr =>
      obtain ⟨s'', hok, hi'⟩ := hi.read i hkeeps
      rwa [← Except.ok.inj (hok.symm.trans h)]
  | clearBlackboard i =>
      cases hb : s.bbs[i]? with
      | none =>
          simp only [commStep, hb, Except.ok.injEq] at h
          rwa [← h]
      | some bb =>
          simp only [commStep, hb, Except.ok.injEq] at h
          obtain ⟨hlo, hhi, hlen⟩ := hi.bbs bb (List.mem_of_getElem? hb)
          rw [← h]
          exact hi.setBoard i ⟨hlo, hhi, hlen⟩
  | access touches =>
      obtain ⟨mem, hok, hk⟩ := hi.runTouches hkeeps
      rw [← Except.ok.inj (hok.symm.trans h)]
      exact hi.keeping hk
  | pagefault va store =>
      cases hfound : found s.mem (pageOf (s.root pt) va) with
      | none =>
          cases hfault : doPagefault pt va false store s.mem with
          | ok u mem =>
              -- a fault of a user outside the mapped pages stops the system
              obtain ⟨⟨hsuper, -⟩, -⟩ := (doPagefault_of_unmapped store hfound).mp hfault
              exact absurd hsuper (by simp)
          | err mem => simp [commStep, hfault] at h
          | fatal => simp [commStep, hfault] at h
      | some x =>
          obtain ⟨a, e⟩ := x
          simp only [commStep, doPagefault_of_found hfound, Except.ok.injEq] at h
          rw [← h]
          exact hi.keeping (hi.tidy.markAccess_keeping hi.root hi.reserve store (inRange_pageOf hi.root) hfound)
  | others mem =>
      rw [← Except.ok.inj h]
      exact hi.keeping hkeeps

/-! ## The runs -/

theorem CommInv.usable (hi : CommInv R pt s) : Usable pt s where
  send := fun i msgAddr msg hmsg => by
    obtain ⟨s', hok, -⟩ := hi.send i hmsg
    exact ⟨s', hok⟩
  display := fun i msgAddr length hmsg => by
    obtain ⟨s', hok, -⟩ := hi.display i hmsg
    exact ⟨s', hok⟩

/-- The partition before its first object. -/
def CommState.initial (mem : Mem) : CommState := ⟨mem, [], []⟩

theorem CommInv.initial {mem : Mem} (h : Tidy R mem) (hr : (mem.parts pt).paPgdir ∈ R)
    (hbase : (mem.parts pt).paCommBase = commBase) : CommInv R pt (.initial mem) where
  tidy := h
  root := hr
  low := hbase.ge
  high := by
    show (mem.parts pt).paCommBase ≤ commLimt
    rw [hbase]
    decide
  reserve := by
    have hlazy : ∀ r, lazyVas mem r commBase = [] := fun r => by
      simp [lazyVas, pageSteps, pgSize]
    show Reserve mem pt (mem.parts pt).paCommBase
    rw [hbase]
    constructor
    · rw [hlazy]
      exact Nat.zero_le _
    · rw [hlazy]
      exact Nat.zero_le _
  bufs := by simp [CommState.initial]
  bbs := by simp [CommState.initial]

/-- **What was created can be used.** In every run whose steps keep the reserve, in every state the budget
and the free frames back the storage of every object, and no message of admitted length stops the system
when it is sent or displayed. -/
theorem comm_objects_usable (R : Finset Ppn) (pt : PartId) (mem : Mem) (htidy : Tidy R mem)
    (hroot : (mem.parts pt).paPgdir ∈ R) (hbase : (mem.parts pt).paCommBase = commBase)
    {tr : List (CommState × CommEvent)} {s : CommState}
    (hrun : Exec (commStep pt) (.initial mem) tr s) (hkeeps : AllSteps (Keeps R pt) tr) :
    Throughout (fun s => Reserve s.mem pt (s.commTop pt) ∧ Usable pt s) tr s := by
  have hinv : Throughout (CommInv R pt) tr s :=
    hrun.throughout_of_forall (CommInv.initial htidy hroot hbase) hkeeps
      fun _ _ _ hi hk hs => hi.step hk hs
  exact ⟨fun x hx => ⟨(hinv.1 x hx).reserve, (hinv.1 x hx).usable⟩, hinv.2.reserve, hinv.2.usable⟩

/-- A partition that can pay for the stacks of one process, and frames enough for more. -/
def narrowMem : Mem :=
  { Mem.none with
    mems := [⟨0x80000000, 0x100000⟩]
    pfFreeList := [(List.range 64).map (0x80010 + ·)]
    parts := fun _ =>
      { PartMem.blank with
        paPgdir := 0x80000, paMemRem := 0x11000, paUstasktop := ustkLimit, paXstacktop := xstkLimit,
        paCommBase := commBase } }

theorem tidy_narrowMem : Tidy {0x80000} narrowMem := by
  have hfree : ∀ f, narrowMem.Free f ↔ ∃ i < 64, 0x80010 + i = f := by
    intro f
    simp [Mem.Free, narrowMem]
  refine tidy_of_empty (fun _ _ => rfl) rfl ?_ ?_ (fun _ _ => rfl) ?_
  · simp only [narrowMem, List.flatten_cons, List.flatten_nil, List.append_nil]
    exact List.Nodup.map (fun i j hij => Nat.add_left_cancel hij) List.nodup_range
  · rintro f hf
    obtain ⟨i, hi, rfl⟩ := (hfree f).mp hf
    have hframe : ∀ i < 64, (frame2sel narrowMem.mems (0x80010 + i)).isSome = true ∧
        pa2frame narrowMem.mems (0x80010 + i) = some (0x80010 + i) := by decide +kernel
    exact ⟨(hframe i hi).1, (hframe i hi).2⟩
  · intro hf
    obtain ⟨i, -, heq⟩ := (hfree _).mp hf
    have hlt : (0x80000 : Nat) < 0x80010 + i := Nat.lt_add_right i (by decide)
    exact hlt.ne' heq

/-- The check of the two examples: the call stops the system although its message is mapped. -/
def stops (s : CommState) (i msgAddr length : Nat) : Bool :=
  (match commStep 1 s (.displayBlackboard i msgAddr length) with
    | .error _ => true
    | .ok _ => false) &&
  (List.range length).all fun j => (found s.mem (pageOf (s.root 1) ((msgAddr + j) % wordSize))).isSome

/-- The stacks of a process take the whole budget; a blackboard is created, but the first message, which lies
on the stack, cannot be displayed. -/
theorem comm_object_unusable : ¬ ∀ (R : Finset Ppn) (pt : PartId) (mem : Mem)
    (tr : List (CommState × CommEvent)) (s : CommState), Tidy R mem → (mem.parts pt).paPgdir ∈ R →
    (mem.parts pt).paCommBase = commBase → Exec (commStep pt) (.initial mem) tr s →
    Throughout (Usable pt) tr s := by
  intro hall
  obtain ⟨s, hrun, hstops⟩ := Exec.of_checkRun (commStep 1) (.initial narrowMem)
    [.createProcess 0x1000, .createBlackboard 16] (fun s => stops s 0 (ustkLimit - 8) 4) (by decide +kernel)
  rw [stops, Bool.and_eq_true, List.all_eq_true] at hstops
  have husable := (hall _ 1 narrowMem _ s tidy_narrowMem (Finset.mem_singleton_self _) rfl hrun).2
  obtain ⟨s', hok⟩ := husable.display 0 (ustkLimit - 8) 4 fun j hj =>
    Or.inl (Option.isSome_iff_ne_none.mp (hstops.2 j (List.mem_range.mpr hj)))
  rw [hok] at hstops
  exact absurd hstops.1 (by simp)

/-- One object, and nothing else that is paid from the budget. -/
theorem comm_objects_usable_board : ∃ tr s, Exec (commStep 1) (.initial narrowMem) tr s ∧
    s.bbs.length = 1 ∧ Throughout (fun s => Reserve s.mem 1 (s.commTop 1) ∧ Usable 1 s) tr s := by
  obtain ⟨s, hrun, hone⟩ := Exec.of_checkRun (commStep 1) (.initial narrowMem) [.createBlackboard 16]
    (fun s => s.bbs.length = 1) (by decide +kernel)
  refine ⟨_, s, hrun, of_decide_eq_true hone, comm_objects_usable {0x80000} 1 narrowMem tidy_narrowMem
    (Finset.mem_singleton_self _) rfl hrun ?_⟩
  have hroomy : Roomy 1 (.initial narrowMem) 16 :=
    Or.inr ⟨by decide, by decide +kernel, by show _ + _ ≤ _; decide +kernel⟩
  rintro ⟨s₁, e⟩ hx
  rw [traceEvents] at hx
  split at hx
  · rcases List.mem_cons.mp hx with heq | htail
    · obtain ⟨rfl, rfl⟩ := (Prod.mk.injEq _ _ _ _).mp heq
      exact hroomy
    · exact absurd htail List.not_mem_nil
  · exact absurd hx List.not_mem_nil

end OnDemand

end Jrinx
