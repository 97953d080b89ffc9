import Jrinx.Lib.Regions
import Jrinx.WaitAgreement

/-! # Message storage

Buffers, blackboards and channels keep their messages in ranges that two bump pointers hand out:
`pa_comm_base` of a partition and `channel_base`. Sizes and counts come from user registers or from
the boot arguments, and both pointers are moved in 64-bit arithmetic.

* **`channelCreate`** — from `kern/chan/channel.c`, with `queuing_port_conf_chan`.
* **`create`**, **`addChannel`** — a creation as a step of a run that records the range of the new
  object, computed without wrap-around.
* **`storage_separate_iff`** — the runs in which the ranges stay apart and inside their areas. -/

namespace Jrinx

/-! ## Objects of a partition -/

/-- A call that creates a buffer or a blackboard. -/
inductive Creation where
  | buffer (name : String) (maxMessageSize maxNbMessage : Nat) (queuingDiscipline : QueDisc)
  | blackboard (name : String) (maxMessageSize : Nat)
  deriving DecidableEq, Repr

namespace Creation

/-- The bytes that the new object may write, in unbounded integers. -/
def extent : Creation → Nat
  | .buffer _ sz nb _ => nb * (sz + commMsgSize)
  | .blackboard _ sz => sz

/-- The service call. -/
def call (k : Kernel) : Creation → Outcome
  | .buffer name sz nb disc => doCreateBuffer k name sz nb disc
  | .blackboard name sz => doCreateBlackboard k name sz

/-- What the services check before they ask for memory. -/
def Checked (k : Kernel) (c : Creation) : Prop :=
  (match c with
    | .buffer name sz _ _ => partGetBufByName k k.curPart name = none ∧ sz ≠ 0
    | .blackboard name sz => partGetBbByName k k.curPart name = none ∧ sz ≠ 0) ∧
  (k.parts k.curPart).paOpMode ≠ .normal

end Creation

/-- The bump pointer of the partition on the hart. -/
def Kernel.commBase (k : Kernel) : Nat := (k.mem.parts k.curPart).paCommBase

/-- The kernel with the ranges of the objects that its current partition created. -/
structure Storage where
  kernel : Kernel
  made : List Region

/-- One creation call. Only a call that returns an identifier made an object. -/
def create (s : Storage) (c : Creation) : Except Fault Storage :=
  (c.call s.kernel).map fun (n, k) =>
    match n with
    | .ret .noError (.identifier _) => ⟨k, s.made ++ [⟨s.kernel.commBase, c.extent⟩]⟩
    | _ => ⟨k, s.made⟩

/-- Where `pa_comm_base` is after the call, if the call is not refused. -/
def Creation.top (k : Kernel) (c : Creation) : Nat := (k.commBase + c.extent) % wordSize

/-- What a creation call does: it is refused and moves nothing, or the new range starts at the bump
pointer, which moves by the extent modulo the word size. -/
inductive Creates (s : Storage) (c : Creation) (s' : Storage) : Prop
  | refused (why : ¬ (c.Checked s.kernel ∧ c.top s.kernel < commLimt)) (made : s'.made = s.made)
      (base : s'.kernel.commBase = s.kernel.commBase)
  | made (checked : c.Checked s.kernel) (fits : c.top s.kernel < commLimt)
      (made : s'.made = s.made ++ [⟨s.kernel.commBase, c.extent⟩])
      (base : s'.kernel.commBase = c.top s.kernel)

theorem creates_buffer {s s' : Storage} {name : String} {sz nb : Nat} {disc : QueDisc}
    (h : create s (.buffer name sz nb disc) = .ok s') : Creates s (.buffer name sz nb disc) s' := by
  obtain ⟨k, made⟩ := s
  simp only [create, Creation.call, doCreateBuffer] at h
  split at h
  · rename_i hname
    rw [← Except.ok.inj h]
    refine .refused (fun hc => ?_) rfl rfl
    rw [hc.1.1.1] at hname
    exact absurd hname (by simp)
  split at h
  · rename_i hsz
    rw [← Except.ok.inj h]
    exact .refused (fun hc => hc.1.1.2 hsz) rfl rfl
  split at h
  · rename_i hmode
    rw [← Except.ok.inj h]
    exact .refused (fun hc => hc.1.2 hmode) rfl rfl
  rename_i hname hsz hmode
  -- past the checks only the room in the area decides
  have hchecked : (Creation.buffer name sz nb disc).Checked k :=
    ⟨⟨Option.not_isSome_iff_eq_none.mp hname, hsz⟩, hmode⟩
  have htop : (Creation.buffer name sz nb disc).top k
      = (k.commBase + nb * (sz + commMsgSize) % wordSize) % wordSize :=
    (Nat.add_mod_mod _ _ _).symm
  simp only [bufferAlloc] at h
  rcases partCommAlloc_cases k.curPart (nb * (sz + commMsgSize) % wordSize) k.mem with
    ⟨hlim, halloc⟩ | ⟨hlim, halloc⟩
  · rw [halloc] at h
    rw [← Except.ok.inj h]
    refine .refused (fun hc => ?_) rfl rfl
    rw [htop] at hc
    exact absurd hc.2 (Nat.not_lt.mpr hlim)
  · rw [halloc] at h
    rw [← Except.ok.inj h]
    refine .made hchecked (htop ▸ hlim) rfl ?_
    rw [htop]
    simp [Kernel.commBase, registerBuffer, Mem.updPart]

theorem creates_blackboard {s s' : Storage} {name : String} {sz : Nat}
    (h : create s (.blackboard name sz) = .ok s') : Creates s (.blackboard name sz) s' := by
  obtain ⟨k, made⟩ := s
  simp only [create, Creation.call, doCreateBlackboard] at h
  split at h
  · rename_i hname
    rw [← Except.ok.inj h]
    refine .refused (fun hc => ?_) rfl rfl
    rw [hc.1.1.1] at hname
    exact absurd hname (by simp)
  split at h
  · rename_i hsz
    rw [← Except.ok.inj h]
    exact .refused (fun hc => hc.1.1.2 hsz) rfl rfl
  split at h
  · rename_i hmode
    rw [← Except.ok.inj h]
    exact .refused (fun hc => hc.1.2 hmode) rfl rfl
  rename_i hname hsz hmode
  -- past the checks only the room in the area decides
  have hchecked : (Creation.blackboard name sz).Checked k :=
    ⟨⟨Option.not_isSome_iff_eq_none.mp hname, hsz⟩, hmode⟩
  simp only [blackboardAlloc] at h
  rcases partCommAlloc_cases k.curPart sz k.mem with ⟨hlim, halloc⟩ | ⟨hlim, halloc⟩
  · rw [halloc] at h
    rw [← Except.ok.inj h]
    exact .refused (fun hc => absurd hc.2 (Nat.not_lt.mpr hlim)) rfl rfl
  · rw [halloc] at h
    rw [← Except.ok.inj h]
    refine .made hchecked hlim rfl ?_
    simp [Kernel.commBase, registerBlackboard, Mem.updPart, Creation.top, Creation.extent]

theorem creates {s s' : Storage} {c : Creation} (h : create s c = .ok s') : Creates s c s' := by
  cases c with
  | buffer name sz nb disc => exact creates_buffer h
  | blackboard name sz => exact creates_blackboard h

/-- The sum of base and extent wraps to an address below the limit, and nothing else refuses the
call. -/
def Creation.Wraps (k : Kernel) (c : Creation) : Prop :=
  c.Checked k ∧ wordSize ≤ k.commBase + c.extent ∧ c.top k < commLimt

/-- The ranges of the objects of the partition are apart and inside its communication area. -/
def Storage.Apart (s : Storage) : Prop := Separate s.made commBase commLimt

/-- The ranges were laid one after the other up to the bump pointer. -/
structure Storage.Inv (s : Storage) : Prop where
  laid : Laid s.made Jrinx.commBase s.kernel.commBase
  lt : s.kernel.commBase < commLimt

theorem commLimt_lt_wordSize : commLimt < wordSize := by
  rw [wordSize_eq]
  decide

theorem Storage.Inv.apart {s : Storage} (h : s.Inv) : s.Apart := h.laid.separate h.lt.le

theorem Storage.Inv.create {s s' : Storage} {c : Creation} (hi : s.Inv)
    (hok : ¬ c.Wraps s.kernel) (h : create s c = .ok s') : s'.Inv := by
  rcases creates h with ⟨-, hmade, hbase⟩ | ⟨hchecked, hfits, hmade, hbase⟩
  · constructor
    · rw [hmade, hbase]
      exact hi.laid
    · rw [hbase]
      exact hi.lt
  · -- without a wrap the pointer is the end of the new range
    have hlt : s.kernel.commBase + c.extent < wordSize := by
      by_contra hle
      exact hok ⟨hchecked, Nat.le_of_not_lt hle, hfits⟩
    have htop : c.top s.kernel = s.kernel.commBase + c.extent := Nat.mod_eq_of_lt hlt
    constructor
    · rw [hmade, hbase, htop]
      exact hi.laid.snoc c.extent
    · rw [hbase]
      exact hfits

/-- A call whose sum wraps makes an object that reaches beyond the area. -/
theorem Storage.Inv.not_apart {s s' : Storage} {c : Creation} (hi : s.Inv)
    (hwraps : c.Wraps s.kernel) (h : Jrinx.create s c = .ok s') : ¬ s'.Apart := by
  rcases creates h with ⟨hwhy, -, -⟩ | ⟨-, -, hmade, -⟩
  · exact absurd ⟨hwraps.1, hwraps.2.2⟩ hwhy
  · have hlt := hi.lt
    have hword := commLimt_lt_wordSize
    have hwrap := hwraps.2.1
    unfold Storage.Apart
    rw [hmade]
    apply not_separate_of_lt (r := ⟨s.kernel.commBase, c.extent⟩) (by simp)
    · exact hlt.le
    · show commLimt < s.kernel.commBase + c.extent
      omega

/-! ## Channels -/

/-- `enum channel_type`. -/
inductive ChannelType where
  | sampling
  | queuing
  deriving DecidableEq, Repr

/-- `struct channel_conf`, whose medium is always memory. -/
structure ChannelConf where
  ccType : ChannelType
  ccPortNames : List String
  deriving DecidableEq, Repr

/-- The configuration that `queuing_port_conf_chan` finds. -/
def portConf (k : Kernel) (name : String) : Option QueuingPortConf :=
  k.portConfs.find? (fun qpc => qpc.qpcName = name)

/-- The bytes of a channel with the sizes of a port, in unbounded integers. -/
def QueuingPortConf.extent (qpc : QueuingPortConf) : Nat :=
  qpc.qpcMaxNbMsg * (qpc.qpcMaxMsgSize + commMsgSize)

/-- The bytes that the slots of a channel take, in unbounded integers. -/
def Channel.extent (ch : Channel) : Nat := ch.chMaxNbMsg * (ch.chMaxMsgSize + commMsgSize)

/-- Set the channel of the first configuration with this name. -/
def setConfChan (name : String) (ch : ChanId) : List QueuingPortConf → List QueuingPortConf
  | [] => []
  | qpc :: l =>
      if qpc.qpcName = name then { qpc with qpcChannel := some ch } :: l
      else qpc :: setConfChan name ch l

/-- `queuing_port_conf_chan`: the sizes of the configuration become those of the channel. -/
def queuingPortConfChan (k : Kernel) (name : String) (ch : ChanId) : Except Fault Kernel :=
  match portConf k name with
  | none => .error .panic
  | some qpc => .ok
      { k with
        portConfs := setConfChan name ch k.portConfs
        chans := Function.update k.chans ch
          { k.chans ch with chMaxMsgSize := qpc.qpcMaxMsgSize, chMaxNbMsg := qpc.qpcMaxNbMsg } }

/-- The loop of `channel_create` over the names of the ports. -/
def queuingPortConfChans (ch : ChanId) : List String → Kernel → Except Fault Kernel
  | [], k => .ok k
  | name :: l, k =>
      match queuingPortConfChan k name ch with
      | .error f => .error f
      | .ok k => queuingPortConfChans ch l k

/-- `channel_create`, for the channel `ch`. The boot stops at an error. The pointer wraps and is not
compared with `CHAN_LIMT`. -/
def channelCreate (k : Kernel) (ch : ChanId) (cc : ChannelConf) : Except Fault Kernel :=
  match cc.ccType with
  | .sampling => .error .panic
  | .queuing =>
      let blank : Channel :=
        { chMaxMsgSize := 0, chMaxNbMsg := 0, chBody := circbufInit (fun _ => 0) 0 0,
          chWaitingProcs := [] }
      match queuingPortConfChans ch cc.ccPortNames { k with chans := Function.update k.chans ch blank } with
      | .error f => .error f
      | .ok k =>
          if cc.ccPortNames.length ≠ 2 then .error .panic
          else
            let c := k.chans ch
            .ok
              { k with
                chans := Function.update k.chans ch
                  { c with
                    chBody := circbufInit (fun _ => 0) ((c.chMaxMsgSize + commMsgSize) % wordSize)
                      c.chMaxNbMsg
                    chWaitingProcs := [] }
                mem := { k.mem with
                  channelBase := (k.mem.channelBase + (c.chMaxMsgSize + commMsgSize) * c.chMaxNbMsg)
                    % wordSize } }

/-- One entry of the channel table; the range of the new channel is computed from its sizes without
wrap-around. -/
def addChannel (s : Storage) (cc : ChannelConf) : Except Fault Storage :=
  (channelCreate s.kernel s.made.length cc).map fun k =>
    ⟨k, s.made ++ [⟨s.kernel.mem.channelBase, (k.chans s.made.length).extent⟩]⟩

/-- The extent that the configuration of a port gives its channel. -/
def portExtent (k : Kernel) (name : String) : Option Nat :=
  (portConf k name).map QueuingPortConf.extent

/-- The extent of the channel of a table entry: that of its last port. -/
def ChannelConf.extent (k : Kernel) (cc : ChannelConf) : Nat :=
  (cc.ccPortNames.getLast?.bind (portExtent k)).getD 0

theorem find?_setConfChan (name name' : String) (ch : ChanId) (l : List QueuingPortConf) :
    ((setConfChan name ch l).find? (fun qpc => qpc.qpcName = name')).map QueuingPortConf.extent =
      (l.find? (fun qpc => qpc.qpcName = name')).map QueuingPortConf.extent := by
  induction l with
  | nil => rfl
  | cons qpc l ih =>
      rw [setConfChan]
      split
      · by_cases hn : qpc.qpcName = name'
        · simp [hn, QueuingPortConf.extent]
        · simp [hn]
      · by_cases hn : qpc.qpcName = name'
        · simp [hn]
        · simp only [List.find?_cons, hn, decide_false]
          exact ih

/-- What the loop over the port names does: the sizes of the last port become those of the channel. -/
structure Confs (ch : ChanId) (l : List String) (k k' : Kernel) : Prop where
  mem : k'.mem = k.mem
  extents : ∀ name, portExtent k' name = portExtent k name
  last : ∀ name, l.getLast? = some name → portExtent k name = some (k'.chans ch).extent

theorem confs_of_queuingPortConfChan {k k' : Kernel} {name : String} {ch : ChanId}
    (h : queuingPortConfChan k name ch = .ok k') : Confs ch [name] k k' := by
  unfold queuingPortConfChan at h
  split at h
  · exact absurd h (by simp)
  · rename_i qpc hqpc
    rw [← Except.ok.inj h]
    refine ⟨rfl, fun name' => find?_setConfChan name name' ch k.portConfs, ?_⟩
    intro name' hname
    rw [List.getLast?_singleton, Option.some.injEq] at hname
    simp [portExtent, ← hname, hqpc, QueuingPortConf.extent, Channel.extent]

theorem confs_of_queuingPortConfChans {ch : ChanId} {l : List String} {k k' : Kernel}
    (h : queuingPortConfChans ch l k = .ok k') : Confs ch l k k' := by
  induction l generalizing k with
  | nil =>
      rw [queuingPortConfChans, Except.ok.injEq] at h
      subst h
      exact ⟨rfl, fun _ => rfl, by simp⟩
  | cons name l ih =>
      rw [queuingPortConfChans] at h
      cases hone : queuingPortConfChan k name ch with
      | error f => simp [hone] at h
      | ok k₁ =>
          simp only [hone] at h
          have hfirst := confs_of_queuingPortConfChan hone
          have hrest := ih h
          refine ⟨hrest.mem.trans hfirst.mem,
            fun name' => (hrest.extents name').trans (hfirst.extents name'), ?_⟩
          intro name' hname
          cases l with
          | nil =>
              rw [queuingPortConfChans, Except.ok.injEq] at h
              subst h
              exact hfirst.last name' hname
          | cons b l =>
              rw [← hfirst.extents]
              exact hrest.last name' (by rw [← hname, List.getLast?_cons_cons])

/-- What `channel_create` does to the pointer, and the extent of the channel it makes. -/
theorem addChannel_eq_ok {s s' : Storage} {cc : ChannelConf} (h : addChannel s cc = .ok s') :
    s'.made = s.made ++ [⟨s.kernel.mem.channelBase, cc.extent s.kernel⟩] ∧
      s'.kernel.mem.channelBase =
        (s.kernel.mem.channelBase + cc.extent s.kernel) % wordSize := by
  obtain ⟨k, made⟩ := s
  simp only [addChannel] at h
  cases hc : channelCreate k made.length cc with
  | error f => simp [hc, Except.map] at h
  | ok k' =>
      rw [hc] at h
      rw [← Except.ok.inj h]
      unfold channelCreate at hc
      split at hc
      · exact absurd hc (by simp)
      dsimp only at hc
      split at hc
      · exact absurd hc (by simp)
      rename_i k₁ hloop
      split at hc
      · exact absurd hc (by simp)
      rename_i hlen
      rw [← Except.ok.inj hc]
      have hconfs := confs_of_queuingPortConfChans hloop
      -- two ports have a last one, which sets the sizes
      have hext : cc.extent k = (k₁.chans made.length).extent := by
        obtain ⟨a, b, hab⟩ := List.length_eq_two.mp (not_not.mp hlen)
        have hlast : portExtent k b = some (k₁.chans made.length).extent :=
          hconfs.last b (by simp [hab])
        simp [ChannelConf.extent, hab, hlast]
      constructor
      · simp [hext, Channel.extent]
      · rw [hext, hconfs.mem, Channel.extent, Nat.mul_comm]

/-- The ranges of the channels are apart and inside the channel area. -/
def Storage.ChansApart (s : Storage) : Prop := Separate s.made chanBase chanLimt

/-- The channel of the entry ends inside the channel area. -/
def ChannelConf.Fits (k : Kernel) (cc : ChannelConf) : Prop :=
  k.mem.channelBase + cc.extent k ≤ chanLimt

/-- The ranges were laid one after the other up to `channel_base`. -/
structure Storage.ChanInv (s : Storage) : Prop where
  laid : Laid s.made chanBase s.kernel.mem.channelBase
  le : s.kernel.mem.channelBase ≤ chanLimt

theorem Storage.ChanInv.apart {s : Storage} (h : s.ChanInv) : s.ChansApart :=
  h.laid.separate h.le

theorem chanLimt_lt_wordSize : chanLimt < wordSize := by
  rw [wordSize_eq]
  decide

theorem Storage.ChanInv.addChannel {s s' : Storage} {cc : ChannelConf} (hi : s.ChanInv)
    (hok : cc.Fits s.kernel) (h : addChannel s cc = .ok s') : s'.ChanInv := by
  obtain ⟨hmade, hbase⟩ := addChannel_eq_ok h
  have hlt : s.kernel.mem.channelBase + cc.extent s.kernel < wordSize :=
    Nat.lt_of_le_of_lt hok chanLimt_lt_wordSize
  rw [Nat.mod_eq_of_lt hlt] at hbase
  constructor
  · rw [hmade, hbase]
    exact hi.laid.snoc _
  · rw [hbase]
    exact hok

/-- A channel that does not fit is made all the same. -/
theorem Storage.ChanInv.not_apart {s s' : Storage} {cc : ChannelConf} (hi : s.ChanInv)
    (hnot : ¬ cc.Fits s.kernel) (h : Jrinx.addChannel s cc = .ok s') : ¬ s'.ChansApart := by
  obtain ⟨hmade, -⟩ := addChannel_eq_ok h
  unfold Storage.ChansApart
  rw [hmade]
  apply not_separate_of_lt (r := ⟨s.kernel.mem.channelBase, cc.extent s.kernel⟩) (by simp)
  · exact hi.le
  · exact Nat.lt_of_not_le hnot

/-! ## Runs -/

/-- **Message storage is apart and inside its area** in exactly those runs of creation calls of a
partition in which no sum of `pa_comm_base` and an extent wraps, and for exactly those channel tables
all of whose channels end below `CHAN_LIMT`. -/
theorem storage_separate_iff (k : Kernel) :
    (∀ (tr : List (Storage × Creation)) (s : Storage), k.commBase = commBase →
      Exec create ⟨k, []⟩ tr s →
      (Throughout Storage.Apart tr s ↔ AllSteps (fun s c => ¬ c.Wraps s.kernel) tr)) ∧
    (∀ (tr : List (Storage × ChannelConf)) (s : Storage),
      k.mem.channelBase = chanBase → Exec addChannel ⟨k, []⟩ tr s →
      (Throughout Storage.ChansApart tr s ↔ AllSteps (fun s cc => cc.Fits s.kernel) tr)) := by
  constructor
  · intro tr s hbase hrun
    -- the invariant goes on over the steps that do not wrap, and the first one that does breaks it
    apply hrun.forall_iff (I := Storage.Inv)
    · constructor
      · show Laid [] commBase k.commBase
        rw [hbase]
        exact Laid.nil commBase
      · show k.commBase < commLimt
        rw [hbase]
        decide
    · exact fun _ hi => hi.apart
    · exact fun _ _ _ hi hok h => hi.create hok h
    · exact fun _ _ _ hi hbad h => hi.not_apart (not_not.mp hbad) h
  · intro tr s hbase hrun
    apply hrun.forall_iff (I := Storage.ChanInv)
    · constructor
      · show Laid [] chanBase k.mem.channelBase
        rw [hbase]
        exact Laid.nil chanBase
      · show k.mem.channelBase ≤ chanLimt
        rw [hbase]
        decide
    · exact fun _ hi => hi.apart
    · exact fun _ _ _ hi hok h => hi.addChannel hok h
    · exact fun _ _ _ hi hbad h => hi.not_apart hbad h

/-- A partition in cold start without objects, and two ports in the configuration. -/
def coldSystem : Kernel :=
  { smallSystem 1 .fifo [1] with
    mem :=
      { Mem.none with
        channelBase := chanBase
        parts := fun _ => { PartMem.blank with paCommBase := commBase } }
    parts := fun pt =>
      { (smallSystem 1 .fifo [1]).parts pt with paOpMode := .coldStart, paBufs := [] }
    portConfs := [⟨"out", "part", .source, 8, 2, none⟩, ⟨"in", "part", .destination, 8, 2, none⟩] }

/-- The product of count and slot size is the word size: the buffer is given no byte at all. -/
theorem storage_not_separate : ¬ ∀ (k : Kernel) (tr : List (Storage × Creation)) (s : Storage),
    k.commBase = commBase → Exec create ⟨k, []⟩ tr s → Throughout Storage.Apart tr s := by
  intro hall
  obtain ⟨s, hrun, hmade⟩ := Exec.of_checkRun create ⟨coldSystem, []⟩
    [.buffer "wide" (2 ^ 63 - 8) 2 .fifo] (fun s => s.made = [⟨commBase, 2 ^ 64⟩])
    (by decide +kernel)
  have hapart := (hall coldSystem _ s rfl hrun).2
  have hmade' : s.made = [⟨commBase, 2 ^ 64⟩] := of_decide_eq_true hmade
  refine not_separate_of_lt (r := ⟨commBase, 2 ^ 64⟩) (by rw [hmade']; simp) ?_ ?_ hapart
  · decide
  · decide

/-- Two objects of ordinary size, and one channel. -/
theorem storage_separate_iff_ordinary :
    ∃ tr s tr' s', Exec create ⟨coldSystem, []⟩ tr s ∧ Exec addChannel ⟨coldSystem, []⟩ tr' s' ∧
      s.made.length = 2 ∧ s'.made.length = 1 ∧
      (Throughout Storage.Apart tr s ↔ AllSteps (fun s c => ¬ c.Wraps s.kernel) tr) ∧
      (Throughout Storage.ChansApart tr' s' ↔ AllSteps (fun s cc => cc.Fits s.kernel) tr') := by
  obtain ⟨s, hrun, hmade⟩ := Exec.of_checkRun create ⟨coldSystem, []⟩
    [.buffer "queue" 8 2 .fifo, .blackboard "board" 16] (fun s => s.made.length = 2)
    (by decide +kernel)
  obtain ⟨s', hrun', hmade'⟩ := Exec.of_checkRun addChannel ⟨coldSystem, []⟩
    [⟨.queuing, ["out", "in"]⟩] (fun s => s.made.length = 1) (by decide +kernel)
  exact ⟨_, s, _, s', hrun, hrun', of_decide_eq_true hmade, of_decide_eq_true hmade',
    (storage_separate_iff coldSystem).1 _ s rfl hrun,
    (storage_separate_iff coldSystem).2 _ s' rfl hrun'⟩

end Jrinx
