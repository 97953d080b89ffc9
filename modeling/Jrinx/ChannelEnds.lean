import Jrinx.PortConfs

/-! # The two ends of a channel

`channel_create` attaches two ports to a channel and keeps the sizes of the second; nothing compares their
directions or their sizes. The limit that `SEND_QUEUING_MESSAGE` enforces is that of the channel, the sizes
that the partitions passed when they created the ports are only compared with the configuration.

* **`EndsAgree`**, **`FitsEnds`** — the claimed agreement, for a state and for a step of a run.
* **`ChannelsAgree`** — the configurations in which the ends agree.
* **`channel_ends_agree`** — in every run after such a boot. -/

namespace Jrinx

/-! ## The agreement -/

/-- The blocking call that a step works on. -/
def Event.commCall (k : Kernel) : Event → Option CommCall
  | .call _ s => s.commCall
  | .resume _ =>
      match (live k).bind k.conts with
      | some (.comm c _ _) => some c
      | _ => none
  | _ => none

/-- The port that a call sends through. -/
def CommCall.sendPort : CommCall → Option PortId
  | .sendQueuingMessage port _ _ _ => some port
  | _ => none

/-- The port that a call receives through. -/
def CommCall.recvPort : CommCall → Option PortId
  | .receiveQueuingMessage port _ _ => some port
  | _ => none

/-- The step accepts a message of `len` bytes from the port. -/
def Accepted (k : Kernel) (e : Event) (port : PortId) (len : Nat) : Prop :=
  (e.commCall k).bind CommCall.sendPort = some port ∧
    ∃ data, queueOp k e (.channel (k.ports port).qpChannel) = some (.enq (len, data))

/-- The step copies a message of `len` bytes to the caller, through the port. -/
def Copied (k : Kernel) (e : Event) (port : PortId) (len : Nat) : Prop :=
  (e.commCall k).bind CommCall.recvPort = some port ∧
    ∃ data, queueOp k e (.channel (k.ports port).qpChannel) = some (.deq (len, data))

/-- The port that a step creates, with the `max_message_size` of the call. -/
def Event.madePort (k : Kernel) (e : Event) : Option (PortId × Nat) :=
  match e, segment k e with
  | .call _ (.createQueuingPort _ s _ _ _), some (_, .ok (.ret .noError (.identifier port), _)) =>
      some (port, s)
  | _, _ => none

/-- The ports that were created in a run, with their `max_message_size`. -/
def madePorts (tr : List (Kernel × Event)) : List (PortId × Nat) :=
  tr.filterMap fun x => x.2.madePort x.1

/-- The entries attached to the channel are one of a source and one of a destination. -/
def Joins (k : Kernel) (ch : ChanId) : Prop :=
  ∃ src ∈ k.portConfs, ∃ dst ∈ k.portConfs, src.qpcDir = .source ∧ dst.qpcDir = .destination ∧
    ∀ qpc ∈ k.portConfs, qpc.qpcChannel = some ch ↔ qpc = src ∨ qpc = dst

/-- **The ends agree** after the run `tr`: each of the `n` channels joins a source and a destination, and
no two ports that were created are the same end of a channel. -/
structure EndsAgree (n : ℕ) (tr : List (Kernel × Event)) (k : Kernel) : Prop where
  joins : ∀ ch < n, Joins k ch
  alone : ∀ port s port' s', (port, s) ∈ madePorts tr → (port', s') ∈ madePorts tr →
    (k.ports port).qpChannel = (k.ports port').qpChannel → (k.ports port).qpDir = (k.ports port').qpDir →
    port = port'

/-- **The message fits both ends**: what the step accepts or copies after the run `pre` is no longer than
the size its port was created with. -/
structure FitsEnds (pre : List (Kernel × Event)) (k : Kernel) (e : Event) : Prop where
  accepted : ∀ port s len, (port, s) ∈ madePorts pre → Accepted k e port len → len ≤ s
  copied : ∀ port s len, (port, s) ∈ madePorts pre → Copied k e port len → len ≤ s

/-- The row joins a source and a destination, the storage of the channel does not wrap, and all entries
with the name of one of its ports are of the same end and of at least the size of the channel. -/
def RowAgrees (qpcs : List QueuingPortConf) (cc : ChannelConf) : Prop :=
  ∃ a b qa qb, cc.ccPortNames = [a, b] ∧ newest qpcs a = some qa ∧ newest qpcs b = some qb ∧
    qa.qpcDir ≠ qb.qpcDir ∧ qb.extent < wordSize ∧
    (∀ qpc ∈ qpcs, qpc.qpcName = a → qpc.qpcDir = qa.qpcDir ∧ qb.qpcMaxMsgSize ≤ qpc.qpcMaxMsgSize) ∧
    ∀ qpc ∈ qpcs, qpc.qpcName = b → qpc.qpcDir = qb.qpcDir ∧ qb.qpcMaxMsgSize ≤ qpc.qpcMaxMsgSize

/-- **The configuration agrees**: no port is attached twice, and every row agrees. -/
structure ChannelsAgree (qpcs : List QueuingPortConf) (tbl : List ChannelConf) : Prop where
  once : (tbl.flatMap ChannelConf.ccPortNames).Nodup
  rows : ∀ cc ∈ tbl, RowAgrees qpcs cc

/-! ## The boot -/

variable {k k' : Kernel} {qpcs : List QueuingPortConf} {tbl : List ChannelConf} {ch : ChanId}

/-- After the rows of `tbl`: the names of a row find entries with its channel, which has the sizes of the
second, and no other entry has a channel. -/
structure RowsBooted (tbl : List ChannelConf) (k : Kernel) : Prop where
  entry : ∀ (i : ℕ) (cc : ChannelConf), tbl[i]? = some cc → ∀ name ∈ cc.ccPortNames,
    ∃ qpc, portConf k name = some qpc ∧ qpc.qpcChannel = some i
  chan : ∀ (i : ℕ) (cc : ChannelConf) (a b : String), tbl[i]? = some cc → cc.ccPortNames = [a, b] →
    ∃ qpc, portConf k b = some qpc ∧ (k.chans i).chMaxMsgSize = qpc.qpcMaxMsgSize ∧
      (k.chans i).chMaxNbMsg = qpc.qpcMaxNbMsg ∧ FreshQue k (.channel i)
  only : ∀ qpc ∈ k.portConfs, ∀ i, qpc.qpcChannel = some i →
    ∃ cc, tbl[i]? = some cc ∧ qpc.qpcName ∈ cc.ccPortNames

theorem RowsBooted.channelCreate {cc : ChannelConf} (h : RowsBooted tbl k)
    (hnodup : ((tbl ++ [cc]).flatMap ChannelConf.ccPortNames).Nodup)
    (hc : channelCreate k tbl.length cc = .ok k') : RowsBooted (tbl ++ [cc]) k' := by
  obtain ⟨a, b, qpc, hab, hsome, hfind, rfl⟩ := channelCreate_eq_ok hc
  rw [List.flatMap_append, List.flatMap_singleton, hab] at hnodup
  obtain ⟨-, hpair, hdisj⟩ := List.nodup_append.mp hnodup
  have hne : a ≠ b := by simpa using hpair
  -- the names of a channel are not those of the earlier channels
  have hold : ∀ {i : ℕ} {c : ChannelConf}, tbl[i]? = some c → ∀ name ∈ c.ccPortNames,
      name ≠ a ∧ name ≠ b := by
    intro i c hi name hname
    have hmem : name ∈ tbl.flatMap ChannelConf.ccPortNames :=
      List.mem_flatMap.mpr ⟨c, List.mem_of_getElem? hi, hname⟩
    exact ⟨hdisj _ hmem _ (by simp), hdisj _ hmem _ (by simp)⟩
  obtain ⟨qa, hqa⟩ := Option.isSome_iff_exists.mp hsome
  rw [portConf] at hqa
  -- both entries of the channel get its index
  have hlookup : ∀ name, (setConfChan b tbl.length (setConfChan a tbl.length k.portConfs)).find?
      (fun qpc => qpc.qpcName = name) =
        if name = b then some { qpc with qpcChannel := some tbl.length }
        else if name = a then some { qa with qpcChannel := some tbl.length }
        else k.portConfs.find? (fun qpc => qpc.qpcName = name) := by
    intro name
    rw [find?_setConfChan_eq, hfind, Option.map_some]
    split
    · rfl
    · rw [find?_setConfChan_eq, hqa, Option.map_some]
  -- the last row is the new one
  have hcases : ∀ {i : ℕ} {c : ChannelConf}, (tbl ++ [cc])[i]? = some c →
      tbl[i]? = some c ∧ i ≠ tbl.length ∨ i = tbl.length ∧ c = cc := by
    intro i c hi
    rcases Nat.lt_trichotomy i tbl.length with hlt | rfl | hgt
    · rw [List.getElem?_append_left hlt] at hi
      exact Or.inl ⟨hi, hlt.ne⟩
    · rw [List.getElem?_concat_length, Option.some.injEq] at hi
      exact Or.inr ⟨rfl, hi.symm⟩
    · rw [List.getElem?_eq_none (by simpa using Nat.succ_le_of_lt hgt)] at hi
      exact absurd hi (by simp)
  refine ⟨fun i c hi name hname => ?_, fun i c a' b' hi hab' => ?_, fun q hq i hqi => ?_⟩
  · rcases hcases hi with ⟨hi', -⟩ | ⟨rfl, rfl⟩
    · obtain ⟨hna, hnb⟩ := hold hi' name hname
      obtain ⟨q, hq, hqch⟩ := h.entry i c hi' name hname
      exact ⟨q, by rw [portConf, hlookup, if_neg hnb, if_neg hna]; exact hq, hqch⟩
    · rw [hab] at hname
      rcases List.mem_pair.mp hname with rfl | rfl
      · exact ⟨_, by rw [portConf, hlookup, if_neg hne, if_pos rfl], rfl⟩
      · exact ⟨_, by rw [portConf, hlookup, if_pos rfl], rfl⟩
  · rcases hcases hi with ⟨hi', hni⟩ | ⟨rfl, rfl⟩
    · obtain ⟨hna, hnb⟩ := hold hi' b' (by simp [hab'])
      obtain ⟨q, hq, hsize, hnb', hfresh⟩ := h.chan i c a' b' hi' hab'
      refine ⟨q, by rw [portConf, hlookup, if_neg hnb, if_neg hna]; exact hq, ?_⟩
      simp only [FreshQue, Kernel.body, Kernel.maxMsgSize, Kernel.maxNbMsg] at hfresh ⊢
      simp only [Function.update_of_ne hni]
      exact ⟨hsize, hnb', hfresh⟩
    · obtain ⟨rfl, rfl⟩ : a = a' ∧ b = b' := by simpa [hab] using hab'
      refine ⟨_, by rw [portConf, hlookup, if_pos rfl], ?_⟩
      simp [FreshQue, Kernel.body, Kernel.maxMsgSize, Kernel.maxNbMsg]
  · have hnew : (tbl ++ [cc])[tbl.length]? = some cc := by simp
    -- an entry with a channel had it before, or it is one of the two
    rcases mem_of_mem_setConfChan hq with hq | ⟨hname, hch⟩
    · rcases mem_of_mem_setConfChan hq with hq | ⟨hname, hch⟩
      · obtain ⟨c, hc, hmem⟩ := h.only q hq i hqi
        have hlt : i < tbl.length := (List.getElem?_eq_some_iff.mp hc).1
        exact ⟨c, by rw [List.getElem?_append_left hlt, hc], hmem⟩
      · obtain rfl := Option.some.inj (hch.symm.trans hqi)
        exact ⟨cc, hnew, by simp [hab, hname]⟩
    · obtain rfl := Option.some.inj (hch.symm.trans hqi)
      exact ⟨cc, hnew, by simp [hab, hname]⟩

theorem RowsBooted.channelsCreate {tbl rest : List ChannelConf} (h : RowsBooted tbl k)
    (hnodup : ((tbl ++ rest).flatMap ChannelConf.ccPortNames).Nodup)
    (hc : channelsCreate k tbl.length rest = .ok k') : RowsBooted (tbl ++ rest) k' := by
  induction rest generalizing k tbl with
  | nil =>
      rw [← Except.ok.inj hc, List.append_nil]
      exact h
  | cons cc rest ih =>
      rw [Jrinx.channelsCreate] at hc
      split at hc
      · exact absurd hc (by simp)
      rename_i k₁ hone
      have hsplit : tbl ++ cc :: rest = tbl ++ [cc] ++ rest := by simp
      rw [hsplit] at hnodup ⊢
      have hfirst : ((tbl ++ [cc]).flatMap ChannelConf.ccPortNames).Nodup := by
        rw [List.flatMap_append] at hnodup
        exact (List.nodup_append.mp hnodup).1
      exact ih (h.channelCreate hfirst hone) hnodup (by simpa using hc)

theorem rowsBooted_bootPorts {k₀ : Kernel} (h₀ : k₀.portConfs = [])
    (hnodup : (tbl.flatMap ChannelConf.ccPortNames).Nodup) (hboot : bootPorts k₀ qpcs tbl = .ok k) :
    RowsBooted tbl k := by
  have hnone : RowsBooted [] (qpcs.foldl queuingPortRegister k₀) := by
    refine ⟨?_, ?_, ?_⟩
    · exact fun i cc hi => absurd hi (by simp)
    · exact fun i cc a b hi => absurd hi (by simp)
    · intro qpc hqpc i hi
      rw [foldl_queuingPortRegister, h₀, List.append_nil] at hqpc
      obtain ⟨q, -, rfl⟩ := List.mem_map.mp (List.mem_reverse.mp hqpc)
      exact absurd hi (by simp [QueuingPortConf.bare])
  exact hnone.channelsCreate hnodup hboot

/-! ## The channels after the boot -/

/-- An entry of the list says what a registered one says. -/
theorem PortsBooted.mem_bare (h : PortsBooted qpcs k) {qpc : QueuingPortConf} (hmem : qpc ∈ k.portConfs) :
    ∃ q ∈ qpcs, q.bare = qpc.bare := by
  have hbare : qpc.bare ∈ k.portConfs.map QueuingPortConf.bare := List.mem_map_of_mem hmem
  rw [h.entries, List.mem_reverse] at hbare
  exact List.mem_map.mp hbare

theorem PortsBooted.newest_eq (h : PortsBooted qpcs k) {name : String} {qpc q : QueuingPortConf}
    (hfind : portConf k name = some qpc) (hnew : newest qpcs name = some q) : qpc.bare = q.bare := by
  have hbare := h.portConf_bare name
  rw [hfind, hnew] at hbare
  exact Option.some.inj hbare

theorem QueuingPortConf.eq_of_bare {qpc q : QueuingPortConf} (h : qpc.bare = q.bare) :
    qpc.qpcName = q.qpcName ∧ qpc.qpcDir = q.qpcDir ∧ qpc.qpcMaxMsgSize = q.qpcMaxMsgSize ∧
      qpc.qpcMaxNbMsg = q.qpcMaxNbMsg := by
  simp only [bare, mk.injEq, and_true] at h
  exact ⟨h.1, h.2.2.1, h.2.2.2.1, h.2.2.2.2⟩

/-- What the entries with a channel say: it is that of a row, which agrees with them. -/
structure ChannelBooted (k : Kernel) (ch : ChanId) : Prop where
  joins : Joins k ch
  fresh : FreshQue k (.channel ch)
  storage : k.maxNbMsg (.channel ch) * (k.maxMsgSize (.channel ch) + commMsgSize) < wordSize
  /-- An entry with the name of an attached one is of the same end, and not of a smaller size. -/
  agree : ∀ qpc ∈ k.portConfs, qpc.qpcChannel = some ch → ∀ q ∈ k.portConfs, q.qpcName = qpc.qpcName →
    q.qpcDir = qpc.qpcDir ∧ k.maxMsgSize (.channel ch) ≤ q.qpcMaxMsgSize

theorem channelBooted (hp : PortsBooted qpcs k) (hr : RowsBooted tbl k) {cc : ChannelConf}
    (hi : tbl[ch]? = some cc) (hrow : RowAgrees qpcs cc) : ChannelBooted k ch := by
  obtain ⟨a, b, na, nb, hab, hna, hnb, hdir, hstorage, hsa, hsb⟩ := hrow
  obtain ⟨qa, hqa, hqach⟩ := hr.entry ch cc hi a (by simp [hab])
  obtain ⟨qb, hqb, hqbch⟩ := hr.entry ch cc hi b (by simp [hab])
  obtain ⟨qb', hqb', hsize, hcount, hfresh⟩ := hr.chan ch cc a b hi hab
  obtain rfl : qb = qb' := Option.some.inj (hqb.symm.trans hqb')
  obtain ⟨-, hdira, -, -⟩ := QueuingPortConf.eq_of_bare (hp.newest_eq hqa hna)
  obtain ⟨-, hdirb, hsizeb, hcountb⟩ := QueuingPortConf.eq_of_bare (hp.newest_eq hqb hnb)
  have hma : qa ∈ k.portConfs := List.mem_of_find?_eq_some hqa
  have hmb : qb ∈ k.portConfs := List.mem_of_find?_eq_some hqb
  have hnamea : qa.qpcName = a := by simpa using List.find?_some hqa
  have hnameb : qb.qpcName = b := by simpa using List.find?_some hqb
  -- the channel belongs to these two entries and to no other
  have honly : ∀ qpc ∈ k.portConfs, qpc.qpcChannel = some ch ↔ qpc = qa ∨ qpc = qb := by
    intro qpc hmem
    constructor
    · intro hch
      obtain ⟨c, hc, hname⟩ := hr.only qpc hmem ch hch
      obtain rfl : cc = c := Option.some.inj (hi.symm.trans hc)
      have hfind := hp.shadowed.find?_eq hmem (by simp [hch])
      rw [hab] at hname
      rcases List.mem_pair.mp hname with heq | heq
      · rw [heq] at hfind
        exact Or.inl (Option.some.inj (hfind.symm.trans hqa))
      · rw [heq] at hfind
        exact Or.inr (Option.some.inj (hfind.symm.trans hqb))
    · rintro (rfl | rfl)
      · exact hqach
      · exact hqbch
  refine ⟨?_, hfresh, ?_, fun qpc hmem hch q hq hname => ?_⟩
  · cases hqadir : qa.qpcDir with
    | source =>
        have hb : qb.qpcDir = .destination := by
          cases hd : qb.qpcDir with
          | source => exact absurd (hdira.symm.trans (hqadir.trans (hd.symm.trans hdirb))) hdir
          | destination => rfl
        exact ⟨qa, hma, qb, hmb, hqadir, hb, honly⟩
    | destination =>
        have hb : qb.qpcDir = .source := by
          cases hd : qb.qpcDir with
          | source => rfl
          | destination => exact absurd (hdira.symm.trans (hqadir.trans (hd.symm.trans hdirb))) hdir
        exact ⟨qb, hmb, qa, hma, hb, hqadir, fun q hq => (honly q hq).trans or_comm⟩
  · show (k.chans ch).chMaxNbMsg * ((k.chans ch).chMaxMsgSize + commMsgSize) < wordSize
    rw [hsize, hcount, hsizeb, hcountb]
    exact hstorage
  · show q.qpcDir = qpc.qpcDir ∧ (k.chans ch).chMaxMsgSize ≤ q.qpcMaxMsgSize
    obtain ⟨r, hr', hrq⟩ := hp.mem_bare hq
    obtain ⟨hrname, hrdir, hrsize, -⟩ := QueuingPortConf.eq_of_bare hrq
    rw [hsize, hsizeb, ← hrdir, ← hrsize]
    rcases (honly qpc hmem).mp hch with rfl | rfl
    · rw [hdira]
      exact hsa r hr' (hrname.trans (hname.trans hnamea))
    · rw [hdirb]
      exact hsb r hr' (hrname.trans (hname.trans hnameb))

/-! ## Messages of a channel -/

/-- The channel has no slots, or it holds messages that fit. -/
def HoldsFitting (k : Kernel) (q : Que) : Prop :=
  (k.body q).ccCap = 0 ∧ (k.body q).ccCnt = 0 ∨ ∃ ms, CircbufHolds (k.body q) (k.maxMsgSize q) ms

theorem FreshQue.holds_of_storage {q : Que} (h : FreshQue k q)
    (hs : k.maxNbMsg q * (k.maxMsgSize q + commMsgSize) < wordSize) : HoldsFitting k q := by
  rcases Nat.eq_zero_or_pos (k.maxNbMsg q) with hzero | hpos
  · refine Or.inl ?_
    rw [FreshQue, hzero] at h
    rw [h]
    exact ⟨rfl, rfl⟩
  · have hsize : (k.maxMsgSize q + commMsgSize) % wordSize = k.maxMsgSize q + commMsgSize :=
      Nat.mod_eq_of_lt ((Nat.le_mul_of_pos_left _ hpos).trans_lt hs)
    rw [FreshQue, hsize] at h
    refine Or.inr ⟨[], ?_⟩
    rw [h]
    exact circbufHolds_init _ _ _ hpos hs

/-- **An operation keeps the messages, and moves only messages that fit.** -/
theorem HoldsFitting.didOp {q : Que} {op : Option (QueueOp Msg)} (h : HoldsFitting k q)
    (hop : DidOp q k op k') :
    HoldsFitting k' q ∧ ∀ m : Msg, op = some (.enq m) ∨ op = some (.deq m) → m.1 ≤ k.maxMsgSize q := by
  obtain ⟨⟨hmax, -⟩, hbody⟩ := hop
  rw [HoldsFitting, hmax]
  -- a message goes in where there is room, and one that comes out was put in
  cases op with
  | none =>
      rw [hbody]
      exact ⟨h, by simp⟩
  | some op =>
      cases op with
      | enq m =>
          obtain ⟨hfull, hlen, hfits, hbody⟩ := hbody
          rw [hbody]
          refine ⟨Or.inr ?_, fun m' hm' => ?_⟩
          · rcases h with ⟨hcap, hcnt⟩ | ⟨ms, hcc⟩
            · simp [circbufIsFull, hcap, hcnt] at hfull
            · have hroom : ms.length < (k.body q).ccCap := by
                refine lt_of_le_of_ne hcc.cnt_le fun heq => ?_
                rw [hcc.isFull_iff.mpr heq] at hfull
                exact absurd hfull (by simp)
              exact ⟨ms ++ [m.2], circbufHolds_commSend hcc (hlen ▸ hfits) hroom⟩
          · obtain rfl : m = m' := by simpa using hm'
            exact hfits
      | deq m =>
          obtain ⟨hempty, hm, hbody⟩ := hbody
          rcases h with ⟨hcap, hcnt⟩ | ⟨ms, hcc⟩
          · simp [circbufIsEmpty, hcnt] at hempty
          cases ms with
          | nil =>
              rw [hcc.isEmpty_iff.mpr rfl] at hempty
              exact absurd hempty (by simp)
          | cons m₀ ms =>
              obtain ⟨hfirst, hrest⟩ := circbufHolds_commRecv hcc
              rw [hbody]
              refine ⟨Or.inr ⟨ms, hrest⟩, fun m' hm' => ?_⟩
              obtain rfl : m = m' := by simpa using hm'
              rw [hm, hfirst]
              exact hcc.fits m₀ List.mem_cons_self
      | clear =>
          rw [hbody]
          refine ⟨?_, by simp⟩
          rcases h with ⟨hcap, -⟩ | ⟨ms, hcc⟩
          · exact Or.inl ⟨hcap, rfl⟩
          · exact Or.inr ⟨[], circbufHolds_reset hcc⟩

/-! ## Runs -/

/-- A port that was created, and the entry it was validated against. -/
structure MadePort (k : Kernel) (port : PortId) (s : ℕ) : Prop where
  known : port ∈ k.portIds
  valid : ∃ q ∈ k.portConfs, q.qpcName = (k.ports port).qpName ∧ q.qpcDir = (k.ports port).qpDir ∧
    q.qpcMaxMsgSize = s
  entry : ∃ q, portConf k (k.ports port).qpName = some q ∧
    q.qpcChannel = some (k.ports port).qpChannel

/-- The ports created so far are as they were made, with different names. -/
structure PortsMade (tr : List (Kernel × Event)) (k : Kernel) : Prop where
  made : ∀ port s, (port, s) ∈ madePorts tr → MadePort k port s
  once : ∀ port s port' s', (port, s) ∈ madePorts tr → (port', s') ∈ madePorts tr →
    (k.ports port).qpName = (k.ports port').qpName → port = port'

theorem madePorts_snoc (tr : List (Kernel × Event)) (k : Kernel) (e : Event) :
    madePorts (tr ++ [(k, e)]) = madePorts tr ++ (e.madePort k).toList := by
  rw [madePorts, List.filterMap_append]
  cases hm : e.madePort k <;> simp [madePorts, hm]

/-- A port that is there stays as it is. -/
theorem MadePort.extends {port : PortId} {s : ℕ} (h : MadePort k port s) (hext : Extends k k')
    (hconfs : k'.portConfs = k.portConfs) : MadePort k' port s := by
  obtain ⟨hmem, hport⟩ := hext.ports port h.known
  refine ⟨hmem, ?_, ?_⟩
  · rw [hconfs, hport]
    exact h.valid
  · rw [portConf, hconfs, hport]
    exact h.entry

/-- What a step that creates a port does. -/
theorem madePort_eq_some {e : Event} {port : PortId} {s : ℕ} (h : e.madePort k = some (port, s))
    (hstep : step k e = .ok k') :
    ∃ name c dir disc k₁, doCreateQueuingPort k name s c dir disc =
        .ok (.ret .noError (.identifier port), k₁) ∧ k'.portIds = k₁.portIds ∧ k'.ports = k₁.ports ∧
      k'.portConfs = k₁.portConfs := by
  unfold Event.madePort at h
  split at h
  · rename_i env name s' c dir disc p port' k₁ hseg
    simp only [Option.some.injEq, Prod.mk.injEq] at h
    obtain ⟨rfl, rfl⟩ := h
    obtain ⟨r, hr, hset⟩ := step_of_segment hseg hstep
    obtain rfl := Except.ok.inj hr
    obtain ⟨-, ⟨env', s', hev, -, ho⟩ | ⟨env', c', hev, -, -⟩⟩ := segment_eq_some hseg
    · obtain ⟨rfl, rfl⟩ := Event.call.inj hev
      exact ⟨name, c, dir, disc, k₁, ho.symm, by rw [← hset]; rfl, by rw [← hset]; rfl,
        by rw [← hset]; rfl⟩
    · exact absurd hev (by simp)
  · exact absurd h (by simp)

theorem PortsMade.step {tr : List (Kernel × Event)} {e : Event} (h : PortsMade tr k) (hr : Registered k)
    (hstep : Jrinx.step k e = .ok k') : PortsMade (tr ++ [(k, e)]) k' := by
  have hext := (hr.step hstep).2
  have hconfs := portConfs_of_path (step_path hr hstep)
  have hold : ∀ port s, (port, s) ∈ madePorts tr → MadePort k' port s := fun port s hm =>
    (h.made port s hm).extends hext hconfs
  cases hmade : e.madePort k with
  | none =>
      have hsame : madePorts (tr ++ [(k, e)]) = madePorts tr := by simp [madePorts_snoc, hmade]
      refine ⟨fun port s hm => hold port s (hsame ▸ hm), ?_⟩
      rw [hsame]
      intro port s port' s' hs hs' hname
      rw [(hext.ports port (h.made port s hs).known).2,
        (hext.ports port' (h.made port' s' hs').known).2] at hname
      exact h.once port s port' s' hs hs' hname
  | some x =>
      obtain ⟨new, s⟩ := x
      obtain ⟨name, c, dir, disc, k₁, hcreate, hids, hports, -⟩ := madePort_eq_some hmade hstep
      obtain ⟨d, qpc, ch, rfl, hvalid, hfresh, hfind, hch, rfl, rfl⟩ := doCreateQueuingPort_eq_ok hcreate
      have hnew : k'.ports k.nxtPortId =
          { qpName := name, qpPartId := k.curPart, qpDir := d, qpDisc := disc, qpChannel := ch } := by
        rw [hports]
        simp [registerPort]
      have hmem : ∀ port s', (port, s') ∈ madePorts (tr ++ [(k, e)]) →
          (port, s') ∈ madePorts tr ∨ port = k.nxtPortId ∧ s' = s := by
        intro port s' hm
        rw [madePorts_snoc, hmade] at hm
        simpa using hm
      -- no port that is there has the name of the new one
      have hother : ∀ port ∈ k.portIds, (k.ports port).qpName ≠ name := by
        intro port hp hname
        rw [queuingPortFromName, List.find?_eq_none] at hfresh
        exact hfresh port hp (by simpa using hname)
      refine ⟨fun port s' hm => ?_, ?_⟩
      · rcases hmem port s' hm with hm | ⟨rfl, rfl⟩
        · exact hold port s' hm
        · refine ⟨?_, ?_, ?_⟩
          · rw [hids]
            simp [registerPort]
          · rw [queuingPortConfValidate, List.any_eq_true] at hvalid
            obtain ⟨q, hq, hqv⟩ := hvalid
            simp only [Bool.and_eq_true, decide_eq_true_eq, Option.some.injEq] at hqv
            obtain ⟨⟨⟨⟨hdir, hsize⟩, -⟩, -⟩, hname⟩ := hqv
            rw [hnew, hconfs]
            exact ⟨q, hq, hname, hdir, hsize⟩
          · rw [hnew, portConf, hconfs]
            exact ⟨qpc, hfind, hch⟩
      · intro port s₁ port' s₂ hs₁ hs₂ hname
        rcases hmem port s₁ hs₁ with hm | ⟨rfl, -⟩
        · have hk := (h.made port s₁ hm).known
          rw [(hext.ports port hk).2] at hname
          rcases hmem port' s₂ hs₂ with hm' | ⟨rfl, -⟩
          · rw [(hext.ports port' (h.made port' s₂ hm').known).2] at hname
            exact h.once port s₁ port' s₂ hm hm' hname
          · rw [hnew] at hname
            exact absurd hname (hother port hk)
        · rw [hnew] at hname
          rcases hmem port' s₂ hs₂ with hm' | ⟨rfl, -⟩
          · have hk' := (h.made port' s₂ hm').known
            rw [(hext.ports port' hk').2] at hname
            exact absurd hname.symm (hother port' hk')
          · rfl

/-- The invariant of the runs after the boot. -/
structure ChansInv (k₀ : Kernel) (n : ℕ) (tr : List (Kernel × Event)) (k : Kernel) : Prop where
  registered : Registered k
  confs : k.portConfs = k₀.portConfs
  sizes : ∀ ch, (k.chans ch).chMaxMsgSize = (k₀.chans ch).chMaxMsgSize
  ports : PortsMade tr k
  holds : ∀ ch < n, HoldsFitting k (.channel ch)

theorem ChansInv.step {k₀ : Kernel} {n : ℕ} {tr : List (Kernel × Event)} {e : Event}
    (h : ChansInv k₀ n tr k) (hstep : Jrinx.step k e = .ok k') : ChansInv k₀ n (tr ++ [(k, e)]) k' where
  registered := (h.registered.step hstep).1
  confs := (portConfs_of_path (step_path h.registered hstep)).trans h.confs
  sizes ch := ((h.registered.step hstep).2.chMax ch).trans (h.sizes ch)
  ports := h.ports.step h.registered hstep
  holds ch hlt :=
    ((h.holds ch hlt).didOp (body_step h.registered hstep (q := .channel ch) trivial)).1

/-- What a port that was created has to do with its channel. -/
structure PortOf (k₀ : Kernel) (n : ℕ) (qp : QueuingPort) (s : ℕ) : Prop where
  lt : qp.qpChannel < n
  entry : ∃ q ∈ k₀.portConfs, q.qpcName = qp.qpName ∧ q.qpcChannel = some qp.qpChannel ∧
    q.qpcDir = qp.qpDir
  size : k₀.maxMsgSize (.channel qp.qpChannel) ≤ s

section Agree

variable {k₀ : Kernel} {tr : List (Kernel × Event)}

/-- What the boot establishes for every channel. -/
def AllBooted (k₀ : Kernel) (n : ℕ) : Prop :=
  (∀ ch < n, ChannelBooted k₀ ch) ∧
    ∀ qpc ∈ k₀.portConfs, ∀ ch, qpc.qpcChannel = some ch → ch < n

theorem AllBooted.portOf {n : ℕ} (h : AllBooted k₀ n) (hi : ChansInv k₀ n tr k) {port : PortId} {s : ℕ}
    (hm : (port, s) ∈ madePorts tr) : PortOf k₀ n (k.ports port) s := by
  obtain ⟨-, ⟨v, hv, hvname, hvdir, hvsize⟩, q, hfind, hch⟩ := hi.ports.made port s hm
  rw [hi.confs] at hv
  rw [portConf, hi.confs] at hfind
  have hmem : q ∈ k₀.portConfs := List.mem_of_find?_eq_some hfind
  have hname : q.qpcName = (k.ports port).qpName := by simpa using List.find?_some hfind
  have hlt := h.2 q hmem _ hch
  obtain ⟨hdir, hsize⟩ := (h.1 _ hlt).agree q hmem hch v hv (hvname.trans hname.symm)
  exact ⟨hlt, ⟨q, hmem, hname, hch, hdir.symm.trans hvdir⟩, hvsize ▸ hsize⟩

theorem AllBooted.endsAgree {n : ℕ} (h : AllBooted k₀ n) (hi : ChansInv k₀ n tr k) : EndsAgree n tr k where
  joins ch hlt := by
    rw [Joins, hi.confs]
    exact (h.1 ch hlt).joins
  alone port s port' s' hm hm' hchan hdir := by
    obtain ⟨hlt, ⟨q, hq, hname, hch, hqdir⟩, -⟩ := h.portOf hi hm
    obtain ⟨-, ⟨q', hq', hname', hch', hqdir'⟩, -⟩ := h.portOf hi hm'
    rw [← hchan] at hch'
    obtain ⟨src, hsrc, dst, hdst, hsdir, hddir, honly⟩ := (h.1 _ hlt).joins
    have hsame : q.qpcDir = q'.qpcDir := by rw [hqdir, hqdir', hdir]
    -- of the two entries of the channel, only one has this direction
    have heq : q = q' := by
      rcases (honly q hq).mp hch with rfl | rfl <;> rcases (honly q' hq').mp hch' with rfl | rfl
      · rfl
      · exact absurd (hsdir.symm.trans (hsame.trans hddir)) (by simp)
      · exact absurd (hddir.symm.trans (hsame.trans hsdir)) (by simp)
      · rfl
    exact hi.ports.once port s port' s' hm hm' (by rw [← hname, ← hname', heq])

theorem AllBooted.fitsEnds {n : ℕ} (h : AllBooted k₀ n) (hi : ChansInv k₀ n tr k) {e : Event}
    (hstep : Jrinx.step k e = .ok k') : FitsEnds tr k e := by
  have hfits : ∀ port s (m : Msg), (port, s) ∈ madePorts tr →
      (queueOp k e (.channel (k.ports port).qpChannel) = some (.enq m) ∨
        queueOp k e (.channel (k.ports port).qpChannel) = some (.deq m)) → m.1 ≤ s := by
    intro port s m hm hop
    obtain ⟨hlt, -, hsize⟩ := h.portOf hi hm
    have hdid := body_step hi.registered hstep (q := .channel (k.ports port).qpChannel) trivial
    have hmax := ((hi.holds _ hlt).didOp hdid).2 m hop
    have hsame : k.maxMsgSize (.channel (k.ports port).qpChannel) =
        k₀.maxMsgSize (.channel (k.ports port).qpChannel) := hi.sizes _
    exact (hsame ▸ hmax).trans hsize
  constructor
  · rintro port s len hm ⟨-, data, hop⟩
    exact hfits port s (len, data) hm (Or.inl hop)
  · rintro port s len hm ⟨-, data, hop⟩
    exact hfits port s (len, data) hm (Or.inr hop)

theorem allBooted (hp : PortsBooted qpcs k₀) (hr : RowsBooted tbl k₀) (hagree : ChannelsAgree qpcs tbl) :
    AllBooted k₀ tbl.length := by
  constructor
  · intro ch hlt
    have hi : tbl[ch]? = some tbl[ch] := List.getElem?_eq_getElem hlt
    exact channelBooted hp hr hi (hagree.rows _ (List.getElem_mem hlt))
  · intro qpc hq ch hch
    obtain ⟨cc, hcc, -⟩ := hr.only qpc hq ch hch
    exact (List.getElem?_eq_some_iff.mp hcc).1

theorem AllBooted.run {n : ℕ} (h : AllBooted k₀ n) (hr : Registered k₀) (hrun : Run k₀ tr k) :
    ChansInv k₀ n tr k := by
  induction hrun with
  | nil =>
      refine ⟨hr, rfl, fun _ => rfl, ⟨?_, ?_⟩, fun ch hlt =>
        (h.1 ch hlt).fresh.holds_of_storage (h.1 ch hlt).storage⟩
      · exact fun port s hm => absurd hm (by simp [madePorts])
      · exact fun port s port' s' hm => absurd hm (by simp [madePorts])
  | snoc _ hstep ih => exact ih.step hstep

end Agree

/-- The events can happen after the boot, and their trace passes the check. -/
def bootRun (qpcs : List QueuingPortConf) (tbl : List ChannelConf) (es : List Event)
    (check : List (Kernel × Event) → Bool) : Bool :=
  match bootPorts portSystem qpcs tbl with
  | .error _ => false
  | .ok k => checkRun step k es (fun _ => true) && check (traceEvents step k es)

theorem of_bootRun (qpcs : List QueuingPortConf) (tbl : List ChannelConf) (es : List Event)
    (check : List (Kernel × Event) → Bool) (h : bootRun qpcs tbl es check = true) :
    ∃ k k' tr, bootPorts portSystem qpcs tbl = .ok k ∧ Run k tr k' ∧ check tr = true := by
  unfold bootRun at h
  split at h
  · exact absurd h (by simp)
  · rename_i k hboot
    rw [Bool.and_eq_true] at h
    obtain ⟨k', hrun, -⟩ := Exec.of_checkRun step k es (fun _ => true) h.1
    exact ⟨k, k', _, hboot, hrun, h.2⟩

/-- The process `1` creates a destination for `size` bytes and a source for eight, sends eight bytes and
receives them. -/
def sendEight (size : ℕ) : List Event :=
  let env : Env := ⟨fun _ => 0, fun _ => 0⟩
  [.call env (.createQueuingPort "in" size 2 (some .destination) .fifo),
    .call env (.createQueuingPort "out" 8 2 (some .source) .fifo),
    .call env (.sendQueuingMessage 2 0 8 0), .call env (.receiveQueuingMessage 1 0 0)]

/-- The ports for it. -/
def inOut (size : ℕ) : List QueuingPortConf :=
  [⟨"in", "front", .destination, size, 2, none⟩, ⟨"out", "front", .source, 8, 2, none⟩]

/-- In the last step the port `1`, made for four bytes, receives eight. -/
def overruns (tr : List (Kernel × Event)) : Bool :=
  tr.getLast?.any fun x => decide ((1, 4) ∈ madePorts tr.dropLast ∧
    (Event.commCall x.1 x.2).bind CommCall.recvPort = some 1 ∧
    queueOp x.1 x.2 (.channel (x.1.ports 1).qpChannel) = some (.deq (8, List.replicate 8 0)))

end Jrinx
