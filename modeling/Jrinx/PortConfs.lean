import Jrinx.Delivery
import Jrinx.Storage

/-! # The configuration of the queuing ports

At boot the ports are entered into one list, newest first, and the channels are created from it:
`kern/chan/queuing.c`, and the two loops of `kern/lib/bootargs.c` over the decoded tables. The list is
searched by three functions that do not look at the same fields.

* **`bootPorts`** — the ports are registered, then the channels are created.
* **`PortsBooted`** — the list after it: an entry that has a channel is the newest of its name.
* **`port_attached_iff`** — the calls of `CREATE_QUEUING_PORT` that yield a port on the channel of an entry
  of its own partition. -/

namespace Jrinx

/-! ## The boot -/

/-- `queuing_port_register`. -/
def queuingPortRegister (k : Kernel) (qpc : QueuingPortConf) : Kernel :=
  { k with portConfs := { qpc with qpcChannel := none } :: k.portConfs }

/-- The loop of `do_channel_create` over the decoded table; the entry at the position `i` makes the
channel `i`. -/
def channelsCreate (k : Kernel) (i : Nat) : List ChannelConf → Except Fault Kernel
  | [] => .ok k
  | cc :: tbl =>
      match channelCreate k i cc with
      | .error f => .error f
      | .ok k => channelsCreate k (i + 1) tbl

/-- The ports of the boot arguments, then the channels. -/
def bootPorts (k : Kernel) (qpcs : List QueuingPortConf) (tbl : List ChannelConf) :
    Except Fault Kernel :=
  channelsCreate (qpcs.foldl queuingPortRegister k) 0 tbl

/-! ## The list -/

/-- An entry without its channel: what the configuration says. -/
def QueuingPortConf.bare (qpc : QueuingPortConf) : QueuingPortConf := { qpc with qpcChannel := none }

/-- The entry registered last under a name. -/
def newest (qpcs : List QueuingPortConf) (name : String) : Option QueuingPortConf :=
  qpcs.reverse.find? (fun qpc => qpc.qpcName = name)

/-- Only the newest entry of a name has a channel. -/
def Shadowed (l : List QueuingPortConf) : Prop :=
  l.Pairwise fun qpc qpc' => qpc.qpcName = qpc'.qpcName → qpc'.qpcChannel = none

variable {name name' : String} {ch : ChanId} {l : List QueuingPortConf} {k k' : Kernel}

theorem map_bare_setConfChan (name : String) (ch : ChanId) (l : List QueuingPortConf) :
    (setConfChan name ch l).map QueuingPortConf.bare = l.map QueuingPortConf.bare := by
  induction l with
  | nil => rfl
  | cons qpc l ih =>
      rw [setConfChan]
      split
      · simp [QueuingPortConf.bare]
      · rw [List.map_cons, ih, List.map_cons]

/-- The entry that a name finds gets the channel, and no other name finds another entry than before. -/
theorem find?_setConfChan_eq (name name' : String) (ch : ChanId) (l : List QueuingPortConf) :
    (setConfChan name ch l).find? (fun qpc => qpc.qpcName = name') =
      if name' = name then
        (l.find? (fun qpc => qpc.qpcName = name)).map fun qpc => { qpc with qpcChannel := some ch }
      else l.find? (fun qpc => qpc.qpcName = name') := by
  induction l with
  | nil => simp [setConfChan]
  | cons qpc l ih =>
      rw [setConfChan]
      by_cases hname : qpc.qpcName = name
      · by_cases heq : name' = name
        · simp [hname, heq]
        · have hne : ¬ name = name' := fun h => heq h.symm
          simp [hname, heq, hne]
      · rw [if_neg hname]
        by_cases heq : qpc.qpcName = name'
        · have hne : ¬ name' = name := fun h => hname (heq.trans h)
          simp [heq, hne]
        · rw [List.find?_cons_of_neg (by simpa using heq), ih, List.find?_cons_of_neg (by simpa using hname),
            List.find?_cons_of_neg (by simpa using heq)]

/-- An entry of the changed list is an old one, or the one that got the channel. -/
theorem mem_of_mem_setConfChan {qpc : QueuingPortConf} (h : qpc ∈ setConfChan name ch l) :
    qpc ∈ l ∨ qpc.qpcName = name ∧ qpc.qpcChannel = some ch := by
  induction l with
  | nil => exact absurd h (by simp [setConfChan])
  | cons q l ih =>
      rw [setConfChan] at h
      split at h
      · rename_i hname
        rcases List.mem_cons.mp h with rfl | h
        · exact Or.inr ⟨hname, rfl⟩
        · exact Or.inl (List.mem_cons_of_mem q h)
      · rcases List.mem_cons.mp h with rfl | h
        · exact Or.inl List.mem_cons_self
        · exact (ih h).imp (List.mem_cons_of_mem q) id

theorem Shadowed.setConfChan (h : Shadowed l) (name : String) (ch : ChanId) :
    Shadowed (setConfChan name ch l) := by
  induction l with
  | nil => exact h
  | cons qpc l ih =>
      obtain ⟨hhead, htail⟩ := List.pairwise_cons.mp h
      rw [Jrinx.setConfChan]
      split
      · exact List.pairwise_cons.mpr ⟨hhead, htail⟩
      · rename_i hname
        refine List.pairwise_cons.mpr ⟨fun qpc' hmem heq => ?_, ih htail⟩
        rcases mem_of_mem_setConfChan hmem with hold | ⟨hname', -⟩
        · exact hhead qpc' hold heq
        · exact absurd (heq.trans hname') hname

/-- An entry with a channel is found by its name. -/
theorem Shadowed.find?_eq (h : Shadowed l) {qpc : QueuingPortConf} (hmem : qpc ∈ l)
    (hch : qpc.qpcChannel ≠ none) : l.find? (fun q => q.qpcName = qpc.qpcName) = some qpc := by
  induction l with
  | nil => exact absurd hmem (by simp)
  | cons q l ih =>
      obtain ⟨hhead, htail⟩ := List.pairwise_cons.mp h
      rcases List.mem_cons.mp hmem with rfl | hmem
      · simp
      · have hne : ¬ q.qpcName = qpc.qpcName := fun heq => hch (hhead qpc hmem heq)
        rw [List.find?_cons_of_neg (by simpa using hne)]
        exact ih htail hmem

theorem find?_map_bare (l : List QueuingPortConf) (name : String) :
    (l.map QueuingPortConf.bare).find? (fun qpc => qpc.qpcName = name) =
      (l.find? (fun qpc => qpc.qpcName = name)).map QueuingPortConf.bare :=
  List.find?_map ..

/-! ## After the boot -/

/-- **After the boot**: the list has the entries as they were registered, newest first, and only the
newest of a name has a channel. No call is in progress yet. -/
structure PortsBooted (qpcs : List QueuingPortConf) (k : Kernel) : Prop where
  entries : k.portConfs.map QueuingPortConf.bare = (qpcs.map QueuingPortConf.bare).reverse
  shadowed : Shadowed k.portConfs
  registered : Registered k
  conts : ∀ p, k.conts p = none

/-- What a name finds in the list is the newest entry of that name. -/
theorem PortsBooted.portConf_bare {qpcs : List QueuingPortConf} (h : PortsBooted qpcs k) (name : String) :
    (portConf k name).map QueuingPortConf.bare = (newest qpcs name).map QueuingPortConf.bare := by
  rw [portConf, newest, ← find?_map_bare, ← find?_map_bare, h.entries, List.map_reverse]

/-- **What `channel_create` does**: the entries of its two ports get the channel, which has the sizes of
the second. -/
theorem channelCreate_eq_ok {cc : ChannelConf} (h : channelCreate k ch cc = .ok k') :
    ∃ a b qpc, cc.ccPortNames = [a, b] ∧ (portConf k a).isSome ∧
      (setConfChan a ch k.portConfs).find? (fun qpc => qpc.qpcName = b) = some qpc ∧
      k' = { k with
        portConfs := setConfChan b ch (setConfChan a ch k.portConfs)
        chans := Function.update k.chans ch
          { chMaxMsgSize := qpc.qpcMaxMsgSize, chMaxNbMsg := qpc.qpcMaxNbMsg
            chBody := circbufInit (fun _ => 0) ((qpc.qpcMaxMsgSize + commMsgSize) % wordSize)
              qpc.qpcMaxNbMsg
            chWaitingProcs := [] }
        mem := { k.mem with
          channelBase := (k.mem.channelBase + (qpc.qpcMaxMsgSize + commMsgSize) * qpc.qpcMaxNbMsg)
            % wordSize } } := by
  unfold channelCreate at h
  split at h
  · exact absurd h (by simp)
  dsimp only at h
  split at h
  · exact absurd h (by simp)
  rename_i k₁ hloop
  split at h
  · exact absurd h (by simp)
  rename_i hlen
  -- a channel has two ports; the loop over them is unrolled
  obtain ⟨a, b, hab⟩ := List.length_eq_two.mp (not_not.mp hlen)
  rw [hab, queuingPortConfChans, queuingPortConfChan] at hloop
  split at hloop
  · exact absurd hloop (by simp)
  rename_i hfirst
  split at hfirst
  · exact absurd hfirst (by simp)
  rename_i qpca ha
  rw [queuingPortConfChans, queuingPortConfChan] at hloop
  split at hloop
  · exact absurd hloop (by simp)
  rename_i hsecond
  split at hsecond
  · exact absurd hsecond (by simp)
  rename_i qpcb hb
  rw [queuingPortConfChans] at hloop
  rw [← Except.ok.inj hfirst] at hb hsecond
  rw [← Except.ok.inj hsecond] at hloop
  refine ⟨a, b, qpcb, hab, ?_, hb, ?_⟩
  · exact Option.isSome_of_eq_some ha
  · rw [← Except.ok.inj h, ← Except.ok.inj hloop]
    simp

/-- The registry does not depend on the configuration, as long as no call is in progress. -/
theorem Registered.config (hr : Registered k) (hc : ∀ p, k.conts p = none) (confs : List QueuingPortConf)
    (chans : ChanId → Channel) (mem : Mem) :
    Registered { k with portConfs := confs, chans := chans, mem := mem } where
  procs_lt := hr.procs_lt
  bufs_lt := hr.bufs_lt
  bbs_lt := hr.bbs_lt
  ports_lt := hr.ports_lt
  procList := hr.procList
  calls p c w a h := absurd ((hc p).symm.trans h) (by simp)
  fits p c w a h := absurd ((hc p).symm.trans h) (by simp)
  cur := hr.cur

theorem PortsBooted.channelCreate {qpcs : List QueuingPortConf} {cc : ChannelConf} (h : PortsBooted qpcs k)
    (hc : channelCreate k ch cc = .ok k') : PortsBooted qpcs k' := by
  obtain ⟨a, b, qpc, -, -, -, rfl⟩ := channelCreate_eq_ok hc
  exact ⟨by rw [map_bare_setConfChan, map_bare_setConfChan, h.entries],
    (h.shadowed.setConfChan a ch).setConfChan b ch, h.registered.config h.conts _ _ _, h.conts⟩

/-- The ports are entered in front of the list, and nothing else changes. -/
theorem foldl_queuingPortRegister (qpcs : List QueuingPortConf) (k : Kernel) :
    qpcs.foldl queuingPortRegister k =
      { k with portConfs := (qpcs.map QueuingPortConf.bare).reverse ++ k.portConfs } := by
  induction qpcs generalizing k with
  | nil => rfl
  | cons qpc qpcs ih =>
      rw [List.foldl_cons, ih]
      simp [queuingPortRegister, QueuingPortConf.bare]

theorem PortsBooted.register {qpcs : List QueuingPortConf} (hq : Quiet k) (hentries : k.portConfs = []) :
    PortsBooted qpcs (qpcs.foldl queuingPortRegister k) := by
  rw [foldl_queuingPortRegister, hentries, List.append_nil]
  refine ⟨?_, ?_, hq.registered.config hq.conts _ _ _, hq.conts⟩
  · rw [List.map_reverse, List.map_map]
    rfl
  · rw [Shadowed, List.pairwise_reverse]
    refine List.pairwise_of_forall_mem_list fun qpc hqpc _ _ _ => ?_
    obtain ⟨q, -, rfl⟩ := List.mem_map.mp hqpc
    rfl

theorem PortsBooted.channelsCreate {qpcs : List QueuingPortConf} {i : Nat} {tbl : List ChannelConf}
    (h : PortsBooted qpcs k) (hc : channelsCreate k i tbl = .ok k') : PortsBooted qpcs k' := by
  induction tbl generalizing k i with
  | nil =>
      rw [← Except.ok.inj hc]
      exact h
  | cons cc tbl ih =>
      rw [Jrinx.channelsCreate] at hc
      split at hc
      · exact absurd hc (by simp)
      · rename_i hone
        exact ih (h.channelCreate hone) hc

theorem portsBooted_bootPorts {k₀ : Kernel} {qpcs : List QueuingPortConf} {tbl : List ChannelConf}
    (hq : Quiet k₀) (h₀ : k₀.portConfs = []) (hboot : bootPorts k₀ qpcs tbl = .ok k) :
    PortsBooted qpcs k :=
  (PortsBooted.register hq h₀).channelsCreate hboot

/-! ## Runs -/

theorem portConfs_timeEventAlloc (k : Kernel) (time : Int) (type : TimeEventType) :
    (timeEventAlloc k time type).portConfs = k.portConfs := by
  unfold timeEventAlloc
  cases type.proc <;> rfl

theorem portConfs_timeEventFree {te : Option Nat} (h : timeEventFree k te = .ok k') :
    k'.portConfs = k.portConfs := by
  obtain ⟨i, -, -, rfl⟩ := mem_of_timeEventFree h
  rfl

theorem portConfs_setWaitingProcs (k : Kernel) (o : WaitObj) (l : List ProcId) :
    (k.setWaitingProcs o l).portConfs = k.portConfs := by
  cases o <;> rfl

theorem portConfs_wakeProc {o : WaitObj} {p : ProcId} (h : wakeProc k o p = .ok k') :
    k'.portConfs = k.portConfs := by
  obtain ⟨k₁, hk₁, rfl⟩ := wakeProc_eq_ok h
  have hdel : (delWaitingProc k o p).portConfs = k.portConfs := portConfs_setWaitingProcs k o _
  rcases hk₁ with ⟨-, hfree⟩ | ⟨-, rfl⟩
  · exact (portConfs_timeEventFree hfree).trans hdel
  · exact hdel

theorem portConfs_commWait (k : Kernel) (p : ProcId) (c : CommCall) (armed : Int) :
    (commWait k p c armed).portConfs = k.portConfs := by
  have hadd : (addWaitingProc (k.setState p .waiting) (c.obj k) p).portConfs = k.portConfs :=
    portConfs_setWaitingProcs (k.setState p .waiting) _ _
  unfold commWait
  dsimp only
  split
  · rw [portConfs_timeEventAlloc]
    exact hadd
  · exact hadd

/-- No effect changes the list. -/
theorem Eff.portConfs_eq {a : Act} (he : Eff k a k') : k'.portConfs = k.portConfs := by
  -- the list is filled at boot, and no effect writes it
  cases he with
  | mode m => rfl
  | attr f own other => rfl
  | ready own held => rfl
  | doze reason own free kind => rfl
  | sleep known own free kind => exact portConfs_timeEventAlloc _ _ _
  | @rouse p _ own waits reason freed => exact (portConfs_timeEventFree freed :)
  | halt cur own runs => rfl
  | @stop p _ own alive freed =>
      split at freed
      · exact (portConfs_timeEventFree freed :)
      · rw [← Except.ok.inj freed]
        rfl
  | reset own dormant => rfl
  | block cur own runs call fits full => exact portConfs_commWait _ _ _ _
  | wake linked obj done => exact portConfs_wakeProc done
  | @queue q cc obj => cases q <;> rfl
  | board f obj part list => rfl
  | newProc mem pr own dormant timer frame => rfl
  | newBuffer mem buf own empty body frame => rfl
  | newBoard mem bb own empty blank frame => rfl
  | newPort qp own => rfl
  | spend mem nb nbb hb hbb frame => rfl
  | cont c cur own free plain => rfl
  | resumed cur own runs => rfl
  | @dispatch p _ done =>
      rw [(dispatch_eq_ok done).2]
      rcases schedProcSt_cases k with hst | ⟨cur, -, -, hst⟩ <;> rw [hst] <;> rfl
  | @expire te es p head proc =>
      show (expireProc k te p).portConfs = k.portConfs
      unfold expireProc
      dsimp only
      split
      · rfl
      · exact portConfs_setWaitingProcs _ _ _
  | partition head proc => rfl
  | global done =>
      obtain ⟨pt, rfl⟩ | ⟨time, mods, pt, rfl⟩ := schedGlobal_eq_ok done <;> rfl

theorem portConfs_of_path {A : Kernel → Act → Prop} (h : Path A k k') : k'.portConfs = k.portConfs := by
  induction h with
  | refl k => rfl
  | cons hstep _ _ ih => exact ih.trans hstep.portConfs_eq

/-- The list stays as the boot left it. -/
theorem portConfs_of_run {tr : List (Kernel × Event)} (hr : Registered k) (hrun : Run k tr k') :
    Registered k' ∧ k'.portConfs = k.portConfs := by
  induction hrun with
  | nil => exact ⟨hr, rfl⟩
  | @snoc tr k₁ k' e _ hstep ih =>
      obtain ⟨hr₁, hconfs⟩ := ih
      exact ⟨(hr₁.step hstep).1, (portConfs_of_path (step_path hr₁ hstep)).trans hconfs⟩

/-! ## The channel of a new port -/

/-- **What a successful `CREATE_QUEUING_PORT` does.** -/
theorem doCreateQueuingPort_eq_ok {s c : ℕ} {dir : Option PortDir} {disc : QueDisc} {port : PortId}
    (h : doCreateQueuingPort k name s c dir disc = .ok (.ret .noError (.identifier port), k')) :
    ∃ d qpc ch, dir = some d ∧ queuingPortConfValidate k k.curPart name dir s c = true ∧
      queuingPortFromName k name = none ∧ portConf k name = some qpc ∧ qpc.qpcChannel = some ch ∧
      port = k.nxtPortId ∧
      k' = registerPort k
        { qpName := name, qpPartId := k.curPart, qpDir := d, qpDisc := disc, qpChannel := ch } := by
  unfold doCreateQueuingPort at h
  split at h
  · exact absurd h (by simp [retCode])
  rename_i hvalid
  split at h
  · exact absurd h (by simp [retCode])
  rename_i hname
  split at h
  · exact absurd h (by simp [retCode])
  split at h
  · exact absurd h (by simp [retCode])
  rename_i d
  -- all checks have passed, and the entry of the name has a channel
  unfold queuingPortAlloc at h
  cases hch : (k.portConfs.find? (fun c => c.qpcName = name)).bind QueuingPortConf.qpcChannel with
  | none => simp [hch, retCode] at h
  | some ch =>
      simp only [hch, Except.ok.injEq, Prod.mk.injEq, Next.ret.injEq, Out.identifier.injEq,
        true_and] at h
      obtain ⟨qpc, hfind, hqpc⟩ := Option.bind_eq_some_iff.mp hch
      exact ⟨d, qpc, ch, rfl, not_not.mp hvalid, Option.not_isSome_iff_eq_none.mp hname, hfind, hqpc,
        h.1.symm, h.2.symm⟩

/-- The entry was made for a port of this partition with these attributes. -/
def QueuingPortConf.For (qpc : QueuingPortConf) (paName name : String) (s c : Nat)
    (dir : Option PortDir) : Prop :=
  qpc.qpcPaName = paName ∧ qpc.qpcName = name ∧ some qpc.qpcDir = dir ∧ qpc.qpcMaxMsgSize = s ∧
    qpc.qpcMaxNbMsg = c

/-- The channel is that of an entry made for a port of the current partition with these attributes. -/
def OwnChannel (k : Kernel) (name : String) (s c : Nat) (dir : Option PortDir) (ch : ChanId) : Prop :=
  ∃ qpc ∈ k.portConfs, qpc.For (k.parts k.curPart).paName name s c dir ∧ qpc.qpcChannel = some ch

theorem QueuingPortConf.for_bare {qpc qpc' : QueuingPortConf} {paName : String} {s c : ℕ}
    {dir : Option PortDir} (h : qpc.bare = qpc'.bare) :
    qpc.For paName name s c dir ↔ qpc'.For paName name s c dir := by
  simp only [bare, mk.injEq, and_true] at h
  obtain ⟨hname, hpart, hdir, hsize, hnb⟩ := h
  rw [For, For, hname, hpart, hdir, hsize, hnb]

/-- **A port gets the channel of its own partition's entry** in exactly those calls for which the newest
entry of the name is one for the calling partition, with the direction, size and count of the call. -/
theorem port_attached_iff {k₀ k₁ k₂ : Kernel} {qpcs : List QueuingPortConf} {tbl : List ChannelConf}
    {tr : List (Kernel × Event)} {env : Env} {p : ProcId} {s c : ℕ} {dir : Option PortDir} {disc : QueDisc}
    {port : PortId} (hq : Quiet k₀) (h₀ : k₀.portConfs = []) (hboot : bootPorts k₀ qpcs tbl = .ok k)
    (hrun : Run k tr k₁)
    (hcall : segment k₁ (.call env (.createQueuingPort name s c dir disc)) =
      some (p, .ok (.ret .noError (.identifier port), k₂))) :
    OwnChannel k₁ name s c dir (k₂.ports port).qpChannel ↔
      ∃ qpc, newest qpcs name = some qpc ∧ qpc.For (k₁.parts k₁.curPart).paName name s c dir := by
  have hbooted := portsBooted_bootPorts hq h₀ hboot
  have hconfs := (portConfs_of_run hbooted.registered hrun).2
  have hcreate : doCreateQueuingPort k₁ name s c dir disc
      = .ok (.ret .noError (.identifier port), k₂) := by
    obtain ⟨-, ⟨env', s', hev, -, ho⟩ | ⟨env', c', hev, -, -⟩⟩ := segment_eq_some hcall
    · obtain ⟨rfl, rfl⟩ := Event.call.inj hev
      exact ho.symm
    · exact absurd hev (by simp)
  obtain ⟨d, qpc, ch, rfl, -, -, hfind, hch, rfl, rfl⟩ := doCreateQueuingPort_eq_ok hcreate
  have hport : ((registerPort k₁
      { qpName := name, qpPartId := k₁.curPart, qpDir := d, qpDisc := disc, qpChannel := ch }).ports
        k₁.nxtPortId).qpChannel = ch := by
    simp [registerPort]
  have hfind' : portConf k name = some qpc := by rw [portConf, ← hconfs]; exact hfind
  have hbare := hbooted.portConf_bare name
  rw [hfind', Option.map_some] at hbare
  obtain ⟨qpc', hnewest, hqpc'⟩ := Option.map_eq_some_iff.mp hbare.symm
  rw [hport, OwnChannel, hconfs, hnewest]
  constructor
  · rintro ⟨q, hmem, hfor, hq⟩
    -- an entry with a channel is the newest of its name
    have hq' := hbooted.shadowed.find?_eq hmem (by simp [hq])
    rw [hfor.2.1] at hq'
    obtain rfl : q = qpc := Option.some.inj (hq'.symm.trans hfind')
    exact ⟨qpc', rfl, (QueuingPortConf.for_bare hqpc').mpr hfor⟩
  · rintro ⟨q, hq, hfor⟩
    obtain rfl := Option.some.inj hq
    exact ⟨qpc, List.mem_of_find?_eq_some hfind', (QueuingPortConf.for_bare hqpc').mp hfor, hch⟩

/-- A partition in cold start, named differently from the others, before the ports are registered. -/
def portSystem : Kernel :=
  { smallSystem 1 .fifo [1] with
    mem := { Mem.none with channelBase := chanBase }
    parts := fun pt =>
      { (smallSystem 1 .fifo [1]).parts pt with
        paName := if pt = 1 then "front" else "back", paOpMode := .coldStart } }

theorem quiet_portSystem : Quiet portSystem :=
  have hq := quiet_smallSystem 1 .fifo [1]
  { registered := { hq.registered with }
    lists := hq.lists, conts := hq.conts, woken := hq.woken, state := hq.state, timer := hq.timer
    events := hq.events, ids := hq.ids, fresh := hq.fresh }

/-- The call of the process `1` after the boot, with the kernel it is made in and the one it leads to. -/
def createAfterBoot (qpcs : List QueuingPortConf) (tbl : List ChannelConf) (name : String) (s c : Nat) :
    Option (Kernel × PortId × Kernel) :=
  match bootPorts portSystem qpcs tbl with
  | .error _ => none
  | .ok k =>
      match segment k (.call ⟨fun _ => 0, fun _ => 0⟩ (.createQueuingPort name s c (some .source) .fifo)) with
      | some (1, .ok (.ret .noError (.identifier port), k')) => some (k, port, k')
      | _ => none

theorem of_createAfterBoot {qpcs : List QueuingPortConf} {tbl : List ChannelConf} {s c : ℕ}
    {port : PortId} (h : createAfterBoot qpcs tbl name s c = some (k, port, k')) :
    bootPorts portSystem qpcs tbl = .ok k ∧
      segment k (.call ⟨fun _ => 0, fun _ => 0⟩ (.createQueuingPort name s c (some .source) .fifo)) =
        some (1, .ok (.ret .noError (.identifier port), k')) := by
  unfold createAfterBoot at h
  split at h
  · exact absurd h (by simp)
  rename_i k₁ hboot
  split at h
  · rename_i hseg
    simp only [Option.some.injEq, Prod.mk.injEq] at h
    obtain ⟨rfl, rfl, rfl⟩ := h
    exact ⟨hboot, hseg⟩
  · exact absurd h (by simp)

/-- A port may come on the channel of another partition: both partitions have a port of that name. -/
theorem port_misattached : ¬ ∀ (k₀ k k₁ k₂ : Kernel) (qpcs : List QueuingPortConf)
    (tbl : List ChannelConf) (tr : List (Kernel × Event)) (env : Env) (p : ProcId) (name : String) (s c : ℕ)
    (dir : Option PortDir) (disc : QueDisc) (port : PortId), Quiet k₀ → k₀.portConfs = [] →
    bootPorts k₀ qpcs tbl = .ok k → Run k tr k₁ →
    segment k₁ (.call env (.createQueuingPort name s c dir disc)) =
      some (p, .ok (.ret .noError (.identifier port), k₂)) →
    OwnChannel k₁ name s c dir (k₂.ports port).qpChannel := by
  intro hall
  have hcheck : (createAfterBoot [⟨"out", "front", .source, 8, 2, none⟩,
      ⟨"out", "back", .source, 8, 2, none⟩, ⟨"in", "back", .destination, 8, 2, none⟩]
      [⟨.queuing, ["out", "in"]⟩] "out" 8 2).any (fun x =>
        decide (∀ qpc ∈ x.1.portConfs, qpc.qpcPaName = (x.1.parts x.1.curPart).paName →
          qpc.qpcChannel ≠ some (x.2.2.ports x.2.1).qpChannel)) = true := by decide +kernel
  obtain ⟨⟨k, port, k'⟩, hx, hnone⟩ := (Option.any_eq_true _ _).mp hcheck
  obtain ⟨hboot, hseg⟩ := of_createAfterBoot hx
  obtain ⟨qpc, hmem, hfor, hch⟩ := hall _ _ _ _ _ _ _ _ _ _ _ _ _ _ _ quiet_portSystem rfl hboot .nil hseg
  exact of_decide_eq_true hnone qpc hmem hfor.1 hch

/-- A port of a name that is used once. -/
theorem port_attached_iff_once : ∃ (k : Kernel) (port : PortId) (k' : Kernel), bootPorts portSystem
      [⟨"out", "front", .source, 8, 2, none⟩, ⟨"in", "back", .destination, 8, 2, none⟩]
      [⟨.queuing, ["out", "in"]⟩] = .ok k ∧
    (OwnChannel k "out" 8 2 (some .source) (k'.ports port).qpChannel ↔
      ∃ qpc, newest [⟨"out", "front", .source, 8, 2, none⟩, ⟨"in", "back", .destination, 8, 2, none⟩] "out"
        = some qpc ∧ qpc.For (k.parts k.curPart).paName "out" 8 2 (some .source)) := by
  have hcheck : (createAfterBoot [⟨"out", "front", .source, 8, 2, none⟩,
      ⟨"in", "back", .destination, 8, 2, none⟩] [⟨.queuing, ["out", "in"]⟩] "out" 8 2).isSome = true := by
    decide +kernel
  obtain ⟨⟨k, port, k'⟩, hx⟩ := Option.isSome_iff_exists.mp hcheck
  obtain ⟨hboot, hseg⟩ := of_createAfterBoot hx
  exact ⟨k, port, k', hboot, port_attached_iff quiet_portSystem rfl hboot .nil hseg⟩

end Jrinx
