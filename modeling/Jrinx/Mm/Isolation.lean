import Jrinx.Mm.AddressSpaces
import Jrinx.Mm.Reserve

/-! # Isolation of the partitions in memory

Runs of the operations that map pages: `part_create`, `proc_alloc`, `part_pt_alloc`, `do_pagefault`,
`channel_mem_setup` and `part_pt_sync_kern_pgdir`. A partition shares the tables of the kernel in the slots that
were valid when its root was made. Its pages are its own where they lie in other slots, and this is not checked:
the stacks of all partitions start below `USTKLIMIT`, whatever memory the kernel has mapped there.

* **`SpaceOp`**, **`spaceStep`**, **`SpaceOp.pages`** — the operations, and the addresses that they map.
* **`BootSpace`** — the tables of the kernel at boot.
* **`spaceStep_advances`** — what a step does to the uses of the frames.
* **`partitions_isolated`** — what holds in all runs. -/

namespace Jrinx

open Op

variable {B C : Set Nat} {use use' : Ppn → Use} {m m' m₁ : Mem} {o : Option PartId} {f t : Ppn}
  {i k va : Nat} {pt : PartId}

/-! ## The operations -/

inductive SpaceOp where
  /-- `part_create`. -/
  | partCreate (memoryReq : UInt64) (prog : Prog)
  /-- `proc_alloc`. -/
  | procAlloc (pt : PartId) (stackSize : UInt64)
  /-- `part_pt_alloc`. -/
  | partPtAlloc (pt : PartId) (va : Nat) (perm : Perm)
  /-- `do_pagefault` in the partition. -/
  | pagefault (pt : PartId) (va : Nat) (super store : Bool)
  /-- `channel_mem_setup`. -/
  | channelMemSetup
  /-- `part_pt_sync_kern_pgdir`. -/
  | syncKernPgdir

/-- One operation; an error of it leaves a state behind. -/
def spaceStep (m : Mem) : SpaceOp → Except Unit Mem
  | .partCreate memoryReq prog => (partCreate memoryReq.toNat prog m).settled
  | .procAlloc pt stackSize => if pt ∈ m.partIds then (procAllocMem pt stackSize.toNat m).settled else .error ()
  | .partPtAlloc pt va perm => if pt ∈ m.partIds then (partPtAlloc pt va perm m).settled else .error ()
  | .pagefault pt va super store =>
      if pt ∈ m.partIds then (doPagefault pt va super store m).settled else .error ()
  | .channelMemSetup => (channelMemSetup m).settled
  | .syncKernPgdir => (partPtSyncKernPgdir m).settled

/-- The partition that the operation is for. -/
def SpaceOp.part (m : Mem) : SpaceOp → Option PartId
  | .partCreate _ _ => some m.nxtPartId
  | .procAlloc pt _ => some pt
  | .partPtAlloc pt _ _ => some pt
  | .pagefault pt _ _ _ => some pt
  | .channelMemSetup => none
  | .syncKernPgdir => none

/-- The slots of channel memory that ends at `base`. -/
def chanSlots (base : Nat) : Set Nat := {i | ∃ va, chanBase ≤ va ∧ va < base ∧ vpn2 va = i}

/-- The slots that are valid in the root of the kernel. -/
def kernSlots (m : Mem) : Set Nat := {i | i < 512 ∧ (m.pte ⟨m.kernPgdir, i⟩).perm.v = true}

/-- The address lies in a slot that is neither one of `B` nor one of `C`. -/
def PrivateVa (B C : Set Nat) (va : Nat) : Prop := vpn2 va ∉ B ∧ vpn2 va ∉ C

/-- The addresses that the operation maps for its partition: those of the segments of a program, of stacks, and of
communication pages. -/
def SpaceOp.pages (m : Mem) : SpaceOp → List Nat
  | .partCreate _ prog =>
      prog.loads.flatMap elf64LoadProg ++
        (stackVas ustkLimit (alignUp (ustkLimit - prog.mainProcStacktop) pgSize) ++ stackVas xstkLimit kstkSize)
  | .procAlloc pt stackSize => procVas m pt stackSize.toNat
  | .partPtAlloc _ va _ => [va]
  | .pagefault _ va _ _ => if commBase ≤ va ∧ va < commLimt then [va] else []
  | .channelMemSetup => []
  | .syncKernPgdir => []

/-- **The operation maps pages in private slots only.** -/
def SpaceOp.Private (B C : Set Nat) (m : Mem) (op : SpaceOp) : Prop := ∀ va ∈ op.pages m, PrivateVa B C va

/-! ## What a step does -/

/-- **A step between two address spaces**: the tables are kept, a step for a partition is confined to its frames,
and a new partition has the entries of the kernel. -/
structure Advances (o : Option PartId) (use use' : Ppn → Use) (m m' : Mem) : Prop where
  kept : Kept use use' m m'
  confined : ∀ pt, o = some pt → Confined (some pt) use use' m m'
  kernPgdir : m'.kernPgdir = m.kernPgdir
  channelBase : m'.channelBase = m.channelBase
  ids : ∀ pt ∈ m.partIds, pt ∈ m'.partIds
  roots : ∀ pt ∈ m.partIds, (m'.parts pt).paPgdir = (m.parts pt).paPgdir
  fresh : ∀ pt ∈ m'.partIds, pt ∉ m.partIds → ∀ i t, (m.pte ⟨m.kernPgdir, i⟩).target = some t →
    (m'.pte ⟨(m'.parts pt).paPgdir, i⟩).target = some t

theorem SameSpaces.advances (h : SameSpaces m m') (hk : Kept use use' m m')
    (hc : ∀ pt, o = some pt → Confined (some pt) use use' m m') : Advances o use use' m m' where
  kept := hk
  confined := hc
  kernPgdir := h.kernPgdir
  channelBase := h.channelBase
  ids pt hpt := by rwa [h.partIds]
  roots pt _ := h.roots pt
  fresh pt hpt hnot := absurd (h.partIds ▸ hpt) hnot

/-- A step within the frames of the partition. -/
theorem StaysIn.advances (h : StaysIn B C (some pt) m m') (hu : Housed B C use m) :
    ∃ use', Housed B C use' m' ∧ Advances (some pt) use use' m m' := by
  obtain ⟨use', hu', hc⟩ := h.housed use hu
  refine ⟨use', hu', h.spaces.advances hc.toKept ?_⟩
  rintro q ⟨⟩
  exact hc

/-- A step within the frames of the kernel. -/
theorem StaysIn.advances_kern (h : StaysIn B C none m m') (hu : Housed B C use m) :
    ∃ use', Housed B C use' m' ∧ Advances none use use' m m' := by
  obtain ⟨use', hu', hc⟩ := h.housed use hu
  exact ⟨use', hu', h.spaces.advances hc.toKept fun _ ho => absurd ho (by simp)⟩

/-- One more step within the frames of the partition. -/
theorem Advances.staysIn {use₁ : Ppn → Use} (h : Advances (some pt) use use₁ m m₁) (hu : Housed B C use₁ m₁)
    (h' : StaysIn B C (some pt) m₁ m') : ∃ use', Housed B C use' m' ∧ Advances (some pt) use use' m m' := by
  obtain ⟨use', hu', hc⟩ := h'.housed use₁ hu
  refine ⟨use', hu', ⟨h.kept.trans hc.toKept, ?_, ?_, ?_, ?_, ?_, ?_⟩⟩
  · rintro q ⟨⟩
    exact (h.confined pt rfl).trans hc
  · rw [h'.spaces.kernPgdir, h.kernPgdir]
  · rw [h'.spaces.channelBase, h.channelBase]
  · intro q hq
    rw [h'.spaces.partIds]
    exact h.ids q hq
  · intro q hq
    rw [h'.spaces.roots, h.roots q hq]
  · intro q hq hnot i t ht
    rw [h'.spaces.partIds] at hq
    rw [h'.spaces.roots]
    refine hc.links _ ?_ i t (h.fresh q hq hnot i t ht)
    rw [hu.parts q hq]
    trivial

/-! ## The operations on a partition -/

/-- `part_alloc` is an error only where there is no frame. -/
theorem partAlloc_err {memoryReq : Nat} (h : partAlloc memoryReq m = .err m') : m' = m := by
  rcases bind_eq_err.mp h with halloc | ⟨f, m₁, -, h⟩
  · exact phyFrameAlloc_err halloc
  · exact absurd h (by simp [bind, Op.bind, Op.get, Op.modify, pure, Op.pure])

/-- The new partition. -/
theorem partAlloc_advances {memoryReq : Nat} (h : partAlloc memoryReq m = .ok pt m') (hu : Housed B C use m) :
    ∃ use', Housed B C use' m' ∧ Advances (some pt) use use' m m' ∧ pt ∈ m'.partIds := by
  obtain ⟨use', hu', hc, hcopy⟩ := partAlloc_housed h hu
  obtain ⟨rfl, f, m₁, hframe, rfl⟩ := partAlloc_eq_ok.mp h
  have hsame := sameParts_phyFrameAlloc (.refl m) hframe
  have hids : ∀ q, q ∈ (m₁.register f memoryReq).partIds ↔ q ∈ m.partIds ∨ q = m.nxtPartId := by
    intro q
    rw [mem_register, hsame.partIds, hsame.nxtPartId]
  refine ⟨use', hu', ⟨hc.toKept, ?_, hsame.kernPgdir, hsame.channelBase, fun q hq => (hids q).mpr (Or.inl hq),
    fun q hq => ?_, fun q hq hnot i t ht => ?_⟩, (hids _).mpr (Or.inr rfl)⟩
  · rintro q ⟨⟩
    exact hc
  · rw [register_old, hsame.parts]
    rw [hsame.nxtPartId]
    exact (hu.ids q hq).ne
  · obtain rfl := ((hids q).mp hq).resolve_left hnot
    rwa [hcopy i]

/-- Where the stacks of the main process of a new partition go. -/
theorem procVas_main {prog : Prog} {memoryReq : Nat} {x : Unit} (hpart : partAlloc memoryReq m = .ok pt m₁)
    (hload : partLoadProg pt prog m₁ = .ok x m') :
    procVas m' pt (m'.parts pt).paMainProcStacksize =
      stackVas ustkLimit (alignUp (ustkLimit - prog.mainProcStacktop) pgSize) ++ stackVas xstkLimit kstkSize := by
  have htops := sameTops_partLoadProg hload
  obtain ⟨-, -, hu, hx⟩ := partAlloc_parts hpart
  rw [procVas, htops.user, htops.kernel, hu, hx, (partLoadProg_ok hload).2]

/-- **`part_create`**. -/
theorem partCreate_advances {memoryReq : UInt64} {prog : Prog}
    (hpriv : (SpaceOp.partCreate memoryReq prog).Private B C m) (hu : Housed B C use m)
    (h : (partCreate memoryReq.toNat prog m).settled = .ok m') :
    ∃ use', Housed B C use' m' ∧ Advances (some m.nxtPartId) use use' m m' := by
  have hbase : Advances (some m.nxtPartId) use use m m :=
    (SameSpaces.refl m).advances ⟨fun _ _ => rfl, fun _ _ _ _ ht => ht, fun _ _ _ hv => hv⟩
      fun _ _ => .refl _ use rfl
  have hpages := List.forall_mem_append.mp hpriv
  have hloads : ∀ phdr ∈ prog.loads, ∀ va ∈ elf64LoadProg phdr, PrivateVa B C va := fun phdr hphdr va hva =>
    hpages.1 va (List.mem_flatMap.mpr ⟨phdr, hphdr, hva⟩)
  -- what holds when the program is loaded
  have hloaded : ∀ pt m₁ m₂ x, partAlloc memoryReq.toNat m = .ok pt m₁ → partLoadProg pt prog m₁ = .ok x m₂ →
      (∃ use₂, Housed B C use₂ m₂ ∧ Advances (some m.nxtPartId) use use₂ m m₂) ∧ pt ∈ m₂.partIds ∧
        pt = m.nxtPartId := by
    intro pt m₁ m₂ x hpart hload
    obtain rfl := (partAlloc_parts hpart).1
    obtain ⟨use₁, hu₁, hadv, hpt⟩ := partAlloc_advances hpart hu
    have hstays : StaysIn B C (some m.nxtPartId) m₁ m₂ := staysIn_partLoadProg hpt hloads hload
    refine ⟨hadv.staysIn hu₁ hstays, ?_, rfl⟩
    rw [hstays.spaces.partIds]
    exact hpt
  rcases Res.settled_eq_ok h with ⟨x, hx⟩ | herr
  · unfold partCreate at hx
    obtain ⟨pt, m₁, hpart, hx⟩ := bind_eq_ok.mp hx
    obtain ⟨_, m₂, hload, hx⟩ := bind_eq_ok.mp hx
    obtain ⟨_, _, hg, hx⟩ := bind_eq_ok.mp hx
    obtain ⟨rfl, rfl⟩ := get_eq_ok.mp hg
    obtain ⟨stk, m₃, hproc, hx⟩ := bind_eq_ok.mp hx
    obtain ⟨-, rfl⟩ := pure_eq_ok.mp hx
    obtain ⟨⟨use₂, hu₂, hadv⟩, hpt, rfl⟩ := hloaded pt m₁ m₂ _ hpart (panicE_eq_ok.mp hload)
    refine hadv.staysIn hu₂ (staysIn_procAllocMem hpt ?_ hproc)
    rw [procVas_main hpart (panicE_eq_ok.mp hload)]
    exact hpages.2
  · unfold partCreate at herr
    rcases bind_eq_err.mp herr with hpart | ⟨pt, m₁, hpart, herr⟩
    · rw [partAlloc_err hpart]
      exact ⟨use, hu, hbase⟩
    rcases bind_eq_err.mp herr with hload | ⟨_, m₂, hload, herr⟩
    · exact absurd hload panicE_ne_err
    rcases bind_eq_err.mp herr with hg | ⟨_, _, hg, herr⟩
    · exact absurd hg (by simp [Op.get])
    obtain ⟨rfl, rfl⟩ := get_eq_ok.mp hg
    rcases bind_eq_err.mp herr with hproc | ⟨stk, m₃, -, herr⟩
    · -- the main process is refused, the partition stays
      rw [procAllocMem_err hproc]
      exact (hloaded pt m₁ m₂ _ hpart (panicE_eq_ok.mp hload)).1
    · exact absurd herr (by simp [pure, Op.pure])

/-! ## Channel memory -/

theorem chanSlots_lt {base : Nat} (hi : i ∈ chanSlots base) : i < 512 := by
  obtain ⟨va, -, -, rfl⟩ := hi
  exact vpn2_lt va

/-- **Channel memory is shared**: the kernel has mapped all its pages, and the partitions have the tables. -/
structure Shares (m : Mem) : Prop where
  mapped : ∀ va, chanBase ≤ va → va < m.channelBase → (found m (pageOf m.kernPgdir va)).isSome = true
  filled : ∀ pt ∈ m.partIds, Filled (chanSlots m.channelBase) m pt

/-- The way to a page that is mapped starts in a valid slot. -/
theorem target_of_found {r : Ppn} (h : (found m (pageOf r va)).isSome = true) :
    ∃ t, (m.pte ⟨r, vpn2 va⟩).target = some t := by
  obtain ⟨⟨a, e⟩, hfound⟩ := Option.isSome_iff_exists.mp h
  obtain ⟨hslot, -⟩ := found_eq_some hfound
  have hpath : (m.pte ⟨r, vpn2 va⟩).target.bind (fun t => (m.pte ⟨t, vpn1 va⟩).target) = some a.table := hslot
  obtain ⟨t, ht, -⟩ := Option.bind_eq_some_iff.mp hpath
  exact ⟨t, ht⟩

/-- The slots of channel memory are the kernel's own while it makes their tables. -/
theorem ownSlot_chan {base : Nat} (hdisj : Disjoint B (chanSlots base)) (hlo : chanBase ≤ va) (hhi : va < base) :
    OwnSlot B (chanSlots base) none (vpn2 va) :=
  have hmem : vpn2 va ∈ chanSlots base := ⟨va, hlo, hhi, rfl⟩
  ⟨fun hB => Set.disjoint_left.mp hdisj hB hmem, hmem⟩

theorem ownSlot_pageStep {base : Nat} (hdisj : Disjoint B (chanSlots base)) (hva : va ∈ pageSteps chanBase base) :
    OwnSlot B (chanSlots base) none (vpn2 va) := by
  have hbase : pgSize ∣ chanBase := by decide
  obtain ⟨hlo, hhi⟩ := (mem_pageSteps_iff hbase (pgSize_dvd_of_mem_pageSteps hbase hva)).mp hva
  exact ownSlot_chan hdisj hlo hhi

/-- **Channel memory stays shared.** -/
theorem Shares.advances (hs : Shares m) (hdisj : Disjoint B (chanSlots m.channelBase))
    (hu : Housed B (chanSlots m.channelBase) use m) (h : Advances o use use' m m') : Shares m' := by
  constructor
  · intro va hlo hhi
    rw [h.channelBase] at hhi
    rw [h.kernPgdir]
    exact h.kept.found_isSome (o := none) hu trivial (ownSlot_chan hdisj hlo hhi) (hs.mapped va hlo hhi)
  · intro pt hpt
    rw [h.channelBase]
    by_cases hold : pt ∈ m.partIds
    · exact (hs.filled pt hold).kept hu hold h.kept h.kernPgdir (h.roots pt hold)
    · -- the root of a new partition is a copy
      rintro i ⟨va, hlo, hhi, rfl⟩
      obtain ⟨t, ht⟩ := target_of_found (hs.mapped va hlo hhi)
      rw [h.kernPgdir]
      refine ⟨t, h.kept.links m.kernPgdir ?_ _ t ht, h.fresh pt hpt hold _ t ht⟩
      rw [hu.kern]
      trivial

/-- **`part_pt_sync_kern_pgdir`**. -/
theorem sync_advances (hC : ∀ i ∈ C, i < 512) (hu : Housed B C use m) {x : Unit}
    (h : partPtSyncKernPgdir m = .ok x m') : Housed B C use m' ∧ Advances none use use m m' := by
  obtain ⟨hu', hspaces, hk, -⟩ := hu.sync hC h
  exact ⟨hu', hspaces.advances hk fun _ ho => absurd ho (by simp)⟩

/-- **`channel_mem_setup`** makes channel memory shared. -/
theorem channelMemSetup_ok (hdisj : Disjoint B (chanSlots m.channelBase))
    (hu : Housed B (chanSlots m.channelBase) use m) {x : Unit} (h : channelMemSetup m = .ok x m') :
    ∃ use', Housed B (chanSlots m.channelBase) use' m' ∧ Advances none use use' m m' ∧ Shares m' := by
  unfold channelMemSetup at h
  obtain ⟨_, _, hg, h⟩ := bind_eq_ok.mp h
  obtain ⟨rfl, rfl⟩ := get_eq_ok.mp hg
  obtain ⟨_, m₁, hpages, hsync⟩ := bind_eq_ok.mp h
  obtain ⟨hstays, hmapped⟩ := channelPages_ok (fun va hva => ownSlot_pageStep hdisj hva) hpages
  obtain ⟨use₁, hu₁, hc⟩ := hstays.housed use hu
  obtain ⟨hu', hspaces, hk, hfilled⟩ := hu₁.sync (fun i hi => chanSlots_lt hi) hsync
  have hmapped₁ : ∀ va, chanBase ≤ va → va < m.channelBase →
      (found m₁ (pageOf m₁.kernPgdir va)).isSome = true := by
    intro va hlo hhi
    rw [← pageOf_div_mul]
    exact hmapped use hu _ (mem_pageSteps_of_lt (by decide) hlo hhi)
  have hall := hstays.spaces.trans hspaces
  refine ⟨use₁, hu', hall.advances (hc.toKept.trans hk) fun _ ho => absurd ho (by simp), ?_, ?_⟩
  · intro va hlo hhi
    rw [hall.channelBase] at hhi
    rw [hspaces.kernPgdir]
    exact hk.found_isSome (o := none) hu₁ trivial (ownSlot_chan hdisj hlo hhi) (hmapped₁ va hlo hhi)
  · intro pt hpt
    rw [hall.channelBase]
    refine hfilled ?_ pt (by rwa [← hspaces.partIds])
    rintro i ⟨va, hlo, hhi, rfl⟩
    exact target_of_found (hmapped₁ va hlo hhi)

/-- A `channel_mem_setup` that runs out of frames keeps to the kernel. -/
theorem channelMemSetup_err (hdisj : Disjoint B (chanSlots m.channelBase))
    (h : channelMemSetup m = .err m') : StaysIn B (chanSlots m.channelBase) none m m' := by
  unfold channelMemSetup at h
  rcases bind_eq_err.mp h with hg | ⟨_, _, hg, h⟩
  · exact absurd hg (by simp [Op.get])
  obtain ⟨rfl, rfl⟩ := get_eq_ok.mp hg
  rcases bind_eq_err.mp h with hpages | ⟨_, m₁, -, hsync⟩
  · exact channelPages_err (fun va hva => ownSlot_pageStep hdisj hva) hpages
  · exact absurd hsync (by simp [partPtSyncKernPgdir, Op.modify])

/-! ## Every operation -/

/-- **The step lemma.** -/
theorem spaceStep_advances {op : SpaceOp} (hdisj : Disjoint B (chanSlots m.channelBase))
    (hpriv : op.Private B (chanSlots m.channelBase) m) (hu : Housed B (chanSlots m.channelBase) use m)
    (h : spaceStep m op = .ok m') :
    ∃ use', Housed B (chanSlots m.channelBase) use' m' ∧ Advances (op.part m) use use' m m' := by
  cases op with
  | partCreate memoryReq prog => exact partCreate_advances hpriv hu h
  | procAlloc pt stackSize =>
      rw [spaceStep] at h
      split at h
      · rename_i hpt
        rcases Res.settled_eq_ok h with ⟨stk, hx⟩ | hx
        · exact (staysIn_procAllocMem hpt hpriv hx).advances hu
        · rw [procAllocMem_err hx]
          exact (StaysIn.refl (some pt) m).advances hu
      · exact absurd h (by simp)
  | partPtAlloc pt va perm =>
      rw [spaceStep] at h
      split at h
      · rename_i hpt
        rcases Res.settled_eq_ok h with ⟨f, hx⟩ | hx
        · exact (staysIn_partPtAlloc hpt (hpriv va List.mem_cons_self) hx).advances hu
        · -- an allocation that fails may leave tables behind, all of them of the partition
          exact (staysIn_partPtAlloc_err hpt (hpriv va List.mem_cons_self) hx hu).advances hu
      · exact absurd h (by simp)
  | pagefault pt va super store =>
      rw [spaceStep] at h
      split at h
      · rename_i hpt
        rcases Res.settled_eq_ok h with ⟨x, hx⟩ | hx
        · -- only a page of the communication area can be one that another partition has
          refine (staysIn_doPagefault hpt (fun hcomm => hpriv va ?_) hx).advances hu
          rw [SpaceOp.pages, if_pos ⟨hcomm.1, hcomm.2⟩]
          exact List.mem_cons_self
        · -- a fault that is refused stops the kernel
          exact absurd hx doPagefault_ne_err
      · exact absurd h (by simp)
  | channelMemSetup =>
      rcases Res.settled_eq_ok h with ⟨x, hx⟩ | hx
      · obtain ⟨use', hu', hadv, -⟩ := channelMemSetup_ok hdisj hu hx
        exact ⟨use', hu', hadv⟩
      · exact (channelMemSetup_err hdisj hx).advances_kern hu
  | syncKernPgdir =>
      have hsync : (partPtSyncKernPgdir m).settled = .ok m' := h
      rcases Res.settled_eq_ok hsync with ⟨x, hx⟩ | hx
      · obtain ⟨hu', hadv⟩ := sync_advances (fun i hi => chanSlots_lt hi) hu hx
        exact ⟨use, hu', hadv⟩
      · exact absurd hx (by simp [partPtSyncKernPgdir, Op.modify])

/-! ## The start -/

/-- **The memory at boot**: no partitions; free frames are listed once and are not referenced; the tables of the
kernel are different frames, none of them free; and nothing is mapped yet in the slots of channel memory. -/
structure BootSpace (m : Mem) : Prop where
  parts : m.partIds = []
  unreferenced : ∀ f, m.Free f → m.pfRef f = 0
  ways : OpenWays m m.kernPgdir Set.univ
  channel : ∀ i ∈ chanSlots m.channelBase, (m.pte ⟨m.kernPgdir, i⟩).perm.v = false

/-- The use of a table of the kernel, by its place. -/
def kernUse (m : Mem) : TableSlot → Use
  | .root _ => .root none
  | .mid _ i => .mid none i
  | .leaf r i j => .leaf none i (m.pte ⟨r, i⟩).ppn j

open Classical in
/-- The uses of the frames at boot. -/
noncomputable def bootUse (m : Mem) (f : Ppn) : Use :=
  if h : ∃ p ∈ onWays m.kernPgdir Set.univ, tableAt m p = some f then kernUse m h.choose
  else if m.Free f then .free else .other

namespace BootSpace

variable (h : BootSpace m)

include h in
/-- A table of the kernel is used by its place. -/
theorem bootUse_table {p : TableSlot} (hp : p ∈ onWays m.kernPgdir Set.univ) (ht : tableAt m p = some t) :
    bootUse m t = kernUse m p := by
  have hex : ∃ p ∈ onWays m.kernPgdir Set.univ, tableAt m p = some t := ⟨p, hp, ht⟩
  obtain ⟨hchoose, htable⟩ := hex.choose_spec
  rw [bootUse, dif_pos hex, h.ways.levels _ hchoose p hp t htable ht]

/-- Any two indices are those of an address. -/
theorem exists_va (hi : i < 512) {j : Nat} (hj : j < 512) : ∃ va, vpn2 va = i ∧ vpn1 va = j := by
  refine ⟨i * 2 ^ 30 + j * 2 ^ 21, ?_, ?_⟩
  · unfold vpn2
    omega
  · unfold vpn1
    omega

theorem mid_mem_univ (r : Ppn) (hi : i < 512) : .mid r i ∈ onWays r Set.univ := by
  obtain ⟨va, rfl, -⟩ := exists_va hi (Nat.zero_lt_succ 511)
  exact mid_mem_onWays (Set.mem_univ va)

theorem leaf_mem_univ (r : Ppn) (hi : i < 512) {j : Nat} (hj : j < 512) : .leaf r i j ∈ onWays r Set.univ := by
  obtain ⟨va, rfl, rfl⟩ := exists_va hi hj
  exact slot_mem_onWays (Set.mem_univ va)

theorem root_mem_univ (r : Ppn) : .root r ∈ onWays r Set.univ := root_mem_onWays (Set.mem_univ 0)

/-- The places of the tables of a root. -/
theorem mem_onWays_univ {r : Ppn} {p : TableSlot} (hp : p ∈ onWays r Set.univ) :
    p = .root r ∨ (∃ i < 512, p = .mid r i) ∨ ∃ i < 512, ∃ j < 512, p = .leaf r i j := by
  obtain ⟨va, -, hp⟩ := hp
  simp only [onWay, List.mem_cons, List.not_mem_nil, or_false] at hp
  rcases hp with rfl | rfl | rfl
  · exact Or.inl rfl
  · exact Or.inr (Or.inl ⟨_, vpn2_lt va, rfl⟩)
  · exact Or.inr (Or.inr ⟨_, vpn2_lt va, _, vpn1_lt va, rfl⟩)

/-- **What the frames are used for at boot**: a root, a middle table or a bottom table of the kernel, or none. -/
theorem bootUse_cases (m : Mem) (t : Ppn) :
    (t = m.kernPgdir ∧ bootUse m t = .root none) ∨
      (∃ i < 512, (m.pte ⟨m.kernPgdir, i⟩).target = some t ∧ bootUse m t = .mid none i) ∨
      (∃ i < 512, ∃ j < 512, ∃ p, (m.pte ⟨m.kernPgdir, i⟩).target = some p ∧ bootUse m t = .leaf none i p j) ∨
      bootUse m t = .free ∨ bootUse m t = .other := by
  by_cases hex : ∃ p ∈ onWays m.kernPgdir Set.univ, tableAt m p = some t
  · obtain ⟨hchoose, htable⟩ := hex.choose_spec
    have huse : bootUse m t = kernUse m hex.choose := dif_pos hex
    generalize hex.choose = p at hchoose htable huse
    rcases mem_onWays_univ hchoose with rfl | ⟨i, hi, rfl⟩ | ⟨i, hi, j, hj, rfl⟩
    · exact Or.inl ⟨(Option.some.inj htable).symm, huse⟩
    · exact Or.inr (Or.inl ⟨i, hi, htable, huse⟩)
    · have hpath : (m.pte ⟨m.kernPgdir, i⟩).target.bind (fun p => (m.pte ⟨p, j⟩).target) = some t := htable
      obtain ⟨p, hp, -⟩ := Option.bind_eq_some_iff.mp hpath
      refine Or.inr (Or.inr (Or.inl ⟨i, hi, j, hj, p, hp, huse.trans ?_⟩))
      rw [kernUse, (Pte.target_eq_some.mp hp).2]
  · rw [bootUse, dif_neg hex]
    split
    · exact Or.inr (Or.inr (Or.inr (Or.inl rfl)))
    · exact Or.inr (Or.inr (Or.inr (Or.inr rfl)))

/-- **At boot** every frame is used where the entries say. -/
theorem housed (h : BootSpace m) : Housed (kernSlots m) (chanSlots m.channelBase) (bootUse m) m := by
  -- there are no partitions yet
  have hnone : ∀ {P : PartId → Prop}, ∀ pt ∈ m.partIds, P pt := by
    intro P pt hpt
    rw [h.parts] at hpt
    exact absurd hpt List.not_mem_nil
  constructor
  · exact h.ways.nodup
  · intro f hf
    have hnot : ¬ ∃ p ∈ onWays m.kernPgdir Set.univ, tableAt m p = some f := by
      rintro ⟨p, hp, ht⟩
      exact h.ways.noTable p hp f ht hf
    rw [bootUse, dif_neg hnot, if_pos hf]
  · exact h.unreferenced
  · exact h.bootUse_table (root_mem_univ _) rfl
  · exact hnone
  · exact hnone
  · intro t k f u hk ht hhangs
    rcases bootUse_cases m t with ⟨rfl, huse⟩ | ⟨i, hi, htop, huse⟩ | ⟨i, hi, j, hj, p, htop, huse⟩ | huse | huse
    · rw [huse] at hhangs
      cases hhangs
      exact h.bootUse_table (mid_mem_univ _ hk) ht
    · rw [huse] at hhangs
      cases hhangs
      have htable : tableAt m (.leaf m.kernPgdir i k) = some f := by
        show (m.pte ⟨m.kernPgdir, i⟩).target.bind _ = _
        rw [htop]
        exact ht
      rw [h.bootUse_table (leaf_mem_univ _ hi hk) htable, kernUse, (Pte.target_eq_some.mp htop).2]
    · -- nothing is said about the pages that the kernel has at boot
      rw [huse] at hhangs
      cases hhangs with
      | leaf hnot => exact absurd ⟨hi, (Pte.target_eq_some.mp htop).1⟩ (hnot rfl)
    · rw [huse] at hhangs
      cases hhangs
    · rw [huse] at hhangs
      cases hhangs
  · -- the slots of the kernel are those that are valid at boot
    rintro i ⟨-, hv⟩
    exact ⟨_, if_pos hv⟩
  · exact fun i hi t ht => Or.inl ⟨hi, (Pte.target_eq_some.mp ht).1⟩
  · exact hnone

/-- The slots of channel memory are not those of the kernel at boot. -/
theorem disjoint (h : BootSpace m) : Disjoint (kernSlots m) (chanSlots m.channelBase) := by
  rw [Set.disjoint_left]
  rintro i ⟨-, hv⟩ hi
  exact absurd (hv.symm.trans (h.channel i hi)) (by simp)

end BootSpace

/-! ## Isolation -/

/-- **The frames that a root reaches through slots that are not valid for the kernel**: tables and pages, and the
root itself. -/
inductive OwnFrame (m : Mem) (r : Ppn) : Ppn → Prop
  | root : OwnFrame m r r
  | mid {i : Nat} {t : Ppn} (hi : i < 512) (hkern : (m.pte ⟨m.kernPgdir, i⟩).perm.v = false)
      (ht : (m.pte ⟨r, i⟩).target = some t) : OwnFrame m r t
  | leaf {i j : Nat} {t t' : Ppn} (hi : i < 512) (hkern : (m.pte ⟨m.kernPgdir, i⟩).perm.v = false)
      (ht : (m.pte ⟨r, i⟩).target = some t) (hj : j < 512) (ht' : (m.pte ⟨t, j⟩).target = some t') : OwnFrame m r t'
  | page {i j k : Nat} {t t' f : Ppn} (hi : i < 512) (hkern : (m.pte ⟨m.kernPgdir, i⟩).perm.v = false)
      (ht : (m.pte ⟨r, i⟩).target = some t) (hj : j < 512) (ht' : (m.pte ⟨t, j⟩).target = some t') (hk : k < 512)
      (hf : (m.pte ⟨t', k⟩).target = some f) : OwnFrame m r f

/-- **The partitions are isolated**: no frame is reached by two of them, and none that is reached is free. -/
structure Isolated (m : Mem) : Prop where
  apart : ∀ p ∈ m.partIds, ∀ q ∈ m.partIds, p ≠ q →
    ∀ f, OwnFrame m (m.parts p).paPgdir f → ¬ OwnFrame m (m.parts q).paPgdir f
  notFree : ∀ p ∈ m.partIds, ∀ f, OwnFrame m (m.parts p).paPgdir f → ¬ m.Free f

/-- The middle tables of a partition in slots that the kernel has not are its own. -/
theorem Housed.mid_own (h : Housed B C use m) (hpt : pt ∈ m.partIds) (hi : i < 512)
    (hkern : (m.pte ⟨m.kernPgdir, i⟩).perm.v = false) (ht : (m.pte ⟨(m.parts pt).paPgdir, i⟩).target = some t) :
    use t = .mid (some pt) i ∧ i ∉ B ∧ i ∉ C := by
  have hnone : ∀ t, (m.pte ⟨m.kernPgdir, i⟩).target ≠ some t := by
    intro t ht
    exact absurd (hkern.symm.trans ((Pte.target_eq_some.mp ht).1)) (by simp)
  have hown : ¬ (i ∈ B ∨ i ∈ C) := fun hslot => hnone t (h.shared pt hpt i hi hslot t ht)
  obtain ⟨hB, hC⟩ := not_or.mp hown
  refine ⟨h.entries _ i t _ hi ht ?_, hB, hC⟩
  rw [h.parts pt hpt]
  exact .partRoot hB hC

/-- **A frame that a partition reaches through its own slots is its own.** -/
theorem Housed.owner_of_ownFrame (h : Housed B C use m) (hpt : pt ∈ m.partIds)
    (hf : OwnFrame m (m.parts pt).paPgdir f) : (use f).owner = some (some pt) := by
  cases hf with
  | root =>
      rw [h.parts pt hpt]
      rfl
  | mid hi hkern ht =>
      rw [(h.mid_own hpt hi hkern ht).1]
      rfl
  | leaf hi hkern ht hj ht' =>
      have hmid := (h.mid_own hpt hi hkern ht).1
      have hleaf := h.entries _ _ _ _ hj ht' (by rw [hmid]; exact .mid)
      rw [hleaf]
      rfl
  | page hi hkern ht hj ht' hk hf =>
      have hmid := (h.mid_own hpt hi hkern ht).1
      have hleaf := h.entries _ _ _ _ hj ht' (by rw [hmid]; exact .mid)
      have hpage := h.entries _ _ _ _ hk hf (by rw [hleaf]; exact .leaf fun ho => absurd ho (by simp))
      rw [hpage]
      rfl

theorem Housed.isolated (h : Housed B C use m) : Isolated m where
  apart p hp q hq hne f hpf hqf := by
    have howner := (h.owner_of_ownFrame hp hpf).symm.trans (h.owner_of_ownFrame hq hqf)
    exact hne (Option.some.inj (Option.some.inj howner))
  notFree p hp f hpf hfree := by
    have howner := h.owner_of_ownFrame hp hpf
    rw [h.free f hfree] at howner
    exact absurd howner (by simp [Use.owner])

/-! ## Lookups -/

/-- **What a partition sees of its address space is the same**: an address is mapped by the same entry, which is the
same up to its accessed and dirty bits, and in a slot that the kernel has not the same altogether. -/
structure SameLookups (q : PartId) (m m' : Mem) : Prop where
  place : ∀ va, leafOf m' (m'.parts q).paPgdir va = leafOf m (m.parts q).paPgdir va
  entry : ∀ va a, leafOf m (m.parts q).paPgdir va = some a → (m'.pte a).bare = (m.pte a).bare
  own : ∀ va a, leafOf m (m.parts q).paPgdir va = some a → (m.pte ⟨m.kernPgdir, vpn2 va⟩).perm.v = false →
    m'.pte a = m.pte a

/-- A lookup sees the entries on its way without their accessed and dirty bits. -/
theorem leafOf_congr {r : Ppn} (hroot : (m'.pte ⟨r, vpn2 va⟩).bare = (m.pte ⟨r, vpn2 va⟩).bare)
    (hmid : ∀ t, (m.pte ⟨r, vpn2 va⟩).target = some t → (m'.pte ⟨t, vpn1 va⟩).bare = (m.pte ⟨t, vpn1 va⟩).bare)
    (hleaf : ∀ t, tableAt m (pageOf r va).slot = some t → (m'.pte ⟨t, vpn0 va⟩).bare = (m.pte ⟨t, vpn0 va⟩).bare) :
    leafOf m' r va = leafOf m r va := by
  have hslot : tableAt m' (pageOf r va).slot = tableAt m (pageOf r va).slot := by
    show (m'.pte ⟨r, vpn2 va⟩).target.bind (fun t => (m'.pte ⟨t, vpn1 va⟩).target) =
      (m.pte ⟨r, vpn2 va⟩).target.bind fun t => (m.pte ⟨t, vpn1 va⟩).target
    rw [Pte.bare_target hroot]
    cases htop : (m.pte ⟨r, vpn2 va⟩).target with
    | none => rfl
    | some t => exact Pte.bare_target (hmid t htop)
  rw [leafOf_eq, leafOf_eq, found, found, hslot]
  cases ht : tableAt m (pageOf r va).slot with
  | none => rfl
  | some t =>
      have hv : (m'.pte ⟨t, (pageOf r va).k⟩).perm.v = (m.pte ⟨t, (pageOf r va).k⟩).perm.v :=
        Pte.bare_valid (hleaf t ht)
      rw [Option.bind_some, Option.bind_some, hv]
      split <;> rfl

/-- **A step for one partition leaves the lookups of the others alone.** -/
theorem Advances.sameLookups {p q : PartId} (h : Advances (some p) use use' m m') (hu : Housed B C use m)
    (hq : q ∈ m.partIds) (hne : q ≠ p) : SameLookups q m m' := by
  have hc := h.confined p rfl
  -- the tables of the partition are its own or those of the kernel
  have hother : ∀ t o, (o = some q ∨ o = none) → (use t).owner = some o →
      use t ≠ .free ∧ (use t).owner ≠ some (some p) := by
    rintro t o ho howner
    refine ⟨fun hfree => ?_, fun heq => ?_⟩
    · rw [hfree] at howner
      exact absurd howner (by simp [Use.owner])
    · have hop := Option.some.inj (howner.symm.trans heq)
      rcases ho with rfl | rfl
      · exact hne (Option.some.inj hop)
      · exact absurd hop (by simp)
  have hroot : (use (m.parts q).paPgdir).owner = some (some q) := by
    rw [hu.parts q hq]
    rfl
  have hbare : ∀ t o, (o = some q ∨ o = none) → (use t).owner = some o → ∀ k,
      (m'.pte ⟨t, k⟩).bare = (m.pte ⟨t, k⟩).bare := by
    intro t o ho howner
    obtain ⟨hfree, hp⟩ := hother t o ho howner
    exact hc.bare t hfree hp
  have hleaf : ∀ va t, tableAt m (pageOf (m.parts q).paPgdir va).slot = some t → ∀ k,
      (m'.pte ⟨t, k⟩).bare = (m.pte ⟨t, k⟩).bare := by
    intro va t ht
    obtain ⟨o, i, p', j, huse, ho⟩ := hu.leaf_part hq ht
    exact hbare t o ho (by rw [huse]; rfl)
  have hplace : ∀ va a, leafOf m (m.parts q).paPgdir va = some a →
      tableAt m (pageOf (m.parts q).paPgdir va).slot = some a.table := by
    intro va a ha
    rw [leafOf_eq] at ha
    obtain ⟨⟨a', e⟩, hfound, rfl⟩ := Option.map_eq_some_iff.mp ha
    exact (found_eq_some hfound).1
  constructor
  · intro va
    rw [h.roots q hq]
    refine leafOf_congr (hbare _ _ (Or.inl rfl) hroot _) (fun t ht => ?_) fun t ht => hleaf va t ht _
    obtain ⟨o, huse, ho⟩ := hu.mid_part hq (vpn2_lt va) ht
    exact hbare t o ho (by rw [huse]; rfl) _
  · exact fun va a ha => hleaf va a.table (hplace va a ha) a.idx
  · intro va a ha hkern
    have hpath : (m.pte ⟨(m.parts q).paPgdir, vpn2 va⟩).target.bind (fun t => (m.pte ⟨t, vpn1 va⟩).target) =
        some a.table := hplace va a ha
    obtain ⟨t, htop, hmid⟩ := Option.bind_eq_some_iff.mp hpath
    have howner : (use a.table).owner = some (some q) :=
      hu.owner_of_ownFrame hq (.leaf (vpn2_lt va) hkern htop (vpn1_lt va) hmid)
    obtain ⟨hfree, hp⟩ := hother a.table (some q) (Or.inl rfl) howner
    have hram := hc.ram a.table hfree hp (by rw [howner]; simp)
    exact congrFun hram a.idx

/-! ## Channel memory in all partitions -/

/-- **Every partition resolves channel memory as the kernel does.** -/
def ChannelShared (m : Mem) : Prop :=
  ∀ pt ∈ m.partIds, ∀ va, chanBase ≤ va → va < m.channelBase →
    (leafOf m m.kernPgdir va).isSome = true ∧ leafOf m (m.parts pt).paPgdir va = leafOf m m.kernPgdir va

theorem Shares.channelShared (h : Shares m) : ChannelShared m := by
  intro pt hpt va hlo hhi
  have hsome := h.mapped va hlo hhi
  obtain ⟨t, hkern, hpart⟩ := h.filled pt hpt _ ⟨va, hlo, hhi, rfl⟩
  have hslot : tableAt m (pageOf (m.parts pt).paPgdir va).slot = tableAt m (pageOf m.kernPgdir va).slot := by
    show (m.pte ⟨(m.parts pt).paPgdir, vpn2 va⟩).target.bind _ = (m.pte ⟨m.kernPgdir, vpn2 va⟩).target.bind _
    rw [hpart, hkern]
    rfl
  have hfound : found m (pageOf (m.parts pt).paPgdir va) = found m (pageOf m.kernPgdir va) := by
    rw [found, found, hslot]
    rfl
  rw [leafOf_eq, leafOf_eq, hfound]
  exact ⟨by rwa [Option.isSome_map], rfl⟩

/-! ## Runs -/

/-- The run has set up channel memory. -/
def ChannelsUp (tr : List (Mem × SpaceOp)) : Prop :=
  ∃ x ∈ tr, x.2 = .channelMemSetup ∧ ∃ u b, channelMemSetup x.1 = .ok u b

/-- A step for a partition leaves the lookups of the others alone. -/
def LeavesLookups (a : Mem) (op : SpaceOp) : Prop :=
  ∀ b, spaceStep a op = .ok b → ∀ p, op.part a = some p → ∀ q ∈ a.partIds, q ≠ p → SameLookups q a b

/-- **The invariant of runs.** -/
structure SpaceInv (B : Set Nat) (base : Nat) (tr : List (Mem × SpaceOp)) (m : Mem) : Prop where
  channelBase : m.channelBase = base
  housed : ∃ use, Housed B (chanSlots base) use m
  shares : ChannelsUp tr → Shares m

/-- **The run lemma.** -/
theorem spaceInv_of_exec {m₀ : Mem} {tr : List (Mem × SpaceOp)} (hboot : BootSpace m₀)
    (hrun : Exec spaceStep m₀ tr m)
    (hpriv : AllSteps (fun a op => op.Private (kernSlots m₀) (chanSlots m₀.channelBase) a) tr) :
    SpaceInv (kernSlots m₀) m₀.channelBase tr m ∧ Throughout Isolated tr m ∧ AllSteps LeavesLookups tr := by
  induction hrun with
  | nil =>
      have hnone : ¬ ChannelsUp [] := fun ⟨_, hx, _⟩ => absurd hx List.not_mem_nil
      exact ⟨⟨rfl, ⟨bootUse m₀, hboot.housed⟩, fun hup => absurd hup hnone⟩,
        (throughout_nil _ _).mpr hboot.housed.isolated, allSteps_nil _⟩
  | @snoc tr a b op hrun hstep ih =>
      obtain ⟨hpre, hlast⟩ := (allSteps_snoc _ _ _ _).mp hpriv
      obtain ⟨⟨hbase, ⟨use, hu⟩, hshares⟩, hisolated, hlookups⟩ := ih hpre
      -- the base of the channels does not move, so that their slots are those of the boot
      have hdisj := hboot.disjoint
      rw [← hbase] at hu hlast hdisj
      obtain ⟨use', hu', hadv⟩ := spaceStep_advances hdisj hlast hu hstep
      refine ⟨⟨hadv.channelBase.trans hbase, ⟨use', ?_⟩, fun hup => ?_⟩,
        (throughout_snoc _ _ _ _ _).mpr ⟨hisolated, hu'.isolated⟩,
        (allSteps_snoc _ _ _ _).mpr ⟨hlookups, fun b' hb' p hp q hq hne => ?_⟩⟩
      · rwa [hbase] at hu'
      · -- the channels were up before, or this step sets them up
        obtain ⟨x, hx, hop, u, m', hok⟩ := hup
        rcases List.mem_append.mp hx with hx | hx
        · exact (hshares ⟨x, hx, hop, u, m', hok⟩).advances hdisj hu hadv
        · obtain rfl := List.mem_singleton.mp hx
          obtain rfl : op = .channelMemSetup := hop
          obtain ⟨-, -, -, hs⟩ := channelMemSetup_ok hdisj hu hok
          have hsettled : (channelMemSetup a).settled = .ok b := hstep
          rw [hok] at hsettled
          obtain rfl : m' = b := Except.ok.inj hsettled
          exact hs
      · obtain rfl : b = b' := Except.ok.inj (hstep.symm.trans hb')
        exact (hp ▸ hadv).sameLookups hu hq hne

/-- **Spatial isolation.** In a run in which all pages are mapped in private slots, no frame is shared or free that a
partition reaches through its own slots, no operation changes what another partition sees, and once channel memory is
set up all partitions resolve it as the kernel does. -/
theorem partitions_isolated {m₀ : Mem} {tr : List (Mem × SpaceOp)} (hboot : BootSpace m₀)
    (hrun : Exec spaceStep m₀ tr m)
    (hpriv : AllSteps (fun a op => op.Private (kernSlots m₀) (chanSlots m₀.channelBase) a) tr) :
    Throughout Isolated tr m ∧ AllSteps LeavesLookups tr ∧ (ChannelsUp tr → ChannelShared m) := by
  obtain ⟨hinv, hisolated, hlookups⟩ := spaceInv_of_exec hboot hrun hpriv
  exact ⟨hisolated, hlookups, fun hup => (hinv.shares hup).channelShared⟩

/-! ## Two boards -/

/-- The entry of a page that the kernel maps to itself. -/
def samePte (f : Ppn) : Pte := ⟨{ v := true, r := true, w := true, g := true, a := true, d := true }, f⟩

/-- The tables of the kernel on a board with two ranges of 2 MiB, one at `0x80000000` and one at the start of a
slot. -/
def boardRam (slot : Nat) (t : Ppn) (k : Nat) : Pte :=
  if t = 0x80000 then
    if k = 2 then tablePte 0x80001 else if k = slot then tablePte 0x80003 else Pte.zero
  else if t = 0x80001 then if k = 0 then tablePte 0x80002 else Pte.zero
  else if t = 0x80002 then if k < 512 then samePte (0x80000 + k) else Pte.zero
  else if t = 0x80003 then if k = 0 then tablePte 0x80004 else Pte.zero
  else if t = 0x80004 then if k < 512 then samePte (slot * 2 ^ 18 + k) else Pte.zero
  else Pte.zero

/-- The memory of the board at boot, with channels of one page. -/
def boardMem (slot : Nat) : Mem :=
  { Mem.none with
    mems := [⟨0x80000000, 0x200000⟩, ⟨slot * 2 ^ 30, 0x200000⟩]
    pfFreeList := [(List.range 64).map (0x80010 + ·), (List.range 64).map (slot * 2 ^ 18 + ·)]
    ram := boardRam slot
    kernPgdir := 0x80000
    channelBase := chanBase + 0x1000 }

section Boards

variable {slot : Nat}

theorem chanSlots_board (slot : Nat) : chanSlots (boardMem slot).channelBase = {212} := by
  ext i
  constructor
  · rintro ⟨va, hlo, hhi, rfl⟩
    show vpn2 va = 212
    have hhi' : va < chanBase + 0x1000 := hhi
    unfold chanBase vpn2 at *
    omega
  · rintro rfl
    exact ⟨chanBase, Nat.le_refl _, Nat.lt_add_of_pos_right (by decide), by decide⟩

theorem kernSlots_board (hslot : slot < 512) : kernSlots (boardMem slot) = {2, slot} := by
  ext i
  show i < 512 ∧ (boardRam slot 0x80000 i).perm.v = true ↔ i = 2 ∨ i = slot
  rw [boardRam, if_pos rfl]
  by_cases h2 : i = 2
  · simp [h2, tablePte]
  · by_cases hs : i = slot
    · rw [if_neg h2, if_pos hs]
      exact iff_of_true ⟨hs ▸ hslot, rfl⟩ (Or.inr hs)
    · rw [if_neg h2, if_neg hs]
      exact iff_of_false (fun h => absurd h.2 (by decide)) (not_or.mpr ⟨h2, hs⟩)

/-- The root of the kernel has two entries. -/
theorem boardRoot_target (h : ((boardMem slot).pte ⟨0x80000, i⟩).target = some t) :
    i = 2 ∧ t = 0x80001 ∨ i = slot ∧ t = 0x80003 := by
  have hram : (boardRam slot 0x80000 i).target = some t := h
  rw [boardRam, if_pos rfl] at hram
  split at hram
  · rename_i h2
    exact Or.inl ⟨h2, (Option.some.inj hram).symm⟩
  split at hram
  · rename_i hs
    exact Or.inr ⟨hs, (Option.some.inj hram).symm⟩
  · exact absurd hram (by simp)

/-- Its middle tables have one entry each. -/
theorem boardMid_target {j : Nat} {t' : Ppn} (ht : t = 0x80001 ∨ t = 0x80003)
    (h : ((boardMem slot).pte ⟨t, j⟩).target = some t') : j = 0 ∧ t' = t + 1 := by
  have hram : (boardRam slot t j).target = some t' := h
  rcases ht with rfl | rfl
  · simp only [boardRam] at hram
    by_cases hj : j = 0
    · simp_all
    · simp [hj] at hram
  · simp only [boardRam] at hram
    by_cases hj : j = 0
    · simp_all
    · simp [hj] at hram

/-- The places of the tables of the kernel. -/
theorem board_table {p : TableSlot} (hp : p ∈ onWays 0x80000 Set.univ) (ht : tableAt (boardMem slot) p = some t) :
    p = .root 0x80000 ∧ t = 0x80000 ∨ p = .mid 0x80000 2 ∧ t = 0x80001 ∨ p = .mid 0x80000 slot ∧ t = 0x80003 ∨
      p = .leaf 0x80000 2 0 ∧ t = 0x80002 ∨ p = .leaf 0x80000 slot 0 ∧ t = 0x80004 := by
  rcases BootSpace.mem_onWays_univ hp with rfl | ⟨i, -, rfl⟩ | ⟨i, -, j, -, rfl⟩
  · exact Or.inl ⟨rfl, (Option.some.inj ht).symm⟩
  · rcases boardRoot_target ht with ⟨rfl, rfl⟩ | ⟨rfl, rfl⟩
    · exact Or.inr (Or.inl ⟨rfl, rfl⟩)
    · exact Or.inr (Or.inr (Or.inl ⟨rfl, rfl⟩))
  · have hpath : ((boardMem slot).pte ⟨0x80000, i⟩).target.bind (fun p => ((boardMem slot).pte ⟨p, j⟩).target) =
        some t := ht
    obtain ⟨p, htop, hmid⟩ := Option.bind_eq_some_iff.mp hpath
    rcases boardRoot_target htop with ⟨rfl, rfl⟩ | ⟨rfl, rfl⟩
    · obtain ⟨rfl, rfl⟩ := boardMid_target (Or.inl rfl) hmid
      exact Or.inr (Or.inr (Or.inr (Or.inl ⟨rfl, rfl⟩)))
    · obtain ⟨rfl, rfl⟩ := boardMid_target (Or.inr rfl) hmid
      exact Or.inr (Or.inr (Or.inr (Or.inr ⟨rfl, rfl⟩)))

/-- **The board at boot.** -/
theorem bootSpace_board (hchan : slot ≠ 212) (hlo : 3 ≤ slot) : BootSpace (boardMem slot) where
  parts := rfl
  unreferenced _ _ := rfl
  ways := by
    -- every free frame lies behind the tables of the boot image
    have hfree : ∀ f : Nat, (boardMem slot).Free f → 0x80010 ≤ f := by
      intro f hf
      simp only [Mem.Free, boardMem, List.flatten_cons, List.flatten_nil, List.append_nil, List.mem_append,
        List.mem_map] at hf
      rcases hf with ⟨a, -, rfl⟩ | ⟨a, -, rfl⟩
      · exact Nat.le_add_right _ a
      · show (0x80010 : Nat) ≤ slot * 2 ^ 18 + a
        omega
    refine ⟨?_, fun p hp t ht hf => ?_, fun p hp q hq t hpt hqt => ?_⟩
    · simp only [boardMem, List.flatten_cons, List.flatten_nil, List.append_nil]
      refine List.nodup_append.mpr ⟨?_, ?_, fun a ha b hb hab => ?_⟩
      · exact List.nodup_range.map fun _ _ hab => Nat.add_left_cancel hab
      · exact List.nodup_range.map fun _ _ hab => Nat.add_left_cancel hab
      · obtain ⟨x, hx, rfl⟩ := List.mem_map.mp ha
        obtain ⟨y, hy, rfl⟩ := List.mem_map.mp hb
        rw [List.mem_range] at hx hy
        have heq : (0x80010 + x : Nat) = (slot * 2 ^ 18 + y : Nat) := hab
        omega
    · -- the five tables lie before them
      have hle := hfree t hf
      rcases board_table hp ht with ⟨-, rfl⟩ | ⟨-, rfl⟩ | ⟨-, rfl⟩ | ⟨-, rfl⟩ | ⟨-, rfl⟩ <;>
        exact absurd hle (by decide)
    · -- and they are five frames
      rcases board_table hp hpt with ⟨rfl, rfl⟩ | ⟨rfl, rfl⟩ | ⟨rfl, rfl⟩ | ⟨rfl, rfl⟩ | ⟨rfl, rfl⟩ <;>
        rcases board_table hq hqt with ⟨rfl, h⟩ | ⟨rfl, h⟩ | ⟨rfl, h⟩ | ⟨rfl, h⟩ | ⟨rfl, h⟩ <;>
        first
          | rfl
          | exact absurd h (by decide)
  channel i hi := by
    rw [chanSlots_board] at hi
    obtain rfl : i = 212 := hi
    show (boardRam slot 0x80000 212).perm.v = false
    rw [boardRam, if_pos rfl, if_neg (by decide), if_neg hchan.symm]
    rfl

end Boards

/-- A program with a main stack of two pages. -/
def largerProg : Prog where
  loads := [⟨0x400000, 0x1000, 0x1000, true, false, true⟩]
  mainProcStacktop := 0x1fffffe000
  eEntry := 0x400000

/-- Whether a step sets up channel memory. -/
def setsUpChannels (a : Mem) : SpaceOp → Bool
  | .channelMemSetup => (channelMemSetup a).okAnd fun _ _ => true
  | _ => false

theorem setsUpChannels_eq_true {a : Mem} {op : SpaceOp} (h : setsUpChannels a op = true) :
    op = .channelMemSetup ∧ ∃ u b, channelMemSetup a = .ok u b := by
  cases op with
  | channelMemSetup =>
      obtain ⟨u, b, hok, -⟩ := Res.okAnd_eq_true.mp h
      exact ⟨rfl, u, b, hok⟩
  | _ => exact absurd h Bool.false_ne_true

/-- Two partitions, channel memory, and pages of all kinds. -/
def boardOps : List SpaceOp :=
  [.partCreate 0x30000 smallProg, .partCreate 0x30000 largerProg, .channelMemSetup, .procAlloc 1 0x800,
    .partPtAlloc 2 0x500000 { r := true, u := true }, .pagefault 2 commBase true true]

/-- A board with memory at `0x100000000`. -/
theorem partitions_isolated_board :
    ∃ tr m, Exec spaceStep (boardMem 4) tr m ∧ m.partIds = [1, 2] ∧ ChannelsUp tr ∧
      Throughout Isolated tr m ∧ AllSteps LeavesLookups tr ∧ (ChannelsUp tr → ChannelShared m) := by
  obtain ⟨m, hrun, hcheck⟩ := Exec.of_checkRun spaceStep (boardMem 4) boardOps
    (fun m => decide (m.partIds = [1, 2])) (by decide +kernel)
  have hboot : BootSpace (boardMem 4) := bootSpace_board (by decide) (by decide)
  have hpages : ((traceEvents spaceStep (boardMem 4) boardOps).all fun x =>
      (x.2.pages x.1).all fun va => decide (vpn2 va ∉ [2, 4, 212])) = true := by decide +kernel
  have hpriv : AllSteps (fun a op => op.Private (kernSlots (boardMem 4)) (chanSlots (boardMem 4).channelBase) a)
      (traceEvents spaceStep (boardMem 4) boardOps) := by
    intro x hx va hva
    have hnot := of_decide_eq_true (List.all_eq_true.mp (List.all_eq_true.mp hpages x hx) va hva)
    rw [kernSlots_board (by decide), chanSlots_board]
    simp only [List.mem_cons, List.not_mem_nil, or_false, not_or] at hnot
    exact ⟨not_or.mpr ⟨hnot.1, hnot.2.1⟩, hnot.2.2⟩
  have hup : ((traceEvents spaceStep (boardMem 4) boardOps).any fun x =>
      setsUpChannels x.1 x.2) = true := by decide +kernel
  refine ⟨_, m, hrun, of_decide_eq_true hcheck, ?_, partitions_isolated hboot hrun hpriv⟩
  obtain ⟨x, hx, hop⟩ := List.any_eq_true.mp hup
  exact ⟨x, hx, setsUpChannels_eq_true hop⟩

/-- The segments of a program lie in slots that are not valid for the kernel. -/
def SpaceOp.LoadsApart (a : Mem) : SpaceOp → Prop
  | .partCreate _ prog =>
      ∀ phdr ∈ prog.loads, ∀ va ∈ elf64LoadProg phdr, (a.pte ⟨a.kernPgdir, vpn2 va⟩).perm.v = false
  | _ => True

/-- On a board with memory in the slot below `USTKLIMIT` the stacks are mapped in tables that all partitions share:
a page of the stack of the second partition appears in the first one. -/
theorem partitions_isolated_wrong :
    ¬ ∀ (m₀ m : Mem) (tr : List (Mem × SpaceOp)), BootSpace m₀ → Exec spaceStep m₀ tr m →
      AllSteps (fun a op => op.LoadsApart a) tr →
      Throughout Isolated tr m ∧
        AllSteps (fun a op => ∀ b, spaceStep a op = .ok b → ∀ p, op.part a = some p → ∀ q ∈ a.partIds, q ≠ p →
          ∀ va, leafOf b (b.parts q).paPgdir va = leafOf a (a.parts q).paPgdir va) tr ∧
        (ChannelsUp tr → ChannelShared m) := by
  intro hall
  let ops : List SpaceOp := [.partCreate 0x30000 smallProg, .partCreate 0x30000 largerProg]
  -- two partitions are created, the second with a larger program
  obtain ⟨m, hrun, -⟩ := Exec.of_checkRun spaceStep (boardMem 127) ops (fun _ => true) (by decide +kernel)
  have hloads : ((traceEvents spaceStep (boardMem 127) ops).all fun x =>
      match x.2 with
      | .partCreate _ prog => (prog.loads.flatMap elf64LoadProg).all fun va =>
          !(x.1.pte ⟨x.1.kernPgdir, vpn2 va⟩).perm.v
      | _ => true) = true := by decide +kernel
  -- the stack of the second one is found under an address of the first one
  have happears : ((traceEvents spaceStep (boardMem 127) ops).any fun x =>
      match spaceStep x.1 x.2 with
      | .ok b => decide (x.2.part x.1 = some 2 ∧ 1 ∈ x.1.partIds ∧
          leafOf b (b.parts 1).paPgdir 0x1fffffe000 ≠ leafOf x.1 (x.1.parts 1).paPgdir 0x1fffffe000)
      | .error _ => false) = true := by decide +kernel
  -- no program has a page in a slot of the kernel
  have hapart : AllSteps (fun a op => op.LoadsApart a) (traceEvents spaceStep (boardMem 127) ops) := by
    intro x hx
    have hx' := List.all_eq_true.mp hloads x hx
    cases hop : x.2 with
    | partCreate memoryReq prog =>
        rw [hop] at hx'
        intro phdr hphdr va hva
        have hva' := List.all_eq_true.mp hx' va (List.mem_flatMap.mpr ⟨phdr, hphdr, hva⟩)
        simpa using hva'
    | _ => trivial
  obtain ⟨-, hlookups, -⟩ := hall _ m _ (bootSpace_board (by decide) (by decide)) hrun hapart
  obtain ⟨x, hx, happ⟩ := List.any_eq_true.mp happears
  split at happ
  · rename_i b hstep
    obtain ⟨hpart, hone, hne⟩ := of_decide_eq_true happ
    exact hne (hlookups x hx b hstep 2 hpart 1 hone (by decide) 0x1fffffe000)
  · exact absurd happ (by decide)

end Jrinx
