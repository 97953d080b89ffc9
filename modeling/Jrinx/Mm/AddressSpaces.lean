import Jrinx.Mm.OwnedPages
import Jrinx.Mm.Stacks

/-! # The operations on address spaces

`part_create`, `proc_alloc`, `part_pt_alloc`, `do_pagefault` and `channel_mem_setup`, seen from the frames:
each works within the frames of one owner, as long as it maps pages in the slots of that owner.

* **`StaysIn`** — a step within the frames of an owner.
* **`partAlloc_housed`** — the root of a new partition, a copy of that of the kernel.
* **`staysIn_partPtAlloc`**, **`staysIn_procAllocMem`**, **`staysIn_doPagefault`** — the operations of a partition.
* **`channelPages_ok`**, **`Housed.sync`** — channel memory, and the slots that partitions share. -/

namespace Jrinx

open Op

variable {B C : Set Nat} {use use' : Ppn → Use} {m m' m₁ : Mem} {o : Option PartId} {f t : Ppn}
  {i k va : Nat} {pt : PartId}

/-! ## Steps within the frames of an owner -/

/-- The same partitions with the same roots. -/
structure SameSpaces (m m' : Mem) : Prop where
  kernPgdir : m'.kernPgdir = m.kernPgdir
  channelBase : m'.channelBase = m.channelBase
  partIds : m'.partIds = m.partIds
  nxtPartId : m'.nxtPartId = m.nxtPartId
  roots : ∀ pt, (m'.parts pt).paPgdir = (m.parts pt).paPgdir

theorem SameSpaces.refl (m : Mem) : SameSpaces m m := ⟨rfl, rfl, rfl, rfl, fun _ => rfl⟩

theorem SameSpaces.trans (h : SameSpaces m m₁) (h' : SameSpaces m₁ m') : SameSpaces m m' :=
  ⟨h'.kernPgdir.trans h.kernPgdir, h'.channelBase.trans h.channelBase, h'.partIds.trans h.partIds,
    h'.nxtPartId.trans h.nxtPartId, fun pt => (h'.roots pt).trans (h.roots pt)⟩

theorem SameParts.spaces (h : SameParts m m') : SameSpaces m m' :=
  ⟨h.kernPgdir, h.channelBase, h.partIds, h.nxtPartId, fun pt => by rw [h.parts]⟩

theorem sameSpaces_updPart {g : PartMem → PartMem} (hg : ∀ p, (g p).paPgdir = p.paPgdir) :
    SameSpaces m (m.updPart pt g) := by
  refine ⟨rfl, rfl, rfl, rfl, fun q => ?_⟩
  by_cases hq : q = pt
  · rw [hq, parts_updPart, hg]
  · exact congrArg PartMem.paPgdir (Function.update_of_ne hq _ _)

theorem SameSpaces.rootOf (h : SameSpaces m m') (o : Option PartId) : m'.rootOf o = m.rootOf o := by
  cases o with
  | none => exact h.kernPgdir
  | some pt => exact h.roots pt

theorem SameSpaces.lives (h : SameSpaces m m') : m'.Lives o ↔ m.Lives o := by
  cases o with
  | none => rfl
  | some pt =>
      show pt ∈ m'.partIds ↔ pt ∈ m.partIds
      rw [h.partIds]

/-- **A step within the frames of an owner.** -/
structure StaysIn (B C : Set Nat) (o : Option PartId) (m m' : Mem) : Prop where
  spaces : SameSpaces m m'
  housed : ∀ use, Housed B C use m → ∃ use', Housed B C use' m' ∧ Confined o use use' m m'

theorem StaysIn.trans (h : StaysIn B C o m m₁) (h' : StaysIn B C o m₁ m') : StaysIn B C o m m' := by
  refine ⟨h.spaces.trans h'.spaces, fun use hu => ?_⟩
  obtain ⟨use₁, hu₁, hc₁⟩ := h.housed use hu
  obtain ⟨use', hu', hc'⟩ := h'.housed use₁ hu₁
  exact ⟨use', hu', hc₁.trans hc'⟩

/-- No frame is touched. -/
theorem SameSpaces.staysIn (h : SameSpaces m m') (hram : m'.ram = m.ram)
    (hlist : m'.pfFreeList = m.pfFreeList) (href : m'.pfRef = m.pfRef) (o : Option PartId) :
    StaysIn B C o m m' := by
  refine ⟨h, fun use hu => ⟨use, ?_, .refl o use hram⟩⟩
  exact hu.congr hram hlist (fun f _ => by rw [href]) h.kernPgdir h.partIds h.nxtPartId h.roots

theorem StaysIn.refl (o : Option PartId) (m : Mem) : StaysIn B C o m m :=
  (SameSpaces.refl m).staysIn rfl rfl rfl o

theorem staysIn_updPart {g : PartMem → PartMem} (hg : ∀ p, (g p).paPgdir = p.paPgdir) :
    StaysIn B C o m (m.updPart pt g) :=
  (sameSpaces_updPart hg).staysIn rfl rfl rfl o

/-- A new page. -/
theorem staysIn_newPage (ho : m.Lives o) (hi : OwnSlot B C o (vpn2 va)) {perm : Perm}
    (halloc : phyFrameAlloc m = .ok f m₁) {x : Unit} (hmap : ptMap (m.rootOf o) va f perm m₁ = .ok x m') :
    StaysIn B C o m m' := by
  have hsame := sameParts_ptMap _ va f perm (sameParts_phyFrameAlloc (.refl m) halloc) hmap
  refine ⟨hsame.spaces, fun use hu => ?_⟩
  obtain ⟨use', t, a, hu', hc, -⟩ := hu.newPage ho hi halloc hmap
  exact ⟨use', hu', hc⟩

/-- A loop stays within the frames of the owner if its rounds do. -/
theorem staysIn_forM {β : Type} {body : β → Op Mem Unit} {P : β → Prop} {l : List β} {x : Unit}
    (hbody : ∀ b m m' x, P b → m.Lives o → body b m = .ok x m' → StaysIn B C o m m')
    (hl : ∀ b ∈ l, P b) (ho : m.Lives o) (h : l.forM body m = .ok x m') : StaysIn B C o m m' := by
  refine forM_induct (P := fun l m m' => (∀ b ∈ l, P b) → m.Lives o → StaysIn B C o m m')
    (fun m _ _ => .refl o m) (fun b l m m₁ m' x hb ih hl ho => ?_) h hl ho
  have hround := hbody b m m₁ x (hl b List.mem_cons_self) ho hb
  exact hround.trans (ih (fun c hc => hl c (List.mem_cons_of_mem b hc)) (hround.spaces.lives.mpr ho))

/-! ## Pages of a partition -/

/-- `part_pt_alloc`. -/
theorem staysIn_partPtAlloc (hpt : pt ∈ m.partIds) (hi : OwnSlot B C (some pt) (vpn2 va)) {perm : Perm}
    (h : partPtAlloc pt va perm m = .ok f m') : StaysIn B C (some pt) m m' := by
  obtain ⟨-, m₁, m₂, halloc, hmap, rfl⟩ := partPtAlloc_eq_ok.mp h
  have hpaid : StaysIn B C (some pt) m (m.payPage pt) := staysIn_updPart fun _ => rfl
  have hlives : (m.payPage pt).Lives (some pt) := hpt
  rw [← hpaid.spaces.roots pt] at hmap
  exact (hpaid.trans (staysIn_newPage hlives hi halloc hmap)).trans (staysIn_updPart fun _ => rfl)

/-- A page of a stack. -/
theorem staysIn_stackPage (hpt : pt ∈ m.partIds) (hi : OwnSlot B C (some pt) (vpn2 va)) {perm : Perm}
    {x : Unit} (h : stackPage pt va perm m = .ok x m') : StaysIn B C (some pt) m m' := by
  obtain ⟨f, m₁, m₂, halloc, hmap, rfl⟩ := stackPage_eq_ok.mp h
  have hlives : m.Lives (some pt) := hpt
  exact (staysIn_newPage hlives hi halloc hmap).trans (staysIn_updPart fun _ => rfl)

/-- The pages of a stack. -/
theorem staysIn_stackPages (hpt : pt ∈ m.partIds) {top size : Nat} {perm : Perm} {x : Unit}
    (hi : ∀ va ∈ stackVas top size, OwnSlot B C (some pt) (vpn2 va))
    (h : (pageSteps 0 size).forM (fun i => stackPage pt (wordSub (wordSub top i) pgSize) perm) m = .ok x m') :
    StaysIn B C (some pt) m m' := by
  refine staysIn_forM (P := fun i => OwnSlot B C (some pt) (vpn2 (wordSub (wordSub top i) pgSize)))
    (fun b m m' x hb hlives hpage => staysIn_stackPage hlives hb hpage) (fun i hmem => ?_) hpt h
  exact hi _ (List.mem_map_of_mem hmem)

/-- **`proc_alloc`** maps the pages of the two stacks. -/
theorem staysIn_procAllocMem (hpt : pt ∈ m.partIds) {stacksize : Nat} {stk : Stacks}
    (hi : ∀ va ∈ procVas m pt stacksize, OwnSlot B C (some pt) (vpn2 va))
    (h : procAllocMem pt stacksize m = .ok stk m') : StaysIn B C (some pt) m m' := by
  obtain ⟨-, utop, m₂, xtop, hu, hx, rfl⟩ := procAllocMem_eq_ok.mp h
  obtain ⟨u, m₁, hpages, rfl, rfl⟩ := procUstackSetup_eq_ok.mp hu
  obtain ⟨u', m₃, hpages', rfl, rfl⟩ := procXstackSetup_eq_ok.mp hx
  rw [procVas, List.forall_mem_append] at hi
  have h₁ := staysIn_stackPages hpt hi.1 hpages
  have h₂ : StaysIn B C (some pt) m (m₁.updPart pt (chargeUstack (alignUp stacksize pgSize))) :=
    h₁.trans (staysIn_updPart fun _ => rfl)
  have hpt₂ : pt ∈ (m₁.updPart pt (chargeUstack (alignUp stacksize pgSize))).partIds := by
    rw [h₂.spaces.partIds]
    exact hpt
  -- the user stack leaves the pointer of the kernel stacks
  have htop : ((m₁.updPart pt (chargeUstack (alignUp stacksize pgSize))).parts pt).paXstacktop =
      (m.parts pt).paXstacktop := by
    rw [parts_updPart]
    exact (sameTops_forM (fun _ => sameTops_stackPage) _ hpages).kernel
  rw [htop] at hpages'
  exact h₂.trans ((staysIn_stackPages hpt₂ hi.2 hpages').trans (staysIn_updPart fun _ => rfl))

/-- **`part_load_prog`** maps the pages of the segments. -/
theorem staysIn_partLoadProg (hpt : pt ∈ m.partIds) {prog : Prog} {x : Unit}
    (hi : ∀ phdr ∈ prog.loads, ∀ va ∈ elf64LoadProg phdr, OwnSlot B C (some pt) (vpn2 va))
    (h : partLoadProg pt prog m = .ok x m') : StaysIn B C (some pt) m m' := by
  unfold partLoadProg at h
  obtain ⟨_, m₁, hloads, h⟩ := bind_eq_ok.mp h
  split at h
  · exact (fail_eq_ok.mp h).elim
  rw [← modify_eq_ok.mp h]
  have hsegments : StaysIn B C (some pt) m m₁ := by
    refine staysIn_forM (fun phdr m m' x hphdr hlives hsegment => ?_) hi hpt hloads
    refine staysIn_forM (fun va m m' x hva hlives hpage => ?_) hphdr hlives hsegment
    obtain ⟨f, m₂, hf, hend⟩ := bind_eq_ok.mp hpage
    obtain ⟨-, rfl⟩ := pure_eq_ok.mp hend
    exact staysIn_partPtAlloc hlives hva hf
  exact hsegments.trans (staysIn_updPart fun _ => rfl)

/-! ## Failures -/

/-- The tables on the way to an address in a slot of the owner are different frames, none of them free. -/
theorem Housed.clearWay (h : Housed B C use m) (ho : m.Lives o) (hi : OwnSlot B C o (vpn2 va)) :
    ClearWay m (m.rootOf o) va := by
  have huse : ∀ p ∈ onWay (m.rootOf o) va, ∀ t, tableAt m p = some t →
      (p = .root (m.rootOf o) ∧ use t = .root o) ∨
        (p = .mid (m.rootOf o) (vpn2 va) ∧ use t = .mid o (vpn2 va)) ∨
        (p = (pageOf (m.rootOf o) va).slot ∧ ∃ t', use t = .leaf o (vpn2 va) t' (vpn1 va)) := by
    have hmidUse : ∀ t, (m.pte ⟨m.rootOf o, vpn2 va⟩).target = some t → use t = .mid o (vpn2 va) :=
      fun t ht => h.mid_use ho hi (vpn2_lt va) ht
    intro p hp t ht
    simp only [onWay, List.mem_cons, List.not_mem_nil, or_false] at hp
    rcases hp with rfl | rfl | rfl
    · obtain rfl : m.rootOf o = t := Option.some.inj ht
      exact Or.inl ⟨rfl, h.rootOf ho⟩
    · exact Or.inr (Or.inl ⟨rfl, hmidUse t ht⟩)
    · have hpath : (m.pte ⟨m.rootOf o, vpn2 va⟩).target.bind (fun t => (m.pte ⟨t, vpn1 va⟩).target) = some t := ht
      obtain ⟨t', htop, hmid⟩ := Option.bind_eq_some_iff.mp hpath
      refine Or.inr (Or.inr ⟨rfl, t', h.entries _ _ _ _ (vpn1_lt va) hmid ?_⟩)
      rw [hmidUse t' htop]
      exact .mid
  refine ⟨h.nodup, h.unreferenced, fun p hp t ht hfree => ?_, fun p hp q hq t hpt hqt => ?_⟩
  · have hf := h.free t hfree
    rcases huse p hp t ht with ⟨-, hu⟩ | ⟨-, hu⟩ | ⟨-, t', hu⟩ <;> exact absurd (hf.symm.trans hu) (by simp)
  · rcases huse p hp t hpt with ⟨hp', hu⟩ | ⟨hp', hu⟩ | ⟨hp', t', hu⟩ <;>
      rcases huse q hq t hqt with ⟨hq', hv⟩ | ⟨hq', hv⟩ | ⟨hq', t'', hv⟩ <;>
      first
        | exact hp'.trans hq'.symm
        | exact absurd (hu.symm.trans hv) (by simp)

/-- A `part_pt_alloc` that returns an error mapped nothing. -/
theorem staysIn_partPtAlloc_err (hpt : pt ∈ m.partIds) (hi : OwnSlot B C (some pt) (vpn2 va)) {perm : Perm}
    (h : partPtAlloc pt va perm m = .err m') (hu : Housed B C use m) : StaysIn B C (some pt) m m' := by
  have hlives : m.Lives (some pt) := hpt
  have hway : ClearWay m (m.parts pt).paPgdir va := hu.clearWay hlives hi
  by_cases hbudget : (m.parts pt).paMemRem < pgSize
  · rw [partPtAlloc_of_budget hbudget, Res.err.injEq] at h
    rw [← h]
    exact .refl _ m
  by_cases hfree : m.freeFrames = 0
  · -- the budget is given back
    rw [partPtAlloc_of_noFrame hbudget hfree, Res.err.injEq] at h
    have hpaid : StaysIn B C (some pt) m (m.payPage pt) := staysIn_updPart fun _ => rfl
    rw [← h]
    exact hpaid.trans (staysIn_updPart fun _ => rfl)
  · obtain ⟨hok, hfatal⟩ := hway.partPtAlloc_of_frame hbudget hfree perm
    by_cases hmappable : Mappable m (m.parts pt).paPgdir va
    · obtain ⟨f, m₁, hsucceeds⟩ := hok hmappable
      exact absurd (h.symm.trans hsucceeds) (by simp)
    · exact absurd (h.symm.trans (hfatal hmappable)) (by simp)

/-! ## Page faults -/

/-- The middle tables of a partition are its own, or those of the kernel. -/
theorem Housed.mid_part (h : Housed B C use m) (hpt : pt ∈ m.partIds) (hi : i < 512)
    (ht : (m.pte ⟨(m.parts pt).paPgdir, i⟩).target = some t) :
    ∃ o, use t = .mid o i ∧ (o = some pt ∨ o = none) := by
  by_cases hown : i ∈ B ∨ i ∈ C
  · -- a slot that is shared with the kernel
    have hkern := h.shared pt hpt i hi hown t ht
    refine ⟨none, h.entries _ _ _ _ hi hkern ?_, Or.inr rfl⟩
    rw [h.kern]
    exact .kernRoot
  · refine ⟨some pt, h.entries _ _ _ _ hi ht ?_, Or.inl rfl⟩
    rw [h.parts pt hpt]
    exact .partRoot (not_or.mp hown).1 (not_or.mp hown).2

/-- The bottom tables of a partition are its own, or those of the kernel. -/
theorem Housed.leaf_part (h : Housed B C use m) (hpt : pt ∈ m.partIds)
    (ht : tableAt m (pageOf (m.parts pt).paPgdir va).slot = some t) :
    ∃ o i p j, use t = .leaf o i p j ∧ (o = some pt ∨ o = none) := by
  have hpath : (m.pte ⟨(m.parts pt).paPgdir, vpn2 va⟩).target.bind (fun p => (m.pte ⟨p, vpn1 va⟩).target) =
      some t := ht
  obtain ⟨p, htop, hmid⟩ := Option.bind_eq_some_iff.mp hpath
  obtain ⟨o, hu, ho⟩ := h.mid_part hpt (vpn2_lt va) htop
  refine ⟨o, vpn2 va, p, vpn1 va, h.entries _ _ _ _ (vpn1_lt va) hmid ?_, ho⟩
  rw [hu]
  exact .mid

/-- The accessed and dirty bits of an entry are set. -/
theorem staysIn_markAccess (hpt : pt ∈ m.partIds) {a : PteAddr} {e : Pte}
    (hfound : found m (pageOf (m.parts pt).paPgdir va) = some (a, e)) (store : Bool) :
    StaysIn B C (some pt) m (markAccess a store m) := by
  obtain ⟨hslot, -⟩ := found_eq_some hfound
  refine ⟨⟨rfl, rfl, rfl, rfl, fun _ => rfl⟩, fun use hu => ⟨use, ?_, ?_⟩⟩
  · obtain ⟨o, i, t, j, huse, -⟩ := hu.leaf_part hpt hslot
    refine hu.write (t := a.table) (k := a.idx) (fun o' ho' => ?_) fun f v hk ht hhangs => ?_
    · exact absurd (huse.symm.trans ho') (by simp)
    · exact hu.entries a.table a.idx f v hk ht hhangs
  · obtain ⟨o, i, t, j, huse, ho⟩ := hu.leaf_part hpt hslot
    have hpte : ∀ b, (markAccess a store m).pte b =
        if b = a then { m.pte a with perm := { (m.pte a).perm with a := true, d := (m.pte a).perm.d || store } }
        else m.pte b := fun b => Mem.pte_setPte m a b _
    refine ⟨⟨fun _ _ => rfl, fun g _ k f ht => ?_, fun g _ k hv => ?_⟩, fun _ _ _ => rfl,
      fun g _ _ k => ?_, fun g _ hown hkern => ?_⟩
    · rw [hpte]
      split
      · next heq => exact (congrArg (fun b => (m.pte b).target) heq).symm.trans ht
      · exact ht
    · rw [hpte]
      split
      · next heq => exact (congrArg (fun b => (m.pte b).perm.v) heq).symm.trans hv
      · exact hv
    · rw [hpte]
      split
      · next heq =>
          rw [heq]
          rfl
      · rfl
    · funext k
      refine (hpte ⟨g, k⟩).trans (if_neg fun heq => ?_)
      -- the table is one of the partition or of the kernel
      have hg : g = a.table := congrArg PteAddr.table heq
      rw [hg, huse] at hown hkern
      rcases ho with rfl | rfl
      · exact hown rfl
      · exact hkern rfl

/-- **`do_pagefault`** allocates a communication page, or marks a page. -/
theorem staysIn_doPagefault (hpt : pt ∈ m.partIds) {super store : Bool} {x : Unit}
    (hi : InComm va → OwnSlot B C (some pt) (vpn2 va)) (h : doPagefault pt va super store m = .ok x m') :
    StaysIn B C (some pt) m m' := by
  cases hfound : found m (pageOf (m.parts pt).paPgdir va) with
  | some ae =>
      obtain ⟨a, e⟩ := ae
      rw [doPagefault_of_found hfound, Res.ok.injEq] at h
      rw [← h.2]
      exact staysIn_markAccess hpt hfound store
  | none =>
      obtain ⟨⟨-, hcomm⟩, f, m₁, a, halloc, hmapped, rfl⟩ := (doPagefault_of_unmapped store hfound).mp h
      have h₁ := staysIn_partPtAlloc (B := B) (C := C) hpt (hi hcomm) halloc
      obtain ⟨⟨a', e⟩, hfound₁, rfl⟩ := Option.map_eq_some_iff.mp hmapped
      rw [← h₁.spaces.roots pt] at hfound₁
      exact h₁.trans (staysIn_markAccess (h₁.spaces.partIds ▸ hpt) hfound₁ store)

/-! ## A new partition -/

/-- The memory after `part_alloc` registered the partition whose root is in the frame. -/
def Mem.register (m : Mem) (frame : Ppn) (memoryReq : Nat) : Mem :=
  { m with
    ram := Function.update m.ram frame (m.ram m.kernPgdir)
    parts := Function.update m.parts m.nxtPartId
      { paPgdir := frame, paMemReq := memoryReq, paMemRem := memoryReq,
        paUstasktop := ustkLimit, paXstacktop := xstkLimit, paCommBase := commBase,
        paEntrypoint := 0, paMainProcStacksize := 0, paGiven := 0 }
    partIds := m.partIds ++ [m.nxtPartId]
    nxtPartId := m.nxtPartId + 1 }

theorem partAlloc_eq_ok {memoryReq : Nat} : partAlloc memoryReq m = .ok pt m' ↔
    pt = m.nxtPartId ∧ ∃ f m₁, phyFrameAlloc m = .ok f m₁ ∧ m' = m₁.register f memoryReq := by
  constructor
  · intro h
    obtain ⟨frame, m₁, hframe, h⟩ := bind_eq_ok.mp h
    obtain ⟨_, _, hg, h⟩ := bind_eq_ok.mp h
    obtain ⟨rfl, rfl⟩ := get_eq_ok.mp hg
    obtain ⟨_, m₂, hm₂, h⟩ := bind_eq_ok.mp h
    obtain ⟨rfl, rfl⟩ := pure_eq_ok.mp h
    exact ⟨(sameParts_phyFrameAlloc (.refl m) hframe).nxtPartId, frame, m₁, hframe, (modify_eq_ok.mp hm₂).symm⟩
  · rintro ⟨rfl, f, m₁, hframe, rfl⟩
    have hnxt := (sameParts_phyFrameAlloc (.refl m) hframe).nxtPartId
    exact bind_eq_ok.mpr ⟨f, m₁, hframe, bind_eq_ok.mpr ⟨m₁, m₁, rfl, bind_eq_ok.mpr
      ⟨(), _, rfl, pure_eq_ok.mpr ⟨hnxt, rfl⟩⟩⟩⟩

section Register

variable {memoryReq : Nat}

theorem register_root : ((m.register f memoryReq).parts m.nxtPartId).paPgdir = f := by
  simp [Mem.register]

theorem register_old {q : PartId} (hq : q ≠ m.nxtPartId) :
    ((m.register f memoryReq).parts q).paPgdir = (m.parts q).paPgdir := by
  simp [Mem.register, hq]

theorem mem_register {q : PartId} : q ∈ (m.register f memoryReq).partIds ↔ q ∈ m.partIds ∨ q = m.nxtPartId := by
  simp [Mem.register]

theorem register_copy : (m.register f memoryReq).pte ⟨f, i⟩ = m.pte ⟨m.kernPgdir, i⟩ := by
  simp [Mem.register, Mem.pte]

theorem register_pte (ht : t ≠ f) : (m.register f memoryReq).pte ⟨t, i⟩ = m.pte ⟨t, i⟩ := by
  simp [Mem.register, Mem.pte, ht]

/-- The new root points where the root of the kernel does. -/
theorem Housed.register (h : Housed B C use m) (hf : use f = .root (some m.nxtPartId)) :
    Housed B C use (m.register f memoryReq) := by
  -- the new root is neither that of the kernel nor that of an older partition
  have hkern : m.kernPgdir ≠ f := by
    intro heq
    have hroot := h.kern
    rw [heq, hf] at hroot
    exact absurd hroot (by simp)
  have hne : ∀ q ∈ m.partIds, q ≠ m.nxtPartId := fun q hq => (h.ids q hq).ne
  constructor
  · exact h.nodup
  · exact h.free
  · exact h.unreferenced
  · exact h.kern
  · intro q hq
    rcases mem_register.mp hq with hq | rfl
    · rw [register_old (hne q hq)]
      exact h.parts q hq
    · rw [register_root]
      exact hf
  · intro q hq
    rcases mem_register.mp hq with hq | rfl
    · exact (h.ids q hq).trans (Nat.lt_succ_self _)
    · exact Nat.lt_succ_self _
  · intro t k g v hk ht hhangs
    by_cases htf : t = f
    · -- the kernel has nothing in the slots that are not shared
      rw [htf, hf] at hhangs
      rw [htf, register_copy] at ht
      cases hhangs with
      | partRoot hB hC => exact absurd (h.slots k hk g ht) (not_or.mpr ⟨hB, hC⟩)
    · rw [register_pte htf] at ht
      exact h.entries t k g v hk ht hhangs
  · intro i hi
    show ∃ t, ((m.register f memoryReq).pte ⟨m.kernPgdir, i⟩).target = some t
    rw [register_pte hkern]
    exact h.boot i hi
  · intro i hi t ht
    have ht' : ((m.register f memoryReq).pte ⟨m.kernPgdir, i⟩).target = some t := ht
    rw [register_pte hkern] at ht'
    exact h.slots i hi t ht'
  · intro q hq i hi hslot t ht
    show ((m.register f memoryReq).pte ⟨m.kernPgdir, i⟩).target = some t
    rw [register_pte hkern]
    rcases mem_register.mp hq with hq | rfl
    · have hqf : (m.parts q).paPgdir ≠ f := by
        intro heq
        have hroot := h.parts q hq
        rw [heq, hf, Use.root.injEq, Option.some.injEq] at hroot
        exact hne q hq hroot.symm
      rw [register_old (hne q hq), register_pte hqf] at ht
      exact h.shared q hq i hi hslot t ht
    · -- the new root is a copy of the root of the kernel
      rwa [register_root, register_copy] at ht

end Register

/-- **`part_alloc`**: a new root, with the entries of the root of the kernel. -/
theorem partAlloc_housed {memoryReq : Nat} (h : partAlloc memoryReq m = .ok pt m') (hu : Housed B C use m) :
    ∃ use', Housed B C use' m' ∧ Confined (some pt) use use' m m' ∧
      ∀ i, m'.pte ⟨(m'.parts pt).paPgdir, i⟩ = m.pte ⟨m.kernPgdir, i⟩ := by
  obtain ⟨rfl, f, m₁, hframe, rfl⟩ := partAlloc_eq_ok.mp h
  have hsame := sameParts_phyFrameAlloc (.refl m) hframe
  obtain ⟨hf, hhoused, -, hpte₁⟩ := hu.take hframe (.root (some m.nxtPartId))
  have hused : ∀ g, use g ≠ .free → g ≠ f := fun g hg heq => hg (by rw [heq, hf])
  have htable : ∀ g, (use g).IsTable → g ≠ f := by
    rintro g hg rfl
    rw [hf] at hg
    exact hg
  -- the copy is written to the new frame only
  have hothers : ∀ g i, g ≠ f → (m₁.register f memoryReq).pte ⟨g, i⟩ = m.pte ⟨g, i⟩ := by
    intro g i hg
    rw [register_pte hg, hpte₁ g i hg]
  have hnew : Function.update use f (.root (some m.nxtPartId)) f = .root (some m₁.nxtPartId) := by
    rw [Function.update_self, hsame.nxtPartId]
  refine ⟨_, hhoused.register hnew, ⟨⟨?_, ?_, ?_⟩, ?_, ?_, ?_⟩, fun i => ?_⟩
  · exact fun g hg => Function.update_of_ne (htable g hg) _ _
  · intro g hg k f' ht
    rwa [hothers g k (htable g hg.isTable)]
  · intro g hg k hv
    rwa [hothers g k (htable g hg)]
  · exact fun g hg _ => Function.update_of_ne (hused g hg) _ _
  · intro g hg _ k
    rw [hothers g k (hused g hg)]
  · intro g hg _ _
    funext k
    exact hothers g k (hused g hg)
  · rw [← hsame.nxtPartId, register_root, register_copy, hsame.kernPgdir]
    exact hpte₁ _ _ (hused _ (by rw [hu.kern]; simp))

/-! ## Channel memory -/

/-- A page that the owner mapped stays mapped while the tables are kept. -/
theorem Kept.found_isSome (hk : Kept use use' m m') (h : Housed B C use m) (ho : m.Lives o)
    (hi : OwnSlot B C o (vpn2 va)) (hsome : (found m (pageOf (m.rootOf o) va)).isSome = true) :
    (found m' (pageOf (m.rootOf o) va)).isSome = true := by
  obtain ⟨⟨a, e⟩, hfound⟩ := Option.isSome_iff_exists.mp hsome
  obtain ⟨t, hto, he, hv⟩ := h.comesTo ho hi hfound
  have hroot : (use (m.rootOf o)).IsLink := by
    rw [h.rootOf ho]
    trivial
  have hmid : (use t).IsLink := by
    rw [h.mid_use ho hi (vpn2_lt va) hto.top]
    trivial
  have hleaf : (use a.table).IsTable := by
    rw [hto.use]
    trivial
  have hto' : ComesTo o use' m' (m.rootOf o) va t a :=
    ⟨hk.links _ hroot _ _ hto.top, hk.links _ hmid _ _ hto.mid, (hk.tables _ hleaf).trans hto.use, hto.idx⟩
  rw [hto'.found.2 (hk.valid _ hleaf a.idx (he ▸ hv))]
  rfl

/-- A round of the loop of `channel_mem_setup`. -/
def channelPage (kern : Ppn) (va : Nat) : Op Mem Unit := do
  let frame ← phyFrameAlloc
  Op.panicE (ptMap kern va frame chanPerm)

/-- The loop of `channel_mem_setup`. -/
def channelPages (kern : Ppn) (vas : List Nat) : Op Mem Unit := vas.forM (channelPage kern)

/-- The kernel maps a page in one of its own slots. -/
theorem channelPage_ok (hi : OwnSlot B C none (vpn2 va)) {x : Unit}
    (h : channelPage m.kernPgdir va m = .ok x m') :
    StaysIn B C none m m' ∧
      ∀ use, Housed B C use m → (found m' (pageOf m'.kernPgdir va)).isSome = true := by
  obtain ⟨f, m₁, halloc, hmap⟩ := bind_eq_ok.mp h
  have hlives : m.Lives none := trivial
  have hstays := staysIn_newPage hlives hi halloc (panicE_eq_ok.mp hmap)
  refine ⟨hstays, fun use hu => ?_⟩
  obtain ⟨use', t, a, -, -, hto, hv⟩ := hu.newPage hlives hi halloc (panicE_eq_ok.mp hmap)
  have hfound : found m' (pageOf m.kernPgdir va) = some (a, m'.pte a) := hto.found.2 hv
  rw [hstays.spaces.kernPgdir, hfound]
  rfl

/-- A round that returns an error had no frame. -/
theorem channelPage_err {kern : Ppn} (h : channelPage kern va m = .err m') : m' = m := by
  rcases bind_eq_err.mp h with halloc | ⟨f, m₁, -, hmap⟩
  · exact phyFrameAlloc_err halloc
  · exact absurd hmap panicE_ne_err

/-- **The loop of `channel_mem_setup`**: in the end all its pages are mapped. -/
theorem channelPages_ok {vas : List Nat} (hi : ∀ va ∈ vas, OwnSlot B C none (vpn2 va)) {x : Unit}
    (h : channelPages m.kernPgdir vas m = .ok x m') :
    StaysIn B C none m m' ∧
      ∀ use, Housed B C use m → ∀ va ∈ vas, (found m' (pageOf m'.kernPgdir va)).isSome = true := by
  have hrun := forM_induct (P := fun vas m₁ m₂ => m₁.kernPgdir = m.kernPgdir →
    (∀ va ∈ vas, OwnSlot B C none (vpn2 va)) → StaysIn B C none m₁ m₂ ∧
      ∀ use, Housed B C use m₁ → ∀ va ∈ vas, (found m₂ (pageOf m₂.kernPgdir va)).isSome = true)
    (fun m₁ _ _ => ⟨.refl none m₁, fun _ _ _ hva => absurd hva List.not_mem_nil⟩)
    (fun va vas m₁ m₂ m₃ x hround ih hkern hi => ?_) h
  · exact hrun rfl hi
  · rw [← hkern] at hround
    obtain ⟨hstays, hmapped⟩ := channelPage_ok (hi va List.mem_cons_self) hround
    obtain ⟨hrest, hrestMapped⟩ := ih (hstays.spaces.kernPgdir.trans hkern)
      fun va' hva' => hi va' (List.mem_cons_of_mem va hva')
    refine ⟨hstays.trans hrest, fun use hu va' hva' => ?_⟩
    obtain ⟨use₂, hu₂, -⟩ := hstays.housed use hu
    rcases List.mem_cons.mp hva' with rfl | hva'
    · -- the page of this round stays mapped in the rest
      obtain ⟨use₃, -, hc⟩ := hrest.housed use₂ hu₂
      rw [hrest.spaces.kernPgdir]
      exact hc.toKept.found_isSome (o := none) hu₂ trivial (hi va' List.mem_cons_self) (hmapped use hu)
    · exact hrestMapped use₂ hu₂ va' hva'

/-- A loop that returns an error kept to the frames of the kernel. -/
theorem channelPages_err {vas : List Nat} (hi : ∀ va ∈ vas, OwnSlot B C none (vpn2 va))
    (h : channelPages m.kernPgdir vas m = .err m') : StaysIn B C none m m' := by
  obtain ⟨vas₁, va, vas₂, m₁, rfl, hok, herr⟩ := forM_eq_err h
  rw [channelPage_err herr]
  exact (channelPages_ok (fun va' hva' => hi va' (List.mem_append_left _ hva')) hok).1

/-! ## Shared slots -/

/-- One round of `part_pt_sync_kern_pgdir`. -/
def Mem.syncPart (m : Mem) (pt : PartId) : Mem :=
  let root := (m.parts pt).paPgdir
  { m with ram := Function.update m.ram root (syncRoot (m.ram m.kernPgdir) (m.ram root)) }

theorem syncPart_pte_of_ne (ht : t ≠ (m.parts pt).paPgdir) : (m.syncPart pt).pte ⟨t, k⟩ = m.pte ⟨t, k⟩ := by
  simp [Mem.syncPart, Mem.pte, ht]

theorem syncPart_pte :
    (m.syncPart pt).pte ⟨(m.parts pt).paPgdir, k⟩ =
      if k < 512 ∧ (m.pte ⟨m.kernPgdir, k⟩).perm.v = true ∧ (m.pte ⟨(m.parts pt).paPgdir, k⟩).perm.v = false then
        m.pte ⟨m.kernPgdir, k⟩
      else m.pte ⟨(m.parts pt).paPgdir, k⟩ := by
  have hroot : (m.syncPart pt).ram (m.parts pt).paPgdir =
      syncRoot (m.ram m.kernPgdir) (m.ram (m.parts pt).paPgdir) := Function.update_self _ _ _
  exact congrFun hroot k

/-- An entry that is valid stays as it is. -/
theorem syncPart_of_valid (hv : (m.pte ⟨t, k⟩).perm.v = true) : (m.syncPart pt).pte ⟨t, k⟩ = m.pte ⟨t, k⟩ := by
  by_cases ht : t = (m.parts pt).paPgdir
  · rw [ht] at hv ⊢
    rw [syncPart_pte, if_neg]
    rintro ⟨-, -, hinv⟩
    exact absurd (hv.symm.trans hinv) (by simp)
  · exact syncPart_pte_of_ne ht

theorem kept_syncPart (m : Mem) (pt : PartId) (use : Ppn → Use) : Kept use use m (m.syncPart pt) where
  tables _ _ := rfl
  links t _ k f ht := by
    rwa [syncPart_of_valid ((Pte.target_eq_some.mp ht).1)]
  valid t _ k hv := by rwa [syncPart_of_valid hv]

/-- **The slots that a partition shares are filled**, and nothing else. -/
theorem Housed.syncPart (h : Housed B C use m) (hpt : pt ∈ m.partIds) : Housed B C use (m.syncPart pt) := by
  have hroot := h.parts pt hpt
  have hkern : ∀ i, (m.syncPart pt).pte ⟨m.kernPgdir, i⟩ = m.pte ⟨m.kernPgdir, i⟩ := by
    intro i
    refine syncPart_pte_of_ne fun heq => ?_
    exact absurd (h.kern.symm.trans ((congrArg use heq).trans hroot)) (by simp)
  -- what is new in an entry of the partition is the entry of the kernel
  have hnew : ∀ i, i < 512 → ∀ f, ((m.syncPart pt).pte ⟨(m.parts pt).paPgdir, i⟩).target = some f →
      (m.pte ⟨(m.parts pt).paPgdir, i⟩).target = some f ∨ (m.pte ⟨m.kernPgdir, i⟩).target = some f := by
    intro i _ f hf
    rw [syncPart_pte] at hf
    split at hf
    · exact Or.inr hf
    · exact Or.inl hf
  constructor
  · exact h.nodup
  · exact h.free
  · exact h.unreferenced
  · exact h.kern
  · exact h.parts
  · exact h.ids
  · intro t k f u hk ht hhangs
    by_cases heq : t = (m.parts pt).paPgdir
    · subst heq
      rcases hnew k hk f ht with ht | ht
      · exact h.entries _ k f u hk ht hhangs
      · rw [hroot] at hhangs
        cases hhangs with
        | partRoot hB hC => exact absurd (h.slots k hk f ht) (not_or.mpr ⟨hB, hC⟩)
    · rw [syncPart_pte_of_ne heq] at ht
      exact h.entries t k f u hk ht hhangs
  · intro i hi
    show ∃ t, ((m.syncPart pt).pte ⟨m.kernPgdir, i⟩).target = some t
    rw [hkern]
    exact h.boot i hi
  · intro i hi t ht
    have ht' : ((m.syncPart pt).pte ⟨m.kernPgdir, i⟩).target = some t := ht
    rw [hkern] at ht'
    exact h.slots i hi t ht'
  · intro q hq i hi hslot t ht
    have ht' : ((m.syncPart pt).pte ⟨(m.parts q).paPgdir, i⟩).target = some t := ht
    show ((m.syncPart pt).pte ⟨m.kernPgdir, i⟩).target = some t
    rw [hkern]
    by_cases heq : (m.parts q).paPgdir = (m.parts pt).paPgdir
    · rw [heq] at ht'
      rcases hnew i hi t ht' with ht' | ht'
      · exact h.shared pt hpt i hi hslot t ht'
      · exact ht'
    · rw [syncPart_pte_of_ne heq] at ht'
      exact h.shared q hq i hi hslot t ht'

/-- The partition has the entries of the kernel in the slots `C`. -/
def Filled (C : Set Nat) (m : Mem) (pt : PartId) : Prop :=
  ∀ i ∈ C, ∃ t, (m.pte ⟨m.kernPgdir, i⟩).target = some t ∧ (m.pte ⟨(m.parts pt).paPgdir, i⟩).target = some t

/-- What is filled stays filled. -/
theorem Filled.kept (hf : Filled C m pt) (h : Housed B C use m) (hpt : pt ∈ m.partIds) (hk : Kept use use' m m')
    (hkern : m'.kernPgdir = m.kernPgdir) (hroot : (m'.parts pt).paPgdir = (m.parts pt).paPgdir) :
    Filled C m' pt := by
  intro i hi
  obtain ⟨t, htop, hpart⟩ := hf i hi
  have hlinkKern : (use m.kernPgdir).IsLink := by
    rw [h.kern]
    trivial
  have hlinkPart : (use (m.parts pt).paPgdir).IsLink := by
    rw [h.parts pt hpt]
    trivial
  rw [hkern, hroot]
  exact ⟨t, hk.links _ hlinkKern i t htop, hk.links _ hlinkPart i t hpart⟩

theorem filled_syncPart (h : Housed B C use m) (hpt : pt ∈ m.partIds) (hC : ∀ i ∈ C, i < 512)
    (hkern : ∀ i ∈ C, ∃ t, (m.pte ⟨m.kernPgdir, i⟩).target = some t) : Filled C (m.syncPart pt) pt := by
  intro i hi
  obtain ⟨t, ht⟩ := hkern i hi
  have hv := (Pte.target_eq_some.mp ht).1
  refine ⟨t, ?_, ?_⟩
  · show ((m.syncPart pt).pte ⟨m.kernPgdir, i⟩).target = some t
    rwa [syncPart_of_valid hv]
  · show ((m.syncPart pt).pte ⟨(m.parts pt).paPgdir, i⟩).target = some t
    by_cases hpart : (m.pte ⟨(m.parts pt).paPgdir, i⟩).perm.v = true
    · have htarget := Pte.target_of_valid hpart
      have hshared := h.shared pt hpt i (hC i hi) (Or.inr hi) _ htarget
      rw [syncPart_of_valid hpart, htarget, ← hshared, ht]
    · rw [syncPart_pte, if_pos ⟨hC i hi, hv, by simpa using hpart⟩]
      exact ht

/-- The rounds of `part_pt_sync_kern_pgdir`, for some of the partitions. -/
theorem Housed.syncParts (h : Housed B C use m) (hC : ∀ i ∈ C, i < 512) {pts : List PartId}
    (hpts : ∀ pt ∈ pts, pt ∈ m.partIds) :
    Housed B C use (pts.foldl Mem.syncPart m) ∧ SameSpaces m (pts.foldl Mem.syncPart m) ∧
      Kept use use m (pts.foldl Mem.syncPart m) ∧
      ((∀ i ∈ C, ∃ t, (m.pte ⟨m.kernPgdir, i⟩).target = some t) →
        ∀ pt ∈ pts, Filled C (pts.foldl Mem.syncPart m) pt) := by
  induction pts generalizing m with
  | nil => exact ⟨h, .refl m, ⟨fun _ _ => rfl, fun _ _ _ _ ht => ht, fun _ _ _ hv => hv⟩,
      fun _ _ hpt => absurd hpt List.not_mem_nil⟩
  | cons pt pts ih =>
      have hpt := hpts pt List.mem_cons_self
      have hround := h.syncPart hpt
      have hkept := kept_syncPart m pt use
      have hspaces : SameSpaces m (m.syncPart pt) := ⟨rfl, rfl, rfl, rfl, fun _ => rfl⟩
      obtain ⟨hrest, hspacesRest, hkeptRest, hfilled⟩ := ih hround fun q hq => hpts q (List.mem_cons_of_mem pt hq)
      rw [List.foldl_cons]
      refine ⟨hrest, hspaces.trans hspacesRest, hkept.trans hkeptRest, fun hkern q hq => ?_⟩
      rcases List.mem_cons.mp hq with rfl | hq
      · -- what this round filled is kept by the others
        exact (filled_syncPart h hpt hC hkern).kept hround hpt hkeptRest hspacesRest.kernPgdir (hspacesRest.roots q)
      · refine hfilled (fun i hi => ?_) q hq
        obtain ⟨t, ht⟩ := hkern i hi
        refine ⟨t, hkept.links m.kernPgdir ?_ i t ht⟩
        rw [h.kern]
        trivial

/-- **`part_pt_sync_kern_pgdir`** fills the shared slots of all partitions. -/
theorem Housed.sync (h : Housed B C use m) (hC : ∀ i ∈ C, i < 512) {x : Unit}
    (hsync : partPtSyncKernPgdir m = .ok x m') :
    Housed B C use m' ∧ SameSpaces m m' ∧ Kept use use m m' ∧
      ((∀ i ∈ C, ∃ t, (m.pte ⟨m.kernPgdir, i⟩).target = some t) → ∀ pt ∈ m.partIds, Filled C m' pt) := by
  obtain rfl := modify_eq_ok.mp hsync
  exact h.syncParts hC fun _ hpt => hpt

end Jrinx
