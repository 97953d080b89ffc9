import Jrinx.Mm.FrameUses

/-! # Pages of an owner

What `pt_walk`, `pt_unmap` and `pt_map` do to the uses of the frames, where an owner maps a page in one of its
own slots.

* **`Housed.walk`** — the tables that a walk creates are tables of the owner.
* **`Housed.unmap`**, **`Housed.map`** — an old mapping goes, and a frame that was taken is mapped.
* **`Housed.newPage`** — a frame is taken and mapped, for a partition or for the kernel. -/

namespace Jrinx

open Op

variable {B C : Set Nat} {use use' use₁ : Ppn → Use} {m m' m₁ : Mem} {o : Option PartId} {f t : Ppn}
  {i k va : Nat} {u : Use} {pt : PartId}

/-- In a slot of the owner, the root of the owner points to its middle table. -/
theorem Housed.mid_use (h : Housed B C use m) (ho : m.Lives o) (hi : OwnSlot B C o i) (hlt : i < 512)
    (ht : (m.pte ⟨m.rootOf o, i⟩).target = some t) : use t = .mid o i := by
  refine h.entries _ _ _ _ hlt ht ?_
  rw [h.rootOf ho]
  exact hi.hangs _

/-! ## Walks -/

/-- The trees of the owner grew: no frame that was used changed its use. -/
structure Grown (o : Option PartId) (use use' : Ppn → Use) (m m' : Mem) : Prop extends
    Confined o use use' m m' where
  same : ∀ f, use f ≠ .free → use' f = use f

theorem Grown.refl (o : Option PartId) (use : Ppn → Use) (m : Mem) : Grown o use use m m :=
  ⟨.refl o use rfl, fun _ _ => rfl⟩

theorem Grown.trans (h : Grown o use use₁ m m₁) (h' : Grown o use₁ use' m₁ m') : Grown o use use' m m' := by
  refine ⟨h.toConfined.trans h'.toConfined, fun f hf => ?_⟩
  have hf₁ := h.same f hf
  rw [h'.same f (hf₁ ▸ hf), hf₁]

/-- Where a walk ends: the path from the root to the bottom table of the owner. -/
structure ComesTo (o : Option PartId) (use : Ppn → Use) (m : Mem) (r : Ppn) (va : Nat) (t : Ppn) (a : PteAddr) :
    Prop where
  top : (m.pte ⟨r, vpn2 va⟩).target = some t
  mid : (m.pte ⟨t, vpn1 va⟩).target = some a.table
  use : use a.table = .leaf o (vpn2 va) t (vpn1 va)
  idx : a.idx = vpn0 va

/-- A new table in an empty entry of a table of the owner. -/
theorem Grown.link {b : PteAddr} (hf : use f = .free) (ht : (use b.table).owner = some o)
    (hinv : (m.pte b).perm.v = false) (hsame : ∀ g k, g ≠ f → m₁.pte ⟨g, k⟩ = m.pte ⟨g, k⟩) (e : Pte) :
    Grown o use (Function.update use f u) m (m₁.setPte b e) := by
  have hused : ∀ g, use g ≠ .free → g ≠ f := fun g hg heq => hg (by rw [heq, hf])
  have huse : ∀ g, use g ≠ .free → Function.update use f u g = use g :=
    fun g hg => Function.update_of_ne (hused g hg) _ _
  refine ⟨confined_of_entry (fun g hg => Or.inl (huse g hg)) ht (k := b.idx) (fun g k hg hne => ?_)
    (fun _ => hinv) fun hv => ?_, huse⟩
  · rw [Mem.pte_setPte, if_neg hne, hsame g k (hused g hg)]
  · exact absurd (hinv.symm.trans hv) (by simp)

/-- The second half of a walk that creates tables. -/
theorem Housed.walkMid (h : Housed B C use m) {mid pa1 : Ppn} {a : PteAddr} (hmid : use mid = .mid o i)
    (hw : ptWalkMid mid va true pa1 m = .ok (some a) m') :
    ∃ use', Housed B C use' m' ∧ Grown o use use' m m' ∧ (m'.pte ⟨mid, vpn1 va⟩).target = some a.table ∧
      use' a.table = .leaf o i mid (vpn1 va) ∧ a.idx = vpn0 va := by
  unfold ptWalkMid PtOps.walkMid at hw
  obtain ⟨_, _, hg, hw⟩ := bind_eq_ok.mp hw
  obtain ⟨rfl, rfl⟩ := get_eq_ok.mp hg
  have hhangs : Hangs B C (use mid) mid (vpn1 va) (.leaf o i mid (vpn1 va)) := by
    rw [hmid]
    exact .mid
  by_cases hv : (m.pte ⟨mid, vpn1 va⟩).perm.v = true
  · -- the table is there
    simp only [hv, if_true] at hw
    obtain ⟨ha, rfl⟩ := pure_eq_ok.mp hw
    obtain rfl := Option.some.inj ha
    have htarget := Pte.target_of_valid hv
    exact ⟨use, h, .refl o use m, htarget, h.entries _ _ _ _ (vpn1_lt va) htarget hhangs, rfl⟩
  · -- it is taken from the free list and linked
    simp only [hv, if_false, Bool.false_eq_true, if_true] at hw
    obtain ⟨f, m₁, halloc, hw⟩ := bind_eq_ok.mp hw
    obtain ⟨_, m₂, hset, hw⟩ := bind_eq_ok.mp hw
    obtain ⟨ha, rfl⟩ := pure_eq_ok.mp hw
    obtain rfl := Option.some.inj ha
    rw [modify_eq_ok] at hset
    subst hset
    have halloc' := catchE_eq_ok_of_fails (ptPhyOps.undo_fails pa1) halloc
    obtain ⟨hf, hhoused, -, hsame⟩ := h.takeTable halloc' (.leaf o i mid (vpn1 va)) (by simp)
    -- the frame was free, and the middle table is not
    have hne : mid ≠ f := by
      rintro rfl
      exact absurd (hmid.symm.trans hf) (by simp)
    have hmid' : Function.update use f (.leaf o i mid (vpn1 va)) mid = .mid o i := by
      rw [Function.update_of_ne hne, hmid]
    refine ⟨_, hhoused.write (t := mid) (k := vpn1 va) (e := tablePte f) (fun o' => ?_) fun g v _ hg hv' => ?_,
      Grown.link (b := ⟨mid, vpn1 va⟩) hf ?_ (by simpa using hv) hsame _, ?_, Function.update_self _ _ _, rfl⟩
    · rw [hmid']
      simp
    · obtain rfl : f = g := Option.some.inj hg
      rw [hmid'] at hv'
      cases hv'
      exact Function.update_self _ _ _
    · rw [hmid]
      rfl
    · rw [Mem.pte_setPte, if_pos rfl, target_tablePte]

/-- **A walk that creates tables**, in a slot of the owner: all of them are tables of the owner. -/
theorem Housed.walk (h : Housed B C use m) (ho : m.Lives o) (hi : OwnSlot B C o (vpn2 va)) {a : PteAddr}
    (hw : ptWalk (m.rootOf o) va true m = .ok (some a) m') :
    ∃ use' t, Housed B C use' m' ∧ Grown o use use' m m' ∧ ComesTo o use' m' (m.rootOf o) va t a := by
  have hroot := h.rootOf ho
  unfold ptWalk PtOps.walk at hw
  obtain ⟨_, _, hg, hw⟩ := bind_eq_ok.mp hw
  obtain ⟨rfl, rfl⟩ := get_eq_ok.mp hg
  by_cases hv : (m.pte ⟨m.rootOf o, vpn2 va⟩).perm.v = true
  · -- the middle table is there, and belongs to the owner of the slot
    simp only [hv, if_true] at hw
    have htarget := Pte.target_of_valid hv
    have hmid := h.mid_use ho hi (vpn2_lt va) htarget
    obtain ⟨use', hhoused, hgrown, hleaf, huse, hidx⟩ := h.walkMid hmid hw
    have hlink : (use (m.rootOf o)).IsLink := by
      rw [hroot]
      trivial
    exact ⟨use', _, hhoused, hgrown, hgrown.links _ hlink _ _ htarget, hleaf, huse, hidx⟩
  · -- it is taken from the free list and linked in the root of the owner
    simp only [hv, if_false, Bool.false_eq_true, if_true] at hw
    obtain ⟨f, m₁, halloc, hw⟩ := bind_eq_ok.mp hw
    obtain ⟨_, m₂, hset, hw⟩ := bind_eq_ok.mp hw
    rw [modify_eq_ok] at hset
    subst hset
    have hsameParts := sameParts_ptFrameAlloc (.refl m) halloc
    have hinv : (m.pte ⟨m.rootOf o, vpn2 va⟩).perm.v = false := by simpa using hv
    obtain ⟨hf, hhoused, -, hsame⟩ := h.takeTable halloc (.mid o (vpn2 va)) (by simp)
    have hne : m.rootOf o ≠ f := by
      intro heq
      rw [heq, hf] at hroot
      exact absurd hroot (by simp)
    have hrootOf := hsameParts.rootOf o
    have hlives := hsameParts.lives.mpr ho
    -- taking the frame did not write the root
    have hinv₁ : (m₁.pte ⟨m₁.rootOf o, vpn2 va⟩).target = none := by
      rw [hrootOf, hsame _ _ hne, Pte.target_of_invalid hinv]
    have hlinked := hhoused.linkRoot hlives hi hinv₁ (Function.update_self f _ use)
    rw [hrootOf] at hlinked
    have hgrown : Grown o use (Function.update use f (.mid o (vpn2 va))) m
        (m₁.setPte ⟨m.rootOf o, vpn2 va⟩ (tablePte f)) := by
      refine Grown.link hf ?_ hinv hsame _
      show (use (m.rootOf o)).owner = _
      rw [hroot]
      rfl
    obtain ⟨use', hhoused', hgrown', hleaf, huse, hidx⟩ := hlinked.walkMid (Function.update_self f _ use) hw
    refine ⟨use', f, hhoused', hgrown.trans hgrown', ?_, hleaf, huse, hidx⟩
    refine hgrown'.links _ ?_ _ _ ?_
    · rw [Function.update_of_ne hne, hroot]
      trivial
    · rw [Mem.pte_setPte, if_pos rfl, target_tablePte]

/-! ## Pages -/

/-- The path that a walk came is the one that a lookup takes. -/
theorem ComesTo.found {a : PteAddr} {r : Ppn} (h : ComesTo o use m r va t a) :
    tableAt m (pageOf r va).slot = some a.table ∧
      ((m.pte a).perm.v = true → found m (pageOf r va) = some (a, m.pte a)) := by
  have hslot : tableAt m (pageOf r va).slot = some a.table := by
    show (m.pte ⟨r, vpn2 va⟩).target.bind _ = _
    rw [h.top, Option.bind_some]
    exact h.mid
  refine ⟨hslot, fun hv => ?_⟩
  have ha : (⟨a.table, (pageOf r va).k⟩ : PteAddr) = a := by
    show (⟨a.table, vpn0 va⟩ : PteAddr) = a
    rw [← h.idx]
  rw [found_of_some hslot, ha, if_pos hv]

/-- The entry that maps an address in a slot of the owner is one of a bottom table of the owner. -/
theorem Housed.comesTo (h : Housed B C use m) (ho : m.Lives o) (hi : OwnSlot B C o (vpn2 va)) {a : PteAddr}
    {e : Pte} (hfound : found m (pageOf (m.rootOf o) va) = some (a, e)) :
    ∃ t, ComesTo o use m (m.rootOf o) va t a ∧ e = m.pte a ∧ e.perm.v = true := by
  obtain ⟨hslot, ha, he, hv⟩ := found_eq_some hfound
  have hpath : (m.pte ⟨m.rootOf o, vpn2 va⟩).target.bind (fun t => (m.pte ⟨t, vpn1 va⟩).target) =
      some a.table := hslot
  obtain ⟨t, htop, hmid⟩ := Option.bind_eq_some_iff.mp hpath
  have hmidUse := h.mid_use ho hi (vpn2_lt va) htop
  have hleafUse : use a.table = .leaf o (vpn2 va) t (vpn1 va) := by
    refine h.entries _ _ _ _ (vpn1_lt va) hmid ?_
    rw [hmidUse]
    exact .mid
  exact ⟨t, ⟨htop, hmid, hleafUse, congrArg PteAddr.idx ha⟩, he, hv⟩

/-- The way to a bottom table stays while nothing but an entry of that table is written. -/
theorem Housed.comesTo_congr (h : Housed B C use m) (ho : m.Lives o) (hi : OwnSlot B C o (vpn2 va)) {a : PteAddr}
    (hto : ComesTo o use m (m.rootOf o) va t a) (hpte : ∀ b, b ≠ a → m'.pte b = m.pte b)
    (huse : use' a.table = use a.table) : ComesTo o use' m' (m.rootOf o) va t a := by
  have hmidUse := h.mid_use ho hi (vpn2_lt va) hto.top
  refine ⟨?_, ?_, huse.trans hto.use, hto.idx⟩
  · rw [hpte, hto.top]
    rintro rfl
    exact absurd ((h.rootOf ho).symm.trans hto.use) (by simp)
  · rw [hpte, hto.mid]
    intro heq
    have htable : t = a.table := congrArg PteAddr.table heq
    exact absurd (hmidUse.symm.trans ((congrArg use htable).trans hto.use)) (by simp)

/-- A frame that is used for nothing is linked in a free list. -/
theorem Housed.giveBack (h : Housed B C use m) (hf : use f = .free) (hnot : ¬ m.Free f) (sel : Nat) :
    Housed B C use { m with
      pfFreeList := m.pfFreeList.modify sel (fun fs => fs ++ [f])
      pfRef := Function.update m.pfRef f 0 } := by
  -- the list at sel gets one frame more, if there is such a list
  have hflat : (m.pfFreeList.modify sel (fun fs => fs ++ [f])).flatten.Perm (f :: m.pfFreeList.flatten) ∨
      m.pfFreeList.modify sel (fun fs => fs ++ [f]) = m.pfFreeList := by
    by_cases hsel : sel < m.pfFreeList.length
    · exact Or.inl (perm_modify_append hsel f)
    · exact Or.inr (List.modify_eq_self (not_lt.mp hsel))
  have hmem : ∀ g, g ∈ (m.pfFreeList.modify sel (fun fs => fs ++ [f])).flatten → g = f ∨ m.Free g := by
    intro g hg
    rcases hflat with hperm | hsame
    · exact List.mem_cons.mp (hperm.mem_iff.mp hg)
    · rw [hsame] at hg
      exact Or.inr hg
  refine { h with nodup := ?_, free := ?_, unreferenced := ?_ }
  · rcases hflat with hperm | hsame
    · exact hperm.nodup_iff.mpr (List.nodup_cons.mpr ⟨hnot, h.nodup⟩)
    · show (m.pfFreeList.modify sel (fun fs => fs ++ [f])).flatten.Nodup
      rw [hsame]
      exact h.nodup
  · intro g hg
    rcases hmem g hg with rfl | hg
    · exact hf
    · exact h.free g hg
  · intro g hg
    by_cases hgf : g = f
    · exact (congrArg _ hgf).trans (Function.update_self _ _ _)
    · exact (Function.update_of_ne hgf _ _).trans (h.unreferenced g ((hmem g hg).resolve_left hgf))

theorem pa2frame_eq_some {mems : List MemRange} {g : Ppn} (h : pa2frame mems f = some g) : g = f := by
  unfold pa2frame at h
  split at h
  · exact (Option.some.inj h).symm
  · exact absurd h (by simp)

/-- **An old mapping goes**: its entry is cleared, and its frame may become free. -/
theorem Housed.unmap (h : Housed B C use m) (ho : m.Lives o) (hi : OwnSlot B C o (vpn2 va)) {a : PteAddr}
    {e : Pte} (hfound : found m (pageOf (m.rootOf o) va) = some (a, e)) {x : Unit}
    (hu : ptUnmap (m.rootOf o) va m = .ok x m') :
    ∃ use', Housed B C use' m' ∧ (∀ g, use' g = use g ∨ (∃ p k, use g = .page o p k) ∧ use' g = .free) ∧
      ∀ b, m'.pte b = if b = a then Pte.zero else m.pte b := by
  obtain ⟨t, hto, he, hv⟩ := h.comesTo ho hi hfound
  rcases PtOps.unmap_eq_ok hu with ⟨hnone, -⟩ | ⟨a', e', m₁, hfound', hdec, rfl⟩
  · exact absurd (hfound.symm.trans hnone) (by simp)
  obtain ⟨rfl, rfl⟩ : a = a' ∧ e = e' := by
    rwa [hfound, Option.some.injEq, Prod.mk.injEq] at hfound'
  have hidx : a.idx < 512 := by
    rw [hto.idx]
    exact vpn0_lt va
  have htarget : (m.pte ⟨a.table, a.idx⟩).target = some e.ppn := by
    show (m.pte a).target = _
    rw [← he, Pte.target_of_valid hv]
  have hpage : use e.ppn = .page o a.table a.idx := by
    refine h.entries _ _ _ _ hidx htarget ?_
    rw [hto.use]
    exact .leaf fun _ => hi.not_boot
  -- the entry is cleared first; the reference that goes changes no table
  have hcleared : Housed B C use (m.setPte a Pte.zero) := by
    refine h.write (fun o' ho' => ?_) fun g v _ hg => ?_
    · exact absurd (hto.use.symm.trans ho') (by simp)
    · exact absurd hg (by simp)
  have hpte : ∀ b, (m.setPte a Pte.zero).pte b = if b = a then Pte.zero else m.pte b :=
    fun b => Mem.pte_setPte m a b Pte.zero
  have hdec' : ptFrameRefDec e.ppn m = .ok () m₁ := hdec
  unfold ptFrameRefDec at hdec'
  obtain ⟨_, _, hg, hdec'⟩ := bind_eq_ok.mp hdec'
  obtain ⟨rfl, rfl⟩ := get_eq_ok.mp hg
  cases hpa : pa2frame m.mems e.ppn with
  | none =>
      rw [hpa] at hdec'
      obtain ⟨-, rfl⟩ := pure_eq_ok.mp hdec'
      exact ⟨use, hcleared, fun _ => Or.inl rfl, hpte⟩
  | some g =>
      rw [hpa] at hdec'
      obtain rfl := pa2frame_eq_some hpa
      obtain ⟨-, free, rfl, hmore, hlast⟩ := phyFrameRefDec_eq_ok (panicE_eq_ok.mp hdec')
      have hnot : ¬ m.Free e.ppn := by
        intro hf
        rw [h.free _ hf] at hpage
        exact absurd hpage (by simp)
      by_cases hone : m.pfRef e.ppn = 1
      · -- the last reference
        obtain ⟨sel, -, rfl⟩ := hlast hone
        have hunused : Housed B C (Function.update use e.ppn .free) (m.setPte a Pte.zero) := by
          refine hcleared.relabel (fun o' ho' => ?_) (fun t' k' v hk ht hhangs => ?_) (fun k' v hhangs => ?_)
            fun _ => rfl
          · exact absurd (hpage.symm.trans ho') (by simp)
          · have hv' := hcleared.entries t' k' _ v hk ht hhangs
            rw [hpage] at hv'
            obtain ⟨rfl, rfl⟩ := (hv' ▸ hhangs).of_page
            rw [hpte, if_pos rfl] at ht
            exact absurd ht (by simp)
          · cases hhangs
        have hback := hunused.giveBack (Function.update_self _ _ _) hnot sel
        refine ⟨Function.update use e.ppn .free, ?_, fun g => ?_, hpte⟩
        · rw [hone]
          exact hback
        · by_cases hg : g = e.ppn
          · subst hg
            exact Or.inr ⟨⟨_, _, hpage⟩, Function.update_self _ _ _⟩
          · exact Or.inl (Function.update_of_ne hg _ _)
      · obtain rfl := hmore hone
        refine ⟨use, hcleared.congr rfl rfl (fun g hg => ?_) rfl rfl rfl fun _ => rfl, fun _ => Or.inl rfl, hpte⟩
        refine Function.update_of_ne (fun heq => ?_) _ _
        rw [heq, hpage] at hg
        exact absurd hg (by simp)

/-- A reference to a frame in use is counted. -/
theorem Housed.refInc (h : Housed B C use m) (hf : use f ≠ .free) {x : Unit}
    (hinc : ptFrameRefInc f m = .ok x m') : Housed B C use m' ∧ m'.ram = m.ram := by
  unfold ptFrameRefInc at hinc
  obtain ⟨_, _, hg, hrest⟩ := bind_eq_ok.mp hinc
  obtain ⟨rfl, rfl⟩ := get_eq_ok.mp hg
  cases hpa : pa2frame m.mems f with
  | none =>
      rw [hpa] at hrest
      obtain ⟨-, rfl⟩ := pure_eq_ok.mp hrest
      exact ⟨h, rfl⟩
  | some g =>
      rw [hpa, pa2frame_eq_some hpa] at hrest
      have hm' := modify_eq_ok.mp (panicE_eq_ok.mp hrest)
      subst hm'
      refine ⟨h.congr rfl rfl (fun g hg => ?_) rfl rfl rfl fun _ => rfl, rfl⟩
      refine Function.update_of_ne (fun heq => ?_) _ _
      exact hf (heq ▸ hg)

/-- The last steps of `pt_map`: the entry of the page is written, and the reference is counted. -/
theorem Housed.setPage (h : Housed B C use m) (ho : m.Lives o) (hi : OwnSlot B C o (vpn2 va)) {a : PteAddr}
    (hto : ComesTo o use m (m.rootOf o) va t a) (hf : use f = .other) {e : Pte} (he : e.ppn = f) {x : Unit}
    (hinc : ptFrameRefInc f (m.setPte a e) = .ok x m') :
    Housed B C (Function.update use f (.page o a.table a.idx)) m' ∧
      ComesTo o (Function.update use f (.page o a.table a.idx)) m' (m.rootOf o) va t a ∧ m'.pte a = e ∧
      ∀ b, b ≠ a → m'.pte b = m.pte b := by
  -- the table of the entry is no data frame
  have hne : a.table ≠ f := by
    intro heq
    rw [← heq, hto.use] at hf
    exact absurd hf (by simp)
  have hfree : ¬ m.Free f := by
    intro hfree
    rw [h.free f hfree] at hf
    exact absurd hf (by simp)
  have huse : Function.update use f (.page o a.table a.idx) a.table = .leaf o (vpn2 va) t (vpn1 va) := by
    rw [Function.update_of_ne hne, hto.use]
  -- the frame is used for the page, and then the entry may point to it
  have hpage : Housed B C (Function.update use f (.page o a.table a.idx)) m := by
    refine h.relabel (fun o' ho' => ?_) (fun t' k' v hk ht => h.not_pointed (Or.inr hf) hk ht)
      (fun k' v hhangs => ?_) fun hfree' => absurd hfree' hfree
    · exact absurd (hf.symm.trans ho') (by simp)
    · cases hhangs
  have hwritten : Housed B C (Function.update use f (.page o a.table a.idx)) (m.setPte a e) := by
    refine hpage.write (t := a.table) (k := a.idx) (fun o' ho' => ?_) fun g v _ hg hhangs => ?_
    · exact absurd (huse.symm.trans ho') (by simp)
    · have hgf : f = g := he.symm.trans (Pte.target_eq_some.mp hg).2
      rw [huse] at hhangs
      cases hhangs
      rw [← hgf, Function.update_self]
  obtain ⟨hhoused, hram⟩ := hwritten.refInc (by rw [Function.update_self]; simp) hinc
  have hother : ∀ b, b ≠ a → m'.pte b = m.pte b := by
    intro b hb
    rw [Mem.pte_of_ram hram, Mem.pte_setPte, if_neg hb]
  refine ⟨hhoused, h.comesTo_congr ho hi hto hother (Function.update_of_ne hne _ _), ?_, hother⟩
  rw [Mem.pte_of_ram hram, Mem.pte_setPte, if_pos rfl]

/-- **`pt_map`** of a frame that was taken, at an address in a slot of the owner. -/
theorem Housed.map (h : Housed B C use m) (ho : m.Lives o) (hi : OwnSlot B C o (vpn2 va))
    (hf : use f = .other) {perm : Perm} {x : Unit} (hmap : ptMap (m.rootOf o) va f perm m = .ok x m') :
    ∃ use' t a, Housed B C use' m' ∧ Confined o (Function.update use f .free) use' m m' ∧
      ComesTo o use' m' (m.rootOf o) va t a ∧ m'.pte a = ⟨{ perm with v := true }, f⟩ := by
  obtain ⟨m₁, m₂, a, hold, hw, hinc⟩ := PtOps.map_eq_ok hmap
  have hforget : ∀ g, Function.update use f .free g ≠ .free → g ≠ f ∧ Function.update use f .free g = use g := by
    intro g hg
    have hne : g ≠ f := by
      rintro rfl
      exact hg (Function.update_self _ _ _)
    exact ⟨hne, Function.update_of_ne hne _ _⟩
  have hleafOf : ∀ {use₁ : Ppn → Use} {m₁ : Mem} {a₁ : PteAddr} {t : Ppn}, use₁ f = .other →
      ComesTo o use₁ m₁ (m.rootOf o) va t a₁ →
      Function.update use₁ f .free a₁.table = .leaf o (vpn2 va) t (vpn1 va) := by
    intro use₁ m₁ a₁ t hf₁ hto
    rw [Function.update_of_ne, hto.use]
    intro heq
    rw [← heq, hto.use] at hf₁
    exact absurd hf₁ (by simp)
  by_cases hsome : (found m (pageOf (m.rootOf o) va)).isSome = true
  · -- the page was mapped: nothing but its entry changes in the tables
    rw [if_pos hsome] at hold
    obtain ⟨⟨a₀, e₀⟩, hfound⟩ := Option.isSome_iff_exists.mp hsome
    obtain ⟨t, hto, -, -⟩ := h.comesTo ho hi hfound
    obtain ⟨use₁, hhoused₁, huse₁, hpte₁⟩ := h.unmap ho hi hfound hold
    have hsame := sameParts_ptUnmap _ va (.refl m) hold
    have hstay : ∀ g u, use g = u → (∀ p k, u ≠ .page o p k) → use₁ g = u := by
      intro g u hg hu
      rcases huse₁ g with heq | ⟨⟨p, k, hpage⟩, -⟩
      · rw [heq, hg]
      · exact absurd (hg.symm.trans hpage) (hu p k)
    have hto₁ : ComesTo o use₁ m₁ (m.rootOf o) va t a₀ := by
      refine h.comesTo_congr ho hi hto (fun b hb => ?_) ((hstay _ _ hto.use (by simp)).trans hto.use.symm)
      rw [hpte₁, if_neg hb]
    have hw' := (PtOps.walk_of_table (o := ptPhyOps) hto₁.found.1 true).symm.trans hw
    obtain ⟨ha, rfl⟩ := (Res.ok.injEq _ _ _ _).mp hw'
    obtain rfl : a₀ = a := by
      rw [← Option.some.inj ha, ← hto.idx]
    have hrootOf := hsame.rootOf o
    rw [← hrootOf] at hto₁
    obtain ⟨hhoused, hto', hpte, hother⟩ :=
      hhoused₁.setPage (hsame.lives.mpr ho) hi hto₁ (hstay f _ hf (by simp)) rfl hinc
    rw [hrootOf] at hto'
    have hleaf := hleafOf hf hto
    refine ⟨_, t, a₀, hhoused, confined_of_entry (t := a₀.table) (k := a₀.idx) (fun g hg => ?_) ?_
      (fun g k' hg hne => ?_) (fun hlink => ?_) (fun _ => ?_), hto', hpte⟩
    · obtain ⟨hne, heq⟩ := hforget g hg
      rw [heq, Function.update_of_ne hne]
      rcases huse₁ g with hsame | ⟨⟨p, k, hpage⟩, -⟩
      · exact Or.inl hsame
      · rw [hpage]
        exact Or.inr ⟨id, rfl⟩
    · rw [hleaf]
      rfl
    · rw [hother _ hne, hpte₁, if_neg hne]
    · rw [hleaf] at hlink
      exact hlink.elim
    · show (m'.pte a₀).perm.v = true
      rw [hpte]
  · rw [if_neg hsome] at hold
    subst hold
    obtain ⟨use₁, t, hhoused₁, hgrown, hto⟩ := h.walk ho hi hw
    have hsame := sameParts_ptWalk _ va true (.refl m₁) hw
    have hrootOf := hsame.rootOf o
    have hf₁ : use₁ f = .other := by
      rw [hgrown.same f (by rw [hf]; simp), hf]
    have hleaf := hleafOf hf₁ hto
    rw [← hrootOf] at hto
    obtain ⟨hhoused, hto', hpte, hother⟩ := hhoused₁.setPage (hsame.lives.mpr ho) hi hto hf₁ rfl hinc
    rw [hrootOf] at hto'
    refine ⟨_, t, a, hhoused, (hgrown.toConfined.forget f).trans
      (confined_of_entry (t := a.table) (k := a.idx) (fun g hg => ?_) ?_ (fun g k' _ hne => hother _ hne)
        (fun hlink => ?_) (fun _ => ?_)), hto', hpte⟩
    · have hne : g ≠ f := by
        rintro rfl
        exact hg (Function.update_self _ _ _)
      rw [Function.update_of_ne hne, Function.update_of_ne hne]
      exact Or.inl rfl
    · rw [hleaf]
      rfl
    · rw [hleaf] at hlink
      exact hlink.elim
    · show (m'.pte a).perm.v = true
      rw [hpte]

/-- **A frame is taken and mapped** at an address in a slot of the owner. -/
theorem Housed.newPage (h : Housed B C use m) (ho : m.Lives o) (hi : OwnSlot B C o (vpn2 va)) {perm : Perm}
    (halloc : phyFrameAlloc m = .ok f m₁) {x : Unit} (hmap : ptMap (m.rootOf o) va f perm m₁ = .ok x m') :
    ∃ use' t a, Housed B C use' m' ∧ Confined o use use' m m' ∧ ComesTo o use' m' (m.rootOf o) va t a ∧
      (m'.pte a).perm.v = true := by
  obtain ⟨hf, hhoused, -, hsame⟩ := h.take halloc .other
  have hparts := sameParts_phyFrameAlloc (.refl m) halloc
  rw [← hparts.rootOf o] at hmap ⊢
  obtain ⟨use', t, a, hhoused', hconf, hto, hpte⟩ :=
    hhoused.map (hparts.lives.mpr ho) hi (Function.update_self _ _ _) hmap
  have hback : Function.update (Function.update use f .other) f .free = use := by
    rw [Function.update_idem, ← hf, Function.update_eq_self]
  rw [hback] at hconf
  have hcleared : Confined o use use m m₁ := by
    have hused : ∀ g, use g ≠ .free → g ≠ f := fun g hg heq => hg (by rw [heq, hf])
    have htable : ∀ g, (use g).IsTable → g ≠ f := by
      rintro g hg rfl
      rw [hf] at hg
      exact hg
    refine ⟨⟨fun _ _ => rfl, ?_, ?_⟩, fun _ _ _ => rfl, ?_, ?_⟩
    · intro g hg k f' ht
      rwa [hsame g k (htable g hg.isTable)]
    · intro g hg k hv
      rwa [hsame g k (htable g hg)]
    · intro g hg _ k
      rw [hsame g k (hused g hg)]
    · intro g hg _ _
      funext k
      exact hsame g k (hused g hg)
  exact ⟨use', t, a, hhoused', hcleared.trans hconf, hto, by rw [hpte]⟩

end Jrinx
