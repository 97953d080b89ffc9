import Jrinx.Mm.Ways

/-! # What the frames are used for

The root table of a partition starts as a copy of the root of the kernel and shares its lower tables, so
the trees of several roots are no forest. What keeps the partitions apart is whose frame is which.

* **`Use`**, **`Hangs`** — what a frame serves as, and what the entries of its table may point to.
* **`Housed`** — every frame is used where the entries say, and free frames are used nowhere.
* **`Confined`** — what an operation for one owner leaves alone.
* **`Housed.take`**, **`Housed.write`**, **`Housed.linkRoot`** — the small steps that keep the uses. -/

namespace Jrinx

open Op

/-! ## Uses -/

/-- What a frame serves as. The owner of a tree is a partition, or the kernel (`none`). -/
inductive Use where
  /-- It is linked in a free list. -/
  | free
  /-- It is in no tree: taken for a page, or not of concern. -/
  | other
  /-- The root table of the owner. -/
  | root (o : Option PartId)
  /-- The middle table below entry `i` of the root. -/
  | mid (o : Option PartId) (i : Nat)
  /-- The bottom table below entry `j` of the middle table `t`, which hangs on entry `i`. -/
  | leaf (o : Option PartId) (i : Nat) (t : Ppn) (j : Nat)
  /-- The page that entry `k` of the bottom table `t` maps. -/
  | page (o : Option PartId) (t : Ppn) (k : Nat)

/-- Whose frame it is. -/
def Use.owner : Use → Option (Option PartId)
  | .free => none
  | .other => none
  | .root o => some o
  | .mid o _ => some o
  | .leaf o _ _ _ => some o
  | .page o _ _ => some o

/-- The entries of the frame are those of a page table. -/
def Use.IsTable : Use → Prop
  | .root _ => True
  | .mid _ _ => True
  | .leaf _ _ _ _ => True
  | _ => False

/-- The entries of the frame point to further tables. -/
def Use.IsLink : Use → Prop
  | .root _ => True
  | .mid _ _ => True
  | _ => False

theorem Use.IsLink.isTable {u : Use} (h : u.IsLink) : u.IsTable := by
  cases u <;> simp_all [Use.IsLink, Use.IsTable]

/-- **What an entry points to**: entry `k` of the table `t`, which serves as the first use, points to a
frame that serves as the second. Nothing is said about the pages that the kernel mapped at boot, in the
slots `B`, nor about the slots that a partition shares with the kernel: those of `B`, and the slots `C`
of the channel memory. -/
inductive Hangs (B C : Set Nat) : Use → Ppn → Nat → Use → Prop
  | kernRoot {t : Ppn} {i : Nat} : Hangs B C (.root none) t i (.mid none i)
  | partRoot {pt : PartId} {t : Ppn} {i : Nat} (hB : i ∉ B) (hC : i ∉ C) :
      Hangs B C (.root (some pt)) t i (.mid (some pt) i)
  | mid {o : Option PartId} {i j : Nat} {t : Ppn} : Hangs B C (.mid o i) t j (.leaf o i t j)
  | leaf {o : Option PartId} {i j k : Nat} {p t : Ppn} (h : o = none → i ∉ B) :
      Hangs B C (.leaf o i p j) t k (.page o t k)

variable {B C : Set Nat} {use use' use₁ : Ppn → Use} {m m' m₁ : Mem} {o : Option PartId} {f t : Ppn}
  {i k va : Nat} {u : Use} {pt : PartId}

/-- What an entry points to hangs somewhere. -/
theorem Hangs.below {v : Use} (h : Hangs B C u t k v) :
    v ≠ .free ∧ v ≠ .other ∧ ∀ o, v ≠ .root o := by
  cases h <;> simp

/-- A mapped page tells its entry. -/
theorem Hangs.of_page {t' : Ppn} {k' : Nat} (h : Hangs B C u t k (.page o t' k')) : t = t' ∧ k = k' := by
  cases h
  exact ⟨rfl, rfl⟩

/-- The root table of an owner. -/
def Mem.rootOf (m : Mem) : Option PartId → Ppn
  | .none => m.kernPgdir
  | .some pt => (m.parts pt).paPgdir

/-- The kernel, or a registered partition. -/
def Mem.Lives (m : Mem) : Option PartId → Prop
  | .none => True
  | .some pt => pt ∈ m.partIds

theorem SameParts.rootOf (h : SameParts m m') (o : Option PartId) : m'.rootOf o = m.rootOf o := by
  cases o with
  | none => exact h.kernPgdir
  | some pt => exact congrArg (fun parts => (parts pt).paPgdir) h.parts

theorem SameParts.lives (h : SameParts m m') : m'.Lives o ↔ m.Lives o := by
  cases o with
  | none => rfl
  | some pt =>
      show pt ∈ m'.partIds ↔ pt ∈ m.partIds
      rw [h.partIds]

/-- The slots in which the owner makes tables: for the kernel those of the channel memory, for a
partition all that it does not share. -/
def OwnSlot (B C : Set Nat) : Option PartId → Nat → Prop
  | none, i => i ∉ B ∧ i ∈ C
  | some _, i => i ∉ B ∧ i ∉ C

theorem OwnSlot.not_boot (h : OwnSlot B C o i) : i ∉ B := by
  cases o with
  | none => exact h.1
  | some pt => exact h.1

/-- In its own slots the root of an owner points to its middle tables. -/
theorem OwnSlot.hangs (h : OwnSlot B C o i) (t : Ppn) : Hangs B C (.root o) t i (.mid o i) := by
  cases o with
  | none => exact .kernRoot
  | some pt => exact .partRoot h.1 h.2

/-- **Every frame is used where the entries say.** The kernel has tables in the slots `B` from boot on,
and in the slots `C` when channel memory is set up; a partition shares these slots. -/
structure Housed (B C : Set Nat) (use : Ppn → Use) (m : Mem) : Prop where
  nodup : m.pfFreeList.flatten.Nodup
  free : ∀ f, m.Free f → use f = .free
  unreferenced : ∀ f, m.Free f → m.pfRef f = 0
  kern : use m.kernPgdir = .root none
  parts : ∀ pt ∈ m.partIds, use (m.parts pt).paPgdir = .root (some pt)
  ids : ∀ pt ∈ m.partIds, pt < m.nxtPartId
  entries : ∀ t k f u, k < 512 → (m.pte ⟨t, k⟩).target = some f → Hangs B C (use t) t k u → use f = u
  boot : ∀ i ∈ B, ∃ t, (m.pte ⟨m.kernPgdir, i⟩).target = some t
  slots : ∀ i < 512, ∀ t, (m.pte ⟨m.kernPgdir, i⟩).target = some t → i ∈ B ∨ i ∈ C
  shared : ∀ pt ∈ m.partIds, ∀ i < 512, i ∈ B ∨ i ∈ C → ∀ t,
    (m.pte ⟨(m.parts pt).paPgdir, i⟩).target = some t → (m.pte ⟨m.kernPgdir, i⟩).target = some t

theorem Housed.rootOf (h : Housed B C use m) (ho : m.Lives o) : use (m.rootOf o) = .root o := by
  cases o with
  | none => exact h.kern
  | some pt => exact h.parts pt ho

/-- Nothing points to a frame that hangs nowhere. -/
theorem Housed.not_pointed (h : Housed B C use m) (hf : use f = .free ∨ use f = .other) {v : Use}
    (hk : k < 512) (ht : (m.pte ⟨t, k⟩).target = some f) : ¬ Hangs B C (use t) t k v := by
  intro hhangs
  have hv := h.entries t k f v hk ht hhangs
  rcases hf with hf | hf
  · exact hhangs.below.1 (hv.symm.trans hf)
  · exact hhangs.below.2.1 (hv.symm.trans hf)

/-! ## What is left alone -/

/-- The entry without its accessed and dirty bits. -/
def Pte.bare (e : Pte) : Pte := { e with perm := { e.perm with a := false, d := false } }

theorem Pte.bare_valid {e e' : Pte} (h : e'.bare = e.bare) : e'.perm.v = e.perm.v := by
  have hv : e'.bare.perm.v = e.bare.perm.v := by rw [h]
  exact hv

theorem Pte.bare_target {e e' : Pte} (h : e'.bare = e.bare) : e'.target = e.target := by
  have hppn : e'.bare.ppn = e.bare.ppn := by rw [h]
  rw [Pte.target, Pte.target, Pte.bare_valid h, show e'.ppn = e.ppn from hppn]

/-- Tables stay what they are, and their valid entries stay valid; those of roots and middle tables point
where they did. -/
structure Kept (use use' : Ppn → Use) (m m' : Mem) : Prop where
  tables : ∀ t, (use t).IsTable → use' t = use t
  links : ∀ t, (use t).IsLink → ∀ k f, (m.pte ⟨t, k⟩).target = some f → (m'.pte ⟨t, k⟩).target = some f
  valid : ∀ t, (use t).IsTable → ∀ k, (m.pte ⟨t, k⟩).perm.v = true → (m'.pte ⟨t, k⟩).perm.v = true

theorem Kept.trans (h : Kept use use₁ m m₁) (h' : Kept use₁ use' m₁ m') : Kept use use' m m' where
  tables t ht := by
    have h₁ := h.tables t ht
    rw [h'.tables t (h₁ ▸ ht), h₁]
  links t ht k f hf := by
    have h₁ := h.tables t ht.isTable
    exact h'.links t (h₁ ▸ ht) k f (h.links t ht k f hf)
  valid t ht k hv := by
    have h₁ := h.tables t ht
    exact h'.valid t (h₁ ▸ ht) k (h.valid t ht k hv)

/-- **A step of one owner**: the frames of the others are left alone, up to the accessed and dirty bits
in tables of the kernel, and the trees keep what they have. -/
structure Confined (o : Option PartId) (use use' : Ppn → Use) (m m' : Mem) : Prop extends
    Kept use use' m m' where
  uses : ∀ f, use f ≠ .free → (use f).owner ≠ some o → use' f = use f
  bare : ∀ f, use f ≠ .free → (use f).owner ≠ some o → ∀ k, (m'.pte ⟨f, k⟩).bare = (m.pte ⟨f, k⟩).bare
  ram : ∀ f, use f ≠ .free → (use f).owner ≠ some o → (use f).owner ≠ some none → m'.ram f = m.ram f

theorem Confined.refl (o : Option PartId) (use : Ppn → Use) (h : m'.ram = m.ram) : Confined o use use m m' where
  uses _ _ _ := rfl
  bare f _ _ k := by rw [Mem.pte_of_ram h]
  ram f _ _ _ := by rw [h]
  tables _ _ := rfl
  links t _ k f ht := by rwa [Mem.pte_of_ram h]
  valid t _ k hv := by rwa [Mem.pte_of_ram h]

theorem Confined.trans (h : Confined o use use₁ m m₁) (h' : Confined o use₁ use' m₁ m') :
    Confined o use use' m m' where
  toKept := h.toKept.trans h'.toKept
  uses f hf ho := by
    have h₁ := h.uses f hf ho
    rw [h'.uses f (h₁ ▸ hf) (h₁ ▸ ho), h₁]
  bare f hf ho k := by
    have h₁ := h.uses f hf ho
    rw [h'.bare f (h₁ ▸ hf) (h₁ ▸ ho) k, h.bare f hf ho k]
  ram f hf ho hkern := by
    have h₁ := h.uses f hf ho
    rw [h'.ram f (h₁ ▸ hf) (h₁ ▸ ho) (h₁ ▸ hkern), h.ram f hf ho hkern]

/-- A frame that is of no concern may be taken for a free one. -/
theorem Confined.forget (h : Confined o use use' m m') (f : Ppn) :
    Confined o (Function.update use f .free) (Function.update use' f .free) m m' := by
  -- what is not free afterwards is another frame, and is used as before
  have hne : ∀ g, Function.update use f .free g ≠ .free →
      g ≠ f ∧ Function.update use f .free g = use g ∧ Function.update use' f .free g = use' g := by
    intro g hg
    have hgf : g ≠ f := by
      rintro rfl
      exact hg (Function.update_self _ _ _)
    exact ⟨hgf, Function.update_of_ne hgf _ _, Function.update_of_ne hgf _ _⟩
  have htable : ∀ g, (Function.update use f .free g).IsTable → Function.update use f .free g ≠ .free := by
    intro g hg heq
    rw [heq] at hg
    exact hg
  refine ⟨⟨?_, ?_, ?_⟩, ?_, ?_, ?_⟩
  · intro g hg
    obtain ⟨-, heq, heq'⟩ := hne g (htable g hg)
    rw [heq] at hg
    rw [heq', heq, h.tables g hg]
  · intro g hg
    obtain ⟨-, heq, -⟩ := hne g (htable g hg.isTable)
    rw [heq] at hg
    exact h.links g hg
  · intro g hg
    obtain ⟨-, heq, -⟩ := hne g (htable g hg)
    rw [heq] at hg
    exact h.valid g hg
  · intro g hg ho
    obtain ⟨-, heq, heq'⟩ := hne g hg
    rw [heq] at hg ho
    rw [heq', heq, h.uses g hg ho]
  · intro g hg ho
    obtain ⟨-, heq, -⟩ := hne g hg
    rw [heq] at hg ho
    exact h.bare g hg ho
  · intro g hg ho hkern
    obtain ⟨-, heq, -⟩ := hne g hg
    rw [heq] at hg ho hkern
    exact h.ram g hg ho hkern

/-- Free frames may become anything, pages of the owner may become free, and one entry of a table of the
owner may change: one that was invalid, or one of a bottom table that is valid again. -/
theorem confined_of_entry
    (huse : ∀ g, use g ≠ .free → use' g = use g ∨ ¬ (use g).IsTable ∧ (use g).owner = some o)
    (ht : (use t).owner = some o)
    (hpte : ∀ g k', use g ≠ .free → (⟨g, k'⟩ : PteAddr) ≠ ⟨t, k⟩ → m'.pte ⟨g, k'⟩ = m.pte ⟨g, k'⟩)
    (hlink : (use t).IsLink → (m.pte ⟨t, k⟩).perm.v = false)
    (hvalid : (m.pte ⟨t, k⟩).perm.v = true → (m'.pte ⟨t, k⟩).perm.v = true) : Confined o use use' m m' := by
  have hother : ∀ g, use g ≠ .free → (use g).owner ≠ some o → ∀ k', m'.pte ⟨g, k'⟩ = m.pte ⟨g, k'⟩ := by
    intro g hg ho k'
    refine hpte g k' hg fun heq => ho ?_
    rw [show g = t from congrArg PteAddr.table heq]
    exact ht
  have hne : ∀ g, (use g).IsTable → use g ≠ .free := by
    intro g hg heq
    rw [heq] at hg
    exact hg
  refine ⟨⟨?_, ?_, ?_⟩, ?_, ?_, ?_⟩
  · exact fun g hg => (huse g (hne g hg)).resolve_right fun hpage => hpage.1 hg
  · intro g hg k' f' htarget
    by_cases heq : (⟨g, k'⟩ : PteAddr) = ⟨t, k⟩
    · -- a link that is valid is not the entry that changed
      obtain ⟨rfl, rfl⟩ := (PteAddr.mk.injEq _ _ _ _).mp heq
      rw [Pte.target_of_invalid (hlink hg)] at htarget
      exact absurd htarget (by simp)
    · rwa [hpte g k' (hne g hg.isTable) heq]
  · intro g hg k' hv
    by_cases heq : (⟨g, k'⟩ : PteAddr) = ⟨t, k⟩
    · obtain ⟨rfl, rfl⟩ := (PteAddr.mk.injEq _ _ _ _).mp heq
      exact hvalid hv
    · rwa [hpte g k' (hne g hg) heq]
  · exact fun g hg ho => (huse g hg).resolve_right fun hpage => ho hpage.2
  · intro g hg ho k'
    rw [hother g hg ho k']
  · intro g hg ho _
    funext k'
    exact hother g hg ho k'

/-! ## Small steps -/

/-- Memory with the same tables, where free frames have the counts they had. -/
theorem Housed.congr (h : Housed B C use m) (hram : m'.ram = m.ram) (hlist : m'.pfFreeList = m.pfFreeList)
    (href : ∀ f, use f = .free → m'.pfRef f = m.pfRef f) (hkern : m'.kernPgdir = m.kernPgdir)
    (hids : m'.partIds = m.partIds) (hnxt : m'.nxtPartId = m.nxtPartId)
    (hroots : ∀ pt, (m'.parts pt).paPgdir = (m.parts pt).paPgdir) : Housed B C use m' := by
  -- the free frames are the same
  have hfree : ∀ f, m'.Free f → m.Free f := by
    intro f hf
    rwa [Mem.Free, hlist] at hf
  constructor
  · rw [hlist]
    exact h.nodup
  · exact fun f hf => h.free f (hfree f hf)
  · intro f hf
    rw [href f (h.free f (hfree f hf))]
    exact h.unreferenced f (hfree f hf)
  · rw [hkern]
    exact h.kern
  · intro pt hpt
    rw [hroots]
    exact h.parts pt (hids ▸ hpt)
  · intro pt hpt
    rw [hnxt]
    exact h.ids pt (hids ▸ hpt)
  · intro t k f u hk ht
    rw [Mem.pte_of_ram hram] at ht
    exact h.entries t k f u hk ht
  · intro i hi
    rw [hkern, Mem.pte_of_ram hram]
    exact h.boot i hi
  · intro i hi t ht
    rw [hkern, Mem.pte_of_ram hram] at ht
    exact h.slots i hi t ht
  · intro pt hpt i hi hslot t ht
    rw [hroots, Mem.pte_of_ram hram] at ht
    rw [hkern, Mem.pte_of_ram hram]
    exact h.shared pt (hids ▸ hpt) i hi hslot t ht

/-- A frame that nothing points to is used for something else, if its own entries allow it. -/
theorem Housed.relabel (h : Housed B C use m) (hroot : ∀ o, use f ≠ .root o)
    (hpointed : ∀ t k v, k < 512 → (m.pte ⟨t, k⟩).target = some f → ¬ Hangs B C (use t) t k v)
    (hempty : ∀ k v, Hangs B C u f k v → (m.pte ⟨f, k⟩).target = none) (hfree : m.Free f → u = .free) :
    Housed B C (Function.update use f u) m := by
  refine { h with free := ?_, kern := ?_, parts := ?_, entries := ?_ }
  · intro g hg
    by_cases heq : g = f
    · rw [heq, Function.update_self]
      exact hfree (heq ▸ hg)
    · rw [Function.update_of_ne heq]
      exact h.free g hg
  · rw [Function.update_of_ne]
    · exact h.kern
    · intro heq
      exact hroot none (heq ▸ h.kern)
  · intro pt hpt
    rw [Function.update_of_ne]
    · exact h.parts pt hpt
    · intro heq
      exact hroot (some pt) (heq ▸ h.parts pt hpt)
  · intro t k g v hk ht hhangs
    by_cases htf : t = f
    · subst htf
      rw [Function.update_self] at hhangs
      -- the frame itself points to nothing that its new use would have to answer for
      exact absurd ht (by simp [hempty k v hhangs])
    · rw [Function.update_of_ne htf] at hhangs
      -- and nothing points to the frame
      have hgf : g ≠ f := fun heq => hpointed t k v hk (heq ▸ ht) hhangs
      rw [Function.update_of_ne hgf]
      exact h.entries t k g v hk ht hhangs

/-- An entry of a middle or bottom table, or of a frame that is no table, is written. -/
theorem Housed.write (h : Housed B C use m) (hroot : ∀ o, use t ≠ .root o) {e : Pte}
    (he : ∀ f v, k < 512 → e.target = some f → Hangs B C (use t) t k v → use f = v) :
    Housed B C use (m.setPte ⟨t, k⟩ e) := by
  -- the table that is written is no root
  have hkern : ∀ i, (m.setPte ⟨t, k⟩ e).pte ⟨m.kernPgdir, i⟩ = m.pte ⟨m.kernPgdir, i⟩ := by
    intro i
    rw [Mem.pte_setPte, if_neg]
    intro heq
    have htable : m.kernPgdir = t := congrArg PteAddr.table heq
    exact hroot none (htable ▸ h.kern)
  have hpart : ∀ pt ∈ m.partIds, ∀ i,
      (m.setPte ⟨t, k⟩ e).pte ⟨(m.parts pt).paPgdir, i⟩ = m.pte ⟨(m.parts pt).paPgdir, i⟩ := by
    intro pt hpt i
    rw [Mem.pte_setPte, if_neg]
    intro heq
    have htable : (m.parts pt).paPgdir = t := congrArg PteAddr.table heq
    exact hroot (some pt) (htable ▸ h.parts pt hpt)
  constructor
  · exact h.nodup
  · exact h.free
  · exact h.unreferenced
  · exact h.kern
  · exact h.parts
  · exact h.ids
  · intro t' k' f v hk ht hhangs
    rw [Mem.pte_setPte] at ht
    split at ht
    · next heq =>
        obtain ⟨rfl, rfl⟩ := (PteAddr.mk.injEq _ _ _ _).mp heq
        -- the new entry points where an entry of this table may
        exact he f v hk ht hhangs
    · exact h.entries t' k' f v hk ht hhangs
  · intro i hi
    show ∃ t', ((m.setPte ⟨t, k⟩ e).pte ⟨m.kernPgdir, i⟩).target = some t'
    rw [hkern]
    exact h.boot i hi
  · intro i hi t' ht
    have ht' : ((m.setPte ⟨t, k⟩ e).pte ⟨m.kernPgdir, i⟩).target = some t' := ht
    rw [hkern] at ht'
    exact h.slots i hi t' ht'
  · intro pt hpt i hi hslot t' ht
    have ht' : ((m.setPte ⟨t, k⟩ e).pte ⟨(m.parts pt).paPgdir, i⟩).target = some t' := ht
    show ((m.setPte ⟨t, k⟩ e).pte ⟨m.kernPgdir, i⟩).target = some t'
    rw [hpart pt hpt] at ht'
    rw [hkern]
    exact h.shared pt hpt i hi hslot t' ht'

/-- A middle table is linked in a slot of the owner that was empty. -/
theorem Housed.linkRoot (h : Housed B C use m) (ho : m.Lives o) (hi : OwnSlot B C o i)
    (hinv : (m.pte ⟨m.rootOf o, i⟩).target = none) (hf : use f = .mid o i) :
    Housed B C use (m.setPte ⟨m.rootOf o, i⟩ (tablePte f)) := by
  have hroot := h.rootOf ho
  have hset : ∀ t k, (m.setPte ⟨m.rootOf o, i⟩ (tablePte f)).pte ⟨t, k⟩ =
      if (⟨t, k⟩ : PteAddr) = ⟨m.rootOf o, i⟩ then tablePte f else m.pte ⟨t, k⟩ :=
    fun t k => Mem.pte_setPte _ _ _ _
  have hold : ∀ t k t', (m.pte ⟨t, k⟩).target = some t' →
      (m.setPte ⟨m.rootOf o, i⟩ (tablePte f)).pte ⟨t, k⟩ = m.pte ⟨t, k⟩ := by
    intro t k t' ht
    rw [hset, if_neg]
    intro heq
    rw [heq, hinv] at ht
    exact absurd ht (by simp)
  constructor
  · exact h.nodup
  · exact h.free
  · exact h.unreferenced
  · exact h.kern
  · exact h.parts
  · exact h.ids
  · intro t k g v hk ht hhangs
    rw [hset] at ht
    split at ht
    · next heq =>
        -- the new entry
        obtain ⟨rfl, rfl⟩ := (PteAddr.mk.injEq _ _ _ _).mp heq
        obtain rfl : f = g := Option.some.inj ht
        rw [hroot] at hhangs
        rw [hf]
        cases hhangs <;> rfl
    · exact h.entries t k g v hk ht hhangs
  · intro j hj
    obtain ⟨t, ht⟩ := h.boot j hj
    exact ⟨t, (congrArg Pte.target (hold _ _ _ ht)).trans ht⟩
  · intro j hj t ht
    have ht' : ((m.setPte ⟨m.rootOf o, i⟩ (tablePte f)).pte ⟨m.kernPgdir, j⟩).target = some t := ht
    rw [hset] at ht'
    split at ht'
    · next heq =>
        obtain ⟨hkern, rfl⟩ := (PteAddr.mk.injEq _ _ _ _).mp heq
        have ho' : o = none := Use.root.inj (hroot.symm.trans ((congrArg use hkern.symm).trans h.kern))
        subst ho'
        exact Or.inr hi.2
    · exact h.slots j hj t ht'
  · intro pt hpt j hj hslot t ht
    have ht' : ((m.setPte ⟨m.rootOf o, i⟩ (tablePte f)).pte ⟨(m.parts pt).paPgdir, j⟩).target = some t := ht
    rw [hset] at ht'
    split at ht'
    · next heq =>
        -- a partition links nothing in a slot that it shares
        obtain ⟨hpart, rfl⟩ := (PteAddr.mk.injEq _ _ _ _).mp heq
        have ho' : o = some pt :=
          Use.root.inj (hroot.symm.trans ((congrArg use hpart.symm).trans (h.parts pt hpt)))
        subst ho'
        exact absurd hslot (not_or.mpr hi)
    · have hkern := h.shared pt hpt j hj hslot t ht'
      exact (congrArg Pte.target (hold _ _ _ hkern)).trans hkern

/-! ## Frames from the free lists -/

/-- **A frame is taken** and put to any use: it is empty, and it was used for nothing. -/
theorem Housed.take (h : Housed B C use m) (halloc : phyFrameAlloc m = .ok f m') (u : Use) :
    use f = .free ∧ Housed B C (Function.update use f u) m' ∧ (∀ k, m'.pte ⟨f, k⟩ = Pte.zero) ∧
      ∀ g k, g ≠ f → m'.pte ⟨g, k⟩ = m.pte ⟨g, k⟩ := by
  obtain ⟨free, htake, rfl⟩ := phyFrameAlloc_eq_ok halloc
  have hflat := (takeFrame_eq_some htake).1
  have hf : use f = .free := h.free f (free_of_takeFrame htake)
  have hnodup : (f :: free.flatten).Nodup := hflat ▸ h.nodup
  have hrest : ∀ g, g ∈ free.flatten → m.Free g := by
    intro g hg
    rw [Mem.Free, hflat]
    exact List.mem_cons_of_mem f hg
  let after : Mem := { m with pfFreeList := free, ram := Function.update m.ram f fun _ => Pte.zero }
  have hzero : ∀ k, after.pte ⟨f, k⟩ = Pte.zero := fun k => by simp [after, Mem.pte]
  have hsame : ∀ g k, g ≠ f → after.pte ⟨g, k⟩ = m.pte ⟨g, k⟩ := by
    intro g k hg
    simp [after, Mem.pte, hg]
  have hroot : ∀ g o, use g = .root o → g ≠ f := by
    intro g o hg heq
    rw [heq, hf] at hg
    exact absurd hg (by simp)
  -- the entries that are left are those of before
  have htarget : ∀ t k g, (after.pte ⟨t, k⟩).target = some g → (m.pte ⟨t, k⟩).target = some g := by
    intro t k g ht
    by_cases htf : t = f
    · rw [htf, hzero] at ht
      exact absurd ht (by simp)
    · rwa [hsame t k htf] at ht
  have hafter : Housed B C use after := by
    constructor
    · exact hnodup.of_cons
    · exact fun g hg => h.free g (hrest g hg)
    · exact fun g hg => h.unreferenced g (hrest g hg)
    · exact h.kern
    · exact h.parts
    · exact h.ids
    · exact fun t k g v hk ht => h.entries t k g v hk (htarget t k g ht)
    · intro i hi
      rw [show after.kernPgdir = m.kernPgdir from rfl, hsame _ _ (hroot _ _ h.kern)]
      exact h.boot i hi
    · exact fun i hi t ht => h.slots i hi t (htarget _ _ _ ht)
    · intro pt hpt i hi hslot t ht
      rw [show after.kernPgdir = m.kernPgdir from rfl, hsame _ _ (hroot _ _ h.kern)]
      exact h.shared pt hpt i hi hslot t (htarget _ _ _ ht)
  refine ⟨hf, hafter.relabel (fun o ho => ?_) (fun t k v hk ht => ?_) (fun k v _ => ?_) (fun hfree => ?_),
    hzero, hsame⟩
  · exact hroot f o ho rfl
  · exact hafter.not_pointed (Or.inl hf) hk ht
  · rw [hzero, Pte.target_zero]
  · exact absurd hfree (List.nodup_cons.mp hnodup).1

/-- A table frame is taken. -/
theorem Housed.takeTable (h : Housed B C use m) (halloc : ptFrameAlloc m = .ok f m') (u : Use)
    (hu : u ≠ .free) :
    use f = .free ∧ Housed B C (Function.update use f u) m' ∧ (∀ k, m'.pte ⟨f, k⟩ = Pte.zero) ∧
      ∀ g k, g ≠ f → m'.pte ⟨g, k⟩ = m.pte ⟨g, k⟩ := by
  unfold ptFrameAlloc at halloc
  obtain ⟨f', m₁, htake, halloc⟩ := bind_eq_ok.mp halloc
  obtain ⟨_, m₂, hinc, halloc⟩ := bind_eq_ok.mp halloc
  obtain ⟨rfl, rfl⟩ := pure_eq_ok.mp halloc
  obtain ⟨hf, hhoused, hzero, hsame⟩ := h.take htake u
  have hm₂ := modify_eq_ok.mp (panicE_eq_ok.mp hinc)
  subst hm₂
  refine ⟨hf, hhoused.congr rfl rfl (fun g hg => ?_) rfl rfl rfl fun _ => rfl, hzero, hsame⟩
  refine Function.update_of_ne (fun heq => hu ?_) _ _
  rwa [heq, Function.update_self] at hg

end Jrinx
