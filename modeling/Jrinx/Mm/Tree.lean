import Jrinx.Mm.PageTable
import Mathlib.Data.Finset.Basic
import Mathlib.Logic.Relation

/-! # Page tables as trees

The tables that hang on a set of roots, by the place where they hang. While no frame serves in two
places, an assignment to one entry is seen through exactly one path.

* **`TableSlot`**, **`tableAt`** — the places of tables, and the frame that stands there.
* **`Page`**, **`found`** — a page of an address space, and the valid entry that maps it.
* **`Forest`** — tables of different places never alias.
* **`Linked`**, **`Forest.write`** — the assignments that the walk and its callers make.
* **`Forest.alloc`** — a frame that is cleared while it serves in no place. -/

namespace Jrinx

/-! ## Tables and pages -/

/-- The place of a table: a root, or below an entry of a table nearer to the root. -/
inductive TableSlot where
  | root (r : Ppn)
  | mid (r : Ppn) (i : Nat)
  | leaf (r : Ppn) (i j : Nat)
  deriving DecidableEq

/-- The place is one that a walk from the roots `R` can reach: an index has nine bits. -/
def TableSlot.InRange (R : Finset Ppn) : TableSlot → Prop
  | .root r => r ∈ R
  | .mid r i => r ∈ R ∧ i < 512
  | .leaf r i j => r ∈ R ∧ i < 512 ∧ j < 512

/-- The frame a valid entry points to. -/
def Pte.target (e : Pte) : Option Ppn := if e.perm.v then some e.ppn else none

@[simp] theorem Pte.target_zero : Pte.zero.target = none := rfl

@[simp] theorem target_tablePte (f : Ppn) : (tablePte f).target = some f := rfl

theorem Pte.target_of_invalid {e : Pte} (h : e.perm.v = false) : e.target = none := by
  simp [Pte.target, h]

theorem Pte.target_of_valid {e : Pte} (h : e.perm.v = true) : e.target = some e.ppn := if_pos h

theorem Pte.target_eq_some {e : Pte} {f : Ppn} : e.target = some f ↔ e.perm.v = true ∧ e.ppn = f := by
  by_cases hv : e.perm.v = true
  · simp [Pte.target, hv]
  · simp [Pte.target, hv]

/-- The table at a place. -/
def tableAt (m : Mem) : TableSlot → Option Ppn
  | .root r => some r
  | .mid r i => (m.pte ⟨r, i⟩).target
  | .leaf r i j => (m.pte ⟨r, i⟩).target.bind fun t => (m.pte ⟨t, j⟩).target

/-- A page of the address space of a root. -/
@[ext] structure Page where
  root : Ppn
  i : Nat
  j : Nat
  k : Nat
  deriving DecidableEq

def Page.InRange (R : Finset Ppn) (g : Page) : Prop := g.root ∈ R ∧ g.i < 512 ∧ g.j < 512 ∧ g.k < 512

/-- The page of an address. -/
def pageOf (r : Ppn) (va : Nat) : Page := ⟨r, vpn2 va, vpn1 va, vpn0 va⟩

/-- The place of the bottom table of a page. -/
def Page.slot (g : Page) : TableSlot := .leaf g.root g.i g.j

/-- The valid entry that maps a page, with its place. -/
def found (m : Mem) (g : Page) : Option (PteAddr × Pte) :=
  (tableAt m g.slot).bind fun t =>
    if (m.pte ⟨t, g.k⟩).perm.v then some (⟨t, g.k⟩, m.pte ⟨t, g.k⟩) else none

theorem vpn2_lt (va : Nat) : vpn2 va < 512 := Nat.mod_lt _ (by decide)

theorem vpn1_lt (va : Nat) : vpn1 va < 512 := Nat.mod_lt _ (by decide)

theorem vpn0_lt (va : Nat) : vpn0 va < 512 := Nat.mod_lt _ (by decide)

variable {R : Finset Ppn} {m m' : Mem} {r f t : Ppn} {i j k va : Nat}

theorem inRange_pageOf (hr : r ∈ R) : (pageOf r va).InRange R :=
  ⟨hr, vpn2_lt va, vpn1_lt va, vpn0_lt va⟩

theorem Page.InRange.slot {g : Page} (h : g.InRange R) : g.slot.InRange R := ⟨h.1, h.2.1, h.2.2.1⟩

/-- The page table entry that `pt_lookup` yields. -/
theorem leafOf_eq : leafOf m r va = (found m (pageOf r va)).map Prod.fst := by
  simp only [leafOf, found, pageOf, Page.slot, tableAt, Pte.target]
  by_cases htop : (m.pte ⟨r, vpn2 va⟩).perm.v = true
  · by_cases hmid : (m.pte ⟨(m.pte ⟨r, vpn2 va⟩).ppn, vpn1 va⟩).perm.v = true
    · simp only [htop, hmid, Bool.true_and, if_true, Option.bind_some]
      split
      · rename_i hleaf
        simp [hleaf]
      · rename_i hleaf
        simp [hleaf]
    · simp [htop, hmid]
  · simp [htop]

@[simp] theorem Mem.pte_setPte (m : Mem) (a b : PteAddr) (e : Pte) :
    (m.setPte a e).pte b = if b = a then e else m.pte b := by
  obtain ⟨t, k⟩ := a
  obtain ⟨t', k'⟩ := b
  by_cases ht : t' = t
  · by_cases hk : k' = k
    · simp [Mem.pte, Mem.setPte, ht, hk]
    · simp [Mem.pte, Mem.setPte, ht, hk]
  · simp [Mem.pte, Mem.setPte, ht]

/-! ## No table in two places -/

/-- **The tables of different places are different frames.** -/
structure Forest (R : Finset Ppn) (m : Mem) : Prop where
  inj : ∀ p q t, p.InRange R → q.InRange R → tableAt m p = some t → tableAt m q = some t → p = q

/-- The frame is not used as a table. -/
def Fresh (R : Finset Ppn) (m : Mem) (f : Ppn) : Prop := ∀ p, p.InRange R → tableAt m p ≠ some f

/-- The place of a table depends on the entries of the roots and middle tables only. -/
theorem tableAt_congr {p : TableSlot} (hp : p.InRange R)
    (hroot : ∀ r i, r ∈ R → m'.pte ⟨r, i⟩ = m.pte ⟨r, i⟩)
    (hmid : ∀ r i t j, r ∈ R → i < 512 → tableAt m (.mid r i) = some t →
      m'.pte ⟨t, j⟩ = m.pte ⟨t, j⟩) : tableAt m' p = tableAt m p := by
  cases p with
  | root r => rfl
  | mid r i => rw [tableAt, tableAt, hroot r i hp.1]
  | leaf r i j =>
      rw [tableAt, tableAt, hroot r i hp.1]
      cases ht : (m.pte ⟨r, i⟩).target with
      | none => rfl
      | some t =>
          rw [Option.bind_some, Option.bind_some, hmid r i t j hp.1 hp.2.1 ht]

theorem found_congr {g : Page} (htable : tableAt m' g.slot = tableAt m g.slot)
    (hpte : ∀ t, tableAt m g.slot = some t → m'.pte ⟨t, g.k⟩ = m.pte ⟨t, g.k⟩) :
    found m' g = found m g := by
  unfold found
  rw [htable]
  cases ht : tableAt m g.slot with
  | none => rfl
  | some t => rw [Option.bind_some, Option.bind_some, hpte t ht]

/-- A page without a bottom table is not mapped. -/
theorem found_of_none {g : Page} (h : tableAt m g.slot = none) : found m g = none := by
  rw [found, h, Option.bind_none]

theorem found_of_some {g : Page} (h : tableAt m g.slot = some t) :
    found m g =
      if (m.pte ⟨t, g.k⟩).perm.v then some (⟨t, g.k⟩, m.pte ⟨t, g.k⟩) else none := by
  rw [found, h, Option.bind_some]

/-! ## A new table -/

/-- One table more, at the place `q`; what the pages are mapped to is unchanged. -/
structure Linked (R : Finset Ppn) (m m' : Mem) (q : TableSlot) (f : Ppn) : Prop where
  old : tableAt m q = none
  tables : ∀ p, p.InRange R → tableAt m' p = if p = q then some f else tableAt m p
  found : ∀ g : Page, g.InRange R → found m' g = found m g

theorem Linked.forest {q : TableSlot} (h : Linked R m m' q f) (hf : Forest R m)
    (hfresh : Fresh R m f) : Forest R m' := by
  constructor
  intro p p' t hp hp' ht ht'
  rw [h.tables p hp] at ht
  rw [h.tables p' hp'] at ht'
  split at ht <;> split at ht'
  · rename_i h₁ h₂
    rw [h₁, h₂]
  · exact absurd (ht'.trans ht.symm) (hfresh p' hp')
  · exact absurd (ht.trans ht'.symm) (hfresh p hp)
  · exact hf.inj p p' t hp hp' ht ht'

/-- The assignment below a root. -/
theorem Forest.linkMid (hf : Forest R m) (hr : r ∈ R) (hi : i < 512)
    (hinv : (m.pte ⟨r, i⟩).perm.v = false) (hfresh : Fresh R m f)
    (hzero : ∀ k, m.pte ⟨f, k⟩ = Pte.zero) :
    Linked R m (m.setPte ⟨r, i⟩ (tablePte f)) (.mid r i) f := by
  have hfr : f ≠ r := fun heq => hfresh (.root r) hr (by rw [heq]; rfl)
  -- entries of tables at other places than the root are untouched
  have hpte : ∀ p t k, p.InRange R → p ≠ .root r → tableAt m p = some t →
      (m.setPte ⟨r, i⟩ (tablePte f)).pte ⟨t, k⟩ = m.pte ⟨t, k⟩ := by
    intro p t k hp hne ht
    rw [Mem.pte_setPte, if_neg]
    intro heq
    have htr : t = r := congrArg PteAddr.table heq
    exact hne (hf.inj p (.root r) r hp hr (htr ▸ ht) rfl)
  have hnew : ∀ k, (m.setPte ⟨r, i⟩ (tablePte f)).pte ⟨f, k⟩ = Pte.zero := by
    intro k
    rw [Mem.pte_setPte, if_neg (by simp [hfr]), hzero]
  have htables : ∀ p, p.InRange R → tableAt (m.setPte ⟨r, i⟩ (tablePte f)) p =
      if p = .mid r i then some f else tableAt m p := by
    intro p hp
    cases p with
    | root r' => simp [tableAt]
    | mid r' i' =>
        simp only [tableAt, Mem.pte_setPte, PteAddr.mk.injEq, TableSlot.mid.injEq]
        split <;> simp
    | leaf r' i' j' =>
        rw [if_neg (by simp), tableAt, tableAt, Mem.pte_setPte]
        split
        · rename_i heq
          obtain ⟨rfl, rfl⟩ := (PteAddr.mk.injEq _ _ _ _).mp heq
          rw [target_tablePte, Option.bind_some, hnew, Pte.target_zero, Pte.target_of_invalid hinv]
          rfl
        · cases ht : (m.pte ⟨r', i'⟩).target with
          | none => rfl
          | some t =>
              rw [Option.bind_some, Option.bind_some,
                hpte (.mid r' i') t j' ⟨hp.1, hp.2.1⟩ (by simp) ht]
  refine ⟨Pte.target_of_invalid hinv, htables,
    fun g hg => found_congr ?_ fun t ht => hpte g.slot t g.k hg.slot ?_ ht⟩
  · rw [htables g.slot hg.slot, if_neg (by simp [Page.slot])]
  · simp [Page.slot]

/-- The assignment below a middle table. -/
theorem Forest.linkLeaf (hf : Forest R m) (hr : r ∈ R) (hi : i < 512) (hj : j < 512)
    (hmid : tableAt m (.mid r i) = some t) (hinv : (m.pte ⟨t, j⟩).perm.v = false)
    (hfresh : Fresh R m f) (hzero : ∀ k, m.pte ⟨f, k⟩ = Pte.zero) :
    Linked R m (m.setPte ⟨t, j⟩ (tablePte f)) (.leaf r i j) f := by
  have hmidR : (TableSlot.mid r i).InRange R := ⟨hr, hi⟩
  have hft : f ≠ t := fun heq => hfresh (.mid r i) hmidR (heq ▸ hmid)
  -- the assignment is to the middle table, and no other slot has that table
  have hpte : ∀ p t' k, p.InRange R → p ≠ .mid r i → tableAt m p = some t' →
      (m.setPte ⟨t, j⟩ (tablePte f)).pte ⟨t', k⟩ = m.pte ⟨t', k⟩ := by
    intro p t' k hp hne ht
    rw [Mem.pte_setPte, if_neg]
    intro heq
    have htt : t' = t := congrArg PteAddr.table heq
    exact hne (hf.inj p (.mid r i) t hp hmidR (htt ▸ ht) hmid)
  -- the new table is empty, and is not the one that is written
  have hnew : ∀ k, (m.setPte ⟨t, j⟩ (tablePte f)).pte ⟨f, k⟩ = Pte.zero := by
    intro k
    rw [Mem.pte_setPte, if_neg (by simp [hft]), hzero]
  have htables : ∀ p, p.InRange R → tableAt (m.setPte ⟨t, j⟩ (tablePte f)) p =
      if p = .leaf r i j then some f else tableAt m p := by
    intro p hp
    cases p with
    | root r' => simp [tableAt]
    | mid r' i' =>
        rw [if_neg (by simp), tableAt, tableAt, hpte (.root r') r' i' hp.1 (by simp) rfl]
    | leaf r' i' j' =>
        rw [tableAt, tableAt, hpte (.root r') r' i' hp.1 (by simp) rfl]
        cases ht : (m.pte ⟨r', i'⟩).target with
        | none =>
            rw [if_neg]
            · rfl
            · intro heq
              obtain ⟨rfl, rfl, rfl⟩ := (TableSlot.leaf.injEq _ _ _ _ _ _).mp heq
              exact absurd (hmid.symm.trans ht) (by simp)
        | some t' =>
            rw [Option.bind_some, Option.bind_some]
            -- the slot is below the entry that is written, or below another
            by_cases hplace : r' = r ∧ i' = i
            · obtain ⟨rfl, rfl⟩ := hplace
              obtain rfl : t' = t := Option.some.inj (ht.symm.trans hmid)
              simp only [Mem.pte_setPte, PteAddr.mk.injEq, true_and, TableSlot.leaf.injEq]
              split <;> simp
            · rw [hpte (.mid r' i') t' j' ⟨hp.1, hp.2.1⟩ (by simpa using hplace) ht, if_neg]
              intro heq
              obtain ⟨h₁, h₂, -⟩ := (TableSlot.leaf.injEq _ _ _ _ _ _).mp heq
              exact hplace ⟨h₁, h₂⟩
  have hold : tableAt m (.leaf r i j) = none := by
    rw [tableAt, show (m.pte ⟨r, i⟩).target = some t from hmid, Option.bind_some,
      Pte.target_of_invalid hinv]
  refine ⟨hold, htables, fun g hg => ?_⟩
  by_cases hg' : g.slot = .leaf r i j
  · -- the page hangs on the new table, which is empty
    have hbefore : tableAt m g.slot = none := hg' ▸ hold
    have hafter : tableAt (m.setPte ⟨t, j⟩ (tablePte f)) g.slot = some f := by
      rw [htables g.slot hg.slot, if_pos hg']
    rw [found_of_none hbefore, found_of_some hafter, hnew]
    rfl
  · refine found_congr ?_ fun t' ht => hpte g.slot t' g.k hg.slot (by simp [Page.slot]) ht
    rw [htables g.slot hg.slot, if_neg hg']

/-! ## A new entry -/

/-- The assignment to an entry of a bottom table: one page changes. -/
theorem Forest.write {g : Page} (hf : Forest R m) (hg : g.InRange R)
    (ht : tableAt m g.slot = some t) (e : Pte) :
    Forest R (m.setPte ⟨t, g.k⟩ e) ∧
      (∀ p, p.InRange R → tableAt (m.setPte ⟨t, g.k⟩ e) p = tableAt m p) ∧
      ∀ g' : Page, g'.InRange R → found (m.setPte ⟨t, g.k⟩ e) g' =
        if g' = g then (if e.perm.v then some (⟨t, g.k⟩, e) else none) else found m g' := by
  -- the assignment is to the table of the page, and no other slot has that table
  have hpte : ∀ p t' k, p.InRange R → p ≠ g.slot → tableAt m p = some t' →
      (m.setPte ⟨t, g.k⟩ e).pte ⟨t', k⟩ = m.pte ⟨t', k⟩ := by
    intro p t' k hp hne htp
    rw [Mem.pte_setPte, if_neg]
    intro heq
    have htt : t' = t := congrArg PteAddr.table heq
    exact hne (hf.inj p g.slot t hp hg.slot (htt ▸ htp) ht)
  have htables : ∀ p, p.InRange R → tableAt (m.setPte ⟨t, g.k⟩ e) p = tableAt m p := by
    intro p hp
    refine tableAt_congr hp (fun r i hr => ?_) fun r i t' j hr hi ht' => ?_
    · exact hpte (.root r) r i hr (by simp [Page.slot]) rfl
    · exact hpte (.mid r i) t' j ⟨hr, hi⟩ (by simp [Page.slot]) ht'
  refine ⟨⟨?_⟩, htables, ?_⟩
  · intro p q t' hp hq hpt hqt
    rw [htables p hp] at hpt
    rw [htables q hq] at hqt
    exact hf.inj p q t' hp hq hpt hqt
  · intro g' hg'
    by_cases hslot : g'.slot = g.slot
    · have ht' : tableAt m g'.slot = some t := hslot ▸ ht
      have hafter : tableAt (m.setPte ⟨t, g.k⟩ e) g'.slot = some t := by
        rw [htables g'.slot hg'.slot, ht']
      rw [found_of_some hafter, found_of_some ht', Mem.pte_setPte]
      -- in one table the pages are told apart by their entries
      have hiff : ((⟨t, g'.k⟩ : PteAddr) = ⟨t, g.k⟩) ↔ g' = g := by
        constructor
        · intro heq
          obtain ⟨h₁, h₂, h₃⟩ := (TableSlot.leaf.injEq _ _ _ _ _ _).mp hslot
          exact Page.ext h₁ h₂ h₃ (congrArg PteAddr.idx heq)
        · rintro rfl
          rfl
      by_cases hgg : g' = g
      · rw [if_pos (hiff.mpr hgg), if_pos hgg, hgg]
      · rw [if_neg (fun h => hgg (hiff.mp h)), if_neg hgg]
    · have hgg : g' ≠ g := fun heq => hslot (by rw [heq])
      rw [if_neg hgg]
      exact found_congr (htables g'.slot hg'.slot) fun t' ht' =>
        hpte g'.slot t' g'.k hg'.slot hslot ht'

/-! ## Memory outside the trees -/

theorem Mem.pte_of_ram (h : m'.ram = m.ram) (a : PteAddr) : m'.pte a = m.pte a := by
  rw [Mem.pte, Mem.pte, h]

theorem tableAt_of_ram (h : m'.ram = m.ram) (p : TableSlot) : tableAt m' p = tableAt m p := by
  cases p <;> simp only [tableAt, Mem.pte, h]

theorem found_of_ram (h : m'.ram = m.ram) (g : Page) : found m' g = found m g :=
  found_congr (tableAt_of_ram h g.slot) fun _ _ => Mem.pte_of_ram h _

theorem Forest.of_ram (hf : Forest R m) (h : m'.ram = m.ram) : Forest R m' := by
  constructor
  intro p q t hp hq ht ht'
  rw [tableAt_of_ram h] at ht ht'
  exact hf.inj p q t hp hq ht ht'

/-- A fresh frame was cleared: the trees look the same. -/
theorem Forest.alloc (hf : Forest R m) (hfresh : Fresh R m f)
    (hram : m'.ram = Function.update m.ram f (fun _ => Pte.zero)) :
    Forest R m' ∧ (∀ p, p.InRange R → tableAt m' p = tableAt m p) ∧
      (∀ g : Page, g.InRange R → found m' g = found m g) ∧ ∀ k, m'.pte ⟨f, k⟩ = Pte.zero := by
  have hpte : ∀ p t k, p.InRange R → tableAt m p = some t → m'.pte ⟨t, k⟩ = m.pte ⟨t, k⟩ := by
    intro p t k hp ht
    have hne : t ≠ f := fun heq => hfresh p hp (heq ▸ ht)
    simp [Mem.pte, hram, hne]
  have htables : ∀ p, p.InRange R → tableAt m' p = tableAt m p := by
    intro p hp
    refine tableAt_congr hp (fun r i hr => ?_) fun r i t j hr hi ht => ?_
    · exact hpte (.root r) r i hr rfl
    · exact hpte (.mid r i) t j ⟨hr, hi⟩ ht
  refine ⟨⟨?_⟩, htables, ?_, ?_⟩
  · intro p q t hp hq ht ht'
    rw [htables p hp] at ht
    rw [htables q hq] at ht'
    exact hf.inj p q t hp hq ht ht'
  · exact fun g hg => found_congr (htables g.slot hg.slot) fun t ht => hpte g.slot t g.k hg.slot ht
  · intro k
    simp [Mem.pte, hram]

end Jrinx
