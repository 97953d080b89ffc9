import Mathlib.Logic.Function.Basic
import Mathlib.Data.List.Basic
import Mathlib.Data.List.Nodup

/-! # Intrusive lists

A list of nodes that carry their own links. The link backwards of a node is the address of the pointer
that points to it, which is a field of the head of the list or of another node, so that a node is
taken off without knowing where it stands.

* **`Slot`**, **`Links`** — the places of a pointer, and the fields of the head and of the nodes.
* **`listInsertTail`**, **`listInsertBefore`**, **`listRemoveNode`** — the operations, one assignment
  after the other.
* **`Represents`** — the links stand for a sequence of nodes, with one rule for each operation.
* **`listIter`**, **`listNodes`** — the loop over the nodes, and the sequence it goes through. -/

namespace Jrinx

variable {α : Type}

/-- The place of a pointer to a node: the `first` of the head, or the `next` of a node. -/
inductive Slot (α : Type) where
  | first
  | next (a : α)
  deriving DecidableEq

/-- The fields of the head of a list and of the nodes. -/
structure Links (α : Type) where
  lFirst : Option α
  lLast : Slot α
  next : α → Option α
  prev : α → Slot α

namespace Links

/-- Read a pointer. -/
def load (h : Links α) : Slot α → Option α
  | .first => h.lFirst
  | .next a => h.next a

/-- Write the last slot of the list. -/
def setLast (h : Links α) (s : Slot α) : Links α := { h with lLast := s }

@[simp] theorem load_setLast (h : Links α) (s s' : Slot α) :
    (h.setLast s).load s' = h.load s' := by
  cases s' <;> rfl

@[simp] theorem prev_setLast (h : Links α) (s : Slot α) : (h.setLast s).prev = h.prev := rfl

@[simp] theorem lLast_setLast (h : Links α) (s : Slot α) : (h.setLast s).lLast = s := rfl

variable [DecidableEq α]

/-- Write a pointer. -/
def store (h : Links α) (s : Slot α) (v : Option α) : Links α :=
  match s with
  | .first => { h with lFirst := v }
  | .next a => { h with next := Function.update h.next a v }

/-- Write the link backwards of a node. -/
def setPrev (h : Links α) (a : α) (s : Slot α) : Links α :=
  { h with prev := Function.update h.prev a s }

variable (h : Links α)

@[simp] theorem load_store (s s' : Slot α) (v : Option α) :
    (h.store s v).load s' = if s' = s then v else h.load s' := by
  cases s <;> cases s' <;> simp [store, load, Function.update_apply]

@[simp] theorem prev_store (s : Slot α) (v : Option α) : (h.store s v).prev = h.prev := by
  cases s <;> rfl

@[simp] theorem lLast_store (s : Slot α) (v : Option α) : (h.store s v).lLast = h.lLast := by
  cases s <;> rfl

@[simp] theorem load_setPrev (a : α) (s s' : Slot α) : (h.setPrev a s).load s' = h.load s' := by
  cases s' <;> rfl

@[simp] theorem prev_setPrev (a b : α) (s : Slot α) :
    (h.setPrev a s).prev b = if b = a then s else h.prev b := by
  simp [setPrev, Function.update_apply]

@[simp] theorem lLast_setPrev (a : α) (s : Slot α) : (h.setPrev a s).lLast = h.lLast := rfl

end Links

/-! ## What the links stand for -/

/-- From the slot `s` on, the nodes `l` follow each other, up to the slot `e`. -/
def Seg (h : Links α) : Slot α → List α → Slot α → Prop
  | s, [], e => s = e
  | s, a :: l, e => h.load s = some a ∧ h.prev a = s ∧ Seg h (.next a) l e

/-- **The links stand for a sequence of nodes.** -/
structure Represents (h : Links α) (l : List α) : Prop where
  seg : Seg h .first l h.lLast
  last : h.load h.lLast = none
  nodup : l.Nodup

variable {h h' : Links α} {l r : List α} {s e : Slot α} {a b : α}

theorem seg_append : Seg h s (l ++ r) e ↔ ∃ m, Seg h s l m ∧ Seg h m r e := by
  induction l generalizing s with
  | nil => simp [Seg]
  | cons a l ih =>
      simp only [List.cons_append, Seg, ih]
      constructor
      · rintro ⟨hload, hprev, m, hl, hr⟩
        exact ⟨m, ⟨hload, hprev, hl⟩, hr⟩
      · rintro ⟨m, ⟨hload, hprev, hl⟩, hr⟩
        exact ⟨hload, hprev, m, hl, hr⟩

/-- A segment ends at its start or at the slot of one of its nodes. -/
theorem Seg.end_mem (hs : Seg h s l e) : e = s ∨ ∃ a ∈ l, e = .next a := by
  induction l generalizing s with
  | nil => exact Or.inl hs.symm
  | cons a l ih =>
      right
      rcases ih hs.2.2 with he | ⟨b, hb, he⟩
      · exact ⟨a, List.mem_cons_self, he⟩
      · exact ⟨b, List.mem_cons_of_mem a hb, he⟩

/-- A segment only depends on the slots before its end and on the links backwards of its nodes. -/
theorem Seg.congr (hs : Seg h s l e) (hnodup : l.Nodup) (hstart : ∀ a ∈ l, s ≠ .next a)
    (hload : ∀ s', s' ≠ e → (s' = s ∨ ∃ a ∈ l, s' = .next a) → h'.load s' = h.load s')
    (hprev : ∀ a ∈ l, h'.prev a = h.prev a) : Seg h' s l e := by
  induction l generalizing s with
  | nil => exact hs
  | cons a l ih =>
      obtain ⟨hfst, hback, hrest⟩ := hs
      obtain ⟨ha, hl⟩ := List.nodup_cons.mp hnodup
      -- the first slot is not the last one
      have hse : s ≠ e := by
        intro heq
        rcases hrest.end_mem with he | ⟨b, hb, he⟩
        · exact hstart a List.mem_cons_self (heq.trans he)
        · exact hstart b (List.mem_cons_of_mem a hb) (heq.trans he)
      refine ⟨?_, ?_, ?_⟩
      · rw [hload s hse (Or.inl rfl)]
        exact hfst
      · rw [hprev a List.mem_cons_self]
        exact hback
      · apply ih hrest hl
        · intro b hb heq
          exact ha ((Slot.next.inj heq) ▸ hb)
        · rintro s' hne (rfl | ⟨b, hb, rfl⟩)
          · exact hload _ hne (Or.inr ⟨a, List.mem_cons_self, rfl⟩)
          · exact hload _ hne (Or.inr ⟨b, List.mem_cons_of_mem a hb, rfl⟩)
        · intro b hb
          exact hprev b (List.mem_cons_of_mem a hb)

/-- The first pointer of a sequence that ends the list. -/
theorem Represents.load_eq (hr : Represents h (l ++ r)) {m : Slot α} (hm : Seg h .first l m) :
    h.load m = r.head? := by
  obtain ⟨m', hl, hseg⟩ := seg_append.mp hr.seg
  have hmm : ∀ (l : List α) (s : Slot α), Seg h s l m → Seg h s l m' → m = m' := by
    intro l
    induction l with
    | nil => exact fun s h₁ h₂ => h₁.symm.trans h₂
    | cons a l ih => exact fun s h₁ h₂ => ih _ h₁.2.2 h₂.2.2
  rw [hmm l .first hm hl]
  cases r with
  | nil =>
      rw [show m' = h.lLast from hseg]
      exact hr.last
  | cons a r => exact hseg.1

theorem Represents.lFirst_eq (hr : Represents h l) : h.lFirst = l.head? :=
  Represents.load_eq (l := []) hr rfl

/-- The node that follows another one. -/
theorem Represents.next_eq (hr : Represents h (l ++ a :: r)) : h.next a = r.head? := by
  have hr' : Represents h ((l ++ [a]) ++ r) := by simpa using hr
  obtain ⟨m, hl, hseg⟩ := seg_append.mp hr.seg
  refine hr'.load_eq (m := .next a) ?_
  exact seg_append.mpr ⟨m, hl, hseg.1, hseg.2.1, rfl⟩

/-- The slot that points to a node in the middle is none of the slots after it. -/
theorem slot_ne {m : Slot α} (hl : Seg h .first l m) (hnodup : (l ++ r).Nodup) (hb : b ∈ r) :
    m ≠ .next b := by
  intro heq
  rcases hl.end_mem with he | ⟨c, hc, he⟩
  · exact absurd (he.symm.trans heq) (by simp)
  · have hcb : c = b := Slot.next.inj (he.symm.trans heq)
    exact (List.nodup_append.mp hnodup).2.2 c hc b hb hcb

/-! ## The loop over the nodes -/

/-- `LINKED_NODE_ITER` up to the first node with the property, for at most `n` nodes; `none` if they
do not suffice to reach the end. -/
def listIter (h : Links α) (p : α → Bool) : Nat → Option α → Option (Option α)
  | _, none => some none
  | 0, some _ => none
  | n + 1, some a => if p a then some (some a) else listIter h p n (h.next a)

/-- The loop ends, at the first node of the sequence with the property. -/
theorem listIter_eq {p : α → Bool} {n : Nat} (hr : Represents h (l ++ r)) (hn : r.length ≤ n) :
    listIter h p n r.head? = some (r.find? p) := by
  induction r generalizing l n with
  | nil => cases n <;> rfl
  | cons a r ih =>
      cases n with
      | zero => exact absurd hn (by simp)
      | succ n =>
          rw [List.head?_cons, listIter, hr.next_eq]
          by_cases hp : p a = true
          · simp [hp]
          · rw [if_neg hp, ih (l := l ++ [a]) (by simpa using hr) (by simpa using hn)]
            simp [hp]

/-- The nodes from a pointer on, at most `n` of them. -/
def listNodes (h : Links α) : Nat → Option α → List α
  | _, none => []
  | 0, some _ => []
  | n + 1, some a => a :: listNodes h n (h.next a)

theorem listNodes_eq {n : Nat} (hr : Represents h (l ++ r)) (hn : r.length ≤ n) :
    listNodes h n r.head? = r := by
  induction r generalizing l n with
  | nil => cases n <;> rfl
  | cons a r ih =>
      cases n with
      | zero => exact absurd hn (by simp)
      | succ n =>
          rw [List.head?_cons, listNodes, hr.next_eq]
          rw [ih (l := l ++ [a]) (by simpa using hr) (by simpa using hn)]

/-! ## The operations -/

/-- `list_init`. -/
def listInit (h : Links α) : Links α := { h with lFirst := none, lLast := .first }

theorem Represents.init (h : Links α) : Represents (listInit h) [] :=
  ⟨rfl, rfl, List.nodup_nil⟩

variable [DecidableEq α]

/-- `list_insert_tail`. -/
def listInsertTail (h : Links α) (a : α) : Links α :=
  let h := h.store (.next a) none
  let h := h.setPrev a h.lLast
  let h := h.store h.lLast (some a)
  h.setLast (.next a)

/-- `list_insert_before`. -/
def listInsertBefore (h : Links α) (b a : α) : Links α :=
  let h := h.store (.next a) (some b)
  let h := h.setPrev a (h.prev b)
  let h := h.store (h.prev b) (some a)
  h.setPrev b (.next a)

/-- `list_remove_node`. -/
def listRemoveNode (h : Links α) (a : α) : Links α :=
  let h := match h.load (.next a) with
    | some b => h.setPrev b (h.prev a)
    | none => h.setLast (h.prev a)
  h.store (h.prev a) (h.load (.next a))

theorem Represents.insertTail (hr : Represents h l) (ha : a ∉ l) :
    Represents (listInsertTail h a) (l ++ [a]) := by
  have hlast : h.lLast ≠ .next a := by
    intro heq
    rcases hr.seg.end_mem with he | ⟨b, hb, he⟩
    · exact absurd (he.symm.trans heq) (by simp)
    · exact ha (Slot.next.inj (he.symm.trans heq) ▸ hb)
  refine ⟨seg_append.mpr ⟨h.lLast, ?_, ?_, ?_, rfl⟩, ?_, ?_⟩
  · apply hr.seg.congr hr.nodup (by simp)
    · rintro s' hne (rfl | ⟨b, hb, rfl⟩)
      · simp [listInsertTail, hne]
      · have hba : b ≠ a := fun heq => ha (heq ▸ hb)
        simp [listInsertTail, hne, hba]
    · intro b hb
      have hba : b ≠ a := fun heq => ha (heq ▸ hb)
      simp [listInsertTail, hba]
  · simp [listInsertTail]
  · simp [listInsertTail]
  · simp [listInsertTail, hlast.symm]
  · exact List.nodup_append.mpr ⟨hr.nodup, List.nodup_singleton a, by
      intro x hx y hy
      rw [List.mem_singleton.mp hy]
      exact fun heq => ha (heq ▸ hx)⟩

theorem Represents.insertBefore (hr : Represents h (l ++ b :: r)) (ha : a ∉ l ++ b :: r) :
    Represents (listInsertBefore h b a) (l ++ a :: b :: r) := by
  obtain ⟨m, hl, hload, hback, hseg⟩ := seg_append.mp hr.seg
  obtain ⟨hal, hab, har⟩ : a ∉ l ∧ a ≠ b ∧ a ∉ r := by simpa [not_or] using ha
  have hnodup := List.nodup_append.mp hr.nodup
  have hbr := List.nodup_cons.mp hnodup.2.1
  have hma : m ≠ .next a := by
    intro heq
    rcases hl.end_mem with he | ⟨c, hc, he⟩
    · exact absurd (he.symm.trans heq) (by simp)
    · exact hal (Slot.next.inj (he.symm.trans heq) ▸ hc)
  -- what the assignments leave in every field
  have hload' : ∀ s', (listInsertBefore h b a).load s' =
      if s' = m then some a else if s' = .next a then some b else h.load s' := by
    intro s'
    simp [listInsertBefore, hab.symm, hback]
  have hprev' : ∀ c, (listInsertBefore h b a).prev c =
      if c = b then .next a else if c = a then m else h.prev c := by
    intro c
    simp [listInsertBefore, hback]
  have hlast' : (listInsertBefore h b a).lLast = h.lLast := by simp [listInsertBefore]
  refine ⟨seg_append.mpr ⟨m, ?_, ?_, ?_, ?_, ?_, ?_⟩, ?_, ?_⟩
  · apply hl.congr hnodup.1 (by simp)
    · rintro s' hne (rfl | ⟨c, hc, rfl⟩)
      · simp [hload', hne]
      · have hca : c ≠ a := fun heq => hal (heq ▸ hc)
        simp [hload', hne, hca]
    · intro c hc
      have hca : c ≠ a := fun heq => hal (heq ▸ hc)
      have hcb : c ≠ b := hnodup.2.2 c hc b List.mem_cons_self
      simp [hprev', hca, hcb]
  · simp [hload']
  · simp [hprev', hab]
  · simp [hload', hma.symm]
  · simp [hprev']
  · rw [hlast']
    apply hseg.congr hbr.2
    · intro c hc heq
      exact hbr.1 (Slot.next.inj heq ▸ hc)
    · rintro s' - (rfl | ⟨c, hc, rfl⟩)
      · have hne := slot_ne hl hr.nodup (b := b) List.mem_cons_self
        simp [hload', hne.symm, hab.symm]
      · have hne := slot_ne hl hr.nodup (b := c) (List.mem_cons_of_mem b hc)
        have hca : c ≠ a := fun heq => har (heq ▸ hc)
        simp [hload', hne.symm, hca]
    · intro c hc
      have hcb : c ≠ b := fun heq => hbr.1 (heq ▸ hc)
      have hca : c ≠ a := fun heq => har (heq ▸ hc)
      simp [hprev', hcb, hca]
  · rw [hlast', hload']
    rcases hseg.end_mem with he | ⟨c, hc, he⟩
    · have hne := slot_ne hl hr.nodup (b := b) List.mem_cons_self
      rw [if_neg (he ▸ hne.symm), if_neg (by simp [he, hab.symm])]
      exact hr.last
    · have hne := slot_ne hl hr.nodup (b := c) (List.mem_cons_of_mem b hc)
      have hca : c ≠ a := fun heq => har (heq ▸ hc)
      rw [if_neg (he ▸ hne.symm), if_neg (by simp [he, hca])]
      exact hr.last
  · have hperm : (l ++ a :: b :: r).Perm (a :: (l ++ b :: r)) := List.perm_middle
    exact hperm.nodup_iff.mpr (List.nodup_cons.mpr ⟨ha, hr.nodup⟩)

theorem Represents.removeNode (hr : Represents h (l ++ a :: r)) :
    Represents (listRemoveNode h a) (l ++ r) := by
  obtain ⟨m, hl, hload, hback, hseg⟩ := seg_append.mp hr.seg
  have hnodup := List.nodup_append.mp hr.nodup
  have har := List.nodup_cons.mp hnodup.2.1
  -- the slot before a node is not the slot of the node itself
  have hma : m ≠ .next a := slot_ne hl hr.nodup List.mem_cons_self
  have hnext : h.load (.next a) = r.head? := hr.next_eq
  have hlr : (l ++ r).Nodup := by
    refine List.nodup_append.mpr ⟨hnodup.1, har.2, ?_⟩
    intro x hx y hy
    exact hnodup.2.2 x hx y (List.mem_cons_of_mem a hy)
  cases r with
  -- the last node: the slot before it holds nothing now, and the list ends there
  | nil =>
      have hload' : ∀ s', (listRemoveNode h a).load s' = if s' = m then none else h.load s' := by
        intro s'
        simp [listRemoveNode, hnext, hback]
      have hprev' : (listRemoveNode h a).prev = h.prev := by simp [listRemoveNode, hnext]
      have hlast' : (listRemoveNode h a).lLast = m := by simp [listRemoveNode, hnext, hback]
      refine ⟨?_, ?_, hlr⟩
      · rw [hlast', List.append_nil]
        apply hl.congr hnodup.1 (by simp)
        · intro s' hne _
          simp [hload', hne]
        · intro c _
          rw [hprev']
      · rw [hlast', hload', if_pos rfl]
  | cons b r =>
      -- a node in the middle: the slot before it holds the next one, which points back to that slot
      have hba : b ≠ a := fun heq => har.1 (heq ▸ List.mem_cons_self)
      have hload' : ∀ s', (listRemoveNode h a).load s' = if s' = m then some b else h.load s' := by
        intro s'
        simp [listRemoveNode, hnext, hback, hba.symm]
      have hprev' : ∀ c, (listRemoveNode h a).prev c = if c = b then m else h.prev c := by
        intro c
        simp [listRemoveNode, hnext, hback]
      have hlast' : (listRemoveNode h a).lLast = h.lLast := by simp [listRemoveNode, hnext]
      obtain ⟨-, -, hrest⟩ := hseg
      have hbr := List.nodup_cons.mp har.2
      refine ⟨seg_append.mpr ⟨m, ?_, ?_, ?_, ?_⟩, ?_, hlr⟩
      · apply hl.congr hnodup.1 (by simp)
        · intro s' hne _
          simp [hload', hne]
        · intro c hc
          have hcb : c ≠ b := hnodup.2.2 c hc b (by simp)
          simp [hprev', hcb]
      · simp [hload']
      · simp [hprev']
      · rw [hlast']
        apply hrest.congr hbr.2
        · intro c hc heq
          exact hbr.1 (Slot.next.inj heq ▸ hc)
        · rintro s' - (rfl | ⟨c, hc, rfl⟩)
          · have hne := slot_ne hl hr.nodup (b := b) (by simp)
            simp [hload', hne.symm]
          · have hne := slot_ne hl hr.nodup (b := c) (by simp [hc])
            simp [hload', hne.symm]
        · intro c hc
          have hcb : c ≠ b := fun heq => hbr.1 (heq ▸ hc)
          simp [hprev', hcb]
      · rw [hlast', hload', if_neg, hr.last]
        intro heq
        -- the last slot is not the one that is written
        rcases hrest.end_mem with he | ⟨c, hc, he⟩
        · exact slot_ne hl hr.nodup (b := b) (by simp) (heq.symm.trans he)
        · exact slot_ne hl hr.nodup (b := c) (by simp [hc]) (heq.symm.trans he)

end Jrinx
