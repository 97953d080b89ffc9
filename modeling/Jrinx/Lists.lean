import Jrinx.Lib.Chains

/-! # Lists of the kernel

`include/list.h`: memory with any number of `list_head`s and `hlist_head`s, which share the nodes. `l_last` of a
`list_head` and `prev` of a node are addresses of pointers, of a head's or of a node's.

* **`ListHeap`** — the fields of the heads and of the nodes, and the operations, one assignment after the other.
* **`Seqs`**, **`SeqStep`** — the sequences of nodes, and the operations on them.
* **`StandsFor`** — the memory stands for the sequences, with one rule for each operation.
* **`lists_refine_sequences`** — it does in every run, and no operation changes another list. -/

namespace Jrinx

variable {α : Type}

/-! ## The operations on memory -/

/-- Memory with heads, which have a number, and nodes. -/
structure ListHeap (α : Type) where
  links : Chains α
  lLast : Nat → ChainSlot α

namespace ListHeap

def load (m : ListHeap α) (x : ChainSlot α) : Option α := m.links.load x

def prev (m : ListHeap α) (a : α) : ChainSlot α := m.links.prev a

/-- Write `l_last` of a head. -/
def setLast (m : ListHeap α) (i : Nat) (x : ChainSlot α) : ListHeap α :=
  { m with lLast := Function.update m.lLast i x }

/-- `list_empty`. -/
def listEmpty (m : ListHeap α) (i : Nat) : Bool := (m.load (.head i)).isNone

/-- `list_first`. -/
def listFirst (m : ListHeap α) (i : Nat) : Option α := m.load (.head i)

/-- `list_last`; `none` if `l_last` is not the link of a node of which `CONTAINER_OF` gives the address. -/
def listLast [DecidableEq α] (m : ListHeap α) (i : Nat) : Option (Option α) :=
  if m.lLast i = .head i then some none
  else match m.lLast i with
    | .next a => some (some a)
    | .head _ => none

/-- `hlist_empty`. -/
def hlistEmpty (m : ListHeap α) (i : Nat) : Bool := (m.load (.head i)).isNone

/-- `hlist_first`. -/
def hlistFirst (m : ListHeap α) (i : Nat) : Option α := m.load (.head i)

variable [DecidableEq α]

/-- Write a pointer. -/
def store (m : ListHeap α) (x : ChainSlot α) (v : Option α) : ListHeap α := { m with links := m.links.store x v }

/-- Write the link backwards of a node. -/
def setPrev (m : ListHeap α) (a : α) (x : ChainSlot α) : ListHeap α := { m with links := m.links.setPrev a x }

/-- `list_init`. -/
def listInit (m : ListHeap α) (i : Nat) : ListHeap α :=
  let m := m.store (.head i) none
  m.setLast i (.head i)

/-- `list_insert_head`. -/
def listInsertHead (m : ListHeap α) (i : Nat) (a : α) : ListHeap α :=
  let m := m.store (.next a) (m.load (.head i))
  -- `node->next` is `head->l_first` by now
  let m := match m.load (.head i) with
    | some b => m.setPrev b (.next a)
    | none => m.setLast i (.next a)
  let m := m.store (.head i) (some a)
  m.setPrev a (.head i)

/-- `list_insert_tail`. -/
def listInsertTail (m : ListHeap α) (i : Nat) (a : α) : ListHeap α :=
  let m := m.store (.next a) none
  let m := m.setPrev a (m.lLast i)
  let m := m.store (m.lLast i) (some a)
  m.setLast i (.next a)

/-- `list_insert_before`. -/
def listInsertBefore (m : ListHeap α) (b a : α) : ListHeap α :=
  let m := m.store (.next a) (some b)
  let m := m.setPrev a (m.prev b)
  let m := m.store (m.prev b) (some a)
  m.setPrev b (.next a)

/-- `list_remove_node`. -/
def listRemoveNode (m : ListHeap α) (i : Nat) (a : α) : ListHeap α :=
  let m := match m.load (.next a) with
    | some b => m.setPrev b (m.prev a)
    | none => m.setLast i (m.prev a)
  m.store (m.prev a) (m.load (.next a))

end ListHeap

/-- The operations of `list.h`. -/
inductive ListOp (α : Type) where
  | listInit (i : Nat)
  | listInsertHead (i : Nat) (a : α)
  | listInsertTail (i : Nat) (a : α)
  | listInsertBefore (b a : α)
  | listRemoveNode (i : Nat) (a : α)
  | hlistInit (i : Nat)
  | hlistInsertHead (i : Nat) (a : α)
  | hlistRemoveNode (a : α)

/-- What an operation does to memory. -/
def listOp [DecidableEq α] (m : ListHeap α) : ListOp α → ListHeap α
  | .listInit i => m.listInit i
  | .listInsertHead i a => m.listInsertHead i a
  | .listInsertTail i a => m.listInsertTail i a
  | .listInsertBefore b a => m.listInsertBefore b a
  | .listRemoveNode i a => m.listRemoveNode i a
  | .hlistInit i => { m with links := hlistInit m.links i }
  | .hlistInsertHead i a => { m with links := hlistInsertHead m.links i a }
  | .hlistRemoveNode a => { m with links := hlistRemoveNode m.links a }

/-! ## The operations on sequences -/

/-- `struct list_head` or `struct hlist_head`. -/
inductive HeadKind where
  | list
  | hlist
  deriving DecidableEq

/-- The sequence of each head; `none` before the head is initialised. -/
abbrev Seqs (α : Type) := Nat → Option (HeadKind × List α)

/-- A node that is in no list. -/
def InNoList (s : Seqs α) (a : α) : Prop := ∀ i k l, s i = some (k, l) → a ∉ l

theorem InNoList.update {s : Seqs α} {a : α} {i : Nat} {k : HeadKind} {l : List α} (h : InNoList s a) (ha : a ∉ l) :
    InNoList (Function.update s i (some (k, l))) a := by
  intro j k' l' hj
  by_cases hji : j = i
  · rw [hji, Function.update_self] at hj
    cases hj
    exact ha
  · rw [Function.update_of_ne hji] at hj
    exact h j k' l' hj

/-- **An operation on sequences**, on that of the head `i`. Only a node that is in no list is inserted, before an
element or at an end, and only an element of the list is removed. -/
inductive SeqStep (s : Seqs α) (i : Nat) : ListOp α → Seqs α → Prop
  | listInit : SeqStep s i (.listInit i) (Function.update s i (some (.list, [])))
  | listInsertHead {l : List α} {a : α} (hi : s i = some (.list, l)) (ha : InNoList s a) :
      SeqStep s i (.listInsertHead i a) (Function.update s i (some (.list, a :: l)))
  | listInsertTail {l : List α} {a : α} (hi : s i = some (.list, l)) (ha : InNoList s a) :
      SeqStep s i (.listInsertTail i a) (Function.update s i (some (.list, l ++ [a])))
  | listInsertBefore {l r : List α} {a b : α} (hi : s i = some (.list, l ++ b :: r)) (ha : InNoList s a) :
      SeqStep s i (.listInsertBefore b a) (Function.update s i (some (.list, l ++ a :: b :: r)))
  | listRemoveNode {l r : List α} {a : α} (hi : s i = some (.list, l ++ a :: r)) :
      SeqStep s i (.listRemoveNode i a) (Function.update s i (some (.list, l ++ r)))
  | hlistInit : SeqStep s i (.hlistInit i) (Function.update s i (some (.hlist, [])))
  | hlistInsertHead {l : List α} {a : α} (hi : s i = some (.hlist, l)) (ha : InNoList s a) :
      SeqStep s i (.hlistInsertHead i a) (Function.update s i (some (.hlist, a :: l)))
  | hlistRemoveNode {l r : List α} {a : α} (hi : s i = some (.hlist, l ++ a :: r)) :
      SeqStep s i (.hlistRemoveNode a) (Function.update s i (some (.hlist, l ++ r)))

/-- An operation changes one sequence only. -/
theorem SeqStep.others {s s' : Seqs α} {i j : Nat} {op : ListOp α} (hstep : SeqStep s i op s') (hj : j ≠ i) :
    s' j = s j := by
  cases hstep <;> exact Function.update_of_ne hj _ s

/-! ## What memory stands for -/

/-- **Memory stands for the sequences**: the nodes of a list are chained, `l_last` is the last link, and no node is
in two lists or twice in one. -/
structure StandsFor (m : ListHeap α) (s : Seqs α) : Prop where
  chain : ∀ {i k l}, s i = some (k, l) → HlistFrom m.links (.head i) l
  last : ∀ {i l}, s i = some (.list, l) → m.lLast i = slotAfter (.head i) l
  nodup : ∀ {i k l}, s i = some (k, l) → l.Nodup
  apart : ∀ {i j k k' l l' a}, s i = some (k, l) → s j = some (k', l') → a ∈ l → a ∈ l' → i = j

/-- A list is unchanged, in all the fields of its head and of its nodes. -/
structure ListKept (m m' : ListHeap α) (i : Nat) (l : List α) : Prop where
  first : m'.load (.head i) = m.load (.head i)
  last : m'.lLast i = m.lLast i
  next : ∀ a ∈ l, m'.load (.next a) = m.load (.next a)
  prev : ∀ a ∈ l, m'.prev a = m.prev a

variable {m m' : ListHeap α} {s s' : Seqs α} {i : Nat} {k : HeadKind} {l r : List α} {a b : α}

namespace StandsFor

/-- Memory in which no head is initialised stands for no sequences, whatever it holds. -/
theorem start (m : ListHeap α) : StandsFor m fun _ => none := by
  constructor <;> intros <;> contradiction

/-- One sequence changes, to nodes that were in it or in none, and the other lists are kept. -/
theorem update (h : StandsFor m s) (hchain : HlistFrom m'.links (.head i) l)
    (hlast : k = .list → m'.lLast i = slotAfter (.head i) l) (hnodup : l.Nodup)
    (hfrom : ∀ a ∈ l, InNoList s a ∨ ∃ k₀ l₀, s i = some (k₀, l₀) ∧ a ∈ l₀)
    (hkept : ∀ j, j ≠ i → ∀ k l, s j = some (k, l) → ListKept m m' j l) :
    StandsFor m' (Function.update s i (some (k, l))) where
  chain {j k' l'} hj := by
    by_cases hji : j = i
    · subst hji
      rw [Function.update_self] at hj
      cases hj
      exact hchain
    · rw [Function.update_of_ne hji] at hj
      have hk := hkept j hji k' l' hj
      exact (h.chain hj).congr hk.first hk.next hk.prev
  last {j l'} hj := by
    by_cases hji : j = i
    · subst hji
      rw [Function.update_self] at hj
      cases hj
      exact hlast rfl
    · rw [Function.update_of_ne hji] at hj
      exact (hkept j hji .list l' hj).last.trans (h.last hj)
  nodup {j k' l'} hj := by
    by_cases hji : j = i
    · subst hji
      rw [Function.update_self] at hj
      cases hj
      exact hnodup
    · rw [Function.update_of_ne hji] at hj
      exact h.nodup hj
  apart {j j' k₁ k₂ l₁ l₂ a} hj hj' ha ha' := by
    -- a node of the new sequence and of another one was in both before
    have hnew : ∀ {j k' l'}, j ≠ i → s j = some (k', l') → a ∈ l → a ∈ l' → False := by
      intro j k' l' hji hj hal hal'
      rcases hfrom a hal with hno | ⟨k₀, l₀, hi, ha₀⟩
      · exact hno j k' l' hj hal'
      · exact hji (h.apart hj hi hal' ha₀)
    by_cases hji : j = i <;> by_cases hji' : j' = i
    · rw [hji, hji']
    · rw [hji, Function.update_self] at hj
      rw [Function.update_of_ne hji'] at hj'
      cases hj
      exact absurd ha' fun ha' => hnew hji' hj' ha ha'
    · rw [hji', Function.update_self] at hj'
      rw [Function.update_of_ne hji] at hj
      cases hj'
      exact absurd ha fun ha => hnew hji hj ha' ha
    · rw [Function.update_of_ne hji] at hj
      rw [Function.update_of_ne hji'] at hj'
      exact h.apart hj hj' ha ha'

/-- A place in the list of one head is none of the places of another list. -/
theorem slot_apart (h : StandsFor m s) (hi : s i = some (k, l ++ r)) {j : Nat} (hji : j ≠ i) {k' : HeadKind}
    {l' : List α} (hj : s j = some (k', l')) :
    slotAfter (.head i) l ≠ .head j ∧ ∀ b ∈ l', slotAfter (.head i) l ≠ .next b := by
  refine ⟨slotAfter_head_ne hji.symm l, fun b hb => slotAfter_head_next fun hbl => ?_⟩
  exact hji (h.apart hj hi hb (List.mem_append_left r hbl))

/-- The node behind a place in the list of one head is in no other list. -/
theorem head_apart (h : StandsFor m s) (hi : s i = some (k, l ++ r)) {j : Nat} (hji : j ≠ i) {k' : HeadKind}
    {l' : List α} (hj : s j = some (k', l')) (hb : b ∈ l') : r.head? ≠ some b := by
  intro hhead
  exact hji (h.apart hj hi hb (List.mem_append_right l (List.mem_of_mem_head? hhead)))

end StandsFor

variable [DecidableEq α]

/-- What is read of the list of a head. -/
structure ListReads (m : ListHeap α) (i : Nat) (k : HeadKind) (l : List α) : Prop where
  /-- The loop over the nodes, as soon as it may take as many steps as there are nodes. -/
  nodes : ∀ n, l.length ≤ n → chainNodes m.links n (m.load (.head i)) = l
  /-- The link that points to a node is the head's or that of the node before it. -/
  prev : ∀ l₁ a l₂, l = l₁ ++ a :: l₂ → m.prev a = slotAfter (.head i) l₁ ∧ m.load (m.prev a) = some a
  /-- `l_last` is the head's own link, or that of the last node. -/
  last : k = .list → m.lLast i = slotAfter (.head i) l ∧ m.load (m.lLast i) = none
  listLast : k = .list → m.listLast i = some l.getLast?
  empty : m.listEmpty i = l.isEmpty ∧ m.hlistEmpty i = l.isEmpty
  fst : m.listFirst i = l.head? ∧ m.hlistFirst i = l.head?

namespace StandsFor

/-- What is read follows from what memory stands for. -/
theorem reads (h : StandsFor m s) (hi : s i = some (k, l)) : ListReads m i k l where
  nodes n hn := by
    have hload : m.load (.head i) = l.head? := (h.chain hi).load_eq
    rw [hload]
    exact chainNodes_eq (h.chain hi) hn
  prev l₁ a l₂ hl := by
    have hchain := h.chain hi
    rw [hl] at hchain
    have hback : m.prev a = slotAfter (.head i) l₁ := hchain.prev_eq_slotAfter
    rw [hback]
    exact ⟨rfl, hchain.drop.1⟩
  last hk := by
    subst hk
    have hlast := h.last hi
    have hchain : HlistFrom m.links (.head i) (l ++ []) := by simpa using h.chain hi
    rw [hlast]
    exact ⟨rfl, hchain.drop⟩
  listLast hk := by
    subst hk
    rw [ListHeap.listLast, h.last hi]
    rcases List.eq_nil_or_concat l with rfl | ⟨l', a, rfl⟩
    · rw [slotAfter_nil, if_pos rfl]
      rfl
    · rw [List.concat_eq_append, slotAfter_concat, List.getLast?_concat]
      rfl
  empty := by
    have hload : m.load (.head i) = l.head? := (h.chain hi).load_eq
    rw [ListHeap.listEmpty, ListHeap.hlistEmpty, hload]
    cases l <;> exact ⟨rfl, rfl⟩
  fst := ⟨(h.chain hi).load_eq, (h.chain hi).load_eq⟩

/-- **An insertion**, at any place of a list. -/
theorem insert (h : StandsFor m s) (hi : s i = some (k, l ++ r)) (ha : InNoList s a)
    (hins : Inserted m.links m'.links (slotAfter (.head i) l) a r.head?)
    (hlast : ∀ j, j ≠ i → m'.lLast j = m.lLast j)
    (hend : k = .list → m'.lLast i = slotAfter (.head i) (l ++ a :: r)) :
    StandsFor m' (Function.update s i (some (k, l ++ a :: r))) ∧
      ∀ j, j ≠ i → ∀ k l, s j = some (k, l) → ListKept m m' j l := by
  -- the pointers of the other lists are not among those that the insertion writes
  have hkept : ∀ j, j ≠ i → ∀ k l, s j = some (k, l) → ListKept m m' j l := by
    intro j hji k' l' hj
    obtain ⟨hhead, hnext⟩ := h.slot_apart hi hji hj
    have hne : ∀ b ∈ l', b ≠ a := by
      rintro b hb rfl
      exact ha j k' l' hj hb
    refine ⟨?_, hlast j hji, fun b hb => ?_, fun b hb => ?_⟩
    · refine (hins.load _).trans ?_
      rw [if_neg hhead.symm, if_neg (by simp)]
      rfl
    · refine (hins.load _).trans ?_
      rw [if_neg (hnext b hb).symm, if_neg (by simpa using hne b hb)]
      rfl
    · refine (hins.prev b).trans ?_
      rw [if_neg (hne b hb), if_neg (h.head_apart hi hji hj hb)]
      rfl
  -- the list itself is a chain through the new node
  refine ⟨h.update ?_ hend ?_ ?_ hkept, hkept⟩
  · exact (h.chain hi).insert hins (h.nodup hi) (ha i k _ hi) (by simp)
  · exact List.perm_middle.nodup_iff.mpr (List.nodup_cons.mpr ⟨ha i k _ hi, h.nodup hi⟩)
  · intro b hb
    rcases List.mem_cons.mp (List.perm_middle.mem_iff.mp hb) with rfl | hb
    · exact Or.inl ha
    · exact Or.inr ⟨k, _, hi, hb⟩

/-- **A removal**, wherever the node stands in its list. -/
theorem remove (h : StandsFor m s) (hi : s i = some (k, l ++ a :: r))
    (hlinks : m'.links = hlistRemoveNode m.links a) (hlast : ∀ j, j ≠ i → m'.lLast j = m.lLast j)
    (hend : k = .list → m'.lLast i = slotAfter (.head i) (l ++ r)) :
    StandsFor m' (Function.update s i (some (k, l ++ r))) ∧
      ∀ j, j ≠ i → ∀ k l, s j = some (k, l) → ListKept m m' j l := by
  have hchain := h.chain hi
  have hkept : ∀ j, j ≠ i → ∀ k l, s j = some (k, l) → ListKept m m' j l := by
    intro j hji k' l' hj
    -- the pointer to the node and the node behind it are of the list of `i`
    obtain ⟨hhead, hnext⟩ := h.slot_apart hi hji hj
    have hi' : s i = some (k, (l ++ [a]) ++ r) := by simpa using hi
    have hload : ∀ x, x ≠ slotAfter (.head i) l → m'.load x = m.load x := by
      intro x hx
      refine (congrArg (Chains.load · x) hlinks).trans ((load_hlistRemoveNode a x).trans ?_)
      rw [hchain.prev_eq_slotAfter]
      exact if_neg hx
    refine ⟨hload _ hhead.symm, hlast j hji, fun b hb => hload _ (hnext b hb).symm, fun b hb => ?_⟩
    refine (congrArg (Chains.prev · b) hlinks).trans ((prev_hlistRemoveNode a b).trans ?_)
    have hfst : m.links.load (.next a) = r.head? := hchain.next_eq
    rw [hfst]
    exact if_neg (h.head_apart hi' hji hj hb)
  refine ⟨h.update ?_ hend ?_ ?_ hkept, hkept⟩
  · rw [hlinks]
    exact hchain.removeNode (h.nodup hi) (by simp)
  · exact List.Nodup.of_cons (List.perm_middle.nodup_iff.mp (h.nodup hi))
  · intro b hb
    have hmem : b ∈ l ++ a :: r := List.perm_middle.mem_iff.mpr (List.mem_cons_of_mem a hb)
    exact Or.inr ⟨k, _, hi, hmem⟩

/-- **An initialisation**: the nodes of the list are in none. -/
theorem init (h : StandsFor m s) (hlinks : m'.links = hlistInit m.links i)
    (hlast : ∀ j, j ≠ i → m'.lLast j = m.lLast j) (hend : k = .list → m'.lLast i = .head i) :
    StandsFor m' (Function.update s i (some (k, []))) ∧
      ∀ j, j ≠ i → ∀ k l, s j = some (k, l) → ListKept m m' j l := by
  have hload : ∀ x, m'.load x = if x = .head i then none else m.load x := by
    intro x
    refine (congrArg (Chains.load · x) hlinks).trans ?_
    rw [hlistInit, Chains.load_store]
    rfl
  have hprev : ∀ b, m'.prev b = m.prev b := by
    intro b
    refine (congrArg (Chains.prev · b) hlinks).trans ?_
    rw [hlistInit, Chains.prev_store]
    rfl
  have hkept : ∀ j, j ≠ i → ∀ k l, s j = some (k, l) → ListKept m m' j l := by
    intro j hji k' l' _
    refine ⟨?_, hlast j hji, fun b _ => ?_, fun b _ => hprev b⟩
    · rw [hload, if_neg (by simpa using hji)]
    · rw [hload, if_neg (by simp)]
  refine ⟨h.update ?_ hend List.nodup_nil (by simp) hkept, hkept⟩
  refine (hload (.head i)).trans ?_
  rw [if_pos rfl]

end StandsFor

/-! ## What the operations leave -/

namespace ListHeap

/-- The links after `list_insert_head` are those after `hlist_insert_head`. -/
theorem links_listInsertHead (m : ListHeap α) (i : Nat) (a : α) :
    (m.listInsertHead i a).links = hlistInsertHead m.links i a := by
  have hload : (m.store (.next a) (m.load (.head i))).load (.head i) = m.links.load (.head i) := by
    refine (Chains.load_store m.links (.next a) (.head i) _).trans (if_neg (by simp))
  have hload' : (m.links.store (.next a) (m.links.load (.head i))).load (.head i) = m.links.load (.head i) := hload
  have hfirst : m.load (.head i) = m.links.load (.head i) := rfl
  simp only [listInsertHead, hlistInsertHead]
  rw [hload, hload', hfirst]
  cases m.links.load (.head i) <;> rfl

theorem lLast_listInsertHead (m : ListHeap α) (i j : Nat) (a : α) :
    (m.listInsertHead i a).lLast j = if j = i ∧ m.load (.head i) = none then .next a else m.lLast j := by
  have hload : (m.store (.next a) (m.load (.head i))).load (.head i) = m.load (.head i) := by
    refine (Chains.load_store m.links (.next a) (.head i) _).trans (if_neg (by simp))
  simp only [listInsertHead]
  rw [hload]
  cases hf : m.load (.head i) with
  | none => simp [store, setPrev, setLast, Function.update_apply]
  | some b => simp [store, setPrev]

/-- The links after `list_remove_node` are those after `hlist_remove_node`. -/
theorem links_listRemoveNode (m : ListHeap α) (i : Nat) (a : α) :
    (m.listRemoveNode i a).links = hlistRemoveNode m.links a := by
  simp only [listRemoveNode, hlistRemoveNode, load]
  cases m.links.load (.next a) <;> rfl

theorem lLast_listRemoveNode (m : ListHeap α) (i j : Nat) (a : α) :
    (m.listRemoveNode i a).lLast j = if j = i ∧ m.load (.next a) = none then m.prev a else m.lLast j := by
  simp only [listRemoveNode]
  cases hf : m.load (.next a) with
  | none => simp [store, setLast, Function.update_apply]
  | some b => simp [store, setPrev]

end ListHeap

/-- What `hlist_insert_head` leaves. -/
theorem inserted_hlistInsertHead (h : Chains α) (i : Nat) (a : α) :
    Inserted h (hlistInsertHead h i a) (.head i) a (h.load (.head i)) :=
  ⟨load_hlistInsertHead i a, prev_hlistInsertHead i a⟩

/-- What `list_insert_tail` leaves. -/
theorem inserted_listInsertTail (m : ListHeap α) (i : Nat) (a : α) :
    Inserted m.links (m.listInsertTail i a).links (m.lLast i) a none := by
  constructor
  · intro x
    simp [ListHeap.listInsertTail, ListHeap.store, ListHeap.setPrev, ListHeap.setLast]
  · intro b
    simp [ListHeap.listInsertTail, ListHeap.store, ListHeap.setPrev, ListHeap.setLast]

/-- What `list_insert_before` leaves. -/
theorem inserted_listInsertBefore (m : ListHeap α) (hab : a ≠ b) :
    Inserted m.links (m.listInsertBefore b a).links (m.prev b) a (some b) := by
  show Inserted m.links (m.listInsertBefore b a).links (m.links.prev b) a (some b)
  constructor
  · intro x
    simp [ListHeap.listInsertBefore, ListHeap.store, ListHeap.setPrev, ListHeap.prev, hab.symm]
  · intro c
    by_cases hc : c = b
    · simp [ListHeap.listInsertBefore, ListHeap.store, ListHeap.setPrev, ListHeap.prev, hc, hab.symm]
    · simp [ListHeap.listInsertBefore, ListHeap.store, ListHeap.setPrev, ListHeap.prev, hc, Ne.symm hc]

/-! ## Runs -/

/-- **The step lemma.** -/
theorem StandsFor.step {op : ListOp α} (h : StandsFor m s) (hstep : SeqStep s i op s') :
    StandsFor (listOp m op) s' ∧ ∀ j, j ≠ i → ∀ k l, s j = some (k, l) → ListKept m (listOp m op) j l := by
  cases hstep with
  | listInit =>
      exact h.init rfl (fun j hji => Function.update_of_ne hji _ _) fun _ => Function.update_self i _ _
  | @listInsertHead l a hi ha =>
      have hload : m.load (.head i) = l.head? := (h.chain hi).load_eq
      refine h.insert (l := []) hi ha ?_ ?_ fun _ => ?_
      · rw [← hload]
        show Inserted m.links (m.listInsertHead i a).links (.head i) a (m.load (.head i))
        rw [ListHeap.links_listInsertHead]
        exact inserted_hlistInsertHead m.links i a
      · intro j hji
        refine (ListHeap.lLast_listInsertHead m i j a).trans (if_neg fun hj => hji hj.1)
      · refine (ListHeap.lLast_listInsertHead m i i a).trans ?_
        rw [hload]
        -- the first node of an empty list is the last one
        cases l with
        | nil => rw [if_pos ⟨rfl, rfl⟩]; rfl
        | cons b l => rw [if_neg (by simp)]; exact (h.last hi).trans rfl
  | @listInsertTail l a hi ha =>
      have hi' : s i = some (.list, l ++ []) := by simpa using hi
      refine h.insert hi' ha ?_ ?_ fun _ => ?_
      · rw [← h.last hi]
        exact inserted_listInsertTail m i a
      · intro j hji
        exact Function.update_of_ne hji _ _
      · rw [slotAfter_concat]
        exact Function.update_self i _ _
  | @listInsertBefore l r a b hi ha =>
      have hab : a ≠ b := by
        rintro rfl
        exact ha i .list _ hi (by simp)
      refine h.insert hi ha ?_ (fun j _ => rfl) fun _ => ?_
      · rw [← (h.chain hi).prev_eq_slotAfter]
        exact inserted_listInsertBefore m hab
      · refine (h.last hi).trans ?_
        rw [slotAfter_append, slotAfter_append]
        rfl
  | @listRemoveNode l r a hi =>
      have hnext : m.load (.next a) = r.head? := (h.chain hi).next_eq
      refine h.remove hi (ListHeap.links_listRemoveNode m i a) ?_ fun _ => ?_
      · intro j hji
        exact (ListHeap.lLast_listRemoveNode m i j a).trans (if_neg fun hj => hji hj.1)
      · refine (ListHeap.lLast_listRemoveNode m i i a).trans ?_
        rw [hnext]
        -- behind the last node, the link that pointed to it is the last one
        cases r with
        | nil =>
            rw [if_pos ⟨rfl, rfl⟩, List.append_nil]
            exact (h.chain hi).prev_eq_slotAfter
        | cons b r =>
            rw [if_neg (by simp), h.last hi, slotAfter_append, slotAfter_append]
            rfl
  | hlistInit => exact h.init rfl (fun j _ => rfl) (by simp)
  | @hlistInsertHead l a hi ha =>
      have hload : m.load (.head i) = l.head? := (h.chain hi).load_eq
      refine h.insert (l := []) hi ha ?_ (fun j _ => rfl) (by simp)
      rw [← hload]
      exact inserted_hlistInsertHead m.links i a
  | @hlistRemoveNode l r a hi => exact h.remove hi rfl (fun j _ => rfl) (by simp)

/-- A run of operations, on memory and on the sequences. -/
inductive ListsRun (m₀ : ListHeap α) (s₀ : Seqs α) : List (ListOp α) → ListHeap α → Seqs α → Prop
  | nil : ListsRun m₀ s₀ [] m₀ s₀
  | snoc {ops : List (ListOp α)} {m : ListHeap α} {s s' : Seqs α} {i : Nat} {op : ListOp α} :
      ListsRun m₀ s₀ ops m s → SeqStep s i op s' → ListsRun m₀ s₀ (ops ++ [op]) (listOp m op) s'

/-- **The run lemma.** -/
theorem ListsRun.standsFor {m₀ : ListHeap α} {s₀ : Seqs α} {ops : List (ListOp α)} (hrun : ListsRun m₀ s₀ ops m s)
    (h : StandsFor m₀ s₀) : StandsFor m s := by
  induction hrun with
  | nil => exact h
  | snoc _ hstep ih => exact (ih.step hstep).1

/-- **Intrusive lists refine sequences**: after every run, memory reads as the sequences on which the same
operations were made, and what comes next changes no list but one. -/
theorem lists_refine_sequences {m₀ : ListHeap α} {s₀ : Seqs α} {ops : List (ListOp α)} (h : StandsFor m₀ s₀)
    (hrun : ListsRun m₀ s₀ ops m s) :
    (∀ i k l, s i = some (k, l) → ListReads m i k l) ∧
      ∀ i op s', SeqStep s i op s' → ∀ j, j ≠ i → s' j = s j ∧
        ∀ k l, s j = some (k, l) → ListKept m (listOp m op) j l := by
  have hs := hrun.standsFor h
  refine ⟨fun i k l hi => hs.reads hi, fun i op s' hstep j hji => ⟨hstep.others hji, ?_⟩⟩
  exact (hs.step hstep).2 j hji

/-- A queue with a node that is inserted before its only element, which is then removed, and a chain beside it. -/
theorem lists_refine_sequences_two :
    ∃ (m : ListHeap Nat) (s : Seqs Nat),
      ListsRun ⟨⟨fun _ => some 5, fun _ => some 7, fun _ => .next 8⟩, fun _ => .next 7⟩ (fun _ => none)
        [.listInit 0, .hlistInit 1, .listInsertTail 0 5, .hlistInsertHead 1 8, .listInsertBefore 5 7,
          .listRemoveNode 0 5] m s ∧
        ListReads m 0 .list [7] ∧ ListReads m 1 .hlist [8] ∧ ListKept m (listOp m (.listInit 0)) 1 [8] := by
  have hnone : ∀ a, InNoList (fun _ => none : Seqs Nat) a := fun _ _ _ _ hi => by cases hi
  have hstart : ListsRun (⟨⟨fun _ => some 5, fun _ => some 7, fun _ => .next 8⟩, fun _ => .next 7⟩ : ListHeap Nat)
      (fun _ => none) [] _ _ := .nil
  have hinit := (hstart.snoc (SeqStep.listInit (i := 0))).snoc (SeqStep.hlistInit (i := 1))
  have htail := hinit.snoc (.listInsertTail (i := 0) (l := []) (a := 5) rfl
    (((hnone 5).update (by decide)).update (by decide)))
  have hchain := htail.snoc (.hlistInsertHead (i := 1) (l := []) (a := 8) rfl
    ((((hnone 8).update (by decide)).update (by decide)).update (by decide)))
  have hbefore := hchain.snoc (.listInsertBefore (i := 0) (l := []) (r := []) (a := 7) (b := 5) rfl
    (((((hnone 7).update (by decide)).update (by decide)).update (by decide)).update (by decide)))
  have hrun := hbefore.snoc (.listRemoveNode (i := 0) (l := [7]) (r := []) (a := 5) rfl)
  obtain ⟨hreads, hkept⟩ := lists_refine_sequences (.start _) hrun
  exact ⟨_, _, hrun, hreads 0 _ _ rfl, hreads 1 _ _ rfl, (hkept 0 _ _ .listInit 1 (by decide)).2 _ _ rfl⟩

end Jrinx
