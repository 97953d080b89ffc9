import Mathlib.Logic.Function.Basic
import Mathlib.Data.List.Nodup

/-! # Chains of intrusive nodes

Many lists over one set of nodes that carry their own links. A head holds only the first pointer; the link
backwards of a node is the address of the pointer that points to it.

* **`ChainSlot`**, **`Chains`** — the places of a pointer, and the fields of the heads and of the nodes.
* **`hlistInsertHead`**, **`hlistRemoveNode`** — the operations, one assignment after the other.
* **`Chained`** — the links stand for sequences of nodes, with one rule for each operation.
* **`slotAfter`**, **`Inserted`** — the place behind some nodes, and what an insertion at a place leaves.
* **`chainFind`**, **`chainNodes`** — the loops over a chain. -/

namespace Jrinx

variable {α : Type}

/-- The place of a pointer to a node: the first pointer of a head, or the `next` of a node. -/
inductive ChainSlot (α : Type) where
  | head (i : Nat)
  | next (a : α)
  deriving DecidableEq

/-- The fields of the heads and of the nodes. -/
structure Chains (α : Type) where
  hFirst : Nat → Option α
  next : α → Option α
  prev : α → ChainSlot α

namespace Chains

/-- Read a pointer. -/
def load (h : Chains α) : ChainSlot α → Option α
  | .head i => h.hFirst i
  | .next a => h.next a

variable [DecidableEq α]

/-- Write a pointer. -/
def store (h : Chains α) (s : ChainSlot α) (v : Option α) : Chains α :=
  match s with
  | .head i => { h with hFirst := Function.update h.hFirst i v }
  | .next a => { h with next := Function.update h.next a v }

/-- Write the link backwards of a node. -/
def setPrev (h : Chains α) (a : α) (s : ChainSlot α) : Chains α :=
  { h with prev := Function.update h.prev a s }

variable (h : Chains α)

@[simp] theorem load_store (s s' : ChainSlot α) (v : Option α) :
    (h.store s v).load s' = if s' = s then v else h.load s' := by
  cases s <;> cases s' <;> simp [store, load, Function.update_apply]

@[simp] theorem prev_store (s : ChainSlot α) (v : Option α) : (h.store s v).prev = h.prev := by
  cases s <;> rfl

@[simp] theorem load_setPrev (a : α) (s s' : ChainSlot α) : (h.setPrev a s).load s' = h.load s' := by
  cases s' <;> rfl

@[simp] theorem prev_setPrev (a b : α) (s : ChainSlot α) :
    (h.setPrev a s).prev b = if b = a then s else h.prev b := by
  simp [setPrev, Function.update_apply]

end Chains

/-! ## What the links stand for -/

/-- From the slot `s` on, the nodes `l` follow each other, and the last one has no successor. -/
def HlistFrom (h : Chains α) : ChainSlot α → List α → Prop
  | s, [] => h.load s = none
  | s, a :: l => h.load s = some a ∧ h.prev a = s ∧ HlistFrom h (.next a) l

/-- **The first `n` heads stand for sequences of nodes**, and no node is in two of them. -/
structure Chained (n : Nat) (h : Chains α) (ls : Nat → List α) : Prop where
  chain : ∀ i, i < n → HlistFrom h (.head i) (ls i)
  nodup : ∀ i, i < n → (ls i).Nodup
  apart : ∀ i j a, i < n → j < n → a ∈ ls i → a ∈ ls j → i = j

variable {h h' : Chains α} {l r : List α} {s : ChainSlot α} {a b : α}

theorem HlistFrom.load_eq (hc : HlistFrom h s l) : h.load s = l.head? := by
  cases l with
  | nil => exact hc
  | cons a l => exact hc.1

/-- A chain depends on its slots and on the links backwards of its nodes. -/
theorem HlistFrom.congr (hc : HlistFrom h s l) (hload : h'.load s = h.load s)
    (hnext : ∀ a ∈ l, h'.load (.next a) = h.load (.next a)) (hprev : ∀ a ∈ l, h'.prev a = h.prev a) :
    HlistFrom h' s l := by
  induction l generalizing s with
  | nil => exact hload.trans hc
  | cons a l ih =>
      obtain ⟨hfst, hback, hrest⟩ := hc
      refine ⟨hload.trans hfst, (hprev a List.mem_cons_self).trans hback, ?_⟩
      exact ih hrest (hnext a List.mem_cons_self) (fun b hb => hnext b (List.mem_cons_of_mem a hb))
        fun b hb => hprev b (List.mem_cons_of_mem a hb)

/-- The rest of a chain from one of its nodes on. -/
theorem HlistFrom.rest (hc : HlistFrom h s (l ++ a :: r)) : HlistFrom h (.next a) r := by
  induction l generalizing s with
  | nil => exact hc.2.2
  | cons b l ih => exact ih hc.2.2

/-- The node that follows another one. -/
theorem HlistFrom.next_eq (hc : HlistFrom h s (l ++ a :: r)) : h.next a = r.head? := hc.rest.load_eq

/-- A node is pointed to by its head or by the node before it. -/
theorem HlistFrom.prev_eq (hc : HlistFrom h s (l ++ a :: r)) :
    h.prev a = match l.getLast? with
      | none => s
      | some b => .next b := by
  induction l generalizing s with
  | nil => exact hc.2.1
  | cons b l ih =>
      rw [ih hc.2.2, List.getLast?_cons]
      cases l.getLast? <;> rfl

/-! ## Insertion at a place -/

/-- The place of the pointer behind the nodes `l`. -/
def slotAfter (s : ChainSlot α) : List α → ChainSlot α
  | [] => s
  | a :: l => slotAfter (.next a) l

@[simp] theorem slotAfter_nil (s : ChainSlot α) : slotAfter s [] = s := rfl

theorem slotAfter_concat (s : ChainSlot α) (l : List α) (a : α) : slotAfter s (l ++ [a]) = .next a := by
  induction l generalizing s with
  | nil => rfl
  | cons b l ih => exact ih (.next b)

theorem slotAfter_append (s : ChainSlot α) (l r : List α) :
    slotAfter s (l ++ r) = slotAfter (slotAfter s l) r := by
  induction l generalizing s with
  | nil => rfl
  | cons b l ih => exact ih (.next b)

/-- It is the first place or one of the nodes'. -/
theorem slotAfter_mem (s : ChainSlot α) (l : List α) : slotAfter s l = s ∨ ∃ a ∈ l, slotAfter s l = .next a := by
  induction l generalizing s with
  | nil => exact Or.inl rfl
  | cons b l ih =>
      right
      rcases ih (.next b) with heq | ⟨a, ha, heq⟩
      · exact ⟨b, List.mem_cons_self, heq⟩
      · exact ⟨a, List.mem_cons_of_mem b ha, heq⟩

/-- A place behind nodes of one head is not the pointer of another head. -/
theorem slotAfter_head_ne {i j : Nat} (hij : i ≠ j) (l : List α) : slotAfter (.head i) l ≠ .head j := by
  rcases slotAfter_mem (.head i) l with heq | ⟨a, -, heq⟩ <;> rw [heq]
  · simpa using hij
  · simp

theorem slotAfter_head_next {i : Nat} (hb : b ∉ l) : slotAfter (.head i) l ≠ .next b := by
  rcases slotAfter_mem (.head i) l with heq | ⟨a, ha, heq⟩ <;> rw [heq]
  · simp
  · intro hab
    exact hb (ChainSlot.next.inj hab ▸ ha)

/-- The rest of a chain behind some of its nodes. -/
theorem HlistFrom.drop (hc : HlistFrom h s (l ++ r)) : HlistFrom h (slotAfter s l) r := by
  induction l generalizing s with
  | nil => exact hc
  | cons b l ih => exact ih hc.2.2

/-- The link backwards of a node is the place behind the nodes before it. -/
theorem HlistFrom.prev_eq_slotAfter (hc : HlistFrom h s (l ++ a :: r)) : h.prev a = slotAfter s l := hc.drop.2.1

/-- What the insertion of `a` at the place `p`, which held `c`, leaves in the fields. -/
structure Inserted [DecidableEq α] (h h' : Chains α) (p : ChainSlot α) (a : α) (c : Option α) : Prop where
  load : ∀ x, h'.load x = if x = p then some a else if x = .next a then c else h.load x
  prev : ∀ b, h'.prev b = if b = a then p else if c = some b then .next a else h.prev b

/-- **A node is inserted** behind the nodes `l` of a chain. -/
theorem HlistFrom.insert [DecidableEq α] (hins : Inserted h h' (slotAfter s l) a r.head?)
    (hc : HlistFrom h s (l ++ r)) (hnodup : (l ++ r).Nodup) (ha : a ∉ l ++ r)
    (hs : ∀ b ∈ a :: (l ++ r), s ≠ .next b) : HlistFrom h' s (l ++ a :: r) := by
  induction l generalizing s with
  | nil =>
      rw [slotAfter_nil] at hins
      refine ⟨by rw [hins.load, if_pos rfl], by rw [hins.prev, if_pos rfl], ?_⟩
      have hne : (.next a : ChainSlot α) ≠ s := (hs a List.mem_cons_self).symm
      have hfst : h'.load (.next a) = r.head? := by rw [hins.load, if_neg hne, if_pos rfl]
      cases r with
      | nil => exact hfst
      | cons b r =>
          obtain ⟨hab, har⟩ : a ≠ b ∧ a ∉ r := by simpa using ha
          obtain ⟨hbr, -⟩ := List.nodup_cons.mp hnodup
          -- behind the node that was first, nothing changes
          have hkeep : ∀ c ∈ b :: r, h'.load (.next c) = h.load (.next c) := by
            intro c hcr
            have hca : c ≠ a := by
              rintro rfl
              exact ha hcr
            rw [hins.load, if_neg (hs c (List.mem_cons_of_mem a hcr)).symm, if_neg (by simpa using hca)]
          refine ⟨hfst, ?_, hc.2.2.congr (hkeep b List.mem_cons_self)
            (fun c hcr => hkeep c (List.mem_cons_of_mem b hcr)) fun c hcr => ?_⟩
          · rw [hins.prev, if_neg hab.symm]
            exact if_pos rfl
          · have hcb : b ≠ c := by
              rintro rfl
              exact hbr hcr
            have hca : c ≠ a := by
              rintro rfl
              exact har hcr
            rw [hins.prev, if_neg hca, if_neg (by simpa using hcb)]
  | cons x l ih =>
      obtain ⟨hload, hback, hrest⟩ := hc
      obtain ⟨hx, hnodup'⟩ := List.nodup_cons.mp hnodup
      obtain ⟨hax, ha'⟩ : a ≠ x ∧ a ∉ l ++ r := by simpa using ha
      have hxs : ∀ b ∈ a :: (l ++ r), (.next x : ChainSlot α) ≠ .next b := by
        intro b hb heq
        rcases List.mem_cons.mp hb with rfl | hb
        · exact hax (ChainSlot.next.inj heq).symm
        · exact hx (ChainSlot.next.inj heq ▸ hb)
      refine ⟨?_, ?_, ih hins hrest hnodup' ha' hxs⟩
      · have hp : s ≠ slotAfter s (x :: l) := by
          rcases slotAfter_mem (.next x) l with heq | ⟨b, hb, heq⟩ <;> rw [slotAfter, heq]
          · exact hs x (by simp)
          · exact hs b (by simp [hb])
        rw [hins.load, if_neg hp, if_neg (hs a List.mem_cons_self)]
        exact hload
      · rw [hins.prev, if_neg hax.symm, if_neg]
        · exact hback
        · intro hhead
          exact hx (List.mem_append_right l (List.mem_of_mem_head? hhead))

/-! ## The loops -/

/-- The loop up to the first node with the property, for at most `n` nodes; `none` if they do not suffice to
reach the end. -/
def chainFind (h : Chains α) (p : α → Bool) : Nat → Option α → Option (Option α)
  | _, none => some none
  | 0, some _ => none
  | n + 1, some a => if p a then some (some a) else chainFind h p n (h.next a)

/-- The loop ends, at the first node of the sequence with the property. -/
theorem chainFind_eq {p : α → Bool} {n : Nat} (hc : HlistFrom h s l) (hn : l.length ≤ n) :
    chainFind h p n l.head? = some (l.find? p) := by
  induction l generalizing s n with
  | nil => cases n <;> rfl
  | cons a l ih =>
      cases n with
      | zero => exact absurd hn (by simp)
      | succ n =>
          have hnext : h.next a = l.head? := hc.2.2.load_eq
          rw [List.head?_cons, chainFind, hnext]
          by_cases hp : p a = true
          · simp [hp]
          · rw [if_neg hp, ih hc.2.2 (by simpa using hn)]
            simp [hp]

/-- The nodes from a pointer on, at most `n` of them. -/
def chainNodes (h : Chains α) : Nat → Option α → List α
  | _, none => []
  | 0, some _ => []
  | n + 1, some a => a :: chainNodes h n (h.next a)

theorem chainNodes_eq {n : Nat} (hc : HlistFrom h s l) (hn : l.length ≤ n) :
    chainNodes h n l.head? = l := by
  induction l generalizing s n with
  | nil => cases n <;> rfl
  | cons a l ih =>
      cases n with
      | zero => exact absurd hn (by simp)
      | succ n =>
          have hnext : h.next a = l.head? := hc.2.2.load_eq
          rw [List.head?_cons, chainNodes, hnext, ih hc.2.2 (by simpa using hn)]

/-! ## The operations -/

variable [DecidableEq α]

/-- `hlist_init`. -/
def hlistInit (h : Chains α) (i : Nat) : Chains α := h.store (.head i) none

/-- `hlist_insert_head`. -/
def hlistInsertHead (h : Chains α) (i : Nat) (a : α) : Chains α :=
  let h := h.store (.next a) (h.load (.head i))
  let h := match h.load (.head i) with
    | some b => h.setPrev b (.next a)
    | none => h
  let h := h.store (.head i) (some a)
  h.setPrev a (.head i)

/-- `hlist_remove_node`. -/
def hlistRemoveNode (h : Chains α) (a : α) : Chains α :=
  let h := match h.load (.next a) with
    | some b => h.setPrev b (h.prev a)
    | none => h
  h.store (h.prev a) (h.load (.next a))

/-- What an insertion leaves in the pointers. -/
theorem load_hlistInsertHead (i : Nat) (a : α) (s : ChainSlot α) :
    (hlistInsertHead h i a).load s =
      if s = .head i then some a else if s = .next a then h.load (.head i) else h.load s := by
  unfold hlistInsertHead
  cases hf : h.load (.head i) <;> simp [hf]

/-- What an insertion leaves in the links backwards. -/
theorem prev_hlistInsertHead (i : Nat) (a b : α) :
    (hlistInsertHead h i a).prev b =
      if b = a then .head i else if h.load (.head i) = some b then .next a else h.prev b := by
  unfold hlistInsertHead
  cases hf : h.load (.head i) with
  | none => simp [hf]
  | some c =>
      by_cases hb : b = c
      · simp [hf, hb]
      · simp [hf, hb, Ne.symm hb]

/-- What a removal leaves in the pointers. -/
theorem load_hlistRemoveNode (a : α) (s : ChainSlot α) :
    (hlistRemoveNode h a).load s = if s = h.prev a then h.load (.next a) else h.load s := by
  unfold hlistRemoveNode
  cases hf : h.load (.next a) with
  | none => simp [hf]
  | some c =>
      by_cases hc : a = c
      · simp [hf, ← hc]
      · simp [hf, hc]

/-- What a removal leaves in the links backwards. -/
theorem prev_hlistRemoveNode (a b : α) :
    (hlistRemoveNode h a).prev b = if h.load (.next a) = some b then h.prev a else h.prev b := by
  unfold hlistRemoveNode
  cases hf : h.load (.next a) with
  | none => simp [hf]
  | some c =>
      by_cases hb : b = c
      · simp [hf, hb]
      · simp [hf, hb, Ne.symm hb]

/-- A node that is taken off keeps its own link forwards. -/
theorem next_hlistRemoveNode (hc : HlistFrom h s (l ++ a :: r)) (hnodup : (l ++ a :: r).Nodup)
    (hs : s ≠ .next a) : (hlistRemoveNode h a).next a = h.next a := by
  refine (load_hlistRemoveNode a (.next a)).trans (if_neg fun heq => ?_)
  rw [hc.prev_eq] at heq
  cases hlast : l.getLast? with
  | none =>
      rw [hlast] at heq
      exact hs heq.symm
  | some b =>
      rw [hlast] at heq
      have hb : b ∈ l := List.mem_of_getLast? hlast
      exact (List.nodup_append.mp hnodup).2.2 b hb a List.mem_cons_self (ChainSlot.next.inj heq).symm

/-- Heads that were initialised, one after the other. -/
theorem hFirst_foldl_hlistInit (h : Chains α) {n i : Nat} (hi : i < n) :
    ((List.range n).foldl hlistInit h).hFirst i = none := by
  induction n with
  | zero => exact absurd hi (Nat.not_lt_zero i)
  | succ n ih =>
      rw [List.range_succ, List.foldl_append]
      show Function.update ((List.range n).foldl hlistInit h).hFirst n none i = none
      by_cases hn : i = n
      · rw [hn, Function.update_self]
      · rw [Function.update_of_ne hn]
        exact ih (by omega)

/-- **Initialised heads stand for empty lists**, whatever was in memory. -/
theorem Chained.init (h : Chains α) (n : Nat) : Chained n ((List.range n).foldl hlistInit h) fun _ => [] where
  chain _ hi := hFirst_foldl_hlistInit h hi
  nodup _ _ := List.nodup_nil
  apart _ _ _ _ _ ha := absurd ha List.not_mem_nil

/-- A node is taken off its chain. -/
theorem HlistFrom.removeNode (hc : HlistFrom h s (l ++ a :: r)) (hnodup : (l ++ a :: r).Nodup)
    (hs : ∀ b ∈ l ++ a :: r, s ≠ .next b) : HlistFrom (hlistRemoveNode h a) s (l ++ r) := by
  have hnext : h.load (.next a) = r.head? := hc.next_eq
  induction l generalizing s with
  | nil =>
      obtain ⟨hload, hback, hrest⟩ := hc
      obtain ⟨har, hr⟩ := List.nodup_cons.mp hnodup
      -- the slot that held the node holds the next one
      have hfst : (hlistRemoveNode h a).load s = r.head? := by
        rw [load_hlistRemoveNode, hback, if_pos rfl, hnext]
      cases r with
      | nil => exact hfst
      | cons b r =>
          obtain ⟨hbr, -⟩ := List.nodup_cons.mp hr
          refine ⟨hfst, ?_, hrest.2.2.congr ?_ ?_ ?_⟩
          · rw [prev_hlistRemoveNode, hnext, List.head?_cons, if_pos rfl, hback]
          · rw [load_hlistRemoveNode, hback, if_neg (hs b (by simp)).symm]
          · intro c hc
            rw [load_hlistRemoveNode, hback, if_neg (hs c (by simp [hc])).symm]
          · intro c hc
            rw [prev_hlistRemoveNode, hnext, List.head?_cons, if_neg]
            rintro ⟨rfl⟩
            exact hbr hc
  | cons x l ih =>
      obtain ⟨hload, hback, hrest⟩ := hc
      obtain ⟨hx, hnodup'⟩ := List.nodup_cons.mp hnodup
      -- the node is further on, and the slot before it is another one
      have hslot : s ≠ h.prev a := by
        rw [hrest.prev_eq]
        cases hlast : l.getLast? with
        | none => exact hs x (by simp)
        | some b =>
            have hb : b ∈ l := List.mem_of_getLast? hlast
            exact hs b (by simp [hb])
      refine ⟨?_, ?_, ih hrest hnodup' fun b hb heq => ?_⟩
      · rw [load_hlistRemoveNode, if_neg hslot]
        exact hload
      · rw [prev_hlistRemoveNode, hnext, if_neg]
        · exact hback
        · intro hhead
          exact hx (by simp [List.mem_of_mem_head? hhead])
      · exact hx (ChainSlot.next.inj heq ▸ hb)

theorem Chained.insertHead {n i : Nat} {ls : Nat → List α} (hc : Chained n h ls) (hi : i < n)
    (ha : ∀ j, j < n → a ∉ ls j) :
    Chained n (hlistInsertHead h i a) (Function.update ls i (a :: ls i)) where
  chain j hj := by
    have hne : ∀ b ∈ ls j, b ≠ a := fun b hb heq => ha j hj (heq ▸ hb)
    by_cases hji : j = i
    · subst hji
      have hchain := hc.chain j hj
      have hnodup := hc.nodup j hj
      rw [Function.update_self]
      refine ⟨by simp [load_hlistInsertHead], by simp [prev_hlistInsertHead], ?_⟩
      -- the new node points to what was the first one, which points back to it
      have hfst : (hlistInsertHead h j a).load (.next a) = (ls j).head? := by
        rw [load_hlistInsertHead, if_neg (by simp), if_pos rfl, hchain.load_eq]
      cases hl : ls j with
      | nil => rwa [hl] at hfst
      | cons b l =>
          rw [hl] at hchain hne hfst hnodup
          have hb := hne b List.mem_cons_self
          refine ⟨hfst, ?_, hchain.2.2.congr ?_ ?_ ?_⟩
          · rw [prev_hlistInsertHead, if_neg hb, if_pos hchain.1]
          · rw [load_hlistInsertHead, if_neg (by simp), if_neg (by simpa using hb)]
          · intro c hcl
            have hca := hne c (List.mem_cons_of_mem b hcl)
            rw [load_hlistInsertHead, if_neg (by simp), if_neg (by simpa using hca)]
          · intro c hcl
            have hca := hne c (List.mem_cons_of_mem b hcl)
            have hcb : b ≠ c := fun heq => (List.nodup_cons.mp hnodup).1 (heq ▸ hcl)
            rw [prev_hlistInsertHead, if_neg hca, if_neg (by simpa [hchain.1] using hcb)]
    · -- the slots of another chain are not written
      rw [Function.update_of_ne hji]
      refine (hc.chain j hj).congr ?_ ?_ ?_
      · rw [load_hlistInsertHead, if_neg (by simpa using hji), if_neg (by simp)]
      · intro b hb
        rw [load_hlistInsertHead, if_neg (by simp), if_neg (by simpa using hne b hb)]
      · intro b hb
        rw [prev_hlistInsertHead, if_neg (hne b hb), if_neg]
        -- the old first node of this chain is in no other one
        intro hhead
        rw [(hc.chain i hi).load_eq] at hhead
        exact hji (hc.apart j i b hj hi hb (List.mem_of_mem_head? hhead))
  nodup j hj := by
    by_cases hji : j = i
    · subst hji
      rw [Function.update_self]
      exact List.nodup_cons.mpr ⟨ha j hj, hc.nodup j hj⟩
    · rw [Function.update_of_ne hji]
      exact hc.nodup j hj
  apart j k b hj hk hbj hbk := by
    -- a node is the new one, or was there before
    have hcase : ∀ j, j < n → b ∈ Function.update ls i (a :: ls i) j → b = a ∧ j = i ∨ b ∈ ls j := by
      intro j _ hb
      by_cases hji : j = i
      · subst hji
        rw [Function.update_self] at hb
        rcases List.mem_cons.mp hb with rfl | hb
        · exact Or.inl ⟨rfl, rfl⟩
        · exact Or.inr hb
      · rw [Function.update_of_ne hji] at hb
        exact Or.inr hb
    rcases hcase j hj hbj with ⟨rfl, rfl⟩ | hbj' <;> rcases hcase k hk hbk with ⟨hb, rfl⟩ | hbk'
    · rfl
    · exact absurd hbk' (ha k hk)
    · exact absurd hbj' (hb ▸ ha j hj)
    · exact hc.apart j k b hj hk hbj' hbk'

theorem Chained.removeNode {n i : Nat} {ls : Nat → List α} (hc : Chained n h ls) (hi : i < n)
    (hl : ls i = l ++ a :: r) : Chained n (hlistRemoveNode h a) (Function.update ls i (l ++ r)) := by
  have hchain := hc.chain i hi
  have hnodup := hc.nodup i hi
  rw [hl] at hchain hnodup
  have hsub : l ++ r ⊆ ls i := by
    rw [hl]
    intro b hb
    rcases List.mem_append.mp hb with hb | hb <;> simp [hb]
  constructor
  · intro j hj
    by_cases hji : j = i
    · subst hji
      rw [Function.update_self]
      exact hchain.removeNode hnodup (by simp)
    · rw [Function.update_of_ne hji]
      -- the slot that is written and the node that follows are of the other chain
      have hslot : ∀ b ∈ ls j, (.next b : ChainSlot α) ≠ h.prev a := by
        intro b hb heq
        rw [hchain.prev_eq] at heq
        cases hlast : l.getLast? with
        | none => simp [hlast] at heq
        | some c =>
            simp only [hlast, ChainSlot.next.injEq] at heq
            subst heq
            have hmem : b ∈ ls i := hsub (List.mem_append_left r (List.mem_of_getLast? hlast))
            exact hji (hc.apart j i b hj hi hb hmem)
      have hhead : (.head j : ChainSlot α) ≠ h.prev a := by
        rw [hchain.prev_eq]
        cases l.getLast? with
        | none => simpa using hji
        | some c => simp
      refine (hc.chain j hj).congr ?_ ?_ ?_
      · rw [load_hlistRemoveNode, if_neg hhead]
      · intro b hb
        rw [load_hlistRemoveNode, if_neg (hslot b hb)]
      · intro b hb
        rw [prev_hlistRemoveNode, if_neg]
        intro hfst
        have hr : b ∈ r := List.mem_of_mem_head? (hchain.next_eq ▸ hfst)
        exact hji (hc.apart j i b hj hi hb (hsub (List.mem_append_right l hr)))
  · intro j hj
    by_cases hji : j = i
    · subst hji
      rw [Function.update_self]
      exact List.Nodup.of_cons (List.perm_middle.nodup_iff.mp hnodup)
    · rw [Function.update_of_ne hji]
      exact hc.nodup j hj
  · intro j k b hj hk hbj hbk
    have hcase : ∀ j, b ∈ Function.update ls i (l ++ r) j → b ∈ ls j := by
      intro j hb
      by_cases hji : j = i
      · subst hji
        rw [Function.update_self] at hb
        exact hsub hb
      · rwa [Function.update_of_ne hji] at hb
    exact hc.apart j k b hj hk (hcase j hbj) (hcase k hbk)

end Jrinx
