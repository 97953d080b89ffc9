import Jrinx.Lib.Chains
import Jrinx.Lib.HashTable
import Jrinx.Types
import Mathlib.Data.Fintype.Card

/-! # The hash map

`lib/hashmap.c`, twice: once with the list of a bucket as a sequence, as the rest of the kernel sees it, and
once with the links of its nodes, on which `hashmap_put` and `hashmap_remove` take nodes off the list they go
through.

* **`Hashmap`**, **`hashmapPut`**, **`hashmapRemove`**, **`hashmapGet`** — the map over sequences.
* **`NodeMap`**, **`NodeMap.put`**, **`NodeMap.remove`**, **`NodeMap.get`**, **`NodeMap.iter`** — the map over links.
* **`KeyType`** — the kinds of keys, with their `h_code` and `h_equals`.
* **`Stores`** — the links stand for the sequences.
* **`FiniteMap`**, **`HashOp`**, **`LegalOps`** — what the map is for.
* **`hashmap_is_map`** — after any operations the map over links is a finite map. -/

namespace Jrinx

/-! ## The map over sequences -/

/-- `struct hashmap`; the functions that it stores are arguments of the operations. -/
structure Hashmap (ν : Type) where
  hCap : Nat
  hNum : Nat
  hArray : HashTable ν
  deriving Repr

/-- `HASHMAP_ALLOC` and `hashmap_init`. -/
def hashmapInit (ν : Type) (cap : Nat) : Hashmap ν := ⟨cap, 0, HashTable.empty cap⟩

section Hashmap

variable {ν κ : Type} [DecidableEq κ] (hKey : ν → κ) (hCode : κ → Nat)

/-- The loop of `hashmap_put`: the nodes that stay in the list, and the number that is left. -/
def hashmapDrop (nodeKey : κ) : List ν → Nat → List ν × Nat
  | [], num => ([], num)
  | ptr :: rest, num =>
      if nodeKey = hKey ptr then hashmapDrop nodeKey rest (wordSub num 1)
      else
        let (rest, num) := hashmapDrop nodeKey rest num
        (ptr :: rest, num)

/-- `hashmap_put`. -/
def hashmapPut (map : Hashmap ν) (node : ν) : Hashmap ν :=
  let nodeKey := hKey node
  let index := hCode nodeKey % map.hCap
  let (head, num) := hashmapDrop hKey nodeKey (map.hArray.getD index []) map.hNum
  { map with hArray := map.hArray.set index (node :: head), hNum := (num + 1) % wordSize }

/-- `hashmap_remove`. -/
def hashmapRemove (map : Hashmap ν) (key : κ) : Hashmap ν :=
  let index := hCode key % map.hCap
  let (head, num) := hashmapDrop hKey key (map.hArray.getD index []) map.hNum
  { map with hArray := map.hArray.set index head, hNum := num }

/-- `hashmap_get`. -/
def hashmapGet (map : Hashmap ν) (key : κ) : Option ν :=
  (map.hArray.getD (hCode key % map.hCap) []).find? fun ptr => key = hKey ptr

theorem hashmapDrop_fst (nodeKey : κ) (l : List ν) (num : Nat) :
    (hashmapDrop hKey nodeKey l num).1 = l.filter fun ptr => hKey ptr ≠ nodeKey := by
  induction l generalizing num with
  | nil => rfl
  | cons ptr rest ih =>
      by_cases h : nodeKey = hKey ptr
      · rw [hashmapDrop, if_pos h, ih, List.filter_cons_of_neg (by simp [h])]
      · have hne : hKey ptr ≠ nodeKey := fun heq => h heq.symm
        rw [hashmapDrop, if_neg h, List.filter_cons_of_pos (by simpa using hne), ← ih num]

/-- The nodes that the loop drops are counted off. -/
theorem hashmapDrop_snd (nodeKey : κ) (l : List ν) (num : Nat)
    (hnum : (l.filter fun ptr => hKey ptr = nodeKey).length ≤ num) :
    (hashmapDrop hKey nodeKey l num).2 = num - (l.filter fun ptr => hKey ptr = nodeKey).length := by
  induction l generalizing num with
  | nil => rfl
  | cons ptr rest ih =>
      by_cases h : hKey ptr = nodeKey
      · rw [List.filter_cons_of_pos (by simpa using h), List.length_cons] at hnum ⊢
        rw [hashmapDrop, if_pos h.symm, wordSub_of_le (by omega), ih (num - 1) (by omega)]
        omega
      · rw [List.filter_cons_of_neg (by simpa using h)] at hnum ⊢
        rw [hashmapDrop, if_neg fun heq => h heq.symm]
        exact ih num hnum

/-- The array of a map is a table. -/
theorem hashmapPut_hArray {m : Hashmap ν} (hcap : m.hArray.length = m.hCap) (node : ν) :
    (hashmapPut hKey hCode m node).hArray = HashTable.put hKey hCode m.hArray node := by
  show m.hArray.set _ (node :: (hashmapDrop hKey (hKey node) _ m.hNum).1) = _
  rw [hashmapDrop_fst, HashTable.put, HashTable.slot, hcap]

theorem hashmapRemove_hArray {m : Hashmap ν} (hcap : m.hArray.length = m.hCap) (key : κ) :
    (hashmapRemove hKey hCode m key).hArray = HashTable.remove hKey hCode m.hArray key := by
  show m.hArray.set _ (hashmapDrop hKey key _ m.hNum).1 = _
  rw [hashmapDrop_fst, HashTable.remove, HashTable.slot, hcap]

theorem hashmapGet_eq {m : Hashmap ν} (hcap : m.hArray.length = m.hCap) (key : κ) :
    hashmapGet hKey hCode m key = HashTable.get hKey hCode m.hArray key := by
  rw [hashmapGet, HashTable.get, HashTable.slot, hcap]
  simp only [eq_comm]

/-- A map that is filled node by node. -/
theorem foldl_hashmapPut {m : Hashmap ν} (hcap : m.hArray.length = m.hCap) (nodes : List ν) :
    (nodes.foldl (hashmapPut hKey hCode) m).hArray
        = nodes.foldl (HashTable.put hKey hCode) m.hArray ∧
      (nodes.foldl (hashmapPut hKey hCode) m).hCap = m.hCap := by
  induction nodes generalizing m with
  | nil => exact ⟨rfl, rfl⟩
  | cons node nodes ih =>
      have hput := hashmapPut_hArray hKey hCode hcap node
      obtain ⟨harr, hcap'⟩ := ih (m := hashmapPut hKey hCode m node)
        (by rw [hput, HashTable.length_put, hcap]; rfl)
      rw [List.foldl_cons, List.foldl_cons, harr, hcap', hput]
      exact ⟨rfl, rfl⟩

end Hashmap

/-! ## The map over links -/

/-- `struct hashmap`, with the link fields of the nodes; `hKey` reads the key that a node carries. -/
structure NodeMap (α κ : Type) where
  hKey : α → κ
  hCode : κ → Nat
  hEquals : κ → κ → Bool
  hCap : Nat
  hNum : Nat
  links : Chains α

namespace NodeMap

variable {α κ : Type} [DecidableEq α]

/-- `hashmap_init`. -/
def init (map : NodeMap α κ) : NodeMap α κ :=
  { map with links := (List.range map.hCap).foldl hlistInit map.links }

/-- The loop of `hashmap_put` and `hashmap_remove`, for at most `n` nodes. A node that was taken off still has
its link to the next one. -/
def dropLoop (key : κ) : Nat → Option α → NodeMap α κ → Option (NodeMap α κ)
  | _, none, map => some map
  | 0, some _, _ => none
  | n + 1, some ptr, map =>
      let map :=
        if map.hEquals key (map.hKey ptr) then
          { map with links := hlistRemoveNode map.links ptr, hNum := wordSub map.hNum 1 }
        else map
      dropLoop key n (map.links.next ptr) map

/-- `hashmap_put`. -/
def put (n : Nat) (map : NodeMap α κ) (node : α) : Option (NodeMap α κ) :=
  let nodeKey := map.hKey node
  let index := map.hCode nodeKey % map.hCap
  match dropLoop nodeKey n (map.links.hFirst index) map with
  | none => none
  | some map =>
      some { map with links := hlistInsertHead map.links index node, hNum := (map.hNum + 1) % wordSize }

/-- `hashmap_remove`. -/
def remove (n : Nat) (map : NodeMap α κ) (key : κ) : Option (NodeMap α κ) :=
  dropLoop key n (map.links.hFirst (map.hCode key % map.hCap)) map

/-- `hashmap_get`; the outer `none` is a loop that does not end within `n` nodes. -/
def get (n : Nat) (map : NodeMap α κ) (key : κ) : Option (Option α) :=
  chainFind map.links (fun ptr => map.hEquals key (map.hKey ptr)) n
    (map.links.hFirst (map.hCode key % map.hCap))

/-- The nodes that `HASHMAP_ITER` goes through in a bucket. -/
def bucket (n : Nat) (map : NodeMap α κ) (i : Nat) : List α := chainNodes map.links n (map.links.hFirst i)

/-- The nodes that `HASHMAP_ITER` goes through. -/
def iter (n : Nat) (map : NodeMap α κ) : List α := (List.range map.hCap).flatMap (map.bucket n)

end NodeMap

/-! ## Keys -/

/-- `hash_code_str`. A `char` is unsigned, and `str[i] - 'a' + 1` is converted to an `unsigned long`. -/
def hashCodeStr (str : List UInt8) : Nat :=
  let mod := 1000000009
  (str.foldl
    (fun (val, pow) c =>
      ((val + wordSub (c.toNat + 1) 97 * pow) % wordSize % mod, pow * 31 % mod)) (0, 1)).1

/-- `strcmp`: the two pointers are the rests of the strings, and a string ends with a zero. -/
def strcmp : List UInt8 → List UInt8 → Int
  | [], q => if 0 < q.headD 0 then -1 else 0
  | c :: p, q =>
      if c = q.headD 0 then strcmp p q.tail
      else if c < q.headD 0 then -1
      else 1

/-- `hash_eq_str`. -/
def hashEqStr (str1 str2 : List UInt8) : Bool := strcmp str1 str2 = 0

/-- `hash_code_uint32`. -/
def hashCodeUint32 (key : BitVec 32) : Nat :=
  let num := ((key >>> 16) ^^^ key) * 0x119de1f3#32
  let num := ((num >>> 16) ^^^ num) * 0x119de1f3#32
  let num := (num >>> 16) ^^^ num
  num.toNat

/-- `hash_code_uint64`. -/
def hashCodeUint64 (key : BitVec 64) : Nat :=
  let num := (key ^^^ (key >>> 30)) * 0xbf58476d1ce4e5b9#64
  let num := (num ^^^ (num >>> 27)) * 0x94d049bb133111eb#64
  let num := num ^^^ (num >>> 31)
  num.toNat

/-- The kinds of keys, named as in `HASHMAP_ALLOC`. -/
inductive KeyType where
  | str | uint32 | uint64
  deriving DecidableEq, Repr

namespace KeyType

/-- The keys of a kind: a string has no zero before its end. -/
def Key : KeyType → Type
  | str => { s : List UInt8 // 0 ∉ s }
  | uint32 => BitVec 32
  | uint64 => BitVec 64

instance (kt : KeyType) : DecidableEq kt.Key :=
  match kt with
  | str => inferInstanceAs (DecidableEq { s : List UInt8 // 0 ∉ s })
  | uint32 => inferInstanceAs (DecidableEq (BitVec 32))
  | uint64 => inferInstanceAs (DecidableEq (BitVec 64))

/-- The `h_code` of a kind. -/
def hCode : (kt : KeyType) → kt.Key → Nat
  | str => fun key => hashCodeStr key.val
  | uint32 => hashCodeUint32
  | uint64 => hashCodeUint64

/-- The `h_equals` of a kind; those of the numbers are `hash_eq_uint32` and `hash_eq_uint64`. -/
def hEquals : (kt : KeyType) → kt.Key → kt.Key → Bool
  | str => fun key1 key2 => hashEqStr key1.val key2.val
  | uint32 => fun key1 key2 => key1 == key2
  | uint64 => fun key1 key2 => key1 == key2

end KeyType

/-- `HASHMAP_ALLOC`. -/
def NodeMap.alloc {α : Type} (links : Chains α) (cap : Nat) (kt : KeyType) (keyOf : α → kt.Key) :
    NodeMap α kt.Key :=
  { hKey := keyOf, hCode := kt.hCode, hEquals := kt.hEquals, hCap := cap, hNum := 0, links := links }

theorem strcmp_eq_zero {p q : List UInt8} (hp : 0 ∉ p) (hq : 0 ∉ q) : strcmp p q = 0 ↔ p = q := by
  induction p generalizing q with
  | nil =>
      cases q with
      | nil => simp [strcmp]
      | cons d q =>
          have hd : d ≠ 0 := fun h => hq (by simp [h])
          have hpos : 0 < d := UInt8.pos_iff_ne_zero.mpr hd
          simp [strcmp, hpos]
  | cons c p ih =>
      have hc : c ≠ 0 := fun h => hp (by simp [h])
      have hp' : 0 ∉ p := fun h => hp (List.mem_cons_of_mem c h)
      cases q with
      | nil =>
          rw [strcmp, List.headD_nil, if_neg hc]
          split <;> simp
      | cons d q =>
          have hq' : 0 ∉ q := fun h => hq (List.mem_cons_of_mem d h)
          rw [strcmp, List.headD_cons, List.tail_cons]
          by_cases hcd : c = d
          · rw [if_pos hcd, ih hp' hq', hcd]
            simp
          · rw [if_neg hcd]
            have hne : c :: p ≠ d :: q := fun h => hcd (List.cons.inj h).1
            split <;> simp [hne]

/-- **`h_equals` decides equality** for every kind of keys. -/
theorem KeyType.hEquals_iff (kt : KeyType) (k k' : kt.Key) : kt.hEquals k k' = true ↔ k = k' := by
  cases kt with
  | str =>
      refine (decide_eq_true_iff).trans ((strcmp_eq_zero k.property k'.property).trans ?_)
      exact Subtype.ext_iff.symm
  | uint32 => exact beq_iff_eq (α := BitVec 32)
  | uint64 => exact beq_iff_eq (α := BitVec 64)

/-! ## The links stand for the sequences -/

/-- **The map over links stands for the map over sequences.** -/
structure Stores {α κ : Type} (m : NodeMap α κ) (c : Hashmap α) : Prop where
  cap : m.hCap = c.hCap
  num : m.hNum = c.hNum
  length : c.hArray.length = c.hCap
  chained : Chained c.hCap m.links (c.hArray.getD · [])

section Refinement

variable {α κ : Type} [DecidableEq α] [DecidableEq κ] {m : NodeMap α κ} {c : Hashmap α}

/-- The loop takes off the nodes with the key. The induction is on the rest `r` of the chain, behind the nodes
`l` that were kept. -/
theorem NodeMap.dropLoop_eq (heq : ∀ k k', m.hEquals k k' = true ↔ k = k') (key : κ) {cap i : Nat}
    {ls : Nat → List α} {l r : List α} (hc : Chained cap m.links ls) (hi : i < cap) (hl : ls i = l ++ r)
    {n : Nat} (hn : r.length ≤ n) :
    ∃ links, NodeMap.dropLoop key n r.head? m =
        some { m with links := links, hNum := (hashmapDrop m.hKey key r m.hNum).2 } ∧
      Chained cap links (Function.update ls i (l ++ (hashmapDrop m.hKey key r m.hNum).1)) := by
  induction r generalizing l m ls n with
  | nil =>
      refine ⟨m.links, by cases n <;> rfl, ?_⟩
      rw [hashmapDrop, ← hl, Function.update_eq_self]
      exact hc
  | cons ptr r ih =>
      cases n with
      | zero => exact absurd hn (by simp)
      | succ n =>
          have hchain := hc.chain i hi
          have hnodup := hc.nodup i hi
          rw [hl] at hchain hnodup
          have hnext : m.links.next ptr = r.head? := hchain.next_eq
          rw [List.head?_cons, dropLoop, hashmapDrop]
          by_cases hk : key = m.hKey ptr
          · rw [if_pos ((heq key _).mpr hk), if_pos hk]
            -- the node is taken off, and the loop goes on from its link forwards
            have hkept : (hlistRemoveNode m.links ptr).next ptr = r.head? :=
              (next_hlistRemoveNode hchain hnodup (by simp)).trans hnext
            have hstep := ih (m := { m with
                links := hlistRemoveNode m.links ptr, hNum := wordSub m.hNum 1 }) heq
              (hc.removeNode hi hl) (Function.update_self i _ ls) (n := n) (by simpa using hn)
            simp only [Function.update_idem] at hstep
            rw [← hkept] at hstep
            exact hstep
          · rw [if_neg (fun h => hk ((heq key _).mp h)), if_neg hk]
            obtain ⟨links, hloop, hc'⟩ := ih (l := l ++ [ptr]) heq hc (by simpa using hl) (n := n)
              (by simpa using hn)
            rw [← hnext] at hloop
            refine ⟨links, hloop, ?_⟩
            simpa using hc'

omit [DecidableEq α] [DecidableEq κ] in
/-- The bucket of a key. -/
theorem Stores.slot (h : Stores m c) (k : κ) :
    HashTable.slot m.hCode c.hArray k = m.hCode k % m.hCap := by
  rw [HashTable.slot, h.length, h.cap]

/-- **`hashmap_remove` over links** is the one over sequences. -/
theorem Stores.remove (h : Stores m c) (heq : ∀ k k', m.hEquals k k' = true ↔ k = k') (hcap : 0 < c.hCap)
    (key : κ) {n : Nat} (hn : ∀ i, (c.hArray.getD i []).length ≤ n) :
    ∃ m', m.remove n key = some m' ∧ Stores m' (hashmapRemove m.hKey m.hCode c key) ∧
      m'.hKey = m.hKey ∧ m'.hCode = m.hCode ∧ m'.hEquals = m.hEquals := by
  have hi : m.hCode key % m.hCap < c.hCap := by
    rw [h.cap]
    exact Nat.mod_lt _ hcap
  have hhead : m.links.hFirst (m.hCode key % m.hCap) =
      (c.hArray.getD (m.hCode key % m.hCap) []).head? := (h.chained.chain _ hi).load_eq
  obtain ⟨links, hloop, hc'⟩ := NodeMap.dropLoop_eq heq key h.chained hi
    (l := []) (r := c.hArray.getD (m.hCode key % m.hCap) []) rfl (hn _)
  rw [NodeMap.remove, hhead]
  have hlen : 0 < c.hArray.length := h.length ▸ hcap
  refine ⟨_, hloop, ⟨h.cap, ?_, ?_, ?_⟩, rfl, rfl, rfl⟩
  · rw [h.num, h.cap]
    rfl
  · rw [hashmapRemove_hArray m.hKey m.hCode h.length, HashTable.length_remove]
    exact h.length
  · rw [hashmapRemove_hArray m.hKey m.hCode h.length, HashTable.getD_remove hlen, h.slot]
    rw [hashmapDrop_fst] at hc'
    exact hc'

/-- **`hashmap_put` over links** is the one over sequences, in a sound table. -/
theorem Stores.put (h : Stores m c) (heq : ∀ k k', m.hEquals k k' = true ↔ k = k') (hcap : 0 < c.hCap)
    (hs : HashTable.Sound m.hKey m.hCode c.hArray) (node : α) {n : Nat}
    (hn : ∀ i, (c.hArray.getD i []).length ≤ n) :
    ∃ m', m.put n node = some m' ∧ Stores m' (hashmapPut m.hKey m.hCode c node) ∧
      m'.hKey = m.hKey ∧ m'.hCode = m.hCode ∧ m'.hEquals = m.hEquals := by
  have hi : m.hCode (m.hKey node) % m.hCap < c.hCap := by
    rw [h.cap]
    exact Nat.mod_lt _ hcap
  have hhead : m.links.hFirst (m.hCode (m.hKey node) % m.hCap) =
      (c.hArray.getD (m.hCode (m.hKey node) % m.hCap) []).head? := (h.chained.chain _ hi).load_eq
  obtain ⟨links, hloop, hc'⟩ := NodeMap.dropLoop_eq heq (m.hKey node) h.chained hi
    (l := []) (r := c.hArray.getD (m.hCode (m.hKey node) % m.hCap) []) rfl (hn _)
  have hlen : 0 < c.hArray.length := h.length ▸ hcap
  rw [hashmapDrop_fst, List.nil_append] at hc'
  -- the node was in no bucket but the one of its key, and from there the loop took it off
  have hfresh : ∀ j, j < c.hCap → node ∉ Function.update (c.hArray.getD · [])
      (m.hCode (m.hKey node) % m.hCap) ((c.hArray.getD (m.hCode (m.hKey node) % m.hCap) []).filter
        fun ptr => m.hKey ptr ≠ m.hKey node) j := by
    intro j _ hmem
    by_cases hj : j = m.hCode (m.hKey node) % m.hCap
    · subst hj
      rw [Function.update_self] at hmem
      simp at hmem
    · rw [Function.update_of_ne hj] at hmem
      have hplace := hs.placed j node hmem
      rw [h.slot] at hplace
      exact hj hplace.symm
  have hput := hc'.insertHead hi hfresh
  rw [Function.update_idem, Function.update_self] at hput
  unfold NodeMap.put
  dsimp only
  rw [hhead, hloop]
  refine ⟨_, rfl, ⟨h.cap, ?_, ?_, ?_⟩, rfl, rfl, rfl⟩
  · show ((hashmapDrop m.hKey (m.hKey node) _ m.hNum).2 + 1) % wordSize = _
    rw [h.num, h.cap]
    rfl
  · rw [hashmapPut_hArray m.hKey m.hCode h.length, HashTable.length_put]
    exact h.length
  · rw [hashmapPut_hArray m.hKey m.hCode h.length, HashTable.getD_put hlen, h.slot]
    exact hput

omit [DecidableEq α] in
/-- **`hashmap_get` over links** is the one over sequences. -/
theorem Stores.get (h : Stores m c) (heq : ∀ k k', m.hEquals k k' = true ↔ k = k') (hcap : 0 < c.hCap)
    (key : κ) {n : Nat} (hn : ∀ i, (c.hArray.getD i []).length ≤ n) :
    m.get n key = some (hashmapGet m.hKey m.hCode c key) := by
  have hi : m.hCode key % m.hCap < c.hCap := by
    rw [h.cap]
    exact Nat.mod_lt _ hcap
  have hchain := h.chained.chain _ hi
  have hhead : m.links.hFirst (m.hCode key % m.hCap) =
      (c.hArray.getD (m.hCode key % m.hCap) []).head? := hchain.load_eq
  rw [NodeMap.get, hhead, chainFind_eq hchain (hn _), hashmapGet, ← h.cap]
  congr 2
  funext ptr
  by_cases hk : key = m.hKey ptr
  · rw [(heq key _).mpr hk]
    simp [hk]
  · have hno : m.hEquals key (m.hKey ptr) = false := by
      rw [← Bool.not_eq_true, heq]
      exact hk
    simp [hno, hk]

omit [DecidableEq α] [DecidableEq κ] in
/-- **`HASHMAP_ITER`** goes through the sequences, bucket by bucket. -/
theorem Stores.bucket (h : Stores m c) {i : Nat} (hi : i < c.hCap) {n : Nat}
    (hn : (c.hArray.getD i []).length ≤ n) : m.bucket n i = c.hArray.getD i [] := by
  have hchain := h.chained.chain i hi
  have hhead : m.links.hFirst i = (c.hArray.getD i []).head? := hchain.load_eq
  rw [NodeMap.bucket, hhead]
  exact chainNodes_eq hchain hn

/-! ## How many nodes are stored -/

/-- The nodes of all buckets. -/
def Hashmap.entries {ν : Type} (c : Hashmap ν) : List ν := (List.range c.hCap).flatMap (c.hArray.getD · [])

omit [DecidableEq α] in
/-- A bucket is exchanged for another one. -/
theorem length_flatMap_update {n i : Nat} (hi : i < n) (f : Nat → List α) (l : List α) :
    ((List.range n).flatMap (Function.update f i l)).length + (f i).length =
      ((List.range n).flatMap f).length + l.length := by
  -- the buckets before `n` that are not exchanged are the same
  have hsame : ∀ n, n ≤ i → (List.range n).flatMap (Function.update f i l) = (List.range n).flatMap f := by
    intro n hn
    refine List.flatMap_congr fun j hj => ?_
    have hlt := List.mem_range.mp hj
    rw [Function.update_of_ne (by omega)]
  induction n with
  | zero => exact absurd hi (Nat.not_lt_zero i)
  | succ n ih =>
      simp only [List.range_succ, List.flatMap_append, List.flatMap_singleton, List.length_append]
      rcases Nat.lt_succ_iff_lt_or_eq.mp hi with hlt | rfl
      · have hih := ih hlt
        rw [Function.update_of_ne (by omega : n ≠ i)]
        omega
      · rw [hsame i le_rfl, Function.update_self]
        omega

omit [DecidableEq α] in
/-- A bucket has no more nodes than the map. -/
theorem Hashmap.length_bucket_le (hlen : c.hArray.length = c.hCap) (i : Nat) :
    (c.hArray.getD i []).length ≤ c.entries.length := by
  by_cases hi : i < c.hCap
  · have hsplit := length_flatMap_update hi (c.hArray.getD · []) []
    simp only [List.length_nil, Nat.add_zero] at hsplit
    exact Nat.le.intro ((Nat.add_comm _ _).trans hsplit)
  · rw [List.getD_eq_default _ _ (by omega)]
    exact Nat.zero_le _

omit [DecidableEq α] [DecidableEq κ] in
/-- No node is stored twice. -/
theorem Stores.nodup_entries (h : Stores m c) : c.entries.Nodup := by
  refine List.nodup_flatMap.mpr ⟨fun i hi => h.chained.nodup i (List.mem_range.mp hi), ?_⟩
  refine List.Nodup.pairwise_of_forall_ne List.nodup_range fun i hi j hj hij a hai haj => ?_
  exact hij (h.chained.apart i j a (List.mem_range.mp hi) (List.mem_range.mp hj) hai haj)

omit [DecidableEq α] in
theorem mem_entries (hlen : c.hArray.length = c.hCap) {a : α} :
    a ∈ c.entries ↔ ∃ i, a ∈ c.hArray.getD i [] := by
  simp only [Hashmap.entries, List.mem_flatMap, List.mem_range]
  constructor
  · rintro ⟨i, -, ha⟩
    exact ⟨i, ha⟩
  · rintro ⟨i, ha⟩
    refine ⟨i, ?_, ha⟩
    by_contra hi
    rw [List.getD_eq_default _ _ (by omega)] at ha
    exact absurd ha List.not_mem_nil

omit [DecidableEq α] in
/-- The entries of a bucket with a key, and those without. -/
theorem length_filter_key (hKey : α → κ) (k : κ) (l : List α) :
    (l.filter fun ptr => hKey ptr = k).length + (l.filter fun ptr => hKey ptr ≠ k).length = l.length := by
  have hsplit := List.length_eq_length_filter_add (l := l) fun ptr => decide (hKey ptr = k)
  simpa [decide_not] using hsplit.symm

omit [DecidableEq α] in
/-- The number of nodes is kept by `hashmap_remove`. -/
theorem Hashmap.num_remove (hKey : α → κ) (hCode : κ → Nat) (hlen : c.hArray.length = c.hCap)
    (hcap : 0 < c.hCap) (hnum : c.hNum = c.entries.length) (key : κ) :
    (hashmapRemove hKey hCode c key).hNum = (hashmapRemove hKey hCode c key).entries.length ∧
      (hashmapRemove hKey hCode c key).entries.length ≤ c.entries.length := by
  have hi : hCode key % c.hCap < c.hCap := Nat.mod_lt _ hcap
  have hpos : 0 < c.hArray.length := hlen ▸ hcap
  have hle := Hashmap.length_bucket_le hlen (hCode key % c.hCap)
  have hfilter := length_filter_key hKey key (c.hArray.getD (hCode key % c.hCap) [])
  have hdrop := hashmapDrop_snd hKey key (c.hArray.getD (hCode key % c.hCap) []) c.hNum (by omega)
  have hentries : (hashmapRemove hKey hCode c key).entries = (List.range c.hCap).flatMap
      (Function.update (c.hArray.getD · []) (hCode key % c.hCap)
        ((c.hArray.getD (hCode key % c.hCap) []).filter fun ptr => hKey ptr ≠ key)) := by
    rw [Hashmap.entries, hashmapRemove_hArray hKey hCode hlen, HashTable.getD_remove hpos, HashTable.slot, hlen]
    rfl
  have hupdate := length_flatMap_update hi (c.hArray.getD · [])
    ((c.hArray.getD (hCode key % c.hCap) []).filter fun ptr => hKey ptr ≠ key)
  rw [← hentries] at hupdate
  have hnum' : (hashmapRemove hKey hCode c key).hNum = _ := hdrop
  have hall : ((List.range c.hCap).flatMap (c.hArray.getD · [])).length = c.entries.length := rfl
  rw [hnum']
  constructor <;> omega

omit [DecidableEq α] in
/-- The number of nodes is kept by `hashmap_put`, if it fits into a word. -/
theorem Hashmap.num_put (hKey : α → κ) (hCode : κ → Nat) (hlen : c.hArray.length = c.hCap)
    (hcap : 0 < c.hCap) (hnum : c.hNum = c.entries.length) (node : α)
    (hword : (hashmapPut hKey hCode c node).entries.length < wordSize) :
    (hashmapPut hKey hCode c node).hNum = (hashmapPut hKey hCode c node).entries.length ∧
      (hashmapPut hKey hCode c node).entries.length ≤ c.entries.length + 1 := by
  have hi : hCode (hKey node) % c.hCap < c.hCap := Nat.mod_lt _ hcap
  have hpos : 0 < c.hArray.length := hlen ▸ hcap
  have hle := Hashmap.length_bucket_le hlen (hCode (hKey node) % c.hCap)
  have hfilter := length_filter_key hKey (hKey node) (c.hArray.getD (hCode (hKey node) % c.hCap) [])
  have hdrop := hashmapDrop_snd hKey (hKey node) (c.hArray.getD (hCode (hKey node) % c.hCap) [])
    c.hNum (by omega)
  have hentries : (hashmapPut hKey hCode c node).entries = (List.range c.hCap).flatMap
      (Function.update (c.hArray.getD · []) (hCode (hKey node) % c.hCap)
        (node :: (c.hArray.getD (hCode (hKey node) % c.hCap) []).filter fun ptr => hKey ptr ≠ hKey node)) := by
    rw [Hashmap.entries, hashmapPut_hArray hKey hCode hlen, HashTable.getD_put hpos, HashTable.slot, hlen]
    rfl
  have hupdate := length_flatMap_update hi (c.hArray.getD · [])
    (node :: (c.hArray.getD (hCode (hKey node) % c.hCap) []).filter fun ptr => hKey ptr ≠ hKey node)
  rw [← hentries, List.length_cons] at hupdate
  have hall : ((List.range c.hCap).flatMap (c.hArray.getD · [])).length = c.entries.length := rfl
  have hnum' : (hashmapPut hKey hCode c node).hNum =
      ((hashmapDrop hKey (hKey node) (c.hArray.getD (hCode (hKey node) % c.hCap) []) c.hNum).2 + 1)
        % wordSize := rfl
  rw [hnum', hdrop]
  refine ⟨?_, by omega⟩
  rw [Nat.mod_eq_of_lt (by omega)]
  omega

end Refinement

/-! ## A finite map

What the map is for: every key has at most one node. The keys of the nodes that are not stored may change. -/

/-- A finite map: the keys that the nodes carry, and the node of each key. -/
structure FiniteMap (α κ : Type) where
  key : α → κ
  node : κ → Option α

/-- An operation on a map; `setKey` writes the key of a node. -/
inductive HashOp (α κ : Type) where
  | put (node : α)
  | remove (key : κ)
  | setKey (node : α) (key : κ)
  deriving Repr

section Operations

variable {α κ : Type} [DecidableEq α] [DecidableEq κ]

/-- What an operation does to a finite map. -/
def FiniteMap.step (f : FiniteMap α κ) : HashOp α κ → FiniteMap α κ
  | .put node => { f with node := Function.update f.node (f.key node) (some node) }
  | .remove key => { f with node := Function.update f.node key none }
  | .setKey node key => { f with key := Function.update f.key node key }

/-- What an operation does to a map over links. -/
def NodeMap.step (n : Nat) (map : NodeMap α κ) : HashOp α κ → Option (NodeMap α κ)
  | .put node => map.put n node
  | .remove key => map.remove n key
  | .setKey node key => some { map with hKey := Function.update map.hKey node key }

/-- The key of a stored node does not change. -/
def HashOp.Legal (f : FiniteMap α κ) : HashOp α κ → Prop
  | .put _ => True
  | .remove _ => True
  | .setKey node _ => ∀ k, f.node k ≠ some node

/-- Every operation of a sequence leaves the keys of the stored nodes alone. -/
def LegalOps (f : FiniteMap α κ) : List (HashOp α κ) → Prop
  | [] => True
  | op :: ops => op.Legal f ∧ LegalOps (f.step op) ops

/-- **A map over links is this finite map**, for loops over at most `n` nodes. -/
structure IsMap (n : Nat) (m : NodeMap α κ) (f : FiniteMap α κ) : Prop where
  key : m.hKey = f.key
  get : ∀ k, m.get n k = some (f.node k)
  unique : ∀ a ∈ m.iter n, ∀ b ∈ m.iter n, m.hKey a = m.hKey b → a = b
  placed : ∀ i < m.hCap, ∀ a ∈ m.bucket n i, m.hCode (m.hKey a) % m.hCap = i
  num : m.hNum = (m.iter n).length
  once : (m.iter n).Nodup
  visits : ∀ a, a ∈ m.iter n ↔ ∃ k, f.node k = some a

/-- The links stand for a sound table with the nodes of the finite map, at most `j` of them. -/
structure MapInv (kt : KeyType) (m : NodeMap α kt.Key) (c : Hashmap α) (f : FiniteMap α kt.Key) (j : Nat) :
    Prop where
  stores : Stores m c
  sound : HashTable.Sound m.hKey m.hCode c.hArray
  num : c.hNum = c.entries.length
  size : c.entries.length ≤ j
  cap : 0 < c.hCap
  key : m.hKey = f.key
  code : m.hCode = kt.hCode
  equals : m.hEquals = kt.hEquals
  get : ∀ k, HashTable.get m.hKey m.hCode c.hArray k = f.node k

variable {kt : KeyType} {m : NodeMap α kt.Key} {c : Hashmap α} {f : FiniteMap α kt.Key} {j n : Nat}

omit [DecidableEq α] in
theorem MapInv.length_pos (h : MapInv kt m c f j) : 0 < c.hArray.length := h.stores.length ▸ h.cap

omit [DecidableEq α] in
theorem MapInv.length_bucket_le (h : MapInv kt m c f j) (i : Nat) : (c.hArray.getD i []).length ≤ j :=
  (Hashmap.length_bucket_le h.stores.length i).trans h.size

omit [DecidableEq α] in
theorem MapInv.hEquals_iff (h : MapInv kt m c f j) (k k' : kt.Key) : m.hEquals k k' = true ↔ k = k' := by
  rw [h.equals]
  exact kt.hEquals_iff k k'

theorem MapInv.put (h : MapInv kt m c f j) (hcard : ∀ l : List α, l.Nodup → l.length < wordSize)
    (hn : j ≤ n) (node : α) :
    ∃ m' c', m.put n node = some m' ∧ MapInv kt m' c' (f.step (.put node)) (j + 1) := by
  obtain ⟨m', hput, hstores, hkey, hcode, hequals⟩ := h.stores.put h.hEquals_iff h.cap h.sound node (n := n)
    fun i => (h.length_bucket_le i).trans hn
  -- there are fewer nodes than a word can count
  obtain ⟨hnum, hsize⟩ := Hashmap.num_put m.hKey m.hCode h.stores.length h.cap h.num
    node (hcard _ hstores.nodup_entries)
  have harray := hashmapPut_hArray m.hKey m.hCode h.stores.length node
  refine ⟨m', _, hput, hstores, ?_, hnum, hsize.trans (Nat.succ_le_succ h.size), h.cap, hkey.trans h.key,
    hcode.trans h.code, hequals.trans h.equals, ?_⟩
  · rw [hkey, hcode, harray]
    exact h.sound.put h.length_pos node
  · intro k
    rw [hkey, hcode, harray, HashTable.get_put h.length_pos, h.get]
    show _ = Function.update f.node (f.key node) (some node) k
    rw [← h.key]
    by_cases hk : m.hKey node = k
    · rw [if_pos hk, hk, Function.update_self]
    · rw [if_neg hk, Function.update_of_ne (Ne.symm hk)]

theorem MapInv.remove (h : MapInv kt m c f j) (hn : j ≤ n) (key : kt.Key) :
    ∃ m' c', m.remove n key = some m' ∧ MapInv kt m' c' (f.step (.remove key)) (j + 1) := by
  obtain ⟨m', hremove, hstores, hkey, hcode, hequals⟩ := h.stores.remove h.hEquals_iff h.cap key (n := n)
    fun i => (h.length_bucket_le i).trans hn
  obtain ⟨hnum, hsize⟩ := Hashmap.num_remove m.hKey m.hCode h.stores.length h.cap h.num
    key
  have harray := hashmapRemove_hArray m.hKey m.hCode h.stores.length key
  refine ⟨m', _, hremove, hstores, ?_, hnum, hsize.trans (Nat.le_succ_of_le h.size), h.cap,
    hkey.trans h.key, hcode.trans h.code, hequals.trans h.equals, ?_⟩
  · rw [hkey, hcode, harray]
    exact h.sound.remove h.length_pos key
  · intro k
    rw [hkey, hcode, harray, HashTable.get_remove h.length_pos, h.get]
    show _ = Function.update f.node key none k
    by_cases hk : key = k
    · rw [if_pos hk, hk, Function.update_self]
    · rw [if_neg hk, Function.update_of_ne (Ne.symm hk)]

/-- Writing the key of a node that is not stored changes nothing in the table. -/
theorem MapInv.setKey (h : MapInv kt m c f j) {node : α} (hfree : ∀ k, f.node k ≠ some node) (key : kt.Key) :
    MapInv kt { m with hKey := Function.update m.hKey node key } c (f.step (.setKey node key)) (j + 1) := by
  have hsame : ∀ i, ∀ w ∈ c.hArray.getD i [], Function.update m.hKey node key w = m.hKey w := by
    intro i w hw
    rw [Function.update_of_ne]
    rintro rfl
    refine hfree (m.hKey w) ?_
    rw [← h.get]
    exact h.sound.get_eq_some.mpr ⟨rfl, i, hw⟩
  refine ⟨⟨h.stores.cap, h.stores.num, h.stores.length, h.stores.chained⟩, h.sound.congr hsame, h.num,
    Nat.le_succ_of_le h.size, h.cap, ?_, h.code, h.equals, ?_⟩
  · show Function.update m.hKey node key = Function.update f.key node key
    rw [h.key]
  · intro k
    show HashTable.get (Function.update m.hKey node key) m.hCode c.hArray k = f.node k
    rw [HashTable.get_congr hsame, h.get]

/-- One operation. -/
theorem MapInv.step (h : MapInv kt m c f j) (hcard : ∀ l : List α, l.Nodup → l.length < wordSize)
    (hn : j ≤ n) {op : HashOp α kt.Key} (hop : op.Legal f) :
    ∃ m' c', m.step n op = some m' ∧ MapInv kt m' c' (f.step op) (j + 1) := by
  cases op with
  | put node => exact h.put hcard hn node
  | remove key => exact h.remove hn key
  | setKey node key => exact ⟨_, c, rfl, h.setKey hop key⟩

/-- A sequence of operations. The induction is on the sequence; `j` counts the operations so far. -/
theorem MapInv.run (h : MapInv kt m c f j) (hcard : ∀ l : List α, l.Nodup → l.length < wordSize)
    {ops : List (HashOp α kt.Key)} (hlegal : LegalOps f ops) (hn : j + ops.length ≤ n) :
    ∃ m' c', ops.foldlM (NodeMap.step n) m = some m' ∧
      MapInv kt m' c' (ops.foldl FiniteMap.step f) (j + ops.length) := by
  induction ops generalizing m c f j with
  | nil => exact ⟨m, c, rfl, h⟩
  | cons op ops ih =>
      obtain ⟨hop, hops⟩ := hlegal
      rw [List.length_cons] at hn ⊢
      obtain ⟨m', c', hstep, h'⟩ := h.step hcard (n := n) (by omega) hop
      obtain ⟨m'', c'', hrun, h''⟩ := ih h' hops (by omega)
      refine ⟨m'', c'', ?_, ?_⟩
      · rw [List.foldlM_cons, hstep]
        exact hrun
      · rw [List.foldl_cons, ← Nat.add_assoc, Nat.add_right_comm]
        exact h''

omit [DecidableEq α] in
/-- What the invariant says of the map over links. -/
theorem MapInv.isMap (h : MapInv kt m c f j) (hn : j ≤ n) : IsMap n m f := by
  have hbucket : ∀ i, (c.hArray.getD i []).length ≤ n := fun i => (h.length_bucket_le i).trans hn
  have hiter : m.iter n = c.entries := by
    rw [NodeMap.iter, Hashmap.entries, h.stores.cap]
    exact List.flatMap_congr fun i hi => h.stores.bucket (List.mem_range.mp hi) (hbucket i)
  refine ⟨h.key, ?_, ?_, ?_, ?_, ?_, ?_⟩
  · intro k
    rw [h.stores.get h.hEquals_iff h.cap k hbucket, hashmapGet_eq m.hKey m.hCode h.stores.length, h.get]
  · intro a ha b hb hkey
    rw [hiter, mem_entries h.stores.length] at ha hb
    obtain ⟨i, ha⟩ := ha
    obtain ⟨i', hb⟩ := hb
    exact h.sound.eq_of_key ha hb hkey
  · intro i hi a ha
    rw [h.stores.cap] at hi
    rw [h.stores.bucket hi (hbucket i)] at ha
    rw [← h.stores.slot]
    exact h.sound.placed i a ha
  · rw [hiter, h.stores.num, h.num]
  · rw [hiter]
    exact h.stores.nodup_entries
  · intro a
    rw [hiter, mem_entries h.stores.length]
    simp only [← h.get, h.sound.get_eq_some]
    constructor
    · rintro ⟨i, ha⟩
      exact ⟨m.hKey a, rfl, i, ha⟩
    · rintro ⟨k, -, hmem⟩
      exact hmem

/-- A map that was initialised is empty. -/
theorem MapInv.init {links : Chains α} {cap : Nat} (hcap : 0 < cap) (key : α → kt.Key) :
    MapInv kt (NodeMap.alloc links cap kt key).init (hashmapInit α cap) ⟨key, fun _ => none⟩ 0 := by
  have hgetD : ((hashmapInit α cap).hArray.getD · []) = fun _ => [] := by
    funext i
    show (HashTable.empty cap : HashTable α).getD i [] = []
    rw [HashTable.empty, List.getD_eq_getElem?_getD, List.getElem?_getD_replicate_default_eq]
  have hentries : (hashmapInit α cap).entries.length = 0 := by
    rw [Hashmap.entries, hgetD]
    simp
  refine ⟨⟨rfl, rfl, List.length_replicate, ?_⟩, HashTable.Sound.empty cap, hentries.symm, hentries.le, hcap,
    rfl, rfl, rfl, fun k => HashTable.get_empty _ _ cap k⟩
  rw [hgetD]
  exact Chained.init links cap

end Operations

/-! ## The nodes of the kernel -/

/-- The address of a node. -/
abbrev NodeAddr : Type := { a : Fin (2 ^ 64) // a ≠ 0 }

/-- There are fewer nodes than a word can count. -/
theorem NodeAddr.length_lt {l : List NodeAddr} (hl : l.Nodup) : l.length < wordSize := by
  have hlt : Fintype.card NodeAddr < Fintype.card (Fin (2 ^ 64)) := Fintype.card_subtype_lt (x := 0) (by simp)
  have hle : l.length ≤ Fintype.card NodeAddr := hl.length_le_card
  rw [Fintype.card_fin] at hlt
  rw [wordSize_eq]
  omega

/-- **The hash map is a finite map**: for every kind of keys, every capacity and every sequence of operations
that leaves the keys of the stored nodes alone. -/
theorem hashmap_is_map (kt : KeyType) {cap : Nat} (hcap : 0 < cap) (links : Chains NodeAddr)
    (key : NodeAddr → kt.Key) {ops : List (HashOp NodeAddr kt.Key)}
    (hlegal : LegalOps ⟨key, fun _ => none⟩ ops) {n : Nat} (hn : ops.length ≤ n) :
    ∃ m, ops.foldlM (NodeMap.step n) (NodeMap.alloc links cap kt key).init = some m ∧
      IsMap n m (ops.foldl FiniteMap.step ⟨key, fun _ => none⟩) := by
  have hinit : MapInv kt (NodeMap.alloc links cap kt key).init (hashmapInit NodeAddr cap)
      ⟨key, fun _ => none⟩ 0 := MapInv.init hcap key
  obtain ⟨m, c, hrun, h⟩ := hinit.run (fun l => NodeAddr.length_lt) hlegal (n := n) (by omega)
  exact ⟨m, hrun, h.isMap (by omega)⟩

/-- Two nodes in one bucket; the second one gets another key before it is stored, and the first one is taken
off again. -/
theorem hashmap_is_map_twoNodes :
    let a : NodeAddr := ⟨1, by decide⟩
    let b : NodeAddr := ⟨2, by decide⟩
    let ops : List (HashOp NodeAddr KeyType.uint32.Key) :=
      [.put a, .setKey b (7#32 : BitVec 32), .put b, .remove (5#32 : BitVec 32)]
    let links : Chains NodeAddr := ⟨fun _ => some b, fun _ => none, fun _ => .head 0⟩
    ∃ m, ops.foldlM (NodeMap.step 4) (NodeMap.alloc links 1 .uint32 fun _ => (5#32 : BitVec 32)).init = some m ∧
      IsMap 4 m (ops.foldl FiniteMap.step ⟨fun _ => (5#32 : BitVec 32), fun _ => none⟩) := by
  intro a b ops links
  have hlegal : LegalOps ⟨fun _ => (5#32 : BitVec 32), fun _ => none⟩ ops := by
    refine ⟨trivial, ?_, trivial, trivial, trivial⟩
    -- only `a` is stored when the key of `b` is written
    intro k hk
    have hab : a ≠ b := by decide
    by_cases h5 : k = (5#32 : BitVec 32)
    · rw [h5] at hk
      exact hab (Option.some.inj hk)
    · have hnone : (FiniteMap.step ⟨fun _ => (5#32 : BitVec 32), fun _ => none⟩ (.put a)).node k = none :=
        Function.update_of_ne h5 _ _
      exact absurd (hnone.symm.trans hk) (by simp)
  exact hashmap_is_map .uint32 Nat.one_pos links _ hlegal le_rfl

end Jrinx
