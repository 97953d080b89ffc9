import Mathlib.Data.List.Nodup
import Jrinx.Drivers.Devicetree
import Jrinx.Mm.HeapRuns

/-! # Decoding flattened device trees

A device tree is flattened into a blob of FDT version 17, with `FDT_NOP` tokens between its other tokens.
The loader gets the tree back, unless a `kalloc` finds no memory.

* **`DtTree`** — device trees; names have no terminator in them, and a node has no two properties of one name.
* **`FlatNode`**, **`IsFdt`** — the format: which bytes a node may become, and what a blob holds.
* **`DevNode.Represents`** — a loaded node is a given tree, as the kernel sees it.
* **`barring_dtNodeLoad`** — one node, by induction on how it was flattened. -/

namespace Jrinx

/-! ## Trees -/

/-- A name, which ends at its first terminator. -/
abbrev DtName : Type := {name : List UInt8 // 0 ∉ name}

/-- The properties of a node, no two of one name. -/
structure DtProps where
  entries : List (DtName × List UInt8)
  distinct : (entries.map Prod.fst).Nodup

/-- A device tree. -/
inductive DtTree where
  | node (name : DtName) (props : DtProps) (children : List DtTree)

/-! ## The format -/

/-- `FDT_NOP` tokens. -/
def nops (k : Nat) : List UInt8 := (List.replicate k (beBytes fdtNop)).flatten

/-- The bytes, filled up to whole words. -/
def Padded (bytes words : List UInt8) : Prop :=
  ∃ pad : List UInt8, pad.length < 4 ∧ words = bytes ++ pad ∧ 4 ∣ words.length

/-- Properties as tokens. `strs` says at which offsets of the strings block a name is found. -/
inductive FlatProps (strs : DtName → Nat → Prop) : List (DtName × List UInt8) → List UInt8 → Prop
  | nil : FlatProps strs [] []
  | cons {name : DtName} {value words bs : List UInt8} {props : List (DtName × List UInt8)} {off : Nat}
      (k : Nat) (hname : strs name off) (hvalue : Padded value words) (hprops : FlatProps strs props bs) :
      FlatProps strs ((name, value) :: props)
        (beBytes fdtProp ++ (beBytes value.length ++ (beBytes off ++ (words ++ (nops k ++ bs)))))

mutual

/-- A node as tokens. -/
inductive FlatNode (strs : DtName → Nat → Prop) : DtTree → List UInt8 → Prop
  | node {name : DtName} {props : DtProps} {children : List DtTree} {words pbs cbs : List UInt8} (k : Nat)
      (hname : Padded (name.1 ++ [0]) words) (hprops : FlatProps strs props.entries pbs)
      (hchildren : FlatChildren strs children cbs) :
      FlatNode strs (.node name props children)
        (beBytes fdtBeginNode ++ (words ++ (nops k ++ (pbs ++ (cbs ++ beBytes fdtEndNode)))))

/-- The children of a node as tokens. -/
inductive FlatChildren (strs : DtName → Nat → Prop) : List DtTree → List UInt8 → Prop
  | nil : FlatChildren strs [] []
  | cons {child : DtTree} {children : List DtTree} {bs cbs : List UInt8} (k : Nat)
      (hchild : FlatNode strs child bs) (hchildren : FlatChildren strs children cbs) :
      FlatChildren strs (child :: children) (bs ++ (nops k ++ cbs))

end

/-- The blob begins with a header, whose fields are words; the structure block lies behind the header. -/
structure FdtHeader (blob : List UInt8) (hdr : FdtField → Nat) : Prop where
  lies : ∀ f : FdtField, At blob f.offset (beBytes (hdr f))
  word : ∀ f, hdr f < 2 ^ 32
  total : hdr .totalsize = blob.length
  behind : 40 ≤ hdr .offDtStruct

/-- A name lies at an offset of the strings block. -/
def StrsOf (blob : List UInt8) (hdr : FdtField → Nat) (name : DtName) (off : Nat) : Prop :=
  off + name.1.length < hdr .sizeDtStrings ∧ At blob (hdr .offDtStrings + off) (name.1 ++ [0])

/-- The blob holds the tree in the layout of FDT version 17. -/
structure IsFdt (blob : List UInt8) (t : DtTree) (hdr : FdtField → Nat) : Prop extends
    FdtHeader blob hdr where
  magic : hdr .magic = dtbFdtMagic
  version : hdr .version = dtbSupportedVer
  /-- The reserved memory: entries of sixteen bytes, up to the one that is zero. -/
  rsvmap : ∃ entries : List (List UInt8),
    (∀ entry ∈ entries, entry.length = 16 ∧ ∃ b ∈ entry, b ≠ 0) ∧
      At blob (hdr .offMemRsvmap) (entries.flatten ++ List.replicate 16 0)
  /-- The structure block: the root between `FDT_NOP` tokens, and `FDT_END`. -/
  structs : ∃ bs j k, FlatNode (StrsOf blob hdr) t bs ∧
    At blob (hdr .offDtStruct) (nops j ++ (bs ++ (nops k ++ beBytes fdtEnd))) ∧
      (nops j ++ (bs ++ (nops k ++ beBytes fdtEnd))).length = hdr .sizeDtStruct

/-! ## What was loaded -/

/-- The property that is extracted has these bytes. -/
def DevNodeProp.HasBytes (prop : DevNodeProp) (value : List UInt8) : Prop :=
  prop.prLen = value.length ∧ prop.prValues.getD [] = value

/-- The loaded node is the tree. -/
inductive DevNode.Represents : DevNode → DtTree → Prop
  | node {node : DevNode} {name : DtName} {props : DtProps} {children : List DtTree}
      (hname : node.ndName = name)
      (hprops : ∀ name value, (name, value) ∈ props.entries →
        ∃ prop, dtNodePropExtract node name = some prop ∧ prop.HasBytes value)
      (hothers : ∀ name : DtName, name ∉ props.entries.map Prod.fst →
        dtNodePropExtract node name = none)
      (hchildren : List.Forall₂ DevNode.Represents node.ndChildrenList children) :
      DevNode.Represents node (.node name props children)

/-! ## What one call reads -/

section Reads

variable {e : DtFault} {blob : List UInt8} {a b : Nat}

theorem At.cast {xs : List UInt8} (h : At blob a xs) (hab : a = b) : At blob b xs := hab ▸ h

theorem barring_dtRead {α : Type} {r : Option α} {x : α} (h : r = some x) :
    Barring e (dtRead r) (· = x) := by
  rw [h]
  exact barring_pure rfl

theorem barring_fdtWord {v : Nat} (h : At blob a (beBytes v)) (hv : v < 2 ^ 32) :
    Barring e (fdtWord blob a) (· = v) := by
  have hbytes := h.bytes (beBytes_ne_nil v)
  rw [length_beBytes] at hbytes
  rw [fdtWord, hbytes]
  exact barring_pure (swapWord_fromLe_beBytes hv)

/-- A `uint64_t` of the blob, in the order of the machine. -/
theorem barring_dtRead_fromLe {bs : List UInt8} (h : At blob a bs) (hlen : bs.length = 8) :
    Barring e (dtRead ((blobBytes blob a 8).map fromLe)) (· = fromLe bs) := by
  have hbytes := h.bytes (List.ne_nil_of_length_pos (by omega))
  rw [hlen] at hbytes
  rw [hbytes]
  exact barring_pure rfl

/-- Either there is no memory, or the heap serves the size. -/
theorem barring_dtAlloc (rounds size : Nat) :
    Barring .noMem (dtAlloc rounds size) fun _ => blockNeed size ≤ kallocMaxSize := by
  intro h
  unfold dtAlloc
  cases hk : kalloc rounds h size with
  | none => exact Or.inl rfl
  | some r =>
      obtain ⟨p, h'⟩ := r
      by_cases hp : p = 0
      · exact Or.inl (if_pos hp)
      · refine Or.inr ⟨(), h', if_neg hp, ?_⟩
        by_contra hbig
        rw [not_le] at hbig
        rw [kalloc, if_pos hbig, Option.some.injEq, Prod.mk.injEq] at hk
        exact hp hk.1.symm

theorem le_blockNeed (size : Nat) (h : size + 45 ≤ wordSize) : size + 32 ≤ blockNeed size := by
  rw [wordSize_eq] at h
  have hup : size ≤ alignUp size 8 ∧ alignUp size 8 ≤ size + 7 := by
    rw [alignUp, alignDown, wordSize_eq, Nat.mod_eq_of_lt (by omega)]
    omega
  rw [blockNeed, buddyBlockSize, kallocMinSize]
  by_cases hmin : size < 8 * 4
  · rw [if_pos hmin, wordSize_eq]
    have h32 : alignUp (8 * 4) 8 = 32 := by rw [alignUp, alignDown, wordSize_eq]; rfl
    rw [h32]
    omega
  · rw [if_neg hmin, wordSize_eq, Nat.mod_eq_of_lt (by omega)]
    omega

/-- The `int` that counts a string, as a `size_t`. -/
theorem strlen_eq_or (str : List UInt8) (hstr : str.length < 2 ^ 32) :
    strlen str = str.length ∨ strlen str = str.length + 0xffffffff00000000 := by
  unfold strlen
  generalize str.length = n at hstr
  have hbmod : Int.bmod n (2 ^ 32) = n ∨ Int.bmod n (2 ^ 32) = n - 2 ^ 32 ∧ 2 ^ 31 ≤ n := by
    rw [Int.bmod_def]
    omega
  rcases hbmod with h | ⟨h, hn⟩
  · rw [h]
    omega
  · rw [h]
    omega

/-- A length that an `int` cannot hold becomes a size that no heap serves. -/
theorem strlen_eq {str : List UInt8} (hstr : str.length + 53 ≤ 2 ^ 32)
    (halloc : blockNeed ((strlen str + 1) % wordSize) ≤ kallocMaxSize) : strlen str = str.length := by
  rcases strlen_eq_or str (by omega) with h | h
  · exact h
  · exfalso
    have hlt : strlen str + 1 < wordSize := by
      rw [h, wordSize_eq]
      omega
    have hneed := le_blockNeed ((strlen str + 1) % wordSize)
    rw [Nat.mod_eq_of_lt hlt] at hneed halloc
    have hbig := hneed (by rw [h, wordSize_eq]; omega)
    rw [kallocMaxSize] at halloc
    omega

theorem at_nops_succ {k : Nat} {bs : List UInt8} :
    At blob a (nops (k + 1) ++ bs) ↔ At blob a (beBytes fdtNop) ∧ At blob (a + 4) (nops k ++ bs) := by
  rw [nops, List.replicate_succ, List.flatten_cons, List.append_assoc, at_append, length_beBytes]
  rfl

@[simp] theorem nops_zero : nops 0 = [] := rfl

@[simp] theorem length_nops (k : Nat) : (nops k).length = 4 * k := by
  induction k with
  | zero => rfl
  | succ k ih =>
      rw [nops, List.replicate_succ, List.flatten_cons, List.length_append, length_beBytes]
      rw [nops] at ih
      omega

/-- `FDT_NOP` tokens are skipped, up to the next token. -/
theorem barring_skipNops {off k n pos v : Nat} (hat : At blob (off + pos * 4) (nops k ++ beBytes v))
    (hv : v < 2 ^ 32) (hnop : v ≠ fdtNop) (hn : k < n) :
    Barring e (skipNops blob off n pos) (· = (pos + k, v)) := by
  induction k generalizing n pos with
  | zero =>
      obtain ⟨n, rfl⟩ : ∃ m, n = m + 1 := ⟨n - 1, by omega⟩
      refine (barring_fdtWord hat hv).bind ?_
      rintro _ rfl
      rw [if_neg hnop]
      exact barring_pure rfl
  | succ k ih =>
      obtain ⟨n, rfl⟩ : ∃ m, n = m + 1 := ⟨n - 1, by omega⟩
      obtain ⟨hhead, htail⟩ := at_nops_succ.mp hat
      refine (barring_fdtWord hhead (by decide)).bind ?_
      rintro _ rfl
      rw [if_pos rfl]
      refine (ih (htail.cast (by omega)) (by omega)).mono ?_
      rintro _ rfl
      rw [Nat.add_right_comm, Nat.add_assoc]

end Reads

/-! ## The properties of a node -/

/-- What the loader makes of a property. -/
def propOf (entry : DtName × List UInt8) : DevNodeProp :=
  ⟨entry.1, entry.2.length, if entry.2.length ≠ 0 then some entry.2 else none⟩

theorem propOf_hasBytes (name : DtName) (value : List UInt8) : (propOf (name, value)).HasBytes value := by
  refine ⟨rfl, ?_⟩
  by_cases h : value = []
  · subst h
    rfl
  · show (if value.length ≠ 0 then some value else none).getD [] = value
    rw [if_pos (by simpa using h)]
    rfl

/-- The map of a node with these properties. -/
def propMap (entries : List (DtName × List UInt8)) : Hashmap DevNodeProp :=
  (entries.map propOf).foldl propPut (hashmapInit DevNodeProp 32)

/-- In the map of a node every property is found, and nothing else. -/
theorem extract_propMap (props : DtProps) (node : DevNode) (hmap : node.ndPropMap = propMap props.entries) :
    (∀ name value, (name, value) ∈ props.entries →
      dtNodePropExtract node name = some (propOf (name, value))) ∧
    ∀ name : DtName, name ∉ props.entries.map Prod.fst → dtNodePropExtract node name = none := by
  have hinit : (hashmapInit DevNodeProp 32).hArray.length = (hashmapInit DevNodeProp 32).hCap :=
    List.length_replicate
  obtain ⟨harr, hcap⟩ := foldl_hashmapPut DevNodeProp.prName hashCodeStr hinit (props.entries.map propOf)
  -- the map is the hash table of the properties
  have hget : ∀ name : DtName, dtNodePropExtract node name
      = HashTable.get DevNodeProp.prName hashCodeStr
        ((props.entries.map propOf).foldl (HashTable.put DevNodeProp.prName hashCodeStr)
          (HashTable.empty 32)) name := by
    intro name
    rw [dtNodePropExtract, hmap, propMap, propPut, hashmapGet_eq, harr]
    · rfl
    · rw [harr, hcap, HashTable.length_foldl_put, hinit]
  -- the names in the table are those of the properties
  have hnames : (props.entries.map propOf).map DevNodeProp.prName
      = (props.entries.map Prod.fst).map Subtype.val := by
    rw [List.map_map, List.map_map]
    rfl
  have hpos : 0 < (HashTable.empty 32 : HashTable DevNodeProp).length := by
    rw [HashTable.empty, List.length_replicate]
    decide
  constructor
  · intro name value hmem
    rw [hget]
    refine HashTable.get_foldl_put hpos ?_ (List.mem_map_of_mem hmem)
    rw [hnames]
    exact List.Nodup.map Subtype.val_injective props.distinct
  · intro name hname
    rw [hget, HashTable.get_foldl_put_of_notMem hpos, HashTable.get_empty]
    rw [hnames]
    intro hmem
    obtain ⟨name', hmem', heq⟩ := List.mem_map.mp hmem
    exact hname (Subtype.val_injective heq ▸ hmem')

section Loops

variable {rounds : Nat} {blob : List UInt8} {strs : DtName → Nat → Prop}

/-- The first token of the properties, in front of another token. -/
def propToken (tok : Nat) : List (DtName × List UInt8) → Nat
  | [] => tok
  | _ :: _ => fdtProp

theorem propToken_spec {props : List (DtName × List UInt8)} {bs : List UInt8} (hp : FlatProps strs props bs)
    {a tok : Nat} (hat : At blob a (bs ++ beBytes tok)) : At blob a (beBytes (propToken tok props)) := by
  cases hp with
  | nil => exact hat
  | cons k hname hvalue hprops =>
      rw [List.append_assoc] at hat
      exact (at_append.mp hat).1

theorem propToken_cases (tok : Nat) (props : List (DtName × List UInt8)) :
    propToken tok props = tok ∨ propToken tok props = fdtProp := by
  cases props with
  | nil => exact Or.inl rfl
  | cons _ _ => exact Or.inr rfl

/-- The value of a property, which is copied when it is not empty. -/
theorem barring_dtPropValues {a : Nat} (entry : DtName × List UInt8) (hat : At blob a entry.2) :
    Barring .noMem (dtPropValues rounds blob a entry.2.length) (· = (propOf entry).prValues) := by
  unfold propOf dtPropValues
  by_cases h : entry.2.length ≠ 0
  · have hne : entry.2 ≠ [] := fun hnil => h (by rw [hnil]; rfl)
    rw [if_pos h]
    dsimp only
    rw [if_pos h]
    refine (barring_dtAlloc rounds _).bind fun _ _ => (barring_dtRead (hat.bytes hne)).bind ?_
    rintro _ rfl
    exact barring_pure rfl
  · rw [if_neg h]
    dsimp only
    rw [if_neg h]
    exact barring_pure rfl

/-- The loop over the properties reads them all, up to the next token. -/
theorem barring_dtPropLoop {stringsOff : Nat}
    (hstrs : ∀ name off, strs name off → off < 2 ^ 32 ∧ At blob (stringsOff + off) (name.1 ++ [0]))
    (hblob : blob.length < 2 ^ 32) {tok : Nat} (htok : tok < 2 ^ 32) (hnop : tok ≠ fdtNop)
    (hprop : tok ≠ fdtProp) {props : List (DtName × List UInt8)} {bs : List UInt8}
    (hp : FlatProps strs props bs) {off n pos : Nat} (map : Hashmap DevNodeProp)
    (hat : At blob (off + pos * 4) (bs ++ beBytes tok)) (hn : bs.length < n) :
    Barring .noMem (dtPropLoop rounds blob off stringsOff n pos (propToken tok props) map) fun r =>
      r.1 * 4 = pos * 4 + bs.length ∧ r.2 = (tok, (props.map propOf).foldl propPut map) := by
  induction hp generalizing n pos map with
  | nil =>
      obtain ⟨n, rfl⟩ : ∃ m, n = m + 1 := ⟨n - 1, by omega⟩
      rw [propToken, dtPropLoop, if_neg hprop]
      exact barring_pure ⟨rfl, rfl⟩
  | @cons name value words bs props nameoff k hname hvalue hprops ih =>
      obtain ⟨n, rfl⟩ : ∃ m, n = m + 1 := ⟨n - 1, by omega⟩
      obtain ⟨pad, hpad, hwords, hdvd⟩ := hvalue
      obtain ⟨hoff, hstr⟩ := hstrs name nameoff hname
      simp only [List.append_assoc, at_append, length_beBytes] at hat
      obtain ⟨-, hlen, hoffAt, hval, hnops, hrest, htail⟩ := hat
      have hrest' := at_append.mpr ⟨hrest, htail⟩
      have hlenw : words.length = value.length + pad.length := by rw [hwords, List.length_append]
      have hle : value.length < 2 ^ 32 := by
        by_cases hnil : words = []
        · have h0 : words.length = 0 := by rw [hnil]; rfl
          omega
        · have hin := hval.le_length hnil
          omega
      simp only [List.length_append, length_beBytes, length_nops] at hn ⊢
      rw [propToken, dtPropLoop, if_pos rfl]
      refine (barring_fdtWord (hlen.cast (by omega)) hle).bind ?_
      rintro _ rfl
      refine (barring_fdtWord (hoffAt.cast (by omega)) hoff).bind ?_
      rintro _ rfl
      refine (barring_dtAlloc rounds 40).bind fun _ _ => ?_
      refine (barring_dtRead (hstr.str name.2)).bind ?_
      rintro _ rfl
      refine (barring_dtAlloc rounds _).bind fun _ _ => ?_
      have hval' : At blob (off + (pos + 3) * 4) value := by
        rw [hwords, at_append] at hval
        exact hval.1.cast (by omega)
      refine (barring_dtPropValues (name, value) hval').bind ?_
      rintro _ rfl
      -- the rounding of the source: the words of the value, also when there are none
      have hpos : wordSub ((pos + 3) * 4 + value.length) 1 / 4 + 1 = pos + 3 + words.length / 4 := by
        rw [wordSub_of_le (by omega)]
        omega
      have htoken := propToken_spec hprops hrest'
      have hnext : At blob (off + (pos + 3 + words.length / 4) * 4)
          (nops k ++ beBytes (propToken tok props)) :=
        at_append.mpr ⟨hnops.cast (by omega), htoken.cast (by rw [length_nops]; omega)⟩
      have hlt : propToken tok props < 2 ^ 32 ∧ propToken tok props ≠ fdtNop := by
        rcases propToken_cases tok props with h | h
        · rw [h]
          exact ⟨htok, hnop⟩
        · rw [h]
          decide
      dsimp only
      rw [hpos]
      refine (barring_skipNops hnext hlt.1 hlt.2 (by omega)).bind ?_
      rintro _ rfl
      rw [length_nops] at hrest'
      refine (ih _ (hrest'.cast (by omega)) (by omega)).mono ?_
      rintro ⟨pos', r⟩ ⟨hpos', hr⟩
      refine ⟨?_, hr⟩
      dsimp only at hpos' ⊢
      omega

/-- The first token of the children, in front of the end of their node. -/
def childToken : List DtTree → Nat
  | [] => fdtEndNode
  | _ :: _ => fdtBeginNode

theorem childToken_spec {ts : List DtTree} {bs : List UInt8} (hc : FlatChildren strs ts bs) {a : Nat}
    (hat : At blob a (bs ++ beBytes fdtEndNode)) : At blob a (beBytes (childToken ts)) := by
  cases hc with
  | nil => exact hat
  | cons k hchild hchildren =>
      cases hchild
      rw [List.append_assoc, List.append_assoc] at hat
      exact (at_append.mp hat).1

theorem childToken_word (ts : List DtTree) :
    childToken ts < 2 ^ 32 ∧ childToken ts ≠ fdtNop ∧ childToken ts ≠ fdtProp := by
  cases ts with
  | nil => decide
  | cons t ts =>
      rw [childToken]
      decide

theorem FlatNode.length_pos {t : DtTree} {bs : List UInt8} (h : FlatNode strs t bs) : 0 < bs.length := by
  cases h
  rw [List.length_append, length_beBytes]
  omega

/-- Behind a child: the loop goes on over `FDT_NOP` tokens to the next token. -/
theorem barring_afterChild {off k n m pos v : Nat} {children : List DevNode}
    {P : List DevNode × Nat → Prop} (hat : At blob (off + pos * 4) (nops k ++ beBytes v))
    (hv : v < 2 ^ 32) (hn : m + k < n)
    (hloop : ∀ n, m < n → Barring .noMem (dtChildLoop rounds blob off n (pos + k) v children) P) :
    Barring .noMem (do
      let structToken ← fdtWord blob (off + pos * 4)
      if structToken = fdtEndNode then pure (children, pos)
      else dtChildLoop rounds blob off n pos structToken children) P := by
  induction k generalizing n pos with
  | zero =>
      refine (barring_fdtWord hat hv).bind ?_
      rintro _ rfl
      have hrest := hloop n (by omega)
      split
      case isTrue hend =>
        obtain ⟨n, rfl⟩ : ∃ m, n = m + 1 := ⟨n - 1, by omega⟩
        rwa [hend, dtChildLoop, if_neg (by decide), if_neg (by decide)] at hrest
      case isFalse => exact hrest
  | succ k ih =>
      obtain ⟨n, rfl⟩ : ∃ m, n = m + 1 := ⟨n - 1, by omega⟩
      obtain ⟨hhead, htail⟩ := at_nops_succ.mp hat
      refine (barring_fdtWord hhead (by decide)).bind ?_
      rintro _ rfl
      rw [if_neg (by decide), dtChildLoop, if_neg (by decide), if_pos rfl]
      refine ih (htail.cast (by omega)) (by omega) fun n hn => ?_
      rw [Nat.add_assoc, Nat.add_comm 1 k]
      exact hloop n hn

end Loops

section Nodes

variable {rounds : Nat} {blob : List UInt8} {hdr : FdtField → Nat}

/-- What the node lemma says of the position and of the node. -/
def Loaded (t : DtTree) (pos : Nat) (r : DevNode × Nat) : Prop := r.2 * 4 = pos ∧ DevNode.Represents r.1 t

mutual

/-- **One node**: the loader builds the node and stops behind it. -/
theorem barring_dtNodeLoad (hh : FdtHeader blob hdr) {t : DtTree} {bs : List UInt8}
    (hnode : FlatNode (StrsOf blob hdr) t bs) {j n p : Nat}
    (hat : At blob (hdr .offDtStruct + p * 4) (nops j ++ bs))
    (hsize : p * 4 + 4 * j + bs.length ≤ hdr .sizeDtStruct) (hn : 4 * j + bs.length ≤ n) :
    Barring .noMem (dtNodeLoad rounds blob n p) (Loaded t (p * 4 + 4 * j + bs.length)) := by
  cases hnode with
  | @node name props ts words pbs cbs k hname hprops hchildren =>
      obtain ⟨pad, hpad, hwords, hdvd⟩ := hname
      have hlenw : words.length = name.1.length + 1 + pad.length := by
        rw [hwords, List.length_append, List.length_append, List.length_singleton]
      simp only [List.length_append, length_beBytes, length_nops] at hsize hn ⊢
      obtain ⟨n, rfl⟩ : ∃ m, n = m + 1 := ⟨n - 1, by omega⟩
      simp only [at_append, length_beBytes, length_nops] at hat
      obtain ⟨hlead, hbegin, hstr, hnops, hpbs, hcbs, hend⟩ := hat
      have htotal := hh.total ▸ hh.word .totalsize
      have hblob := hend.le_length (beBytes_ne_nil _)
      have hbehind := hh.behind
      rw [length_beBytes] at hblob
      rw [hwords, at_append] at hstr
      rw [dtNodeLoad]
      refine (barring_fdtWord (hh.lies .offDtStruct) (hh.word _)).bind ?_
      rintro _ rfl
      refine (barring_fdtWord (hh.lies .offDtStrings) (hh.word _)).bind ?_
      rintro _ rfl
      refine (barring_fdtWord (hh.lies .sizeDtStruct) (hh.word _)).bind ?_
      rintro _ rfl
      rw [if_neg (by omega)]
      refine (barring_skipNops (k := j) (v := fdtBeginNode) (at_append.mpr ⟨hlead, ?_⟩) (by decide)
        (by decide) (by omega)).bind ?_
      · exact hbegin.cast (by rw [length_nops])
      rintro _ rfl
      rw [if_neg (by simp)]
      refine (barring_dtAlloc rounds 88).bind fun _ _ => ?_
      refine (barring_dtRead ((hstr.1.cast (by omega)).str name.2)).bind ?_
      rintro _ rfl
      refine (barring_dtAlloc rounds _).bind fun _ hneed => ?_
      have hstrlen := strlen_eq (by omega) hneed
      refine (barring_dtAlloc rounds _).bind fun _ _ => ?_
      -- the rounding of the source: the words of the name with its terminator
      have hpos : ((p + j + 1) * 4 + strlen name.1) % wordSize / 4 + 1
          = p + j + 1 + words.length / 4 := by
        rw [hstrlen, wordSize_eq, Nat.mod_eq_of_lt (by omega)]
        omega
      have hctok := childToken_word ts
      have hchildTok := childToken_spec hchildren (at_append.mpr ⟨hcbs, hend⟩)
      have hpropsAt := at_append.mpr ⟨hpbs, hchildTok⟩
      have htoken := propToken_spec hprops hpropsAt
      have hlt : propToken (childToken ts) props.entries < 2 ^ 32 ∧
          propToken (childToken ts) props.entries ≠ fdtNop := by
        rcases propToken_cases (childToken ts) props.entries with h | h
        · rw [h]
          exact ⟨hctok.1, hctok.2.1⟩
        · rw [h]
          decide
      dsimp only
      rw [hpos]
      refine (barring_skipNops (k := k) (at_append.mpr ⟨hnops.cast (by omega), ?_⟩) hlt.1 hlt.2
        (by omega)).bind ?_
      · exact htoken.cast (by rw [length_nops]; omega)
      rintro _ rfl
      have hstrs : ∀ name off, StrsOf blob hdr name off →
          off < 2 ^ 32 ∧ At blob (hdr .offDtStrings + off) (name.1 ++ [0]) := by
        intro name off hname
        have hsize := hh.word .sizeDtStrings
        exact ⟨by have := hname.1; omega, hname.2⟩
      refine (barring_dtPropLoop hstrs htotal hctok.1 hctok.2.1 hctok.2.2 hprops _
        (hpropsAt.cast (by omega)) (by omega)).bind ?_
      rintro ⟨p', r⟩ ⟨hpos', rfl⟩
      dsimp only at hpos' ⊢
      refine (barring_dtChildLoop hh hchildren [] ((at_append.mpr ⟨hcbs, hend⟩).cast (by omega)) (by omega)
        (by omega)).bind ?_
      rintro ⟨nodes, p''⟩ ⟨hpos'', _, rfl, hloaded⟩
      dsimp only at hpos'' ⊢
      refine barring_pure ⟨by dsimp only; omega, ?_⟩
      obtain ⟨hget, hothers⟩ := extract_propMap props
        ⟨name.1, propMap props.entries, nodes⟩ rfl
      exact DevNode.Represents.node rfl
        (fun name value hmem => ⟨_, hget name value hmem, propOf_hasBytes name value⟩) hothers hloaded

/-- The loop over the children builds them in order. -/
theorem barring_dtChildLoop (hh : FdtHeader blob hdr) {ts : List DtTree} {bs : List UInt8}
    (hc : FlatChildren (StrsOf blob hdr) ts bs) {n pos : Nat} (children : List DevNode)
    (hat : At blob (hdr .offDtStruct + pos * 4) (bs ++ beBytes fdtEndNode))
    (hsize : pos * 4 + bs.length ≤ hdr .sizeDtStruct) (hn : bs.length < n) :
    Barring .noMem (dtChildLoop rounds blob (hdr .offDtStruct) n pos (childToken ts) children) fun r =>
      r.2 * 4 = pos * 4 + bs.length ∧
        ∃ loaded, r.1 = children ++ loaded ∧ List.Forall₂ DevNode.Represents loaded ts := by
  cases hc with
  | nil =>
      obtain ⟨n, rfl⟩ : ∃ m, n = m + 1 := ⟨n - 1, by omega⟩
      rw [childToken, dtChildLoop, if_neg (by decide), if_neg (by decide)]
      exact barring_pure ⟨rfl, [], (List.append_nil _).symm, List.Forall₂.nil⟩
  | @cons t ts bs cbs k hchild hchildren =>
      obtain ⟨n, rfl⟩ : ∃ m, n = m + 1 := ⟨n - 1, by omega⟩
      simp only [List.length_append, length_nops] at hsize hn ⊢
      rw [List.append_assoc, List.append_assoc, at_append, at_append, length_nops] at hat
      obtain ⟨hnode, hnops, hrest⟩ := hat
      have hlen := hchild.length_pos
      rw [childToken, dtChildLoop, if_pos rfl]
      refine (barring_dtNodeLoad hh hchild (j := 0) hnode (by omega) (by omega)).bind ?_
      rintro ⟨node, pos'⟩ ⟨hpos, hloaded⟩
      dsimp only at hpos ⊢
      -- the token behind the child begins the next one, or ends the node
      have htoken := childToken_spec hchildren hrest
      refine barring_afterChild (k := k) (m := cbs.length) (v := childToken ts) ?_
        (childToken_word ts).1 (by omega) fun n hn => ?_
      · exact at_append.mpr ⟨hnops.cast (by omega), htoken.cast (by rw [length_nops]; omega)⟩
      · refine (barring_dtChildLoop hh hchildren (children ++ [node]) (hrest.cast (by omega))
          (by omega) hn).mono ?_
        rintro ⟨all, pos''⟩ ⟨hpos', loaded, hall, hloaded'⟩
        dsimp only at hpos' hall ⊢
        refine ⟨by omega, node :: loaded, ?_, List.Forall₂.cons hloaded hloaded'⟩
        rw [hall, List.append_assoc]
        rfl

end

/-- An entry of the reservation map as the loader keeps it: its bytes, in the order of the machine. -/
def rsvmemOf (entry : List UInt8) : DevRsvmem := ⟨fromLe (entry.take 8), fromLe (entry.drop 8)⟩

/-- The reserved memory is read up to the entry that is zero. -/
theorem barring_dtRsvLoop {entries : List (List UInt8)}
    (hentries : ∀ entry ∈ entries, entry.length = 16 ∧ ∃ b ∈ entry, b ≠ 0) {n pos : Nat}
    (rsvmems : List DevRsvmem) (hat : At blob pos (entries.flatten ++ List.replicate 16 0))
    (hn : entries.length < n) :
    Barring .noMem (dtRsvLoop rounds blob n pos rsvmems) (· = rsvmems ++ entries.map rsvmemOf) := by
  induction entries generalizing n pos rsvmems with
  | nil =>
      obtain ⟨n, rfl⟩ : ∃ m, n = m + 1 := ⟨n - 1, by omega⟩
      -- sixteen zeros are an address and a size that are zero
      have hzeros : At blob pos (List.replicate 8 0 ++ List.replicate 8 0) := hat
      obtain ⟨haddr, hsize⟩ := at_append.mp hzeros
      refine (barring_dtRead_fromLe haddr rfl).bind ?_
      rintro _ rfl
      refine (barring_dtRead_fromLe hsize rfl).bind ?_
      rintro _ rfl
      rw [if_pos ⟨rfl, rfl⟩]
      exact barring_pure (List.append_nil _).symm
  | cons entry entries ih =>
      obtain ⟨n, rfl⟩ : ∃ m, n = m + 1 := ⟨n - 1, by omega⟩
      obtain ⟨⟨hlen, b, hb, hb0⟩, hentries⟩ := List.forall_mem_cons.mp hentries
      rw [List.flatten_cons, List.append_assoc, at_append] at hat
      obtain ⟨hentry, hrest⟩ := hat
      -- an entry is an address and a size of eight bytes each
      have hhead : (entry.take 8).length = 8 := by rw [List.length_take]; omega
      have htail : (entry.drop 8).length = 8 := by rw [List.length_drop]; omega
      rw [← List.take_append_drop 8 entry, at_append, hhead] at hentry
      refine (barring_dtRead_fromLe hentry.1 hhead).bind ?_
      rintro _ rfl
      refine (barring_dtRead_fromLe hentry.2 htail).bind ?_
      rintro _ rfl
      rw [if_neg, ← hlen]
      · refine (barring_dtAlloc rounds 32).bind fun _ _ => ?_
        refine (ih hentries _ hrest (by rw [List.length_cons] at hn; omega)).mono ?_
        rintro _ rfl
        rw [List.append_assoc]
        rfl
      · rintro ⟨h1, h2⟩
        rw [← List.take_append_drop 8 entry, List.mem_append] at hb
        -- the byte that is not zero is in one of them
        rcases hb with hb | hb
        · exact hb0 (fromLe_eq_zero.mp h1 b hb)
        · exact hb0 (fromLe_eq_zero.mp h2 b hb)

/-- **A blob that holds a tree is loaded as that tree**, with the reserved memory, unless a `kalloc` finds no
memory. -/
theorem barring_dtLoad {t : DtTree} (hf : IsFdt blob t hdr) {entries : List (List UInt8)}
    (hentries : ∀ entry ∈ entries, entry.length = 16 ∧ ∃ b ∈ entry, b ≠ 0)
    (hrsv : At blob (hdr .offMemRsvmap) (entries.flatten ++ List.replicate 16 0)) :
    Barring .noMem (dtLoad rounds blob) fun dt => dt.dtRsvmemList = entries.map rsvmemOf ∧
      ∃ root, dt.dtNodeList = [root] ∧ DevNode.Represents root t := by
  obtain ⟨bs, j, k, hnode, hat, hsize⟩ := hf.structs
  have hrsvLen := hrsv.le_length (by simp)
  -- the rounds suffice for the entries, since these lie in the blob
  have hflat : entries.flatten.length = 16 * entries.length := by
    rw [List.length_flatten, List.eq_replicate_of_mem (l := entries.map List.length) (a := 16)]
    · simp [Nat.mul_comm]
    · intro n hn
      obtain ⟨entry, hentry, rfl⟩ := List.mem_map.mp hn
      exact (hentries entry hentry).1
  have hlen := hat.le_length (by simp [beBytes_ne_nil])
  rw [hsize] at hlen
  simp only [List.length_append, length_nops, length_beBytes, List.length_replicate] at hsize hrsvLen
  rw [← List.append_assoc, at_append] at hat
  refine (barring_fdtWord (hf.lies .magic) (hf.word _)).bind ?_
  rintro _ rfl
  -- the magic number and the version are right
  rw [if_neg (by rw [hf.magic]; exact fun h => h rfl)]
  refine (barring_fdtWord (hf.lies .version) (hf.word _)).bind ?_
  rintro _ rfl
  rw [if_neg (by rw [hf.version]; exact fun h => h rfl)]
  refine (barring_fdtWord (hf.lies .offMemRsvmap) (hf.word _)).bind ?_
  rintro _ rfl
  refine (barring_dtRsvLoop hentries [] hrsv (by omega)).bind ?_
  rintro _ rfl
  refine (barring_dtNodeLoad hf.toFdtHeader hnode (j := j) (p := 0) (hat.1.cast (by omega)) (by omega)
    (by omega)).bind ?_
  rintro root ⟨-, hroot⟩
  exact barring_pure ⟨rfl, root.1, rfl, hroot⟩

/-- **Decoding is faithful**: in a run in which every `kalloc` finds memory, `dt_load` succeeds and builds the
tree of the blob. -/
theorem dt_load_faithful {t : DtTree} (hf : IsFdt blob t hdr) {h : KHeap}
    (hmem : dtLoad rounds blob h ≠ .error .noMem) :
    ∃ dt root h', dtLoad rounds blob h = .ok (dt, h') ∧ dt.dtNodeList = [root] ∧
      DevNode.Represents root t := by
  obtain ⟨entries, hentries, hrsv⟩ := hf.rsvmap
  obtain ⟨dt, h', hok, -, root, hroot, hrep⟩ := (barring_dtLoad hf hentries hrsv).eq_ok hmem
  exact ⟨dt, root, h', hok, hroot, hrep⟩

end Nodes

/-! ## A blob -/

/-- The tokens of a node without a name, with one property and a child, whose own property is empty. -/
def sampleNode : List UInt8 :=
  beBytes fdtBeginNode ++ ([0, 0, 0, 0] ++ (nops 1 ++ ((beBytes fdtProp ++ (beBytes 1 ++ (beBytes 0 ++
    ([7, 0, 0, 0] ++ (nops 1 ++ []))))) ++ (((beBytes fdtBeginNode ++ ([98, 0, 0, 0] ++ (nops 0 ++
      ((beBytes fdtProp ++ (beBytes 0 ++ (beBytes 0 ++ ([] ++ (nops 0 ++ []))))) ++
        ([] ++ beBytes fdtEndNode))))) ++ (nops 1 ++ [])) ++ beBytes fdtEndNode))))

/-- The header of the sample. -/
def sampleHdr : FdtField → Nat
  | .magic => dtbFdtMagic
  | .totalsize => 134
  | .offDtStruct => 56
  | .offDtStrings => 132
  | .offMemRsvmap => 40
  | .version => 17
  | .lastCompVersion => 16
  | .bootCpuidPhys => 0
  | .sizeDtStrings => 2
  | .sizeDtStruct => 76

/-- A blob with the node, between `FDT_NOP` tokens. -/
def sampleBlob : List UInt8 :=
  [FdtField.magic, .totalsize, .offDtStruct, .offDtStrings, .offMemRsvmap, .version, .lastCompVersion,
    .bootCpuidPhys, .sizeDtStrings, .sizeDtStruct].flatMap (fun f => beBytes (sampleHdr f)) ++
  List.replicate 16 0 ++ (nops 1 ++ (sampleNode ++ (nops 1 ++ beBytes fdtEnd))) ++ [97, 0]

/-- The tree of the sample. -/
def sampleTree : DtTree :=
  .node ⟨[], by decide⟩ ⟨[(⟨[97], by decide⟩, [7])], by decide⟩
    [.node ⟨[98], by decide⟩ ⟨[(⟨[97], by decide⟩, [])], by decide⟩ []]

theorem isFdt_sample : IsFdt sampleBlob sampleTree sampleHdr where
  lies f := by cases f <;> decide +kernel
  word f := by cases f <;> decide +kernel
  total := by decide +kernel
  behind := by decide
  magic := rfl
  version := rfl
  rsvmap := ⟨[], by simp, by decide +kernel⟩
  structs := by
    have hstrs : StrsOf sampleBlob sampleHdr ⟨[97], by decide⟩ 0 := ⟨by decide, by decide +kernel⟩
    refine ⟨sampleNode, 1, 1, ?_, by decide +kernel, by decide +kernel⟩
    refine FlatNode.node 1 ⟨[0, 0, 0], by decide, rfl, by decide⟩
      (FlatProps.cons 1 hstrs ⟨[0, 0, 0], by decide, rfl, by decide⟩ FlatProps.nil)
      (FlatChildren.cons 1 (FlatNode.node 0 ⟨[0, 0], by decide, rfl, by decide⟩
        (FlatProps.cons 0 hstrs ⟨[], by decide, rfl, by decide⟩ FlatProps.nil) FlatChildren.nil)
        FlatChildren.nil)

theorem dt_load_faithful_sample : ∃ dt root h',
    dtLoad kallocRounds sampleBlob (kallocInit .sample fun _ => 0) = .ok (dt, h') ∧ dt.dtNodeList = [root] ∧
      DevNode.Represents root sampleTree := by
  have hok : (dtLoad kallocRounds sampleBlob (kallocInit .sample fun _ => 0)).isOk = true := by decide +kernel
  refine dt_load_faithful isFdt_sample fun h => ?_
  rw [h] at hok
  exact Bool.false_ne_true hok

end Jrinx
