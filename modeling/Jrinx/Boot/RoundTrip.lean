import Jrinx.Boot.Sysconf

/-! # From the configuration file to the kernel

The encoder writes numbers in full, the decoders read them with `atoi`, which returns an `int`. Apart from
that the two agree, whatever the order of the keys.

* **`Codec`** — a kind of records with their fields, and the laws that relate the two sides.
* **`Codec.decodes_iff`** — the tables that a decoder reads back.
* **`conf_round_trip_iff`** — for the partitions, the schedule and the queuing ports. -/

namespace Jrinx

/-! ## Decoded tables -/

section Decode

variable {ρ : Type} {store : String → String → ρ → Option ρ} {n : ℕ}

/-- The heap serves the copy of the text and the records, and the length of the text is an `int`. -/
def ConfServed (kalloc : Nat → Bool) (size : Nat) (items : List (List (String × ConfVal))) : Prop :=
  (encodeTable items).length < 2 ^ 31 ∧ kalloc ((encodeTable items).length + 1) = true ∧
    kalloc (items.length * size) = true

/-- A decoder walks over the strings of a table, if the heap serves it. -/
theorem confDecode_strings (field : String → List Char → ρ → Except ConfError (ρ × List Char)) (n : ℕ)
    (kalloc : Nat → Bool) (size : ℕ) {items : List (List (String × ConfVal))}
    (h : PlainTable (items.map fieldsOf)) (hne : items ≠ []) (uninit : ℕ → ρ) :
    (ConfServed kalloc size items → confDecode field n size kalloc uninit (encodeTable items) =
        confItems field n uninit 0 items.length (strings ((items.map fieldsOf).flatMap fieldStrings))) ∧
      (¬ ConfServed kalloc size items →
        confDecode field n size kalloc uninit (encodeTable items) = .error .fault) := by
  have hne' : items.map fieldsOf ≠ [] := by simpa using hne
  have hcount := h.count hne'
  rw [List.length_map, ← encodeTable_eq] at hcount
  have hstr : cstr (encodeTable items) = encodeTable items := by
    rw [encodeTable_eq]
    exact cstr_eq_self h.nul_notMem
  rw [← confRaw_tableText h hne', ← encodeTable_eq, confDecode]
  simp only [hstr, hcount]
  exact ⟨fun hserved => if_pos hserved, fun hserved => if_neg hserved⟩

/-- What a decoder of plain fields makes of a table of plain strings. -/
theorem confDecode_encodeTable (store : String → String → ρ → Option ρ) (kalloc : Nat → Bool) (size : ℕ)
    {items : List (List (String × ConfVal))} (h : PlainTable (items.map fieldsOf)) (hne : items ≠ [])
    (hlen : ∀ it ∈ items, it.length = n) (uninit : ℕ → ρ) :
    confDecode (plainField store) n size kalloc uninit (encodeTable items) = .error .fault ∧
        ¬ ConfServed kalloc size items ∨
      confDecode (plainField store) n size kalloc uninit (encodeTable items) =
          (storeItems store uninit 0 (items.map fieldsOf)).elim (.error .argEr) .ok ∧
        ConfServed kalloc size items := by
  obtain ⟨hwalk, hfault⟩ := confDecode_strings (plainField store) n kalloc size h hne uninit
  have hlen' : ∀ it ∈ items.map fieldsOf, it.length = n := by
    intro _ hit
    obtain ⟨it, hmem, rfl⟩ := List.mem_map.mp hit
    rw [fieldsOf, List.length_map, hlen it hmem]
  have hall := confItems_strings store h hlen' uninit 0
  rw [List.length_map] at hall
  by_cases hserved : ConfServed kalloc size items
  · exact Or.inr ⟨(hwalk hserved).trans hall, hserved⟩
  · exact Or.inl ⟨hfault hserved, hserved⟩

section Invariant

variable {field : String → List Char → ρ → Except ConfError (ρ × List Char)} {P : ρ → Prop}

/-- A property of records that every field keeps holds of the decoded ones. -/
theorem of_confItem (hfield : ∀ key value r out, field key value r = .ok out → P r → P out.1)
    {n : ℕ} {r r' : ρ} {buf buf' : List Char} (hr : P r)
    (h : confItem field n r buf = .ok (r', buf')) : P r' := by
  induction n generalizing r buf with
  | zero =>
      simp only [confItem, Except.ok.injEq, Prod.mk.injEq] at h
      exact h.1 ▸ hr
  | succ n ih =>
      rw [confItem] at h
      split at h
      · exact absurd h (by simp)
      dsimp only at h
      split at h
      · exact absurd h (by simp)
      rename_i r₁ value hone
      split at h
      · exact absurd h (by simp)
      · exact ih (hfield _ _ _ _ hone hr) h

theorem of_confItems (hfield : ∀ key value r out, field key value r = .ok out → P r → P out.1)
    {uninit : ℕ → ρ} (huninit : ∀ p, P (uninit p)) {p cnt : ℕ} {buf : List Char} {rs : List ρ}
    (h : confItems field n uninit p cnt buf = .ok rs) : ∀ r ∈ rs, P r := by
  induction cnt generalizing p buf rs with
  | zero =>
      rw [confItems, Except.ok.injEq] at h
      rw [← h]
      exact fun r hr => absurd hr (by simp)
  | succ cnt ih =>
      rw [confItems] at h
      split at h
      · exact absurd h (by simp)
      rename_i r buf' hone
      split at h
      · exact absurd h (by simp)
      rename_i rs' hrest
      rw [← Except.ok.inj h]
      intro r' hr'
      rcases List.mem_cons.mp hr' with rfl | hr'
      · exact of_confItem hfield (huninit p) hone
      · exact ih hrest r' hr'

theorem of_confDecode {kalloc : Nat → Bool} {size : ℕ}
    (hfield : ∀ key value r out, field key value r = .ok out → P r → P out.1)
    {uninit : ℕ → ρ} (huninit : ∀ p, P (uninit p)) {conf : List Char} {rs : List ρ}
    (h : confDecode field n size kalloc uninit conf = .ok rs) : ∀ r ∈ rs, P r := by
  rw [confDecode] at h
  split at h
  · exact of_confItems hfield huninit h
  · exact absurd h (by simp)

/-- A plain field stores a string without a terminator. -/
theorem plainField_keeps (hstore : ∀ key value r r', nul ∉ value.toList → store key value r = some r' →
    P r → P r') (key : String) (value : List Char) (r : ρ) (out : ρ × List Char)
    (h : plainField store key value r = .ok out) (hr : P r) : P out.1 := by
  rw [plainField] at h
  split at h
  · exact absurd h (by simp)
  · rename_i hs
    rw [← Except.ok.inj h]
    exact hstore _ _ _ _ (by simpa using nul_notMem_cstr value) hs hr

end Invariant

/-- When the order of the fields does not matter, an item with its keys in any order is stored like the
one it is a permutation of. -/
theorem storeItem_perm (set : String → String → ρ → ρ) (ok : String → String → Bool)
    {it canon : Fields} (hp : it.Perm canon)
    (hstore : ∀ kv ∈ canon, ∀ r, store kv.1 kv.2 r = if ok kv.1 kv.2 then some (set kv.1 kv.2 r) else none)
    (hcomm : ∀ kv ∈ canon, ∀ kv' ∈ canon, ∀ r,
      set kv'.1 kv'.2 (set kv.1 kv.2 r) = set kv.1 kv.2 (set kv'.1 kv'.2 r)) (r : ρ) :
    storeItem store it r =
      if canon.all fun kv => ok kv.1 kv.2 then some (canon.foldl (fun r kv => set kv.1 kv.2 r) r)
      else none := by
  have hmem : ∀ kv ∈ it, kv ∈ canon := fun kv hkv => hp.mem_iff.mp hkv
  have hall : canon.all (fun kv => ok kv.1 kv.2) = it.all fun kv => ok kv.1 kv.2 := by
    rw [Bool.eq_iff_iff, List.all_eq_true, List.all_eq_true]
    exact ⟨fun h kv hkv => h kv (hmem kv hkv), fun h kv hkv => h kv (hp.mem_iff.mpr hkv)⟩
  have hfold : canon.foldl (fun r kv => set kv.1 kv.2 r) r = it.foldl (fun r kv => set kv.1 kv.2 r) r := by
    exact (hp.foldl_eq' (fun kv hkv kv' hkv' r => hcomm kv (hmem kv hkv) kv' (hmem kv' hkv') r) r).symm
  rw [hall, hfold]
  clear hall hfold hp
  induction it generalizing r with
  | nil => rfl
  | cons kv it ih =>
      rw [storeItem, List.foldlM_cons, hstore kv (hmem kv (by simp)), List.all_cons, List.foldl_cons]
      cases ok kv.1 kv.2 with
      | false => rfl
      | true => exact ih _ fun kv' hkv' => hmem kv' (List.mem_cons_of_mem kv hkv')

end Decode

/-! ## What the encoder writes -/

/-- A name in the configuration. -/
def IsName (s : String) : Prop :=
  s ≠ "" ∧ ∀ c ∈ s.toList, c ≠ ' ' ∧ c ≠ ',' ∧ c ≠ ';' ∧ c ≠ '=' ∧ c ≠ '&'

instance : DecidablePred IsName := fun s =>
  haveI := List.decidableBAll (fun c => c ≠ ' ' ∧ c ≠ ',' ∧ c ≠ ';' ∧ c ≠ '=' ∧ c ≠ '&') s.toList
  inferInstanceAs (Decidable (s ≠ "" ∧ ∀ c ∈ s.toList, c ≠ ' ' ∧ c ≠ ',' ∧ c ≠ ';' ∧ c ≠ '=' ∧ c ≠ '&'))

/-- A number of 64 bits. -/
def IsLong (n : Int) : Prop := -2 ^ 63 ≤ n ∧ n < 2 ^ 63

/-- A number that an `int` holds. -/
def IsInt (n : Int) : Prop := -2 ^ 31 ≤ n ∧ n < 2 ^ 31

theorem bmod_eq_iff {n : Int} : Int.bmod n (2 ^ 32) = n ↔ IsInt n := by
  rw [IsInt, Int.bmod]
  constructor
  · intro h
    split at h <;> omega
  · intro h
    split <;> omega

theorem sizeOfInt_bmod_eq_iff {n : ℕ} (h : (n : Int) < 2 ^ 63) :
    sizeOfInt (Int.bmod n (2 ^ 32)) = n ↔ IsInt n := by
  rw [IsInt, sizeOfInt, Int.bmod]
  split <;> omega

theorem atoi_repr (n : Int) : atoi n.repr = Int.bmod n (2 ^ 32) := by
  rw [← Int.toString_eq_repr, atoi_toString]

theorem IsName.plain {s : String} (h : IsName s) (hnul : nul ∉ s.toList) : Plain s := by
  intro c hc
  obtain ⟨-, hcomma, hsemi, heq, -⟩ := h.2 c hc
  exact ⟨hsemi, hcomma, heq, fun hn => hnul (hn ▸ hc)⟩

theorem IsName.spaceless {s : String} (h : IsName s) : ' ' ∉ s.toList := fun hc => (h.2 _ hc).1 rfl

theorem plain_toString (n : Int) : Plain (toString n) := by
  intro c hc
  have hne : ∀ d : Char, d.isDigit = false → d ≠ '-' → c ≠ d := by
    rintro d hd hm rfl
    rcases of_mem_toString hc with h | h
    · rw [hd] at h
      exact absurd h (by simp)
    · exact hm h
  exact ⟨hne _ (by decide) (by decide), hne _ (by decide) (by decide), hne _ (by decide) (by decide),
    hne _ (by decide) (by decide)⟩

theorem spaceless_toString (n : Int) : ' ' ∉ (toString n).toList := by
  intro hc
  rcases of_mem_toString hc with h | h
  · exact absurd h (by decide)
  · exact absurd h (by decide)

/-- **The values of a record** whose names are given: numbers, these names, and fixed words. -/
inductive Written (names : List String) : ConfVal → Prop
  | int (n : Int) : Written names (.int n)
  | name (s : String) : IsName s → s ∈ names → Written names (.str s)
  | word (s : String) : IsName s → Plain s → Written names (.str s)
  | names (l : List String) : (∀ s ∈ l, IsName s ∧ s ∈ names) → Written names (.strs l)

/-- The characters of joined names. -/
theorem of_mem_strs {l : List String} {c : Char} (h : c ∈ (encodeVal (.strs l)).toList) :
    c = '&' ∨ ∃ s ∈ l, c ∈ s.toList := by
  rw [encodeVal, String.toList_ofList] at h
  rcases mem_intercalate h with h | ⟨_, hw, hc⟩
  · exact Or.inl (by simpa using h)
  · obtain ⟨s, hs, rfl⟩ := List.mem_map.mp hw
    exact Or.inr ⟨s, hs, hc⟩

theorem Written.spaceless {names : List String} {v : ConfVal} (h : Written names v) :
    ' ' ∉ (encodeVal v).toList := by
  cases h with
  | int n => exact spaceless_toString n
  | name s hs _ => exact hs.spaceless
  | word s hs _ => exact hs.spaceless
  | names l hl =>
      intro hc
      rcases of_mem_strs hc with hc | ⟨s, hs, hc⟩
      · exact absurd hc (by decide)
      · exact (hl s hs).1.spaceless hc

theorem Written.plain {names : List String} {v : ConfVal} (h : Written names v)
    (hclean : ∀ s ∈ names, nul ∉ s.toList) : Plain (encodeVal v) := by
  cases h with
  | int n => exact plain_toString n
  | name s hs hmem => exact hs.plain (hclean s hmem)
  | word s _ hs => exact hs
  | names l hl =>
      intro c hc
      rcases of_mem_strs hc with rfl | ⟨s, hs, hc⟩
      · decide
      · exact (hl s hs).1.plain (hclean s (hl s hs).2) c hc

/-! ## Codecs -/

/-- **A kind of records** as the encoder writes it: the keys of its fields, the names in a record, and which
records the configuration may contain. -/
structure Layout (ρ : Type) where
  keys : List String
  item : ρ → List (String × ConfVal)
  names : ρ → List String
  domain : ρ → Prop
  keys_ne_nil : keys ≠ []
  keys_plain : ∀ k ∈ keys, Plain k ∧ ' ' ∉ k.toList
  item_keys : ∀ r, (item r).map Prod.fst = keys
  written : ∀ r, domain r → ∀ kv ∈ item r, Written (names r) kv.2

namespace Layout

variable {ρ : Type} (L : Layout ρ) {items : List (List (String × ConfVal))} {rs : List ρ}

/-- The items of the records, each with its keys in some order. -/
def Items (items : List (List (String × ConfVal))) (rs : List ρ) : Prop :=
  List.Forall₂ (fun it r => it.Perm (L.item r)) items rs

theorem length_item (r : ρ) : (L.item r).length = L.keys.length := by
  rw [← L.item_keys r, List.length_map]

theorem key_mem {r : ρ} {kv : String × ConfVal} (h : kv ∈ L.item r) : kv.1 ∈ L.keys :=
  L.item_keys r ▸ List.mem_map_of_mem h

theorem Items.length {L : Layout ρ} (h : L.Items items rs) : ∀ it ∈ items, it.length = L.keys.length := by
  induction h with
  | nil => exact fun it hit => absurd hit (by simp)
  | @cons it r items rs hone _ ih =>
      intro it' hit'
      rcases List.mem_cons.mp hit' with rfl | hit'
      · rw [hone.length_eq, L.length_item]
      · exact ih it' hit'

theorem Items.exists {L : Layout ρ} (h : L.Items items rs) {it : List (String × ConfVal)} (hit : it ∈ items) :
    ∃ r ∈ rs, it.Perm (L.item r) := by
  induction h with
  | nil => exact absurd hit (by simp)
  | @cons it' r items rs hone _ ih =>
      rcases List.mem_cons.mp hit with rfl | hit
      · exact ⟨r, by simp, hone⟩
      · obtain ⟨r', hr', hp⟩ := ih hit
        exact ⟨r', List.mem_cons_of_mem r hr', hp⟩

theorem Items.ne_nil {L : Layout ρ} (h : L.Items items rs) : ∀ it ∈ items, it ≠ [] := by
  intro it hit hnil
  have hlen := h.length it hit
  rw [hnil] at hlen
  exact absurd (List.length_eq_zero_iff.mp hlen.symm) L.keys_ne_nil

theorem Items.spaceless {L : Layout ρ} (h : L.Items items rs) (hdom : ∀ r ∈ rs, L.domain r) :
    Spaceless items := by
  refine ⟨h.ne_nil, fun it hit kv hkv => ?_⟩
  obtain ⟨r, hr, hp⟩ := h.exists hit
  obtain ⟨kv, hmem, rfl⟩ := List.mem_map.mp hkv
  have hmem := hp.mem_iff.mp hmem
  exact ⟨(L.keys_plain _ (L.key_mem hmem)).2, (L.written r (hdom r hr) _ hmem).spaceless⟩

theorem Items.plainTable {L : Layout ρ} (h : L.Items items rs) (hdom : ∀ r ∈ rs, L.domain r)
    (hclean : ∀ r ∈ rs, ∀ s ∈ L.names r, nul ∉ s.toList) : PlainTable (items.map fieldsOf) := by
  constructor
  · intro _ hit kv hkv
    obtain ⟨it, hmem, rfl⟩ := List.mem_map.mp hit
    obtain ⟨r, hr, hp⟩ := h.exists hmem
    obtain ⟨kv, hmem, rfl⟩ := List.mem_map.mp hkv
    have hmem := hp.mem_iff.mp hmem
    exact ⟨(L.keys_plain _ (L.key_mem hmem)).1, (L.written r (hdom r hr) _ hmem).plain (hclean r hr)⟩
  · intro _ hit
    obtain ⟨it, hmem, rfl⟩ := List.mem_map.mp hit
    simpa [fieldsOf] using h.ne_nil it hmem

end Layout

/-- **A kind of records** with a decoder of plain fields: `proj` is what the decoder's caller uses of a
record, and `small` says which records are read back. -/
structure Codec (ρ : Type) extends Layout ρ where
  store : String → String → ρ → Option ρ
  size : ℕ
  proj : ρ → ρ
  small : ρ → Prop
  blank : ρ
  stored : ∀ r it r₀, domain r → it.Perm (fieldsOf (item r)) →
    ((storeItem store it r₀).map proj = some (proj r) ↔ small r)
  names_proj : ∀ r, names (proj r) = names r
  clean : ∀ key value r r', nul ∉ value.toList → store key value r = some r' →
    (∀ s ∈ names r, nul ∉ s.toList) → ∀ s ∈ names r', nul ∉ s.toList
  clean_blank : ∀ s ∈ names blank, nul ∉ s.toList

theorem fieldsOf_perm {it it' : List (String × ConfVal)} (h : it.Perm it') :
    (fieldsOf it).Perm (fieldsOf it') := h.map _

namespace Codec

variable {ρ : Type} (C : Codec ρ) {items : List (List (String × ConfVal))} {rs : List ρ}

/-- The records are stored as they were, exactly if all of them are small. -/
theorem storeItems_iff (h : C.Items items rs) (hdom : ∀ r ∈ rs, C.domain r) (uninit : ℕ → ρ) (p : ℕ) :
    (storeItems C.store uninit p (items.map fieldsOf)).map (List.map C.proj) = some (rs.map C.proj) ↔
      ∀ r ∈ rs, C.small r := by
  induction h generalizing p with
  | nil => simp [storeItems]
  | @cons it r items rs hone _ ih =>
      have hfirst := C.stored r (fieldsOf it) (uninit p) (hdom r (by simp)) (fieldsOf_perm hone)
      have hrest := ih (fun r' hr' => hdom r' (List.mem_cons_of_mem r hr')) (p + 1)
      rw [List.forall_mem_cons, ← hfirst, ← hrest, List.map_cons, storeItems]
      cases storeItem C.store (fieldsOf it) (uninit p) with
      | none => simp
      | some r' =>
          cases storeItems C.store uninit (p + 1) (items.map fieldsOf) with
          | none => simp
          | some rs' => simp

/-- The decoder of the records. -/
def decode (kalloc : Nat → Bool) (uninit : Nat → ρ) (conf : List Char) : Except ConfError (List ρ) :=
  confDecode (plainField C.store) C.keys.length C.size kalloc uninit conf

/-- **The tables that are read back.** Whatever memory the records are put in, they are those of the table,
exactly if the heap serves the decoder, no name contains a terminator, and all records are small. -/
theorem decodes_iff {kalloc : Nat → Bool} (h : C.Items items rs) (hne : items ≠ [])
    (hdom : ∀ r ∈ rs, C.domain r) :
    (∀ uninit, (C.decode kalloc uninit (encodeTable items)).map (List.map C.proj) = .ok (rs.map C.proj)) ↔
      ConfServed kalloc C.size items ∧ ∀ r ∈ rs, (∀ s ∈ C.names r, nul ∉ s.toList) ∧ C.small r := by
  have hread : (∀ r ∈ rs, ∀ s ∈ C.names r, nul ∉ s.toList) → ∀ uninit,
      ((C.decode kalloc uninit (encodeTable items)).map (List.map C.proj) = .ok (rs.map C.proj) ↔
        ConfServed kalloc C.size items ∧ ∀ r ∈ rs, C.small r) := by
    intro hclean uninit
    rw [← C.storeItems_iff h hdom uninit 0, decode]
    rcases confDecode_encodeTable C.store kalloc C.size
      (h.plainTable hdom hclean) hne h.length uninit with ⟨hdec, hserved⟩ | ⟨hdec, hserved⟩
    · rw [hdec]
      simp [Except.map, hserved]
    · rw [hdec]
      cases storeItems C.store uninit 0 (items.map fieldsOf) <;> simp [Except.map, hserved]
  constructor
  · intro hall
    -- in clean memory no name with a terminator can be found
    have hclean : ∀ r ∈ rs, ∀ s ∈ C.names r, nul ∉ s.toList := by
      have hblank := hall fun _ => C.blank
      cases hdec : C.decode kalloc (fun _ => C.blank) (encodeTable items) with
      | error e => simp [hdec, Except.map] at hblank
      | ok rs' =>
          rw [hdec] at hblank
          have hmap : rs'.map C.proj = rs.map C.proj := Except.ok.inj hblank
          have hrs' := of_confDecode (plainField_keeps C.clean) (fun _ => C.clean_blank) hdec
          intro r hr s hs
          have hmem : C.proj r ∈ rs'.map C.proj := hmap ▸ List.mem_map_of_mem hr
          obtain ⟨r', hr', heq⟩ := List.mem_map.mp hmem
          refine hrs' r' hr' s ?_
          rw [← C.names_proj, heq, C.names_proj]
          exact hs
    obtain ⟨hserved, hsmall⟩ := (hread hclean fun _ => C.blank).mp (hall _)
    exact ⟨hserved, fun r hr => ⟨hclean r hr, hsmall r hr⟩⟩
  · rintro ⟨hserved, hgood⟩ uninit
    exact (hread (fun r hr => (hgood r hr).1) uninit).mpr ⟨hserved, fun r hr => (hgood r hr).2⟩

/-- The tables that survive. -/
def Survives (kalloc : Nat → Bool) (items : List (List (String × ConfVal))) (rs : List ρ) : Prop :=
  (items = [] ∨ ConfServed kalloc C.size items) ∧
    ∀ r ∈ rs, (∀ s ∈ C.names r, nul ∉ s.toList) ∧ C.small r

/-- An option without a table is not there, and its decoder is not called. -/
theorem reads_iff {kalloc : Nat → Bool} (h : C.Items items rs) (hdom : ∀ r ∈ rs, C.domain r) :
    (∀ uninit, ((if items ≠ [] then some (encodeTable items) else none).elim (.ok [])
        (C.decode kalloc uninit)).map (List.map C.proj) = .ok (rs.map C.proj)) ↔
      C.Survives kalloc items rs := by
  by_cases hne : items = []
  · subst hne
    cases h
    simp [Survives, Except.map]
  · simp only [if_pos hne, Option.elim_some, Survives, hne, false_or]
    exact C.decodes_iff h hne hdom

end Codec

/-! ## The three tables -/

/-- The fields of a partition, in the order of the sample configurations. -/
def partItem (pc : PartConf) : List (String × ConfVal) :=
  [("name", .str pc.paName), ("prog", .str pc.paProg), ("memory", .int pc.paMemReq),
    ("period", .int pc.paPeriod), ("duration", .int pc.paDuration)]

/-- A partition of the configuration. -/
structure AdmittedPart (pc : PartConf) : Prop where
  name : IsName pc.paName
  prog : IsName pc.paProg
  memory : 0 < pc.paMemReq ∧ (pc.paMemReq : Int) < 2 ^ 63
  period : IsLong pc.paPeriod
  duration : IsLong pc.paDuration

/-- Store a field of a partition, when it is not refused. -/
def partSet (key value : String) (pc : PartConf) : PartConf :=
  if key = "name" then { pc with paName := value }
  else if key = "prog" then { pc with paProg := value }
  else if key = "memory" then { pc with paMemReq := sizeOfInt (atoi value) }
  else if key = "period" then { pc with paPeriod := atoi value }
  else if key = "duration" then { pc with paDuration := atoi value }
  else pc

section PartSet

variable (value : String) (pc : PartConf)

theorem partSet_name : partSet "name" value pc = { pc with paName := value } := rfl

theorem partSet_prog : partSet "prog" value pc = { pc with paProg := value } := rfl

theorem partSet_memory : partSet "memory" value pc = { pc with paMemReq := sizeOfInt (atoi value) } := rfl

theorem partSet_period : partSet "period" value pc = { pc with paPeriod := atoi value } := rfl

theorem partSet_duration : partSet "duration" value pc = { pc with paDuration := atoi value } := rfl

end PartSet

theorem fieldsOf_partItem (pc : PartConf) : fieldsOf (partItem pc) =
    [("name", pc.paName), ("prog", pc.paProg), ("memory", toString (pc.paMemReq : Int)),
      ("period", toString pc.paPeriod), ("duration", toString pc.paDuration)] := rfl

theorem storeItem_partField (pc : PartConf) (it : Fields) (r : PartConf)
    (h : it.Perm (fieldsOf (partItem pc))) : storeItem partField it r =
      if sizeOfInt (Int.bmod pc.paMemReq (2 ^ 32)) ≠ 0 then
        some { pc with
          paMemReq := sizeOfInt (Int.bmod pc.paMemReq (2 ^ 32))
          paPeriod := Int.bmod pc.paPeriod (2 ^ 32)
          paDuration := Int.bmod pc.paDuration (2 ^ 32) }
      else none := by
  rw [storeItem_perm partSet (fun key value => key ≠ "memory" || sizeOfInt (atoi value) ≠ 0) h]
  · rw [fieldsOf_partItem]
    simp [partSet_name, partSet_prog, partSet_memory, partSet_period, partSet_duration, atoi_repr]
  · intro kv hkv r
    rw [fieldsOf_partItem] at hkv
    simp only [List.mem_cons, List.not_mem_nil, or_false] at hkv
    rcases hkv with rfl | rfl | rfl | rfl | rfl <;> simp [partField, partSet]
  · intro kv hkv kv' hkv' r
    rw [fieldsOf_partItem] at hkv hkv'
    simp only [List.mem_cons, List.not_mem_nil, or_false] at hkv hkv'
    rcases hkv with rfl | rfl | rfl | rfl | rfl <;>
      rcases hkv' with rfl | rfl | rfl | rfl | rfl <;>
      simp only [partSet_name, partSet_prog, partSet_memory, partSet_period, partSet_duration]

theorem PartConf.set_eq_self (pc : PartConf) {mem : ℕ} {period duration : Int} :
    { pc with paMemReq := mem, paPeriod := period, paDuration := duration } = pc ↔
      mem = pc.paMemReq ∧ period = pc.paPeriod ∧ duration = pc.paDuration := by
  cases pc
  simp

/-- Partitions. -/
def partCodec : Codec PartConf where
  keys := ["name", "prog", "memory", "period", "duration"]
  item := partItem
  store := partField
  size := 40
  proj := id
  names pc := [pc.paName, pc.paProg]
  domain := AdmittedPart
  small pc := IsInt pc.paMemReq ∧ IsInt pc.paPeriod ∧ IsInt pc.paDuration
  blank := ⟨"", "", 0, 0, 0⟩
  keys_ne_nil := by simp
  keys_plain := by decide
  item_keys _ := rfl
  written pc hpc kv hkv := by
    simp only [partItem, List.mem_cons, List.not_mem_nil, or_false] at hkv
    rcases hkv with rfl | rfl | rfl | rfl | rfl
    · exact .name _ hpc.name (by simp)
    · exact .name _ hpc.prog (by simp)
    · exact .int _
    · exact .int _
    · exact .int _
  stored pc it r₀ hpc hp := by
    rw [storeItem_partField pc it r₀ hp, Option.map_id, id, id, ← sizeOfInt_bmod_eq_iff hpc.memory.2,
      ← bmod_eq_iff, ← bmod_eq_iff]
    -- a partition that asks for no memory is refused
    have hpos := hpc.memory.1
    constructor
    · intro h
      split at h
      · exact pc.set_eq_self.mp (Option.some.inj h)
      · exact absurd h (by simp)
    · intro h
      rw [if_pos (h.1.symm ▸ hpos.ne'), pc.set_eq_self.mpr h]
  names_proj _ := rfl
  clean key value pc pc' hvalue h hpc := by
    unfold partField at h
    split_ifs at h <;> simp only [Option.some.injEq] at h <;> subst h <;> simp_all
  clean_blank := by simp

/-- The fields of a window. -/
def schedItem (sc : SchedConf) : List (String × ConfVal) :=
  [("part", .str sc.scPaName), ("offset", .int sc.scOffset), ("duration", .int sc.scDuration)]

/-- A window of the configuration. -/
structure AdmittedSched (sc : SchedConf) : Prop where
  part : IsName sc.scPaName
  offset : IsLong sc.scOffset
  duration : IsLong sc.scDuration

/-- Store a field of a window. -/
def schedSet (key value : String) (sc : SchedConf) : SchedConf :=
  if key = "part" then { sc with scPaName := value }
  else if key = "offset" then { sc with scOffset := atoi value }
  else if key = "duration" then { sc with scDuration := atoi value }
  else sc

section SchedSet

variable (value : String) (sc : SchedConf)

theorem schedSet_part : schedSet "part" value sc = { sc with scPaName := value } := rfl

theorem schedSet_offset : schedSet "offset" value sc = { sc with scOffset := atoi value } := rfl

theorem schedSet_duration : schedSet "duration" value sc = { sc with scDuration := atoi value } := rfl

end SchedSet

theorem fieldsOf_schedItem (sc : SchedConf) : fieldsOf (schedItem sc) =
    [("part", sc.scPaName), ("offset", toString sc.scOffset), ("duration", toString sc.scDuration)] := rfl

theorem storeItem_schedField (sc : SchedConf) (it : Fields) (r : SchedConf)
    (h : it.Perm (fieldsOf (schedItem sc))) : storeItem schedField it r =
      some { sc with
        scOffset := Int.bmod sc.scOffset (2 ^ 32)
        scDuration := Int.bmod sc.scDuration (2 ^ 32) } := by
  rw [storeItem_perm schedSet (fun _ _ => true) h]
  · rw [fieldsOf_schedItem]
    simp [schedSet_part, schedSet_offset, schedSet_duration, atoi_repr]
  · intro kv hkv r
    rw [fieldsOf_schedItem] at hkv
    simp only [List.mem_cons, List.not_mem_nil, or_false] at hkv
    rcases hkv with rfl | rfl | rfl <;> simp [schedField, schedSet]
  · intro kv hkv kv' hkv' r
    rw [fieldsOf_schedItem] at hkv hkv'
    simp only [List.mem_cons, List.not_mem_nil, or_false] at hkv hkv'
    rcases hkv with rfl | rfl | rfl <;> rcases hkv' with rfl | rfl | rfl <;>
      simp only [schedSet_part, schedSet_offset, schedSet_duration]

theorem SchedConf.set_eq_self (sc : SchedConf) {offset duration : Int} :
    { sc with scOffset := offset, scDuration := duration } = sc ↔
      offset = sc.scOffset ∧ duration = sc.scDuration := by
  cases sc
  simp

/-- Windows. -/
def schedCodec : Codec SchedConf where
  keys := ["part", "offset", "duration"]
  item := schedItem
  store := schedField
  size := 24
  proj := id
  names sc := [sc.scPaName]
  domain := AdmittedSched
  small sc := IsInt sc.scOffset ∧ IsInt sc.scDuration
  blank := ⟨"", 0, 0⟩
  keys_ne_nil := by simp
  keys_plain := by decide
  item_keys _ := rfl
  written sc hsc kv hkv := by
    simp only [schedItem, List.mem_cons, List.not_mem_nil, or_false] at hkv
    rcases hkv with rfl | rfl | rfl
    · exact .name _ hsc.part (by simp)
    · exact .int _
    · exact .int _
  stored sc it r₀ _ hp := by
    rw [storeItem_schedField sc it r₀ hp, Option.map_id, id, id, Option.some.injEq, sc.set_eq_self,
      bmod_eq_iff, bmod_eq_iff]
  names_proj _ := rfl
  clean key value sc sc' hvalue h hsc := by
    unfold schedField at h
    split_ifs at h <;> simp only [Option.some.injEq] at h <;> subst h <;> simp_all
  clean_blank := by simp

/-- The word for a direction. -/
def dirWord : PortDir → String
  | .source => "src"
  | .destination => "dst"

/-- The fields of a queuing port. -/
def portItem (qpc : QueuingPortConf) : List (String × ConfVal) :=
  [("name", .str qpc.qpcName), ("part", .str qpc.qpcPaName), ("direction", .str (dirWord qpc.qpcDir)),
    ("max-msg-size", .int qpc.qpcMaxMsgSize), ("max-nb-msg", .int qpc.qpcMaxNbMsg)]

/-- A queuing port of the configuration. -/
structure AdmittedPort (qpc : QueuingPortConf) : Prop where
  name : IsName qpc.qpcName
  part : IsName qpc.qpcPaName
  msgSize : (qpc.qpcMaxMsgSize : Int) < 2 ^ 63
  nbMsg : (qpc.qpcMaxNbMsg : Int) < 2 ^ 63

/-- Store a field of a queuing port, when it is not refused. -/
def portSet (key value : String) (qpc : QueuingPortConf) : QueuingPortConf :=
  if key = "name" then { qpc with qpcName := value }
  else if key = "part" then { qpc with qpcPaName := value }
  else if key = "direction" then
    { qpc with qpcDir := if value = "src" then .source else .destination }
  else if key = "max-msg-size" then { qpc with qpcMaxMsgSize := sizeOfInt (atoi value) }
  else if key = "max-nb-msg" then { qpc with qpcMaxNbMsg := sizeOfInt (atoi value) }
  else qpc

section PortSet

variable (value : String) (qpc : QueuingPortConf)

theorem portSet_name : portSet "name" value qpc = { qpc with qpcName := value } := rfl

theorem portSet_part : portSet "part" value qpc = { qpc with qpcPaName := value } := rfl

theorem portSet_direction (d : PortDir) :
    portSet "direction" (dirWord d) qpc = { qpc with qpcDir := d } := by
  cases d <;> rfl

theorem portSet_msgSize :
    portSet "max-msg-size" value qpc = { qpc with qpcMaxMsgSize := sizeOfInt (atoi value) } := rfl

theorem portSet_nbMsg :
    portSet "max-nb-msg" value qpc = { qpc with qpcMaxNbMsg := sizeOfInt (atoi value) } := rfl

end PortSet

theorem fieldsOf_portItem (qpc : QueuingPortConf) : fieldsOf (portItem qpc) =
    [("name", qpc.qpcName), ("part", qpc.qpcPaName), ("direction", dirWord qpc.qpcDir),
      ("max-msg-size", toString (qpc.qpcMaxMsgSize : Int)),
      ("max-nb-msg", toString (qpc.qpcMaxNbMsg : Int))] := rfl

theorem storeItem_portField (qpc : QueuingPortConf) (it : Fields) (r : QueuingPortConf)
    (h : it.Perm (fieldsOf (portItem qpc))) : storeItem portField it r =
      some { qpc with
        qpcMaxMsgSize := sizeOfInt (Int.bmod qpc.qpcMaxMsgSize (2 ^ 32))
        qpcMaxNbMsg := sizeOfInt (Int.bmod qpc.qpcMaxNbMsg (2 ^ 32))
        qpcChannel := r.qpcChannel } := by
  rw [storeItem_perm portSet (fun _ _ => true) h]
  · rw [fieldsOf_portItem]
    simp [portSet_name, portSet_part, portSet_direction, portSet_msgSize, portSet_nbMsg, atoi_repr]
  · intro kv hkv r
    rw [fieldsOf_portItem] at hkv
    simp only [List.mem_cons, List.not_mem_nil, or_false] at hkv
    rcases hkv with rfl | rfl | rfl | rfl | rfl
    · simp [portField, portSet]
    · simp [portField, portSet]
    · cases hdir : qpc.qpcDir <;> simp [portField, portSet, dirWord]
    · simp [portField, portSet]
    · simp [portField, portSet]
  · intro kv hkv kv' hkv' r
    rw [fieldsOf_portItem] at hkv hkv'
    simp only [List.mem_cons, List.not_mem_nil, or_false] at hkv hkv'
    rcases hkv with rfl | rfl | rfl | rfl | rfl <;>
      rcases hkv' with rfl | rfl | rfl | rfl | rfl <;>
      simp only [portSet_name, portSet_part, portSet_direction, portSet_msgSize, portSet_nbMsg]

theorem QueuingPortConf.set_bare_eq (qpc : QueuingPortConf) {size nb : ℕ} {ch : Option ChanId} :
    { qpc with qpcMaxMsgSize := size, qpcMaxNbMsg := nb, qpcChannel := ch }.bare = qpc.bare ↔
      size = qpc.qpcMaxMsgSize ∧ nb = qpc.qpcMaxNbMsg := by
  cases qpc
  simp [QueuingPortConf.bare]

/-- Queuing ports, without the channel that they get later. -/
def portCodec : Codec QueuingPortConf where
  keys := ["name", "part", "direction", "max-msg-size", "max-nb-msg"]
  item := portItem
  store := portField
  size := 64
  proj := QueuingPortConf.bare
  names qpc := [qpc.qpcName, qpc.qpcPaName]
  domain := AdmittedPort
  small qpc := IsInt qpc.qpcMaxMsgSize ∧ IsInt qpc.qpcMaxNbMsg
  blank := ⟨"", "", .source, 0, 0, none⟩
  keys_ne_nil := by simp
  keys_plain := by decide
  item_keys _ := rfl
  written qpc hqpc kv hkv := by
    simp only [portItem, List.mem_cons, List.not_mem_nil, or_false] at hkv
    rcases hkv with rfl | rfl | rfl | rfl | rfl
    · exact .name _ hqpc.name (by simp)
    · exact .name _ hqpc.part (by simp)
    · cases qpc.qpcDir
      · exact .word "src" (by decide) (by decide)
      · exact .word "dst" (by decide) (by decide)
    · exact .int _
    · exact .int _
  stored qpc it r₀ hqpc hp := by
    rw [storeItem_portField qpc it r₀ hp, Option.map_some, Option.some.injEq, qpc.set_bare_eq,
      sizeOfInt_bmod_eq_iff hqpc.msgSize, sizeOfInt_bmod_eq_iff hqpc.nbMsg]
  names_proj _ := rfl
  clean key value qpc qpc' hvalue h hqpc := by
    unfold portField at h
    split_ifs at h <;> simp only [Option.some.injEq] at h <;> subst h <;> simp_all
  clean_blank := by simp

/-! ## The configuration -/

/-- The text of an option, as the kernel finds it in its arguments. -/
def confText (opt : String) (conf : SysConf) : Option (List Char) :=
  argStr opt (argWords (encodeConf conf))

/-- `args_action` calls a decoder for an option that is there. -/
def onArg (arg : Option (List Char)) (f : List Char → σ → Except ConfError σ) (s : σ) : Except ConfError σ :=
  arg.elim (.ok s) fun conf => f conf s

/-- **The kernel recovers the records**: whatever is done with the partitions and the windows is done with
those of the configuration, in their order, and the queuing ports are the registered ones. -/
structure Recovered (kalloc : Nat → Bool) (conf : SysConf) (parts : List PartConf) (scheds : List SchedConf)
    (ports : List QueuingPortConf) : Prop where
  partitions : ∀ (σ : Type) uninit (partCreate : PartConf → σ → Option σ) (s : σ),
    onArg (confText "--pa-conf" conf) (doPartitionsCreate kalloc uninit partCreate) s =
      createAll partCreate parts s
  scheduler : ∀ (σ : Type) uninit (schedModuleAdd : SchedConf → σ → Option σ) (s : σ),
    onArg (confText "--sc-conf" conf) (doSchedCreate kalloc uninit schedModuleAdd) s =
      createAll schedModuleAdd scheds s
  queuingPorts : ∀ uninit (k : Kernel),
    onArg (confText "--qp-conf" conf) (doQueuingPortsRegister kalloc uninit) k =
      .ok (ports.foldl queuingPortRegister k)

theorem createAll_append {ρ : Type} (l rs : List ρ) :
    createAll (fun r l => some (l ++ [r])) rs l = .ok (l ++ rs) := by
  induction rs generalizing l with
  | nil => rw [List.append_nil, createAll]
  | cons r rs ih =>
      rw [createAll]
      dsimp only
      rw [ih, List.append_assoc, List.singleton_append]

/-- Records are the same, if everything that is done with them is the same. -/
theorem forall_createAll_iff {ρ : Type} {dec : (ℕ → ρ) → Except ConfError (List ρ)} {rs : List ρ} :
    (∀ (σ : Type) uninit (create : ρ → σ → Option σ) (s : σ),
        ((dec uninit).bind fun rs' => createAll create rs' s) = createAll create rs s) ↔
      ∀ uninit, dec uninit = .ok rs := by
  constructor
  · intro h uninit
    have hlist := h (List ρ) uninit (fun r l => some (l ++ [r])) []
    rw [createAll_append, List.nil_append] at hlist
    cases hdec : dec uninit with
    | error e =>
        rw [hdec] at hlist
        exact absurd hlist (by simp [Except.bind])
    | ok rs' =>
        rw [hdec] at hlist
        exact (createAll_append [] rs').symm.trans hlist
  · intro h σ uninit create s
    rw [h uninit]
    rfl

/-- Ports are the same up to their channels, if the registered ones are the same. -/
theorem forall_register_iff {dec : (ℕ → QueuingPortConf) → Except ConfError (List QueuingPortConf)}
    {ports : List QueuingPortConf} :
    (∀ uninit (k : Kernel), (dec uninit).map (fun qpcs => qpcs.foldl queuingPortRegister k) =
        .ok (ports.foldl queuingPortRegister k)) ↔
      ∀ uninit, (dec uninit).map (List.map QueuingPortConf.bare) = .ok (ports.map QueuingPortConf.bare) := by
  refine forall_congr' fun uninit => ?_
  cases dec uninit with
  | error e => simpa [Except.map] using ⟨portSystem⟩
  | ok qpcs =>
      simp only [Except.map, Except.ok.injEq, foldl_queuingPortRegister]
      constructor
      · intro h
        have hconfs := congrArg Kernel.portConfs (h portSystem)
        simpa using hconfs
      · intro h k
        rw [h]

theorem except_map_id {ε α : Type} (x : Except ε α) : x.map id = x := by
  cases x <;> rfl

/-- A decoder that is called if its option is there. -/
theorem onArg_createAll {ρ σ : Type} (arg : Option (List Char)) (dec : List Char → Except ConfError (List ρ))
    (create : ρ → σ → Option σ) (s : σ) :
    onArg arg (fun conf s => (dec conf).bind fun rs => createAll create rs s) s =
      (arg.elim (.ok []) dec).bind fun rs => createAll create rs s := by
  cases arg <;> rfl

theorem onArg_register (arg : Option (List Char))
    (dec : List Char → Except ConfError (List QueuingPortConf)) (k : Kernel) :
    onArg arg (fun conf k => (dec conf).map fun qpcs => qpcs.foldl queuingPortRegister k) k =
      (arg.elim (.ok []) dec).map fun qpcs => qpcs.foldl queuingPortRegister k := by
  cases arg <;> rfl

section Conf

variable {kalloc : Nat → Bool} {conf : SysConf} {parts : List PartConf} {scheds : List SchedConf}
  {ports : List QueuingPortConf}

/-- What the kernel finds in its arguments. -/
theorem confText_eq (hp : Spaceless conf.partitions) (hs : Spaceless conf.scheduler)
    (hq : Spaceless conf.queuingPorts) (hc : Spaceless conf.channel) :
    confText "--pa-conf" conf = (if conf.partitions ≠ [] then some (encodeTable conf.partitions) else none) ∧
    confText "--sc-conf" conf = (if conf.scheduler ≠ [] then some (encodeTable conf.scheduler) else none) ∧
    confText "--qp-conf" conf =
      (if conf.queuingPorts ≠ [] then some (encodeTable conf.queuingPorts) else none) ∧
    confText "--ch-conf" conf = (if conf.channel ≠ [] then some (encodeTable conf.channel) else none) := by
  have hlast : ∀ opt, argStr opt (confArg "--ch-conf" conf.channel) =
      if conf.channel ≠ [] ∧ "--ch-conf" = opt then some (encodeTable conf.channel) else none := by
    intro opt
    have h := argStr_confArg opt "--ch-conf" conf.channel []
    rwa [List.append_nil] at h
  have hread : ∀ opt, confText opt conf =
      if conf.partitions ≠ [] ∧ "--pa-conf" = opt then some (encodeTable conf.partitions)
      else if conf.scheduler ≠ [] ∧ "--sc-conf" = opt then some (encodeTable conf.scheduler)
      else if conf.queuingPorts ≠ [] ∧ "--qp-conf" = opt then some (encodeTable conf.queuingPorts)
      else if conf.channel ≠ [] ∧ "--ch-conf" = opt then some (encodeTable conf.channel) else none := by
    intro opt
    rw [confText, argWords_encodeConf hp hs hq hc, confArgs, List.append_assoc, List.append_assoc,
      argStr_confArg, argStr_confArg, argStr_confArg, hlast]
  refine ⟨?_, ?_, ?_, ?_⟩ <;> simp [hread]

section Tables

variable {arg : Option (List Char)}

theorem partitions_recovered_iff (kalloc : Nat → Bool) (hp : partCodec.Items conf.partitions parts)
    (hparts : ∀ pc ∈ parts, AdmittedPart pc)
    (harg : arg = if conf.partitions ≠ [] then some (encodeTable conf.partitions) else none) :
    (∀ (σ : Type) uninit (partCreate : PartConf → σ → Option σ) (s : σ),
        onArg arg (doPartitionsCreate kalloc uninit partCreate) s = createAll partCreate parts s) ↔
      partCodec.Survives kalloc conf.partitions parts := by
  rw [← partCodec.reads_iff hp hparts, ← harg]
  simp only [show partCodec.proj = id from rfl, List.map_id_fun, id_eq, except_map_id]
  rw [← forall_createAll_iff]
  refine forall_congr' fun σ => forall_congr' fun uninit => forall_congr' fun create =>
    forall_congr' fun s => ?_
  exact iff_of_eq (congrArg (· = _) (onArg_createAll arg (partCodec.decode kalloc uninit) create s))

theorem scheduler_recovered_iff (kalloc : Nat → Bool) (hs : schedCodec.Items conf.scheduler scheds)
    (hscheds : ∀ sc ∈ scheds, AdmittedSched sc)
    (harg : arg = if conf.scheduler ≠ [] then some (encodeTable conf.scheduler) else none) :
    (∀ (σ : Type) uninit (schedModuleAdd : SchedConf → σ → Option σ) (s : σ),
        onArg arg (doSchedCreate kalloc uninit schedModuleAdd) s = createAll schedModuleAdd scheds s) ↔
      schedCodec.Survives kalloc conf.scheduler scheds := by
  rw [← schedCodec.reads_iff hs hscheds, ← harg]
  simp only [show schedCodec.proj = id from rfl, List.map_id_fun, id_eq, except_map_id]
  rw [← forall_createAll_iff]
  refine forall_congr' fun σ => forall_congr' fun uninit => forall_congr' fun create =>
    forall_congr' fun s => ?_
  exact iff_of_eq (congrArg (· = _) (onArg_createAll arg (schedCodec.decode kalloc uninit) create s))

theorem queuingPorts_recovered_iff (kalloc : Nat → Bool) (hq : portCodec.Items conf.queuingPorts ports)
    (hports : ∀ qpc ∈ ports, AdmittedPort qpc)
    (harg : arg = if conf.queuingPorts ≠ [] then some (encodeTable conf.queuingPorts) else none) :
    (∀ uninit (k : Kernel), onArg arg (doQueuingPortsRegister kalloc uninit) k =
        .ok (ports.foldl queuingPortRegister k)) ↔
      portCodec.Survives kalloc conf.queuingPorts ports := by
  rw [← portCodec.reads_iff hq hports, ← harg]
  simp only [show portCodec.proj = QueuingPortConf.bare from rfl]
  rw [← forall_register_iff]
  refine forall_congr' fun uninit => forall_congr' fun k => ?_
  exact iff_of_eq (congrArg (· = _) (onArg_register arg (portCodec.decode kalloc uninit) k))

end Tables

/-- **Which configurations survive the trip.** The kernel recovers the partitions, the windows and the queuing
ports, exactly if it can store their tables, their names contain no terminator, and every number fits in
an `int`. -/
theorem conf_round_trip_iff (hp : partCodec.Items conf.partitions parts)
    (hs : schedCodec.Items conf.scheduler scheds) (hq : portCodec.Items conf.queuingPorts ports)
    (hc : Spaceless conf.channel) (hparts : ∀ pc ∈ parts, AdmittedPart pc)
    (hscheds : ∀ sc ∈ scheds, AdmittedSched sc) (hports : ∀ qpc ∈ ports, AdmittedPort qpc) :
    Recovered kalloc conf parts scheds ports ↔
      partCodec.Survives kalloc conf.partitions parts ∧ schedCodec.Survives kalloc conf.scheduler scheds ∧
        portCodec.Survives kalloc conf.queuingPorts ports := by
  obtain ⟨hpa, hsc, hqp, -⟩ := confText_eq (hp.spaceless hparts) (hs.spaceless hscheds)
    (hq.spaceless hports) hc
  have hpart := partitions_recovered_iff kalloc hp hparts hpa
  have hsched := scheduler_recovered_iff kalloc hs hscheds hsc
  have hport := queuingPorts_recovered_iff kalloc hq hports hqp
  constructor
  · rintro ⟨h₁, h₂, h₃⟩
    exact ⟨hpart.mp h₁, hsched.mp h₂, hport.mp h₃⟩
  · rintro ⟨h₁, h₂, h₃⟩
    exact ⟨hpart.mpr h₁, hsched.mpr h₂, hport.mpr h₃⟩

theorem spaceless_nil : Spaceless [] := ⟨by simp, by simp⟩

/-- One partition with a gigabyte of memory, its window, and no ports. -/
def sampleConf (mem : ℕ) : SysConf :=
  { partitions := [partItem ⟨"rover", "drive", mem, 2000000, 1000000⟩]
    scheduler := [schedItem ⟨"rover", 0, 1000000⟩]
    queuingPorts := []
    channel := [] }

theorem conf_round_trip_iff_sample :
    Recovered (fun _ => true) (sampleConf (2 ^ 30)) [⟨"rover", "drive", 2 ^ 30, 2000000, 1000000⟩]
        [⟨"rover", 0, 1000000⟩] [] ↔
      partCodec.Survives (fun _ => true) (sampleConf (2 ^ 30)).partitions
          [⟨"rover", "drive", 2 ^ 30, 2000000, 1000000⟩] ∧
        schedCodec.Survives (fun _ => true) (sampleConf (2 ^ 30)).scheduler [⟨"rover", 0, 1000000⟩] ∧
        portCodec.Survives (fun _ => true) (sampleConf (2 ^ 30)).queuingPorts [] := by
  refine conf_round_trip_iff (.cons (.refl _) .nil) (.cons (.refl _) .nil) .nil spaceless_nil ?_ ?_ (by simp)
  · intro pc hpc
    rw [List.mem_singleton.mp hpc]
    exact ⟨by decide, by decide, by norm_num, by norm_num [IsLong], by norm_num [IsLong]⟩
  · intro sc hsc
    rw [List.mem_singleton.mp hsc]
    exact ⟨by decide, by norm_num [IsLong], by norm_num [IsLong]⟩

/-- Four gigabytes of memory are refused: the number is read as zero. -/
theorem conf_not_recovered : ¬ ∀ (conf : SysConf) (parts : List PartConf) (scheds : List SchedConf)
    (ports : List QueuingPortConf), partCodec.Items conf.partitions parts →
      schedCodec.Items conf.scheduler scheds → portCodec.Items conf.queuingPorts ports →
      conf.channel = [] → (∀ pc ∈ parts, AdmittedPart pc) → (∀ sc ∈ scheds, AdmittedSched sc) →
      (∀ qpc ∈ ports, AdmittedPort qpc) → Recovered (fun _ => true) conf parts scheds ports := by
  intro hall
  have hone : partCodec.Items (sampleConf (2 ^ 32)).partitions
      [⟨"rover", "drive", 2 ^ 32, 2000000, 1000000⟩] := .cons (.refl _) .nil
  have htwo : schedCodec.Items (sampleConf (2 ^ 32)).scheduler [⟨"rover", 0, 1000000⟩] := .cons (.refl _) .nil
  have hdom : ∀ pc ∈ [(⟨"rover", "drive", 2 ^ 32, 2000000, 1000000⟩ : PartConf)], AdmittedPart pc := by
    intro pc hpc
    rw [List.mem_singleton.mp hpc]
    exact ⟨by decide, by decide, by norm_num, by norm_num [IsLong], by norm_num [IsLong]⟩
  have hdom' : ∀ sc ∈ [(⟨"rover", 0, 1000000⟩ : SchedConf)], AdmittedSched sc := by
    intro sc hsc
    rw [List.mem_singleton.mp hsc]
    exact ⟨by decide, by norm_num [IsLong], by norm_num [IsLong]⟩
  have htext := confText_eq (hone.spaceless hdom) (htwo.spaceless hdom')
    spaceless_nil spaceless_nil
  have hread := (hall _ _ _ [] hone htwo .nil rfl hdom hdom' (by simp)).partitions
  obtain ⟨-, hgood⟩ := (partitions_recovered_iff _ hone hdom htext.1).mp hread
  obtain ⟨-, hmem, -⟩ := hgood _ List.mem_cons_self
  exact absurd hmem.2 (by norm_num)

end Conf

end Jrinx
