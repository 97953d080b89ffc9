import Jrinx.Boot.ConfBounds

/-! # Complete records

A decoder counts the fields of a record and takes every separator for the same. So the fields of a record
need not be those of its item: a key may come twice, in place of another one, and a record may end inside of
an item.

* **`ConfTable.decodeNoted`** — the decoders with a note of every field that they store, and of where its
  value is.
* **`Follows`** — two ways to store a field, one of which does what the other does.
* **`tableFills`** — the notes that fit to a table.
* **`ConfTable.Complete`**, **`ConfTable.Regular`** — a text whose records are its items, and the shape of
  such a text.
* **`complete_iff`** — a text that is accepted has complete records exactly when it has this shape. -/

namespace Jrinx

/-! ## Notes -/

/-- A field that a record got. -/
structure Fill where
  key : String
  value : String
  /-- The length of the text from the value on, which says where the value is. -/
  left : Nat
  deriving DecidableEq, Repr

namespace ConfTable

/-- One field, and a note of it behind the earlier ones. -/
def noted (t : ConfTable) (key : String) (value : List Char) (r : t.Record × List Fill) :
    Except ConfError ((t.Record × List Fill) × List Char) :=
  (t.field key value r.1).map fun out =>
    ((out.1, r.2 ++ [⟨key, String.ofList (cstr value), value.length⟩]), out.2)

/-- The records that a decoder fills, each with its notes. -/
def decodeNoted (t : ConfTable) (uninit : Nat → t.Record) (conf : List Char) :
    Except ConfError (List (t.Record × List Fill)) :=
  confDecode t.noted t.keys.length t.size (fun _ => true) (fun p => (uninit p, [])) conf

end ConfTable

/-! ## The notes of a table -/

/-- The text of an item. -/
def itemText (it : Fields) : List Char := [','].intercalate (it.map fieldText)

/-- The notes of an item with a text behind it. -/
def fieldFills (after : Nat) : Fields → List Fill
  | [] => []
  | kv :: it => ⟨kv.1, kv.2, (strings (kv.2.toList :: fieldStrings it)).length + after⟩ :: fieldFills after it

/-- The notes of a table, item by item. -/
def tableFills : List Fields → List (List Fill)
  | [] => []
  | it :: items => fieldFills (strings (items.flatMap fieldStrings)).length it :: tableFills items

/-- The key of a part: what is in front of its first equals sign. -/
def partKey (part : List Char) : List Char := part.takeWhile (· ≠ '=')

namespace ConfTable

/-- **The records are the items.** The text splits at its semicolons into items of key and value pairs;
every record got the pairs of its own item, each of them from its place in the text; and these are all its
fields, once each. -/
def Complete (t : ConfTable) (conf : CString) (rs : List (t.Record × List Fill)) : Prop :=
  ∃ items : List Fields, PlainTable items ∧ conf.val.splitOn ';' = items.map itemText ∧
    rs.map Prod.snd = tableFills items ∧ ∀ it ∈ items, (it.map Prod.fst).Perm t.keys

/-- **The shape of a text** with complete records. -/
structure Regular (t : ConfTable) (conf : CString) : Prop where
  /-- Every item has as many parts as a record has fields. -/
  parts : ∀ item ∈ conf.val.splitOn ';', (item.splitOn ',').length = t.keys.length
  /-- Every part has one equals sign. -/
  pairs : ∀ item ∈ conf.val.splitOn ';', ∀ part ∈ item.splitOn ',', part.count '=' = 1
  /-- The keys of an item are different. -/
  keys : ∀ item ∈ conf.val.splitOn ';', ((item.splitOn ',').map partKey).Nodup
  /-- Only at the end of the text does a list of ports have several names. -/
  ports : t = channel → ∀ part ∈ ((conf.val.splitOn ';').flatMap (·.splitOn ',')).dropLast,
    "ports=".toList <+: part → '&' ∉ part

end ConfTable

/-! ## Parts -/

theorem partKey_append {key : List Char} (h : '=' ∉ key) (rest : List Char) :
    partKey (key ++ '=' :: rest) = key := by
  have hne : ∀ c ∈ key, decide (c ≠ '=') = true := fun c hc => decide_eq_true fun heq => h (heq ▸ hc)
  rw [partKey, List.takeWhile_append_of_pos hne, List.takeWhile_cons_of_neg (by simp), List.append_nil]

theorem Plain.partKey_fieldText {kv : String × String} (h : Plain kv.1) :
    partKey (fieldText kv) = kv.1.toList :=
  partKey_append (fun hmem => (h '=' hmem).2.2.1 rfl) _

/-- The key and the value of a part. -/
def partPair (part : List Char) : String × String :=
  (String.ofList (partKey part), String.ofList (part.drop ((partKey part).length + 1)))

/-- A part with one equals sign is a key and a value. -/
theorem exists_pair {part : List Char} (h : part.count '=' = 1) :
    ∃ key value, part = key ++ '=' :: value ∧ '=' ∉ key ∧ '=' ∉ value := by
  have hmem : '=' ∈ part := List.count_pos_iff.mp (by omega)
  obtain ⟨key, value, rfl, hkey⟩ := List.eq_append_cons_of_mem hmem
  rw [List.count_append, List.count_eq_zero.mpr hkey, List.count_cons_self] at h
  exact ⟨key, value, rfl, hkey, List.count_eq_zero.mp (by omega)⟩

theorem partPair_append {key : List Char} (h : '=' ∉ key) (value : List Char) :
    partPair (key ++ '=' :: value) = (String.ofList key, String.ofList value) := by
  have hdrop : (key ++ '=' :: value).drop (key.length + 1) = value := by
    rw [← List.drop_drop, List.drop_left, List.drop_one, List.tail_cons]
  rw [partPair, partKey_append h, hdrop]

/-- A part with one equals sign and no other separator is the text of a field. -/
theorem plain_partPair {part : List Char} (h : part.count '=' = 1)
    (hplain : ∀ c ∈ part, c ≠ ';' ∧ c ≠ ',' ∧ c ≠ nul) :
    fieldText (partPair part) = part ∧ Plain (partPair part).1 ∧ Plain (partPair part).2 := by
  obtain ⟨key, value, rfl, hkey, hvalue⟩ := exists_pair h
  rw [partPair_append hkey]
  refine ⟨by rw [fieldText, String.toList_ofList, String.toList_ofList], fun c hc => ?_, fun c hc => ?_⟩
  · rw [String.toList_ofList] at hc
    obtain ⟨hsemi, hcomma, hnul⟩ := hplain c (List.mem_append_left _ hc)
    exact ⟨hsemi, hcomma, fun heq => hkey (heq ▸ hc), hnul⟩
  · rw [String.toList_ofList] at hc
    obtain ⟨hsemi, hcomma, hnul⟩ := hplain c (List.mem_append_right _ (List.mem_cons_of_mem '=' hc))
    exact ⟨hsemi, hcomma, fun heq => hvalue (heq ▸ hc), hnul⟩

theorem count_fieldText {kv : String × String} (hk : Plain kv.1) (hv : Plain kv.2) :
    (fieldText kv).count '=' = 1 := by
  have hk' : kv.1.toList.count '=' = 0 := List.count_eq_zero.mpr fun hmem => (hk '=' hmem).2.2.1 rfl
  have hv' : kv.2.toList.count '=' = 0 := List.count_eq_zero.mpr fun hmem => (hv '=' hmem).2.2.1 rfl
  rw [fieldText, List.count_append, List.count_cons_self, hk', hv']

/-- The commas of an item separate its fields. -/
theorem PlainTable.splitOn_itemText {items : List Fields} (h : PlainTable items) {it : Fields}
    (hit : it ∈ items) : (itemText it).splitOn ',' = it.map fieldText := by
  refine List.splitOn_intercalate ',' (fun part hpart hmem => ?_) (by simpa using h.fields it hit)
  obtain ⟨kv, hkv, rfl⟩ := List.mem_map.mp hpart
  obtain ⟨hk, hv⟩ := h.plain it hit kv hkv
  rcases List.mem_append.mp hmem with hmem | hmem
  · exact (hk ',' hmem).2.1 rfl
  · rcases List.mem_cons.mp hmem with heq | hmem
    · exact absurd heq (by decide)
    · exact (hv ',' hmem).2.1 rfl

/-! ## The notes of a table as one list -/

theorem fieldStrings_append (it it' : Fields) :
    fieldStrings (it ++ it') = fieldStrings it ++ fieldStrings it' :=
  List.flatMap_append

theorem fieldFills_append (after : Nat) (it it' : Fields) : fieldFills after (it ++ it') =
    fieldFills ((strings (fieldStrings it')).length + after) it ++ fieldFills after it' := by
  induction it with
  | nil => rfl
  | cons kv it ih =>
      have hleft : (strings (kv.2.toList :: fieldStrings (it ++ it'))).length + after =
          (strings (kv.2.toList :: fieldStrings it)).length +
            ((strings (fieldStrings it')).length + after) := by
        rw [fieldStrings_append, ← List.cons_append, strings_append, List.length_append, Nat.add_assoc]
      rw [List.cons_append, fieldFills, ih, fieldFills, hleft, List.cons_append]

theorem fieldStrings_flatten (items : List Fields) :
    fieldStrings items.flatten = items.flatMap fieldStrings := by
  induction items with
  | nil => rfl
  | cons it items ih => rw [List.flatten_cons, fieldStrings_append, ih, List.flatMap_cons]

theorem flatten_tableFills (items : List Fields) :
    (tableFills items).flatten = fieldFills 0 items.flatten := by
  induction items with
  | nil => rfl
  | cons it items ih =>
      rw [tableFills, List.flatten_cons, ih, List.flatten_cons, fieldFills_append, fieldStrings_flatten,
        Nat.add_zero]

theorem length_fieldFills (after : Nat) (it : Fields) : (fieldFills after it).length = it.length := by
  induction it with
  | nil => rfl
  | cons kv it ih => rw [fieldFills, List.length_cons, ih, List.length_cons]

theorem map_length_tableFills (items : List Fields) :
    (tableFills items).map List.length = items.map List.length := by
  induction items with
  | nil => rfl
  | cons it items ih => rw [tableFills, List.map_cons, ih, length_fieldFills, List.map_cons]

theorem map_key_fieldFills (after : Nat) (it : Fields) :
    (fieldFills after it).map Fill.key = it.map Prod.fst := by
  induction it with
  | nil => rfl
  | cons kv it ih => rw [fieldFills, List.map_cons, ih, List.map_cons]

/-! ## The notes and the records -/

section Walk

variable {ρ σ : Type} {field : String → List Char → ρ → Except ConfError (ρ × List Char)}
  {field' : String → List Char → σ → Except ConfError (σ × List Char)}

/-- **A simulation**: the second way to store a field succeeds whenever the first one does, with the same
text and a related record. -/
def Follows (field : String → List Char → ρ → Except ConfError (ρ × List Char))
    (field' : String → List Char → σ → Except ConfError (σ × List Char)) (rel : ρ → σ → Prop) : Prop :=
  ∀ key value r s out, rel r s → field key value r = .ok out →
    ∃ s', field' key value s = .ok (s', out.2) ∧ rel out.1 s'

variable {rel : ρ → σ → Prop}

theorem Follows.confItem (h : Follows field field' rel) (n : Nat) {r : ρ} {s : σ} {buf : List Char}
    {out : ρ × List Char} (hrel : rel r s) (hok : confItem field n r buf = .ok out) :
    ∃ s', Jrinx.confItem field' n s buf = .ok (s', out.2) ∧ rel out.1 s' := by
  induction n generalizing r s buf with
  | zero =>
      cases hok
      exact ⟨s, rfl, hrel⟩
  | succ n ih =>
      rw [Jrinx.confItem] at hok ⊢
      split_ifs at hok ⊢
      cases hone : field (String.ofList (cstr buf)) (buf.drop ((cstr buf).length + 1)) r with
      | error e =>
          simp only [hone] at hok
          cases hok
      | ok one =>
          obtain ⟨s₁, hone', hrel₁⟩ := h _ _ _ _ _ hrel hone
          simp only [hone, hone'] at hok ⊢
          cases hskip : (skipStr (buf.take ((cstr buf).length + 1) ++ one.2)).bind skipStr with
          | none =>
              rw [hskip] at hok
              cases hok
          | some rest =>
              simp only [hskip] at hok ⊢
              exact ih hrel₁ hok

theorem Follows.confItems (h : Follows field field' rel) (n cnt : Nat) {uninit : Nat → ρ} {uninit' : Nat → σ}
    (huninit : ∀ p, rel (uninit p) (uninit' p)) {p : Nat} {buf : List Char} {rs : List ρ}
    (hok : confItems field n uninit p cnt buf = .ok rs) :
    ∃ ss, Jrinx.confItems field' n uninit' p cnt buf = .ok ss ∧ List.Forall₂ rel rs ss := by
  induction cnt generalizing p buf rs with
  | zero =>
      cases hok
      exact ⟨[], rfl, .nil⟩
  | succ cnt ih =>
      rw [Jrinx.confItems] at hok ⊢
      cases hone : Jrinx.confItem field n (uninit p) buf with
      | error e =>
          rw [hone] at hok
          cases hok
      | ok one =>
          obtain ⟨s₁, hone', hrel⟩ := h.confItem n (huninit p) hone
          simp only [hone, hone'] at hok ⊢
          cases hrest : Jrinx.confItems field n uninit (p + 1) cnt one.2 with
          | error e =>
              rw [hrest] at hok
              cases hok
          | ok rest =>
              obtain ⟨ss, hrest', hall⟩ := ih hrest
              rw [hrest] at hok
              cases hok
              exact ⟨s₁ :: ss, by rw [hrest'], .cons hrel hall⟩

/-- **A decoder past its loop**, with any heap: one that follows it gets past its loop with the same text. -/
theorem Follows.confDecode (h : Follows field field' rel) {n size : Nat} {kalloc : Nat → Bool}
    {uninit : Nat → ρ} (uninit' : Nat → σ) (huninit : ∀ p, rel (uninit p) (uninit' p)) {conf : List Char}
    {rs : List ρ} (hok : confDecode field n size kalloc uninit conf = .ok rs) :
    ∃ ss, Jrinx.confDecode field' n size (fun _ => true) uninit' conf = .ok ss ∧ List.Forall₂ rel rs ss := by
  rw [Jrinx.confDecode] at hok ⊢
  split_ifs at hok with hserved
  rw [if_pos ⟨hserved.1, rfl, rfl⟩]
  exact h.confItems n _ huninit hok

end Walk

namespace ConfTable

variable {t : ConfTable} {ws ws' : List (List Char)} {fs : List Fill}

/-- **The notes change nothing**: a decoder gets past its loop with them exactly when it does without. -/
theorem decode_iff_noted {uninit : Nat → t.Record} {conf : List Char} {rs : List t.Record} :
    t.decode uninit conf = .ok rs ↔ ∃ rs', t.decodeNoted uninit conf = .ok rs' ∧ rs'.map Prod.fst = rs := by
  constructor
  · intro h
    have hfollows : Follows t.field t.noted fun r r' => r = r'.1 := by
      rintro key value r r' out rfl hone
      exact ⟨_, by rw [noted, hone]; rfl, rfl⟩
    obtain ⟨rs', hrs', hall⟩ := hfollows.confDecode (fun p => (uninit p, [])) (fun _ => rfl) h
    rw [← List.forall₂_map_right_iff, List.forall₂_eq_eq_eq] at hall
    exact ⟨rs', hrs', hall.symm⟩
  · rintro ⟨rs', h, rfl⟩
    have hfollows : Follows t.noted t.field fun r r' => r.1 = r' := by
      rintro key value r r' out rfl hone
      cases hfield : t.field key value r.1 with
      | error e =>
          rw [noted, hfield] at hone
          cases hone
      | ok out' =>
          rw [noted, hfield] at hone
          cases hone
          exact ⟨out'.1, rfl, rfl⟩
    obtain ⟨rs, hrs, hall⟩ := hfollows.confDecode uninit (fun _ => rfl) h
    rw [← List.forall₂_map_left_iff, List.forall₂_eq_eq_eq] at hall
    rw [hall]
    exact hrs

/-- The decoders of the source up to their records, with the heap that they have. -/
def passed (t : ConfTable) (kalloc : Nat → Bool) (uninit : Nat → t.Record) (conf : List Char) :
    Except ConfError (List t.Record) :=
  match t with
  | partitions => confDecode (plainField partField) 5 40 kalloc uninit conf
  | sched => confDecode (plainField schedField) 3 24 kalloc uninit conf
  | queuingPorts => confDecode (plainField portField) 5 64 kalloc uninit conf
  | channel => confDecode (chanField kalloc) 3 16 kalloc uninit conf

/-- A list of ports that is stored was given its block. -/
theorem chanField_served {kalloc : Nat → Bool} {key : String} {value : List Char} {cc : ChannelConf}
    {out : ChannelConf × List Char} (h : chanField kalloc key value cc = .ok out) :
    channel.field key value cc = .ok out := by
  rw [chanField] at h
  rw [field, chanField]
  dsimp only at h ⊢
  rw [if_pos rfl]
  split_ifs at h ⊢
  · exact h
  · exact h
  · exact h
  · exact h

/-- **Past their loops**, the decoders have these records, whatever heap they have. -/
theorem decode_of_passed {kalloc : Nat → Bool} {uninit : Nat → t.Record} {conf : List Char}
    {rs : List t.Record} (h : t.passed kalloc uninit conf = .ok rs) : t.decode uninit conf = .ok rs := by
  have hsame : ∀ {f g : String → List Char → t.Record → Except ConfError (t.Record × List Char)},
      (∀ key value r out, f key value r = .ok out → g key value r = .ok out) → Follows f g Eq := by
    rintro f g hfg key value r _ out rfl hone
    exact ⟨out.1, hfg key value r out hone, rfl⟩
  have hfollows : ∃ ss, t.decode uninit conf = .ok ss ∧ List.Forall₂ Eq rs ss := by
    cases t with
    | partitions => exact (hsame fun _ _ _ _ hone => hone).confDecode _ (fun _ => rfl) h
    | sched => exact (hsame fun _ _ _ _ hone => hone).confDecode _ (fun _ => rfl) h
    | queuingPorts => exact (hsame fun _ _ _ _ hone => hone).confDecode _ (fun _ => rfl) h
    | channel => exact (hsame fun _ _ _ _ hone => chanField_served hone).confDecode _ (fun _ => rfl) h
  obtain ⟨ss, hss, hall⟩ := hfollows
  rw [List.forall₂_eq_eq_eq] at hall
  rw [hss, hall]

/-! ## The walk with notes -/

/-- **The fields on a walk**, from the strings in front of it to the strings that it leaves. -/
inductive Walks (t : ConfTable) : List (List Char) → List Fill → List (List Char) → Prop where
  | done (ws : List (List Char)) : Walks t ws [] ws
  | field {key value : List Char} {rest ws' : List (List Char)} {fs : List Fill} (h : t.Accepts key value)
      (hrest : Walks t (t.more key value ++ rest) fs ws') : Walks t (key :: value :: rest)
        (⟨String.ofList key, String.ofList value, (strings (value :: rest)).length⟩ :: fs) ws'

theorem Walks.append {ws'' : List (List Char)} {fs' : List Fill} (h : t.Walks ws fs ws')
    (h' : t.Walks ws' fs' ws'') : t.Walks ws (fs ++ fs') ws'' := by
  induction h with
  | done ws => exact h'
  | field haccepts _ ih => exact .field haccepts (ih h')

theorem Walks.known (h : t.Walks ws fs ws') : ∀ f ∈ fs, f.key ∈ t.keys := by
  induction h with
  | done ws => exact fun f hf => absurd hf List.not_mem_nil
  | field haccepts _ ih =>
      intro f hf
      rcases List.mem_cons.mp hf with rfl | hf
      · exact haccepts.1
      · exact ih f hf

/-- The text behind the first note of a walk. -/
theorem Walks.head {f : Fill} (h : t.Walks ws (f :: fs) ws') : f.left = (strings ws.tail).length := by
  cases h with
  | field _ _ => rfl

theorem Walks.tail {f : Fill} {key value : List Char} {rest : List (List Char)}
    (h : t.Walks (key :: value :: rest) (f :: fs) ws') : t.Walks (t.more key value ++ rest) fs ws' := by
  cases h with
  | field _ hrest => exact hrest

/-- Nothing is in front of a walk that goes on behind the end of the text. -/
theorem field_nil {key : String} {r : t.Record} {out : t.Record × List Char}
    (h : t.field key [] r = .ok out) : out.2 = [] := by
  cases t with
  | partitions =>
      cases hstore : partField key (String.ofList (cstr [])) r <;> simp [field, plainField, hstore] at h
      rw [← h]
  | sched =>
      cases hstore : schedField key (String.ofList (cstr [])) r <;> simp [field, plainField, hstore] at h
      rw [← h]
  | queuingPorts =>
      cases hstore : portField key (String.ofList (cstr [])) r <;> simp [field, plainField, hstore] at h
      rw [← h]
  | channel =>
      rw [field, chanField] at h
      -- the end of the text is neither a medium nor a type, and no list of ports to be cut
      split_ifs at h <;> cases h <;> rfl

/-- A key that ends the text is never passed. -/
theorem confItem_noted_last (n : Nat) {key : List Char} (hkey : nul ∉ key) (r : t.Record × List Fill)
    (out : (t.Record × List Fill) × List Char) : confItem t.noted (n + 1) r (key ++ nul :: []) ≠ .ok out := by
  intro h
  rw [confItem, if_neg (by simp)] at h
  simp only [cstr_append hkey, drop_append, take_append, noted] at h
  cases hfield : t.field (String.ofList key) [] r.1 with
  | error e =>
      rw [hfield] at h
      cases h
  | ok out' =>
      -- both scans have only one terminator
      have hskip : skipStr (key ++ [nul]) = some [] := skipStr_append hkey []
      rw [hfield] at h
      simp only [Except.map, field_nil hfield, List.append_nil, hskip] at h
      cases h

/-- One field is stored and noted. -/
theorem noted_ok {key : String} {v value : List Char} {r : t.Record × List Fill} {r' : t.Record}
    {value' : List Char} (hv : nul ∉ v) (h : t.field key (v ++ nul :: value) r.1 = .ok (r', value')) :
    t.noted key (v ++ nul :: value) r =
      .ok ((r', r.2 ++ [⟨key, String.ofList v, (v ++ nul :: value).length⟩]), value') := by
  rw [noted, h, cstr_append hv]
  rfl

theorem noted_error {key : String} {value : List Char} {r : t.Record × List Fill} {e : ConfError}
    (h : t.field key value r.1 = .error e) : t.noted key value r = .error e := by
  rw [noted, h]
  rfl

/-- **The inner loop** notes as many fields as it stores, and it goes on where they end. The induction is on
the fields. -/
theorem confItem_noted (n : Nat) (hws : ∀ w ∈ ws, nul ∉ w) {r : t.Record × List Fill}
    {out : (t.Record × List Fill) × List Char} (h : confItem t.noted n r (strings ws) = .ok out) :
    ∃ fs ws', out.1.2 = r.2 ++ fs ∧ fs.length = n ∧ t.Walks ws fs ws' ∧ out.2 = strings ws' ∧
      ∀ w ∈ ws', nul ∉ w := by
  induction n generalizing ws r with
  | zero =>
      cases h
      exact ⟨[], ws, (List.append_nil _).symm, rfl, .done ws, rfl, hws⟩
  | succ n ih =>
      cases ws with
      | nil => cases h
      | cons key ws =>
          obtain ⟨hkey, hws⟩ := List.forall_mem_cons.mp hws
          have hkey' : nul ∉ (String.ofList key).toList := by rwa [String.toList_ofList]
          cases ws with
          | nil =>
              rw [strings_cons, strings_nil] at h
              exact absurd h (confItem_noted_last n hkey r out)
          | cons v rest =>
              obtain ⟨hv, hrest⟩ := List.forall_mem_cons.mp hws
              have hbuf : strings (key :: v :: rest) =
                  (String.ofList key).toList ++ nul :: (v ++ nul :: strings rest) := by
                rw [String.toList_ofList, strings_cons, strings_cons]
              rw [hbuf] at h
              -- a field that is not taken ends the walk
              have haccepts : t.Accepts key v := by
                by_contra hnot
                have hrefused :
                    t.field (String.ofList key) (v ++ nul :: strings rest) r.1 = .error .argEr := by
                  by_cases hknown : String.ofList key ∈ t.keys
                  · exact field_rejects hv (by simpa using fun hvalue => hnot ⟨hknown, hvalue⟩) _ _
                  · exact field_unknown hknown _ _
                rw [confItem_error hkey' (noted_error hrefused)] at h
                cases h
              obtain ⟨r', v', hv', hfield⟩ := field_accepts hv haccepts (strings rest) r.1
              rw [confItem_ok hkey' hv' (noted_ok hv hfield), ← strings_append] at h
              have hws' : ∀ w ∈ t.more key v ++ rest, nul ∉ w := by
                intro w hw
                rcases List.mem_append.mp hw with hw | hw
                · exact nul_notMem_more hv w hw
                · exact hrest w hw
              obtain ⟨fs, ws', hlog, hlen, hwalk, hout, hnul⟩ := ih hws' h
              refine ⟨_ :: fs, ws', ?_, congrArg (· + 1) hlen, .field haccepts hwalk, hout, hnul⟩
              rw [hlog, List.append_assoc, strings_cons]
              rfl

/-- **The outer loop** notes all fields of its records. -/
theorem confItems_noted (cnt : Nat) (hws : ∀ w ∈ ws, nul ∉ w) {uninit : Nat → t.Record} {p : Nat}
    {rs : List (t.Record × List Fill)}
    (h : confItems t.noted t.keys.length (fun p => (uninit p, [])) p cnt (strings ws) = .ok rs) :
    rs.length = cnt ∧ (∀ r ∈ rs, r.2.length = t.keys.length) ∧
      ∃ ws', t.Walks ws (rs.map Prod.snd).flatten ws' := by
  induction cnt generalizing ws p rs with
  | zero =>
      cases h
      exact ⟨rfl, fun r hr => absurd hr List.not_mem_nil, ws, .done ws⟩
  | succ cnt ih =>
      rw [confItems] at h
      cases hone : confItem t.noted t.keys.length (uninit p, []) (strings ws) with
      -- an item that fails ends the loop
      | error e =>
          rw [hone] at h
          cases h
      | ok out =>
          obtain ⟨fs, ws', hlog, hlen, hwalk, hout, hws'⟩ := confItem_noted _ hws hone
          simp only [hone, hout] at h
          cases hrest :
              confItems t.noted t.keys.length (fun p => (uninit p, [])) (p + 1) cnt (strings ws') with
          | error e =>
              rw [hrest] at h
              cases h
          | ok rs' =>
              rw [hrest] at h
              cases h
              obtain ⟨hcount, hall, ws'', hwalk'⟩ := ih hws' hrest
              rw [List.nil_append] at hlog
              refine ⟨congrArg (· + 1) hcount, fun r hr => ?_, ws'', ?_⟩
              · rcases List.mem_cons.mp hr with rfl | hr
                · rw [hlog, hlen]
                · exact hall r hr
              · rw [List.map_cons, List.flatten_cons, hlog]
                exact hwalk.append hwalk'

/-! ## The walk over a table -/

/-- A walk that is not led into a list of ports notes the pairs in front of it. -/
theorem Walks.eq_fieldFills {ps : Fields} (h : t.Walks (fieldStrings ps) fs ws')
    (hlen : fs.length = ps.length)
    (hmore : ∀ kv ∈ ps.dropLast, t.more kv.1.toList kv.2.toList = []) : fs = fieldFills 0 ps := by
  induction ps generalizing fs with
  | nil => exact List.length_eq_zero_iff.mp hlen
  | cons kv ps ih =>
      cases h with
      | done _ => exact absurd hlen (by simp)
      | field haccepts hrest =>
          rename_i fs
          rw [fieldFills, String.ofList_toList, String.ofList_toList]
          refine congrArg _ ?_
          cases ps with
          | nil =>
              exact List.length_eq_zero_iff.mp (by simpa using hlen)
          | cons kv' ps =>
              rw [List.dropLast_cons_cons] at hmore
              obtain ⟨hone, hmore⟩ := List.forall_mem_cons.mp hmore
              rw [hone] at hrest
              exact ih hrest (by simpa using hlen) hmore

/-- A walk that notes the pairs in front of it is not led into a list of ports: it would note a value that
has more text behind it. -/
theorem Walks.more_eq_nil {ps : Fields} (h : t.Walks (fieldStrings ps) (fieldFills 0 ps) ws') :
    ∀ kv ∈ ps.dropLast, t.more kv.1.toList kv.2.toList = [] := by
  induction ps with
  | nil => exact fun kv hkv => absurd hkv List.not_mem_nil
  | cons kv ps ih =>
      cases ps with
      | nil => exact fun kv hkv => absurd hkv List.not_mem_nil
      | cons kv' ps =>
          have hrest : t.Walks (t.more kv.1.toList kv.2.toList ++ fieldStrings (kv' :: ps))
              (fieldFills 0 (kv' :: ps)) ws' := h.tail
          -- the next value would be noted with the names that are left in front of it
          have hone : t.more kv.1.toList kv.2.toList = [] := by
            by_contra hne
            obtain ⟨w, ws, hmore⟩ := List.exists_cons_of_ne_nil hne
            have hleft : (strings (kv'.2.toList :: fieldStrings ps)).length + 0 =
                (strings (t.more kv.1.toList kv.2.toList ++ fieldStrings (kv' :: ps)).tail).length :=
              hrest.head
            have htail : (t.more kv.1.toList kv.2.toList ++ fieldStrings (kv' :: ps)).tail =
                (ws ++ [kv'.1.toList]) ++ kv'.2.toList :: fieldStrings ps := by
              rw [hmore]
              simp [fieldStrings]
            have hpos : 0 < (strings (ws ++ [kv'.1.toList])).length := by
              rw [strings_append, List.length_append]
              simp
            rw [htail, strings_append, List.length_append] at hleft
            omega
          rw [List.dropLast_cons_cons]
          rw [hone] at hrest
          exact List.forall_mem_cons.mpr ⟨hone, ih hrest⟩

theorem more_eq_nil_iff {key value : List Char} :
    t.more key value = [] ↔ (t = channel → String.ofList key = "ports" → '&' ∉ value) := by
  rw [more]
  split
  next h =>
    obtain ⟨w, ws, hsplit⟩ := List.exists_cons_of_ne_nil (List.splitOn_ne_nil '&' value)
    constructor
    · intro htail _ _ hmem
      -- the only name is the whole list
      have hone : value.splitOn '&' = [w] := by rw [hsplit, List.tail_cons] at htail; rw [hsplit, htail]
      have hjoin : ['&'].intercalate (value.splitOn '&') = value := List.intercalate_splitOn '&'
      rw [hone, List.intercalate_singleton] at hjoin
      exact notMem_of_mem_splitOn (hsplit ▸ List.mem_cons_self) (hjoin.symm ▸ hmem)
    · intro hall
      have hone : (['&'].intercalate [value]).splitOn '&' = [value] :=
        List.splitOn_intercalate '&' (by simpa using hall h.1 h.2) (by simp)
      rw [List.intercalate_singleton] at hone
      rw [hone, List.tail_cons]
  next h => exact iff_of_true rfl fun ht hk => absurd ⟨ht, hk⟩ h

/-- A part that is a list of ports. -/
theorem ports_prefix_iff {kv : String × String} (h : Plain kv.1) :
    "ports=".toList <+: fieldText kv ↔ kv.1 = "ports" := by
  constructor
  · rintro ⟨rest, hrest⟩
    have hkey : partKey ("ports=".toList ++ rest) = "ports".toList :=
      partKey_append (show '=' ∉ "ports".toList by decide) rest
    rw [hrest, h.partKey_fieldText] at hkey
    exact String.toList_inj.mp hkey
  · rintro hkey
    rw [fieldText, hkey]
    exact ⟨kv.2.toList, rfl⟩

theorem nodup_keys (t : ConfTable) : t.keys.Nodup := by
  cases t <;> decide

/-! ## The records of a table -/

section Table

variable {conf : CString} {items : List Fields} {uninit : Nat → t.Record} {rs : List (t.Record × List Fill)}

/-- The text of a table is walked over from its first key to the last record. -/
theorem decodeNoted_walks (hplain : PlainTable items) (hsplit : conf.val.splitOn ';' = items.map itemText)
    (h : t.decodeNoted uninit conf.val = .ok rs) : rs.length = items.length ∧
      (∀ r ∈ rs, r.2.length = t.keys.length) ∧
      ∃ ws', t.Walks (fieldStrings items.flatten) (rs.map Prod.snd).flatten ws' := by
  have hne : items ≠ [] := by
    rintro rfl
    exact List.splitOn_ne_nil ';' conf.val hsplit
  have htext : conf.val = tableText items := by
    have hjoin : [';'].intercalate (conf.val.splitOn ';') = conf.val := List.intercalate_splitOn ';'
    rw [← hjoin, hsplit]
    rfl
  have hws : ∀ w ∈ fieldStrings items.flatten, nul ∉ w := by
    intro w hw
    obtain ⟨kv, hkv, hw⟩ := List.mem_flatMap.mp hw
    obtain ⟨it, hit, hkv⟩ := List.mem_flatten.mp hkv
    obtain ⟨hk, hv⟩ := hplain.plain it hit kv hkv
    rcases List.mem_pair.mp hw with rfl | rfl
    · exact hk.nul_notMem
    · exact hv.nul_notMem
  rw [decodeNoted, confDecode, cstr_eq_self conf.property] at h
  split_ifs at h with hlen
  rw [htext, confRaw_tableText hplain hne, ← fieldStrings_flatten, hplain.count hne] at h
  exact confItems_noted items.length hws h

/-- **The notes fit to the table** when its items have as many fields as the records, and no list of ports
leads the walk away from them. -/
theorem notes_eq_iff (hplain : PlainTable items) (hsplit : conf.val.splitOn ';' = items.map itemText)
    (h : t.decodeNoted uninit conf.val = .ok rs) : rs.map Prod.snd = tableFills items ↔
      (∀ it ∈ items, it.length = t.keys.length) ∧
        ∀ kv ∈ items.flatten.dropLast, t.more kv.1.toList kv.2.toList = [] := by
  obtain ⟨hcount, hlens, ws', hwalk⟩ := decodeNoted_walks hplain hsplit h
  have hnotes : (rs.map Prod.snd).map List.length = List.replicate items.length t.keys.length := by
    rw [List.map_map, ← hcount]
    exact List.map_eq_replicate_iff.mpr hlens
  constructor
  · intro heq
    have hitems : items.map List.length = List.replicate items.length t.keys.length := by
      rw [← map_length_tableFills, ← heq, hnotes]
    rw [heq, flatten_tableFills] at hwalk
    refine ⟨fun it hit => ?_, hwalk.more_eq_nil⟩
    have hmem : it.length ∈ items.map List.length := List.mem_map_of_mem hit
    rw [hitems] at hmem
    exact List.eq_of_mem_replicate hmem
  · rintro ⟨hitems, hmore⟩
    have hitems' : items.map List.length = List.replicate items.length t.keys.length :=
      List.map_eq_replicate_iff.mpr hitems
    have hflat : (rs.map Prod.snd).flatten.length = items.flatten.length := by
      rw [List.length_flatten, List.length_flatten, hnotes, hitems']
    refine List.eq_iff_flatten_eq.mpr ⟨?_, ?_⟩
    · rw [flatten_tableFills]
      exact hwalk.eq_fieldFills hflat hmore
    · rw [hnotes, map_length_tableFills, hitems']

/-- The keys of the notes are keys of the decoder. -/
theorem keys_known (hplain : PlainTable items) (hsplit : conf.val.splitOn ';' = items.map itemText)
    (h : t.decodeNoted uninit conf.val = .ok rs) (heq : rs.map Prod.snd = tableFills items) :
    ∀ it ∈ items, ∀ kv ∈ it, kv.1 ∈ t.keys := by
  obtain ⟨-, -, ws', hwalk⟩ := decodeNoted_walks hplain hsplit h
  rw [heq, flatten_tableFills] at hwalk
  intro it hit kv hkv
  have hmem : kv.1 ∈ (fieldFills 0 items.flatten).map Fill.key := by
    rw [map_key_fieldFills]
    exact List.mem_map_of_mem (List.mem_flatten_of_mem hit hkv)
  obtain ⟨f, hf, hkey⟩ := List.mem_map.mp hmem
  exact hkey ▸ hwalk.known f hf

/-- The shape of the text of a table. -/
theorem regular_iff (hplain : PlainTable items) (hsplit : conf.val.splitOn ';' = items.map itemText) :
    t.Regular conf ↔ (∀ it ∈ items, it.length = t.keys.length) ∧ (∀ it ∈ items, (it.map Prod.fst).Nodup) ∧
      ∀ kv ∈ items.flatten.dropLast, t.more kv.1.toList kv.2.toList = [] := by
  have hitem : ∀ {p : List Char → Prop},
      (∀ item ∈ conf.val.splitOn ';', p item) ↔ ∀ it ∈ items, p (itemText it) := by
    intro p
    rw [hsplit, List.forall_mem_map]
  have hparts : (conf.val.splitOn ';').flatMap (·.splitOn ',') = items.flatten.map fieldText := by
    rw [hsplit, List.flatMap_map, List.map_flatten, ← List.flatMap_def]
    exact List.flatMap_congr fun it hit => hplain.splitOn_itemText hit
  have hplain' : ∀ kv ∈ items.flatten, Plain kv.1 ∧ Plain kv.2 := by
    intro kv hkv
    obtain ⟨it, hit, hkv⟩ := List.mem_flatten.mp hkv
    exact hplain.plain it hit kv hkv
  have hlen : (∀ item ∈ conf.val.splitOn ';', (item.splitOn ',').length = t.keys.length) ↔
      ∀ it ∈ items, it.length = t.keys.length := by
    rw [hitem]
    refine forall₂_congr fun it hit => ?_
    rw [hplain.splitOn_itemText hit, List.length_map]
  have hkeys : (∀ item ∈ conf.val.splitOn ';', ((item.splitOn ',').map partKey).Nodup) ↔
      ∀ it ∈ items, (it.map Prod.fst).Nodup := by
    rw [hitem]
    refine forall₂_congr fun it hit => ?_
    have hmap : (it.map fieldText).map partKey = (it.map Prod.fst).map String.toList := by
      rw [List.map_map, List.map_map]
      exact List.map_congr_left fun kv hkv => (hplain.plain it hit kv hkv).1.partKey_fieldText
    rw [hplain.splitOn_itemText hit, hmap, List.nodup_map_iff fun _ _ => String.toList_inj.mp]
  have hports : (t = channel → ∀ part ∈ ((conf.val.splitOn ';').flatMap (·.splitOn ',')).dropLast,
      "ports=".toList <+: part → '&' ∉ part) ↔
      ∀ kv ∈ items.flatten.dropLast, t.more kv.1.toList kv.2.toList = [] := by
    rw [hparts, ← List.map_dropLast, List.forall_mem_map]
    constructor
    · intro hall kv hkv
      rw [more_eq_nil_iff, String.ofList_toList]
      intro ht hkey hmem
      have hprefix := (ports_prefix_iff (hplain' kv (List.mem_of_mem_dropLast hkv)).1).mpr hkey
      exact hall ht kv hkv hprefix (List.mem_append_right _ (List.mem_cons_of_mem '=' hmem))
    · intro hall ht kv hkv hprefix hmem
      have hkey := (ports_prefix_iff (hplain' kv (List.mem_of_mem_dropLast hkv)).1).mp hprefix
      have hvalue := more_eq_nil_iff.mp (hall kv hkv) ht (by rw [String.ofList_toList, hkey])
      -- there is no ampersand in front of the value
      rw [fieldText, hkey] at hmem
      rcases List.mem_append.mp hmem with hmem | hmem
      · exact absurd hmem (by decide)
      · rcases List.mem_cons.mp hmem with heq | hmem
        · exact absurd heq (by decide)
        · exact hvalue hmem
  constructor
  · intro h
    exact ⟨hlen.mp h.parts, hkeys.mp h.keys, hports.mp h.ports⟩
  · rintro ⟨hlen', hkeys', hports'⟩
    refine ⟨hlen.mpr hlen', hitem.mpr fun it hit part hpart => ?_, hkeys.mpr hkeys', hports.mpr hports'⟩
    rw [hplain.splitOn_itemText hit] at hpart
    obtain ⟨kv, hkv, rfl⟩ := List.mem_map.mp hpart
    exact count_fieldText (hplain.plain it hit kv hkv).1 (hplain.plain it hit kv hkv).2

end Table

/-- A text of this shape is the text of a table. -/
theorem Regular.exists_items {conf : CString} (h : t.Regular conf) :
    ∃ items, PlainTable items ∧ conf.val.splitOn ';' = items.map itemText := by
  have hpart : ∀ item ∈ conf.val.splitOn ';', ∀ part ∈ item.splitOn ',',
      fieldText (partPair part) = part ∧ Plain (partPair part).1 ∧ Plain (partPair part).2 := by
    intro item hitem part hpart
    refine plain_partPair (h.pairs item hitem part hpart) fun c hc => ⟨?_, ?_, ?_⟩
    · rintro rfl
      exact notMem_of_mem_splitOn hitem (mem_of_mem_splitOn hpart hc)
    · rintro rfl
      exact notMem_of_mem_splitOn hpart hc
    · rintro rfl
      exact conf.property (mem_of_mem_splitOn hitem (mem_of_mem_splitOn hpart hc))
  refine ⟨(conf.val.splitOn ';').map fun item => (item.splitOn ',').map partPair, ⟨?_, ?_⟩, ?_⟩
  · refine List.forall_mem_map.mpr fun item hitem => List.forall_mem_map.mpr fun part hmem => ?_
    exact (hpart item hitem part hmem).2
  · refine List.forall_mem_map.mpr fun item _ => ?_
    exact fun hnil => List.splitOn_ne_nil ',' item (List.map_eq_nil_iff.mp hnil)
  · have htext : ∀ item ∈ conf.val.splitOn ';', itemText ((item.splitOn ',').map partPair) = item := by
      intro item hitem
      have hparts : ((item.splitOn ',').map partPair).map fieldText = item.splitOn ',' := by
        rw [List.map_map]
        exact (List.map_congr_left fun part hmem => (hpart item hitem part hmem).1).trans (List.map_id _)
      rw [itemText, hparts]
      exact List.intercalate_splitOn ','
    rw [List.map_map]
    exact ((List.map_congr_left htext).trans (List.map_id _)).symm

end ConfTable

/-- **A text that is accepted** gives every record exactly the fields of its own item when each of its items
has one key and value pair for every field, with different keys, and only the last list of ports has several
names. -/
theorem complete_iff {t : ConfTable} {uninit : Nat → t.Record} {conf : CString}
    {rs : List (t.Record × List Fill)} (h : t.decodeNoted uninit conf.val = .ok rs) :
    t.Complete conf rs ↔ t.Regular conf := by
  constructor
  · rintro ⟨items, hplain, hsplit, hnotes, hperm⟩
    refine (ConfTable.regular_iff hplain hsplit).mpr ⟨fun it hit => ?_, fun it hit => ?_, ?_⟩
    · rw [← (hperm it hit).length_eq, List.length_map]
    · exact (hperm it hit).nodup_iff.mpr t.nodup_keys
    · exact ((ConfTable.notes_eq_iff hplain hsplit h).mp hnotes).2
  · intro hregular
    obtain ⟨items, hplain, hsplit⟩ := hregular.exists_items
    obtain ⟨hlen, hnodup, hmore⟩ := (ConfTable.regular_iff hplain hsplit).mp hregular
    have hnotes := (ConfTable.notes_eq_iff hplain hsplit h).mpr ⟨hlen, hmore⟩
    refine ⟨items, hplain, hsplit, hnotes, fun it hit => ?_⟩
    -- as many different keys as there are
    have hsub : it.map Prod.fst ⊆ t.keys := fun k hk => by
      obtain ⟨kv, hkv, rfl⟩ := List.mem_map.mp hk
      exact ConfTable.keys_known hplain hsplit h hnotes it hit kv hkv
    refine ((hnodup it hit).subperm hsub).perm_of_length_le ?_
    rw [List.length_map, hlen it hit]

/-- One window, with the three fields that it needs. -/
theorem complete_oneWindow : ConfTable.sched.Complete ⟨"part=a,offset=0,duration=5".toList, by decide⟩
    [(⟨"a", 0, 5⟩, [⟨"part", "a", 22⟩, ⟨"offset", "0", 13⟩, ⟨"duration", "5", 2⟩])] := by
  have hok : ConfTable.sched.decodeNoted (fun _ => ⟨"", 0, 0⟩) "part=a,offset=0,duration=5".toList =
      .ok [(⟨"a", 0, 5⟩, [⟨"part", "a", 22⟩, ⟨"offset", "0", 13⟩, ⟨"duration", "5", 2⟩])] := by
    decide +kernel
  refine (@complete_iff .sched _ ⟨_, by decide⟩ _ hok).mpr ⟨?_, ?_, ?_, ?_⟩
  · decide
  · decide
  · decide
  · intro ht
    cases ht

/-- Three partitions of one window: the last one counts, and the offset and the duration are what `kalloc`
left. -/
theorem not_complete_threeParts : ¬ ∀ (t : ConfTable) (uninit : Nat → t.Record) (conf : CString)
    (rs : List (t.Record × List Fill)), t.decodeNoted uninit conf.val = .ok rs → t.Complete conf rs := by
  intro h
  have hok : ConfTable.sched.decodeNoted (fun _ => ⟨"", 0, 0⟩) "part=a,part=b,part=c".toList =
      .ok [(⟨"c", 0, 0⟩, [⟨"part", "a", 16⟩, ⟨"part", "b", 9⟩, ⟨"part", "c", 2⟩])] := by
    decide +kernel
  obtain ⟨items, -, -, hnotes, hperm⟩ := h .sched _ ⟨"part=a,part=b,part=c".toList, by decide⟩ _ hok
  have hkeys : (tableFills items).map (List.map Fill.key) = [["part", "part", "part"]] := by
    rw [← hnotes]
    rfl
  cases items with
  | nil => cases hkeys
  | cons it items =>
      rw [tableFills, List.map_cons, map_key_fieldFills] at hkeys
      have hone := hperm it List.mem_cons_self
      rw [(List.cons.inj hkeys).1] at hone
      exact absurd hone (by decide)

end Jrinx
