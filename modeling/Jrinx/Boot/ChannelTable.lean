import Jrinx.Boot.RoundTrip

/-! # The table of channels

The names of a channel's ports are separated in the text of the decoder, in place, by the terminators that
its scans stop at. After a `ports` field the next key is therefore looked for at the second name.

* **`confItem_plain`** — the fields in front of the ports.
* **`confItem_derailed`** — what follows when the walk goes on at a name.
* **`channel_table_iff`** — the tables that are read back. -/

namespace Jrinx

/-! ## The fields of a channel -/

/-- The fields of a queuing channel through memory. -/
def chanItem (cc : ChannelConf) : List (String × ConfVal) :=
  [("media", .str "memory"), ("type", .str "queuing"), ("ports", .strs cc.ccPortNames)]

/-- A queuing channel between two named ports. -/
structure AdmittedChan (cc : ChannelConf) : Prop where
  type : cc.ccType = .queuing
  two : cc.ccPortNames.length = 2
  names : ∀ s ∈ cc.ccPortNames, IsName s

/-- Channels. -/
def chanLayout : Layout ChannelConf where
  keys := ["media", "type", "ports"]
  item := chanItem
  names cc := cc.ccPortNames
  domain := AdmittedChan
  keys_ne_nil := by simp
  keys_plain := by decide
  item_keys _ := rfl
  written cc hcc kv hkv := by
    simp only [chanItem, List.mem_cons, List.not_mem_nil, or_false] at hkv
    rcases hkv with rfl | rfl | rfl
    · exact .word "memory" (by decide) (by decide)
    · exact .word "queuing" (by decide) (by decide)
    · exact .names _ fun s hs => ⟨hcc.names s hs, hs⟩

variable {kalloc : Nat → Bool}

theorem splitPorts_append {w : List Char} (hnul : nul ∉ w) (hamp : '&' ∉ w) (buf : List Char) :
    splitPorts (w ++ buf) = w ++ splitPorts buf := by
  induction w with
  | nil => rfl
  | cons c w ih =>
      obtain ⟨hc, hw⟩ := List.ne_and_not_mem_of_not_mem_cons hnul
      obtain ⟨hc', hw'⟩ := List.ne_and_not_mem_of_not_mem_cons hamp
      rw [List.cons_append, splitPorts, if_neg fun h => hc h.symm, if_neg fun h => hc' h.symm, ih hw hw',
        List.cons_append]

/-- A list of names without ampersands stays as it is. -/
theorem splitPorts_string {w : List Char} (hnul : nul ∉ w) (hamp : '&' ∉ w) (buf : List Char) :
    splitPorts (w ++ nul :: buf) = w ++ nul :: buf := by
  rw [splitPorts_append hnul hamp, splitPorts, if_pos rfl]

theorem splitPorts_pair {a b : List Char} (ha : nul ∉ a) (ha' : '&' ∉ a) (hb : nul ∉ b) (hb' : '&' ∉ b)
    (buf : List Char) : splitPorts (a ++ '&' :: b ++ nul :: buf) = a ++ nul :: (b ++ nul :: buf) := by
  rw [List.append_assoc, splitPorts_append ha ha', List.cons_append, splitPorts, if_neg (by decide),
    if_pos rfl, splitPorts_string hb hb']

/-! ## The walk over the fields -/

section Fields

variable {cc cc' : ChannelConf} {buf : List Char}

theorem chanField_media (buf : List Char) (cc : ChannelConf) :
    chanField kalloc "media" ("memory".toList ++ nul :: buf) cc =
      .ok (cc, "memory".toList ++ nul :: buf) := by
  rw [chanField, if_pos rfl, cstr_append (by decide), String.ofList_toList, if_pos rfl]

theorem chanField_type (buf : List Char) (cc : ChannelConf) :
    chanField kalloc "type" ("queuing".toList ++ nul :: buf) cc =
      .ok ({ cc with ccType := .queuing }, "queuing".toList ++ nul :: buf) := by
  rw [chanField, if_neg (by decide), if_pos rfl, cstr_append (by decide), String.ofList_toList, if_pos rfl]

theorem chanField_ports_pair (kalloc : Nat → Bool) {a b : List Char} (ha : nul ∉ a) (ha' : '&' ∉ a)
    (hb : nul ∉ b) (hb' : '&' ∉ b) (buf : List Char) (cc : ChannelConf) :
    chanField kalloc "ports" (a ++ '&' :: b ++ nul :: buf) cc =
      if kalloc 24 = true then
        .ok ({ cc with ccPortNames := [String.ofList a, String.ofList b] }, a ++ nul :: (b ++ nul :: buf))
      else .error .fault := by
  have hab : nul ∉ a ++ '&' :: b := by
    intro h
    rcases List.mem_append.mp h with h | h
    · exact ha h
    · rcases List.mem_cons.mp h with h | h
      · exact absurd h (by decide)
      · exact hb h
  have hcount : (a ++ '&' :: b).count '&' = 1 := by
    rw [List.count_append, List.count_cons_self, List.count_eq_zero_of_not_mem ha',
      List.count_eq_zero_of_not_mem hb']
  rw [chanField, if_neg (by decide), if_neg (by decide), if_pos rfl, cstr_append hab, hcount,
    splitPorts_pair ha ha' hb hb']
  simp only [portNames, cstr_append ha, skipStr_append ha, Option.getD_some, cstr_append hb]

theorem chanField_ports_single (kalloc : Nat → Bool) {a : List Char} (ha : nul ∉ a) (ha' : '&' ∉ a)
    (buf : List Char) (cc : ChannelConf) : chanField kalloc "ports" (a ++ nul :: buf) cc =
      if kalloc 16 = true then .ok ({ cc with ccPortNames := [String.ofList a] }, a ++ nul :: buf)
      else .error .fault := by
  rw [chanField, if_neg (by decide), if_neg (by decide), if_pos rfl, cstr_append ha,
    List.count_eq_zero_of_not_mem ha', splitPorts_string ha ha']
  simp only [portNames, cstr_append ha]

theorem chanField_unknown {key : String} (h : key ∉ chanLayout.keys) (buf : List Char) (cc : ChannelConf) :
    chanField kalloc key buf cc = .error .argEr := by
  simp only [chanLayout, List.mem_cons, List.not_mem_nil, or_false, not_or] at h
  rw [chanField, if_neg h.1, if_neg h.2.1, if_neg h.2.2]

/-- The field for the medium and the one for the type. -/
def plainFields : Fields := [("media", "memory"), ("type", "queuing")]

/-- **The fields in front of the ports** leave the names of the ports alone. -/
theorem confItem_plain {pre : Fields} (h : ∀ kv ∈ pre, kv ∈ plainFields) (n : ℕ) (cc : ChannelConf)
    (buf : List Char) : ∃ cc' : ChannelConf,
      confItem (chanField kalloc) (pre.length + n) cc (strings (fieldStrings pre) ++ buf) =
        confItem (chanField kalloc) n cc' buf ∧
      cc'.ccPortNames = cc.ccPortNames ∧
      (cc.ccType = .queuing ∨ ("type", "queuing") ∈ pre → cc'.ccType = .queuing) := by
  induction pre generalizing cc with
  | nil => exact ⟨cc, by simp [fieldStrings], rfl, by simp⟩
  | cons kv pre ih =>
      have hrest := fun kv' hkv' => h kv' (List.mem_cons_of_mem kv hkv')
      have hlen : (kv :: pre).length + n = (pre.length + n) + 1 := by
        rw [List.length_cons]
        omega
      have htext : strings (fieldStrings (kv :: pre)) ++ buf =
          kv.1.toList ++ nul :: (kv.2.toList ++ nul :: (strings (fieldStrings pre) ++ buf)) := by
        simp [fieldStrings]
      have hkv := h kv (by simp)
      simp only [plainFields, List.mem_cons, List.not_mem_nil, or_false] at hkv
      rw [hlen, htext]
      rcases hkv with rfl | rfl
      · -- the medium is not stored
        obtain ⟨cc', hwalk, hnames, htype⟩ := ih hrest cc
        refine ⟨cc', ?_, hnames, fun hq => htype ?_⟩
        · rw [confItem_ok (by decide) (by decide) (chanField_media _ cc), hwalk]
        · rcases hq with hq | hq
          · exact Or.inl hq
          · rcases List.mem_cons.mp hq with hq | hq
            · exact absurd hq (by decide)
            · exact Or.inr hq
      · -- the type is
        obtain ⟨cc', hwalk, hnames, htype⟩ := ih hrest { cc with ccType := .queuing }
        refine ⟨cc', ?_, hnames, fun _ => htype (Or.inl rfl)⟩
        rw [confItem_ok (by decide) (by decide) (chanField_type _ cc), hwalk]

/-- A field of an item: one of the plain fields, or the ports. -/
def ChanPair (kv : String × String) : Prop :=
  kv ∈ plainFields ∨ kv.1 = "ports" ∧ '&' ∈ kv.2.toList ∧ nul ∉ kv.2.toList

theorem ChanPair.key {kv : String × String} (h : ChanPair kv) :
    nul ∉ kv.1.toList ∧ '&' ∉ kv.1.toList ∧ kv.1 ≠ "memory" ∧ kv.1 ≠ "queuing" ∧ kv.1 ≠ "sampling" := by
  rcases h with h | ⟨h, -⟩
  · simp only [plainFields, List.mem_cons, List.not_mem_nil, or_false] at h
    rcases h with rfl | rfl <;> decide
  · rw [h]
    decide

theorem ChanPair.value {kv : String × String} (h : ChanPair kv) :
    nul ∉ kv.2.toList ∧ kv.2 ∉ chanLayout.keys := by
  rcases h with h | ⟨-, hamp, hnul⟩
  · simp only [plainFields, List.mem_cons, List.not_mem_nil, or_false] at h
    rcases h with rfl | rfl <;> decide
  · refine ⟨hnul, fun hmem => ?_⟩
    simp only [chanLayout, List.mem_cons, List.not_mem_nil, or_false] at hmem
    rcases hmem with h | h | h
    · exact absurd (h ▸ hamp) (by decide)
    · exact absurd (h ▸ hamp) (by decide)
    · exact absurd (h ▸ hamp) (by decide)

/-- **What the walk makes of a name** where it expects a key: it takes the next key for a value. Whatever
the name is, no channel with two ports is read. -/
theorem confItem_derailed {b : String} (hb : nul ∉ b.toList) {kv : String × String} (hkv : ChanPair kv)
    {n : ℕ} {rest : List Char} (h : confItem (chanField kalloc) (n + 1) cc
      (b.toList ++ nul :: (kv.1.toList ++ nul :: (kv.2.toList ++ nul :: buf))) = .ok (cc', rest)) :
    n = 0 ∧ cc'.ccPortNames.length = 1 := by
  obtain ⟨hk, hamp, hmemory, hqueuing, hsampling⟩ := hkv.key
  by_cases hkey : b ∈ chanLayout.keys
  · simp only [chanLayout, List.mem_cons, List.not_mem_nil, or_false] at hkey
    rcases hkey with rfl | rfl | rfl
    · -- no key is a medium or a type, so that the value is refused
      have hfield : chanField kalloc "media" (kv.1.toList ++ nul :: (kv.2.toList ++ nul :: buf)) cc =
          .error .argEr := by
        rw [chanField, if_pos rfl, cstr_append hk, String.ofList_toList, if_neg hmemory]
      rw [confItem_error hb hfield] at h
      exact absurd h (by simp)
    · have hfield : chanField kalloc "type" (kv.1.toList ++ nul :: (kv.2.toList ++ nul :: buf)) cc =
          .error .argEr := by
        rw [chanField, if_neg (by decide), if_pos rfl, cstr_append hk, String.ofList_toList,
          if_neg hqueuing, if_neg hsampling]
      rw [confItem_error hb hfield] at h
      exact absurd h (by simp)
    · -- a key is a list of one port, and the value behind it is no key
      have hfield := chanField_ports_single kalloc hk hamp (kv.2.toList ++ nul :: buf) cc
      split at hfield
      · rw [confItem_ok hb hk hfield] at h
        cases n with
        | zero =>
            rw [confItem, Except.ok.injEq, Prod.mk.injEq] at h
            rw [← h.1]
            exact ⟨rfl, rfl⟩
        | succ n =>
            rw [confItem_error hkv.value.1 (chanField_unknown hkv.value.2 _ _)] at h
            exact absurd h (by simp)
      · rw [confItem_error hb hfield] at h
        exact absurd h (by simp)
  · rw [confItem_error hb (chanField_unknown hkey _ _)] at h
    exact absurd h (by simp)

end Fields

/-! ## Items -/

section Items

variable {it pre post : List (String × ConfVal)} {items : List (List (String × ConfVal))}
  {cc : ChannelConf} {ccs : List ChannelConf}

/-- **An item of a channel**: its ports stand somewhere between its other fields. -/
structure ChanSplit (cc : ChannelConf) (it pre post : List (String × ConfVal)) : Prop where
  eq : it = pre ++ ("ports", .strs cc.ccPortNames) :: post
  perm : (pre ++ post).Perm [("media", .str "memory"), ("type", .str "queuing")]

theorem exists_chanSplit (h : it.Perm (chanItem cc)) : ∃ pre post, ChanSplit cc it pre post := by
  have hmem : ("ports", ConfVal.strs cc.ccPortNames) ∈ it := h.mem_iff.mpr (by simp [chanItem])
  obtain ⟨pre, post, rfl⟩ := List.append_of_mem hmem
  refine ⟨pre, post, rfl, ?_⟩
  have hcons : (("ports", ConfVal.strs cc.ccPortNames) :: (pre ++ post)).Perm
      (("ports", ConfVal.strs cc.ccPortNames) :: [("media", .str "memory"), ("type", .str "queuing")]) := by
    refine (List.perm_middle.symm.trans h).trans ?_
    exact @List.perm_append_comm (String × ConfVal) [("media", .str "memory"), ("type", .str "queuing")]
      [("ports", .strs cc.ccPortNames)]
  exact (List.perm_cons _).mp hcons

theorem ChanSplit.length (h : ChanSplit cc it pre post) : pre.length + post.length = 2 := by
  rw [← List.length_append]
  exact h.perm.length_eq

theorem fieldsOf_append (it it' : List (String × ConfVal)) :
    fieldsOf (it ++ it') = fieldsOf it ++ fieldsOf it' := List.map_append

theorem ChanSplit.perm_plainFields (h : ChanSplit cc it pre post) :
    (fieldsOf pre ++ fieldsOf post).Perm plainFields := by
  rw [← fieldsOf_append]
  exact fieldsOf_perm h.perm

/-- The ports are the last field, exactly if nothing stands behind them. -/
theorem ChanSplit.getLast_eq (h : ChanSplit cc it pre post) :
    (it.map Prod.fst).getLast? = some "ports" ↔ post = [] := by
  rw [h.eq, List.map_append, List.map_cons]
  cases hpost : post.reverse with
  | nil =>
      rw [List.reverse_eq_nil_iff.mp hpost]
      simp
  | cons kv rest =>
      have heq : post = rest.reverse ++ [kv] := by
        rw [← List.reverse_reverse post, hpost, List.reverse_cons]
      have hmem : kv ∈ pre ++ post := List.mem_append_right pre (heq ▸ List.mem_append_right _ (by simp))
      replace hmem := h.perm.mem_iff.mp hmem
      have hkey : kv.1 ≠ "ports" := by
        simp only [List.mem_cons, List.not_mem_nil, or_false] at hmem
        rcases hmem with rfl | rfl <;> decide
      have hlast : pre.map Prod.fst ++ "ports" :: (rest.reverse ++ [kv]).map Prod.fst =
          pre.map Prod.fst ++ "ports" :: rest.reverse.map Prod.fst ++ [kv.1] := by simp
      rw [heq, hlast, List.getLast?_concat]
      simpa using hkey

variable {a b : String}

/-- The text of the ports. -/
theorem encodeVal_pair (a b : String) : (encodeVal (.strs [a, b])).toList = a.toList ++ '&' :: b.toList := by
  simp [encodeVal, List.intercalate]

theorem IsName.amp_notMem {s : String} (h : IsName s) : '&' ∉ s.toList :=
  fun hc => (h.2 _ hc).2.2.2.2 rfl

/-- **An item** is walked up to the second name of its ports. -/
theorem confItem_chan (kalloc : Nat → Bool) (hcc : AdmittedChan cc) (hnames : cc.ccPortNames = [a, b])
    (hclean : nul ∉ a.toList ∧ nul ∉ b.toList) (h : ChanSplit cc it pre post) (r : ChannelConf)
    (buf : List Char) : ∃ r' : ChannelConf, r'.ccPortNames = cc.ccPortNames ∧ (post = [] → r' = cc) ∧
      confItem (chanField kalloc) 3 r (strings (fieldStrings (fieldsOf it)) ++ buf) =
        if kalloc 24 = true then confItem (chanField kalloc) post.length r'
          (b.toList ++ nul :: (strings (fieldStrings (fieldsOf post)) ++ buf))
        else .error .fault := by
  have ha := hcc.names a (by simp [hnames])
  have hb := hcc.names b (by simp [hnames])
  have hpre : ∀ kv ∈ fieldsOf pre, kv ∈ plainFields := fun kv hkv =>
    h.perm_plainFields.mem_iff.mp (List.mem_append_left _ hkv)
  -- the fields in front of the ports, the ports, and what is behind them
  have htext : strings (fieldStrings (fieldsOf it)) ++ buf =
      strings (fieldStrings (fieldsOf pre)) ++ ("ports".toList ++ nul ::
        (a.toList ++ '&' :: b.toList ++ nul :: (strings (fieldStrings (fieldsOf post)) ++ buf))) := by
    rw [h.eq, fieldsOf_append, fieldStrings, List.flatMap_append, strings_append, hnames]
    simp [fieldsOf, fieldStrings, encodeVal_pair]
  -- three rounds are left for them
  have hlen : 3 = (fieldsOf pre).length + (post.length + 1) := by
    have := h.length
    rw [fieldsOf, List.length_map]
    omega
  obtain ⟨r', hwalk, -, htype⟩ := confItem_plain hpre (post.length + 1) r ("ports".toList ++ nul ::
    (a.toList ++ '&' :: b.toList ++ nul :: (strings (fieldStrings (fieldsOf post)) ++ buf)))
  refine ⟨{ r' with ccPortNames := cc.ccPortNames }, rfl, fun hpost => ?_, ?_⟩
  · -- with the ports at the end, the type has been read
    have hmem : ("type", "queuing") ∈ fieldsOf pre := by
      have hperm := h.perm_plainFields
      rw [hpost, fieldsOf, fieldsOf, List.map_nil, List.append_nil] at hperm
      exact hperm.mem_iff.mpr (by simp [plainFields])
    have hq := htype (Or.inr hmem)
    rw [← hcc.type] at hq
    rw [hq]
  · have hfield := chanField_ports_pair kalloc hclean.1 ha.amp_notMem hclean.2 hb.amp_notMem
      (strings (fieldStrings (fieldsOf post)) ++ buf) r'
    rw [htext, hlen, hwalk]
    split at hfield
    · rename_i hk
      rw [confItem_ok (by decide) hclean.1 hfield, if_pos hk, hnames, String.ofList_toList,
        String.ofList_toList]
    · rename_i hk
      rw [confItem_error (by decide) hfield, if_neg hk]

theorem chanPair_of_mem (hcc : AdmittedChan cc) (hclean : ∀ s ∈ cc.ccPortNames, nul ∉ s.toList)
    (h : it.Perm (chanItem cc)) {kv : String × String} (hkv : kv ∈ fieldsOf it) : ChanPair kv := by
  obtain ⟨a, b, hnames⟩ := List.length_eq_two.mp hcc.two
  have hmem := (fieldsOf_perm h).mem_iff.mp hkv
  simp only [fieldsOf, chanItem, List.map_cons, List.map_nil, List.mem_cons, List.not_mem_nil,
    or_false] at hmem
  rcases hmem with rfl | rfl | rfl
  · exact Or.inl (by simp [plainFields, encodeVal])
  · exact Or.inl (by simp [plainFields, encodeVal])
  · refine Or.inr ⟨rfl, ?_, ?_⟩
    · simp [hnames, encodeVal_pair]
    · intro hnul
      rcases of_mem_strs hnul with hc | ⟨s, hs, hc⟩
      · exact absurd hc (by decide)
      · exact hclean s hs hc

/-- The strings of a table whose first item has fields. -/
theorem strings_fields_cons (kv : String × ConfVal) (it : List (String × ConfVal)) (buf : List Char) :
    strings (fieldStrings (fieldsOf (kv :: it))) ++ buf = kv.1.toList ++ nul ::
      ((encodeVal kv.2).toList ++ nul :: (strings (fieldStrings (fieldsOf it)) ++ buf)) := by
  simp [fieldsOf, fieldStrings]

/-- No channels are read when the first of them is looked for at a name. -/
theorem confItems_lost (kalloc : Nat → Bool) (h : chanLayout.Items items ccs) (hne : items ≠ [])
    (hdom : ∀ cc ∈ ccs, AdmittedChan cc) (hclean : ∀ cc ∈ ccs, ∀ s ∈ cc.ccPortNames, nul ∉ s.toList)
    (hb : nul ∉ b.toList) (uninit : ℕ → ChannelConf) (p : ℕ) (rs : List ChannelConf) :
    confItems (chanField kalloc) 3 uninit p items.length
      (b.toList ++ nul :: strings ((items.map fieldsOf).flatMap fieldStrings)) ≠ .ok rs := by
  intro hrs
  cases h with
  | nil => exact absurd rfl hne
  | @cons it cc items ccs hone hrest =>
      obtain ⟨kv, tail, rfl⟩ := List.exists_cons_of_ne_nil
        (Layout.Items.ne_nil (List.Forall₂.cons hone hrest) it (by simp))
      have hpair : ChanPair (kv.1, encodeVal kv.2) :=
        chanPair_of_mem (hdom cc (by simp)) (hclean cc (by simp)) hone (by simp [fieldsOf])
      rw [List.map_cons, List.flatMap_cons, strings_append, strings_fields_cons, List.length_cons,
        confItems] at hrs
      split at hrs
      · exact absurd hrs (by simp)
      · rename_i hitem
        exact absurd (confItem_derailed hb hpair hitem).1 (by decide)

/-- A table is read back, exactly if it has one channel, whose ports are its last field. -/
theorem confItems_chan_iff (h : chanLayout.Items items ccs) (hne : items ≠ [])
    (hdom : ∀ cc ∈ ccs, AdmittedChan cc) (hclean : ∀ cc ∈ ccs, ∀ s ∈ cc.ccPortNames, nul ∉ s.toList)
    (uninit : ℕ → ChannelConf) :
    confItems (chanField kalloc) 3 uninit 0 items.length
        (strings ((items.map fieldsOf).flatMap fieldStrings)) = .ok ccs ↔
      kalloc 24 = true ∧ ∃ it, items = [it] ∧ (it.map Prod.fst).getLast? = some "ports" := by
  cases h with
  | nil => exact absurd rfl hne
  | @cons it cc items ccs hone hrest =>
      have hcc := hdom cc (by simp)
      obtain ⟨a, b, hnames⟩ := List.length_eq_two.mp hcc.two
      have hnul := hclean cc (by simp)
      have hab : nul ∉ a.toList ∧ nul ∉ b.toList := ⟨hnul a (by simp [hnames]), hnul b (by simp [hnames])⟩
      obtain ⟨pre, post, hsplit⟩ := exists_chanSplit hone
      obtain ⟨r', hports, hdone, hwalk⟩ := confItem_chan kalloc hcc hnames hab hsplit (uninit 0)
        (strings ((items.map fieldsOf).flatMap fieldStrings))
      rw [List.map_cons, List.flatMap_cons, strings_append, List.length_cons, confItems, hwalk]
      by_cases hk : kalloc 24 = true
      · rw [if_pos hk]
        cases post with
        | nil =>
            rw [List.length_nil, confItem, hdone rfl]
            by_cases hitems : items = []
            · subst hitems
              cases hrest
              exact iff_of_true rfl ⟨hk, it, rfl, hsplit.getLast_eq.mpr rfl⟩
            · -- the second channel is looked for at the second name of the first
              have hlost := confItems_lost kalloc hrest hitems
                (fun cc' hcc' => hdom cc' (List.mem_cons_of_mem cc hcc'))
                (fun cc' hcc' => hclean cc' (List.mem_cons_of_mem cc hcc')) hab.2 uninit 1
              refine iff_of_false (fun hall => ?_) ?_
              · dsimp only at hall
                split at hall
                · exact absurd hall (by simp)
                · rename_i rs hrs
                  exact hlost rs hrs
              · rintro ⟨-, it', heq, -⟩
                exact hitems (List.cons.inj heq).2
        | cons kv tail =>
            refine iff_of_false (fun hall => ?_) ?_
            · -- the rest of the first channel is looked for at its second name
              rw [strings_fields_cons, List.length_cons] at hall
              split at hall
              · exact absurd hall (by simp)
              rename_i r'' _ hitem
              split at hall
              · exact absurd hall (by simp)
              have hhead : r'' = cc := (List.cons.inj (Except.ok.inj hall)).1
              have hpair : ChanPair (kv.1, encodeVal kv.2) := chanPair_of_mem hcc hnul hone (by
                rw [hsplit.eq]
                simp [fieldsOf])
              have hlen := (confItem_derailed hab.2 hpair hitem).2
              rw [hhead, hcc.two] at hlen
              exact absurd hlen (by decide)
            · rintro ⟨-, it', heq, hlast⟩
              rw [← (List.cons.inj heq).1, hsplit.getLast_eq] at hlast
              exact absurd hlast (by simp)
      · rw [if_neg hk]
        simp [hk]

end Items

/-! ## The table -/

section Table

variable {conf : SysConf} {items : List (List (String × ConfVal))} {ccs : List ChannelConf}

/-- A channel whose names contain no terminators. -/
def CleanNames (cc : ChannelConf) : Prop := ∀ s ∈ cc.ccPortNames, nul ∉ s.toList

theorem cleanNames_portNames (n : ℕ) (buf : List Char) : ∀ s ∈ portNames n buf, nul ∉ s.toList := by
  induction n generalizing buf with
  | zero => exact fun s hs => absurd hs (by simp [portNames])
  | succ n ih =>
      intro s hs
      rcases List.mem_cons.mp hs with rfl | hs
      · rw [String.toList_ofList]
        exact nul_notMem_cstr buf
      · exact ih _ s hs

theorem chanField_keeps (key : String) (value : List Char) (cc : ChannelConf) (out : ChannelConf × List Char)
    (h : chanField kalloc key value cc = .ok out) (hcc : CleanNames cc) : CleanNames out.1 := by
  unfold chanField at h
  dsimp only at h
  split_ifs at h <;> rw [← Except.ok.inj h]
  · exact hcc
  · exact hcc
  · exact hcc
  · exact cleanNames_portNames _ _

/-- The tables of channels that survive. -/
structure ChannelsSurvive (kalloc : Nat → Bool) (items : List (List (String × ConfVal)))
    (ccs : List ChannelConf) : Prop where
  single : ∃ it, items = [it] ∧ (it.map Prod.fst).getLast? = some "ports"
  clean : ∀ cc ∈ ccs, CleanNames cc
  served : ConfServed kalloc 16 items
  names : kalloc 24 = true

/-- Whatever is done with a channel is done with those of the table, in their order. -/
theorem channels_recovered_iff (kalloc : Nat → Bool) (h : chanLayout.Items items ccs) (hne : ccs ≠ [])
    (hdom : ∀ cc ∈ ccs, AdmittedChan cc) :
    (∀ (σ : Type) uninit (channelCreate : ChannelConf → σ → Option σ) (s : σ),
        onArg (some (encodeTable items)) (doChannelCreate kalloc uninit channelCreate) s =
          createAll channelCreate ccs s) ↔ ChannelsSurvive kalloc items ccs := by
  have hitems : items ≠ [] := by
    rintro rfl
    cases h
    exact hne rfl
  have hdec : (∀ (σ : Type) uninit (channelCreate : ChannelConf → σ → Option σ) (s : σ),
        onArg (some (encodeTable items)) (doChannelCreate kalloc uninit channelCreate) s =
          createAll channelCreate ccs s) ↔
      ∀ uninit, confDecode (chanField kalloc) 3 16 kalloc uninit (encodeTable items) = .ok ccs :=
    forall_createAll_iff
  rw [hdec]
  constructor
  · intro hall
    have hclean : ∀ cc ∈ ccs, CleanNames cc := by
      refine of_confDecode (P := CleanNames) chanField_keeps (fun _ => ?_) (hall fun _ => ⟨.queuing, []⟩)
      exact fun s hs => absurd hs (by simp)
    obtain ⟨hwalk, hfault⟩ := confDecode_strings (chanField kalloc) 3 kalloc 16
      (h.plainTable hdom hclean) hitems fun _ => ⟨.queuing, []⟩
    -- the table is read from one memory, and that decides all of them
    have hone := hall fun _ => ⟨.queuing, []⟩
    by_cases hserved : ConfServed kalloc 16 items
    · rw [hwalk hserved, confItems_chan_iff h hitems hdom hclean] at hone
      exact ⟨hone.2, hclean, hserved, hone.1⟩
    · rw [hfault hserved] at hone
      exact absurd hone (by simp)
  · rintro ⟨hsingle, hclean, hserved, hnames⟩ uninit
    obtain ⟨hwalk, -⟩ := confDecode_strings (chanField kalloc) 3 kalloc 16 (h.plainTable hdom hclean)
      hitems uninit
    rw [hwalk hserved, confItems_chan_iff h hitems hdom hclean]
    exact ⟨hnames, hsingle⟩

/-- **Which tables of channels survive the trip.** `do_channel_create` makes the channels of the table,
exactly if there is one channel with its ports in the last field, its names contain no terminator, and the
heap serves the decoder. -/
theorem channel_table_iff (h : chanLayout.Items conf.channel ccs) (hne : ccs ≠ [])
    (hdom : ∀ cc ∈ ccs, AdmittedChan cc) (hp : Spaceless conf.partitions) (hs : Spaceless conf.scheduler)
    (hq : Spaceless conf.queuingPorts) :
    (∀ (σ : Type) uninit (channelCreate : ChannelConf → σ → Option σ) (s : σ),
        onArg (confText "--ch-conf" conf) (doChannelCreate kalloc uninit channelCreate) s =
          createAll channelCreate ccs s) ↔ ChannelsSurvive kalloc conf.channel ccs := by
  have hitems : conf.channel ≠ [] := by
    intro hnil
    rw [hnil] at h
    cases h
    exact hne rfl
  have htext := (confText_eq hp hs hq (h.spaceless hdom)).2.2.2
  rw [if_pos hitems] at htext
  rw [htext]
  exact channels_recovered_iff kalloc h hne hdom

/-- A configuration with channels only. -/
def chanConf (ccs : List ChannelConf) : SysConf :=
  { partitions := [], scheduler := [], queuingPorts := [], channel := ccs.map chanItem }

theorem items_chanConf (ccs : List ChannelConf) : chanLayout.Items (chanConf ccs).channel ccs := by
  induction ccs with
  | nil => exact .nil
  | cons cc ccs ih => exact .cons (.refl _) ih

theorem channel_table_iff_one :
    (∀ (σ : Type) uninit (channelCreate : ChannelConf → σ → Option σ) (s : σ),
        onArg (confText "--ch-conf" (chanConf [⟨.queuing, ["sq", "dq"]⟩]))
            (doChannelCreate (fun _ => true) uninit channelCreate) s =
          createAll channelCreate [⟨.queuing, ["sq", "dq"]⟩] s) ↔
      ChannelsSurvive (fun _ => true) (chanConf [⟨.queuing, ["sq", "dq"]⟩]).channel
        [⟨.queuing, ["sq", "dq"]⟩] := by
  refine channel_table_iff (items_chanConf _) (by simp) ?_ spaceless_nil spaceless_nil spaceless_nil
  intro cc hcc
  rw [List.mem_singleton.mp hcc]
  exact ⟨rfl, rfl, by decide⟩

/-- A second channel is not read. -/
theorem channels_not_recovered : ¬ ∀ (conf : SysConf) (ccs : List ChannelConf),
    chanLayout.Items conf.channel ccs → ccs ≠ [] → (∀ cc ∈ ccs, AdmittedChan cc) →
    conf.partitions = [] → conf.scheduler = [] → conf.queuingPorts = [] →
    ∀ (σ : Type) uninit (channelCreate : ChannelConf → σ → Option σ) (s : σ),
      onArg (confText "--ch-conf" conf) (doChannelCreate (fun _ => true) uninit channelCreate) s =
        createAll channelCreate ccs s := by
  intro hall
  have hitems := items_chanConf [⟨.queuing, ["sq", "dq"]⟩, ⟨.queuing, ["sr", "dr"]⟩]
  have hdom : ∀ cc ∈ [(⟨.queuing, ["sq", "dq"]⟩ : ChannelConf), ⟨.queuing, ["sr", "dr"]⟩],
      AdmittedChan cc := by
    intro cc hcc
    rcases List.mem_pair.mp hcc with rfl | rfl
    · exact ⟨rfl, rfl, by decide⟩
    · exact ⟨rfl, rfl, by decide⟩
  have hread := hall _ _ hitems (by simp) hdom rfl rfl rfl
  rw [(confText_eq spaceless_nil spaceless_nil spaceless_nil (hitems.spaceless hdom)).2.2.2] at hread
  obtain ⟨it, heq, -⟩ := ((channels_recovered_iff _ hitems (by simp) hdom).mp hread).single
  exact absurd (congrArg List.length heq) (by simp [chanConf])

end Table

end Jrinx
