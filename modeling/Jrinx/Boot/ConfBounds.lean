import Jrinx.Boot.Args
import Jrinx.Boot.Tables

/-! # The bounds of a configuration text

The decoders check that a key begins inside of their text. The address of its value is computed from the key
and never checked, and a list of ports that is cut in place moves the walk to the second name. So a text
that ends in a key, where the walk comes to it, is read behind its terminator.

* **`ConfTable`** — the four decoders, with **`ConfTable.checked`** for what they do with a field.
* **`pieces`** — the strings between the separators.
* **`ConfTable.Overruns`** — the texts in which the walk comes to a key without a value.
* **`conf_inBounds_iff`** — the texts that are never left. -/

namespace Jrinx

/-! ## The tables -/

/-- The decoders. -/
inductive ConfTable where
  /-- `do_partitions_create`. -/
  | partitions
  /-- `do_sched_create`. -/
  | sched
  /-- `do_queuing_ports_register`. -/
  | queuingPorts
  /-- `do_channel_create`. -/
  | channel
  deriving DecidableEq, Repr

namespace ConfTable

/-- The records of a table. -/
abbrev Record : ConfTable → Type
  | partitions => PartConf
  | sched => SchedConf
  | queuingPorts => QueuingPortConf
  | channel => ChannelConf

/-- The keys that a decoder knows. It expects as many fields in a record. -/
def keys : ConfTable → List String
  | partitions => ["name", "prog", "memory", "period", "duration"]
  | sched => ["part", "offset", "duration"]
  | queuingPorts => ["name", "part", "direction", "max-msg-size", "max-nb-msg"]
  | channel => ["media", "type", "ports"]

/-- The size of a record. -/
def size : ConfTable → Nat
  | partitions => 40
  | sched => 24
  | queuingPorts => 64
  | channel => 16

/-- What a decoder does with one field. `kalloc` gives the blocks it is asked for. -/
def field : (t : ConfTable) → String → List Char → t.Record → Except ConfError (t.Record × List Char)
  | partitions => plainField partField
  | sched => plainField schedField
  | queuingPorts => plainField portField
  | channel => chanField fun _ => true

/-- The records that a decoder fills. -/
def decode (t : ConfTable) (uninit : Nat → t.Record) (conf : List Char) : Except ConfError (List t.Record) :=
  confDecode t.field t.keys.length t.size (fun _ => true) uninit conf

/-- One field, with a look at the address of the value. For every key that a decoder knows this address is
read or handed on; behind the terminator of the text it is outside. -/
def checked (t : ConfTable) (key : String) (value : List Char) (r : t.Record) :
    Except ConfError (t.Record × List Char) :=
  if key ∈ t.keys ∧ value = [] then .error .fault else t.field key value r

/-- **A text that is not left**: nothing behind its terminator is read, written or handed on. -/
def InBounds (t : ConfTable) (uninit : Nat → t.Record) (conf : CString) : Prop :=
  confDecode t.checked t.keys.length t.size (fun _ => true) uninit conf.val ≠ .error .fault

/-- The values that a decoder refuses for a key. -/
def rejects : ConfTable → String → String → Bool
  | partitions, key, value => key = "memory" && sizeOfInt (atoi value) = 0
  | sched, _, _ => false
  | queuingPorts, key, value => key = "direction" && value ≠ "src" && value ≠ "dst"
  | channel, key, value =>
      key = "media" && value ≠ "memory" || key = "type" && value ≠ "queuing" && value ≠ "sampling"

/-- The decoder knows the key and does not refuse the value. -/
def Accepts (t : ConfTable) (key value : List Char) : Prop :=
  String.ofList key ∈ t.keys ∧ t.rejects (String.ofList key) (String.ofList value) = false

/-- The names behind the first one in a list of ports: after the field, the walk goes on at the second. -/
def more (t : ConfTable) (key value : List Char) : List (List Char) :=
  if t = channel ∧ String.ofList key = "ports" then (value.splitOn '&').tail else []

/-- **The walk comes to a key that ends the text**, within the given number of fields. -/
inductive Overruns (t : ConfTable) : Nat → List (List Char) → Prop where
  | last {n : Nat} {key : List Char} (h : String.ofList key ∈ t.keys) : Overruns t (n + 1) [key]
  | field {n : Nat} {key value : List Char} {rest : List (List Char)} (h : t.Accepts key value)
      (hrest : Overruns t n (t.more key value ++ rest)) : Overruns t (n + 1) (key :: value :: rest)

end ConfTable

/-- The strings between the separators. -/
def pieces (conf : List Char) : List (List Char) := (conf.map sepToNul).splitOn nul

/-! ## The strings of a text -/

theorem notMem_of_mem_splitOn {c : Char} {text w : List Char} (h : w ∈ text.splitOn c) : c ∉ w := by
  induction text generalizing w with
  | nil =>
      rw [List.splitOn_nil, List.mem_singleton] at h
      simp [h]
  | cons d text ih =>
      rw [List.splitOn_cons_eq_if_modifyHead] at h
      split at h
      · rcases List.mem_cons.mp h with rfl | h
        · exact List.not_mem_nil
        · exact ih h
      · rename_i hd
        obtain ⟨v, vs, hsplit⟩ := List.exists_cons_of_ne_nil (List.splitOn_ne_nil c text)
        rw [hsplit, List.modifyHead_cons] at h
        rcases List.mem_cons.mp h with rfl | h
        · intro hmem
          rcases List.mem_cons.mp hmem with rfl | hmem
          · exact hd (by simp)
          · exact ih (hsplit ▸ List.mem_cons_self) hmem
        · exact ih (hsplit ▸ List.mem_cons_of_mem v h)

theorem mem_of_mem_splitOn {c d : Char} {text w : List Char} (h : w ∈ text.splitOn c) (hd : d ∈ w) :
    d ∈ text := by
  have hjoin : [c].intercalate (text.splitOn c) = text := List.intercalate_splitOn c
  rw [← hjoin]
  exact mem_intercalate_of_mem [c] h hd

theorem pieces_ne_nil (conf : List Char) : pieces conf ≠ [] := List.splitOn_ne_nil nul _

theorem nul_notMem_pieces {conf w : List Char} (h : w ∈ pieces conf) : nul ∉ w := notMem_of_mem_splitOn h

/-- **The copy of a text** has its pieces one after the other. -/
theorem confRaw_eq_strings (conf : List Char) : confRaw conf = strings (pieces conf) := by
  have hjoin : [nul].intercalate (pieces conf) = conf.map sepToNul := List.intercalate_splitOn nul
  rw [strings, ← intercalate_append_sep [nul] (pieces_ne_nil conf), hjoin]
  rfl

/-- The names of ports are cut apart in place. -/
theorem splitPorts_eq {v : List Char} (hv : nul ∉ v) (rest : List Char) :
    splitPorts (v ++ nul :: rest) = strings (v.splitOn '&') ++ rest := by
  induction v with
  | nil => simp [splitPorts]
  | cons c v ih =>
      obtain ⟨hc, hv⟩ := List.ne_and_not_mem_of_not_mem_cons hv
      rw [List.cons_append, splitPorts, if_neg fun h => hc h.symm, List.splitOn_cons_eq_if_modifyHead, ih hv]
      by_cases hamp : c = '&'
      · simp [hamp]
      · obtain ⟨w, ws, hsplit⟩ := List.exists_cons_of_ne_nil (List.splitOn_ne_nil '&' v)
        rw [if_neg hamp, if_neg (by simpa using hamp), hsplit]
        simp

/-! ## One field -/

namespace ConfTable

variable {t : ConfTable} {key v rest : List Char} {r : t.Record}

theorem field_unknown {k : String} (h : k ∉ t.keys) (value : List Char) (r : t.Record) :
    t.field k value r = .error .argEr := by
  cases t with
  | partitions =>
      simp only [keys, List.mem_cons, List.not_mem_nil, or_false, not_or] at h
      simp [field, plainField, partField, h]
  | sched =>
      simp only [keys, List.mem_cons, List.not_mem_nil, or_false, not_or] at h
      simp [field, plainField, schedField, h]
  | queuingPorts =>
      simp only [keys, List.mem_cons, List.not_mem_nil, or_false, not_or] at h
      simp [field, plainField, portField, h]
  | channel =>
      simp only [keys, List.mem_cons, List.not_mem_nil, or_false, not_or] at h
      simp [field, chanField, h]

/-- A plain field whose value is one string. -/
theorem plainField_string {ρ : Type} (store : String → String → ρ → Option ρ) (k : String) (hv : nul ∉ v)
    (rest : List Char) (r : ρ) : plainField store k (v ++ nul :: rest) r =
      (store k (String.ofList v) r).elim (.error .argEr) fun r' => .ok (r', v ++ nul :: rest) := by
  rw [plainField, cstr_append hv]
  cases store k (String.ofList v) r <;> rfl

theorem field_rejects {k : String} (hv : nul ∉ v) (h : t.rejects k (String.ofList v) = true)
    (rest : List Char) (r : t.Record) : t.field k (v ++ nul :: rest) r = .error .argEr := by
  cases t with
  | partitions =>
      simp only [rejects, Bool.and_eq_true, decide_eq_true_eq] at h
      rw [field, plainField_string _ _ hv]
      simp [partField, h.1, h.2]
  | sched => exact absurd h (by simp [rejects])
  | queuingPorts =>
      simp only [rejects, Bool.and_eq_true, decide_eq_true_eq] at h
      rw [field, plainField_string _ _ hv]
      simp [portField, h]
  | channel =>
      simp only [rejects, Bool.or_eq_true, Bool.and_eq_true, decide_eq_true_eq] at h
      rw [field, chanField, cstr_append hv]
      rcases h with ⟨rfl, hv'⟩ | ⟨⟨rfl, hv'⟩, hv''⟩
      · simp [hv']
      · simp [hv', hv'']

/-- **A field that is taken**: the walk goes on behind the first name of the value. -/
theorem field_accepts (hv : nul ∉ v) (h : t.Accepts key v) (rest : List Char) (r : t.Record) :
    ∃ r' v', nul ∉ v' ∧ t.field (String.ofList key) (v ++ nul :: rest) r =
      .ok (r', v' ++ nul :: (strings (t.more key v) ++ rest)) := by
  obtain ⟨hkey, hvalue⟩ := h
  cases t with
  | partitions =>
      -- a memory of nothing is refused, and nothing else
      obtain ⟨r', hr'⟩ : ∃ r', partField (String.ofList key) (String.ofList v) r = some r' := by
        simp only [keys, List.mem_cons, List.not_mem_nil, or_false] at hkey
        simp only [rejects, Bool.and_eq_false_iff, decide_eq_false_iff_not] at hvalue
        rcases hkey with hk | hk | hk | hk | hk <;> simp_all [partField]
      refine ⟨r', v, hv, ?_⟩
      rw [field, plainField_string _ _ hv, hr', more, if_neg (by simp)]
      rfl
  | sched =>
      obtain ⟨r', hr'⟩ : ∃ r', schedField (String.ofList key) (String.ofList v) r = some r' := by
        simp only [keys, List.mem_cons, List.not_mem_nil, or_false] at hkey
        rcases hkey with hk | hk | hk <;> simp [schedField, hk]
      refine ⟨r', v, hv, ?_⟩
      rw [field, plainField_string _ _ hv, hr', more, if_neg (by simp)]
      rfl
  | queuingPorts =>
      obtain ⟨r', hr'⟩ : ∃ r', portField (String.ofList key) (String.ofList v) r = some r' := by
        simp only [keys, List.mem_cons, List.not_mem_nil, or_false] at hkey
        rcases hkey with hk | hk | hk | hk | hk
        · simp [portField, hk]
        · simp [portField, hk]
        · by_cases hsrc : String.ofList v = "src"
          · simp [portField, hk, hsrc]
          · have hdst : String.ofList v = "dst" := by simpa [rejects, hk, hsrc] using hvalue
            simp [portField, hk, hdst]
        · simp [portField, hk]
        · simp [portField, hk]
      refine ⟨r', v, hv, ?_⟩
      rw [field, plainField_string _ _ hv, hr', more, if_neg (by simp)]
      rfl
  | channel =>
      simp only [keys, List.mem_cons, List.not_mem_nil, or_false] at hkey
      rw [field, chanField, cstr_append hv]
      rcases hkey with hk | hk | hk
      · have hmem : String.ofList v = "memory" := by simpa [rejects, hk] using hvalue
        exact ⟨r, v, hv, by simp [hk, hmem, more]⟩
      · by_cases hq : String.ofList v = "queuing"
        · exact ⟨_, v, hv, by simp [hk, hq, more]; rfl⟩
        · have hs : String.ofList v = "sampling" := by simpa [rejects, hk, hq] using hvalue
          exact ⟨_, v, hv, by simp [hk, hs, more]; rfl⟩
      · -- the names are cut apart, and the first one is left in front of the walk
        obtain ⟨w, ws, hsplit⟩ := List.exists_cons_of_ne_nil (List.splitOn_ne_nil '&' v)
        have hw : nul ∉ w := fun h => hv (mem_of_mem_splitOn (hsplit ▸ List.mem_cons_self) h)
        have hbuf : splitPorts (v ++ nul :: rest) = w ++ nul :: (strings (channel.more key v) ++ rest) := by
          rw [splitPorts_eq hv, hsplit, strings_cons, more, if_pos ⟨rfl, hk⟩, hsplit, List.append_assoc]
          rfl
        exact ⟨{ r with ccPortNames := portNames (v.count '&' + 1) (splitPorts (v ++ nul :: rest)) }, w, hw,
          by simp [hk, hbuf]⟩

/-! ## The look at the addresses -/

/-- The inner loop does what it does without the look, as long as it does not leave the text. -/
theorem confItem_checked_eq (n : Nat) (r : t.Record) (buf : List Char)
    (h : confItem t.checked n r buf ≠ .error .fault) :
    confItem t.checked n r buf = confItem t.field n r buf := by
  induction n generalizing r buf with
  | zero => rfl
  | succ n ih =>
      rw [confItem, confItem]
      rw [confItem] at h
      split_ifs at h ⊢ with hbuf
      · rfl
      by_cases hlook : String.ofList (cstr buf) ∈ t.keys ∧ buf.drop ((cstr buf).length + 1) = []
      · exact absurd (by simp only [checked, if_pos hlook]) h
      · simp only [checked, if_neg hlook] at h ⊢
        cases hfield : t.field (String.ofList (cstr buf)) (buf.drop ((cstr buf).length + 1)) r with
        | error e => rfl
        | ok out =>
            rw [hfield] at h
            dsimp only at h ⊢
            cases hskip : (skipStr (buf.take ((cstr buf).length + 1) ++ out.2)).bind skipStr with
            | none => rfl
            | some buf' =>
                rw [hskip] at h
                exact ih out.1 buf' h

/-- The outer loop likewise. -/
theorem confItems_checked_eq (n cnt : Nat) (uninit : Nat → t.Record) (p : Nat) (buf : List Char)
    (h : confItems t.checked n uninit p cnt buf ≠ .error .fault) :
    confItems t.checked n uninit p cnt buf = confItems t.field n uninit p cnt buf := by
  induction cnt generalizing p buf with
  | zero => rfl
  | succ cnt ih =>
      rw [confItems, confItems]
      rw [confItems] at h
      have hitem := confItem_checked_eq n (uninit p) buf
      cases hone : confItem t.checked n (uninit p) buf with
      | error e =>
          rw [hone] at h hitem
          rw [← hitem fun he => h (by rw [he])]
      | ok out =>
          rw [hone] at h hitem
          rw [← hitem (by simp)]
          dsimp only at h ⊢
          rw [ih (p + 1) out.2 fun he => h (by rw [he])]

/-- **In a text that is not left** the look changes nothing. -/
theorem decode_of_inBounds {uninit : Nat → t.Record} {conf : CString} (h : t.InBounds uninit conf) :
    t.decode uninit conf.val = confDecode t.checked t.keys.length t.size (fun _ => true) uninit conf.val := by
  rw [InBounds, confDecode] at h
  rw [decode, confDecode, confDecode]
  split_ifs at h ⊢
  · exact (confItems_checked_eq _ _ uninit 0 _ h).symm
  · exact absurd rfl h

/-! ## The walk -/

theorem not_overruns_zero {ws : List (List Char)} : ¬ t.Overruns 0 ws := by
  intro h
  cases h

theorem not_overruns_nil {n : Nat} : ¬ t.Overruns n [] := by
  intro h
  cases h

theorem Overruns.known {n : Nat} {ws : List (List Char)} (h : t.Overruns n (key :: ws)) :
    String.ofList key ∈ t.keys := by
  cases h with
  | last h => exact h
  | field h _ => exact h.1

theorem overruns_field {n : Nat} {ws : List (List Char)} : t.Overruns (n + 1) (key :: v :: ws) ↔
    t.Accepts key v ∧ t.Overruns n (t.more key v ++ ws) := by
  constructor
  · intro h
    cases h with
    | field h hrest => exact ⟨h, hrest⟩
  · rintro ⟨h, hrest⟩
    exact .field h hrest

theorem nul_notMem_more (hv : nul ∉ v) : ∀ w ∈ t.more key v, nul ∉ w := by
  intro w hw
  rw [more] at hw
  split at hw
  · exact fun hnul => hv (mem_of_mem_splitOn (List.mem_of_mem_tail hw) hnul)
  · exact absurd hw List.not_mem_nil

/-- A field with a value is not outside of the text. -/
theorem checked_cons (t : ConfTable) (k : String) (value : List Char) (hne : value ≠ []) (r : t.Record) :
    t.checked k value r = t.field k value r := if_neg fun h => hne h.2

/-- **The inner loop**: it leaves the text, it refuses it, or it goes on behind its fields, and `m` more
fields leave the text from there exactly when they would from the start. The induction is on the fields. -/
theorem confItem_checked (n m : Nat) {ws : List (List Char)} (hws : ∀ w ∈ ws, nul ∉ w) (r : t.Record) :
    confItem t.checked n r (strings ws) = .error .fault ∧ t.Overruns (n + m) ws ∨
    confItem t.checked n r (strings ws) = .error .argEr ∧ ¬ t.Overruns (n + m) ws ∨
    ∃ r' ws', confItem t.checked n r (strings ws) = .ok (r', strings ws') ∧ (∀ w ∈ ws', nul ∉ w) ∧
      (t.Overruns (n + m) ws ↔ t.Overruns m ws') := by
  induction n generalizing ws r with
  | zero => exact Or.inr (Or.inr ⟨r, ws, rfl, hws, by rw [Nat.zero_add]⟩)
  | succ n ih =>
      cases ws with
      | nil => exact Or.inr (Or.inl ⟨rfl, not_overruns_nil⟩)
      | cons key ws =>
          obtain ⟨hkey, hws⟩ := List.forall_mem_cons.mp hws
          have hkey' : nul ∉ (String.ofList key).toList := by rwa [String.toList_ofList]
          have hbuf : ∀ value, key ++ nul :: value = (String.ofList key).toList ++ nul :: value := by
            intro value
            rw [String.toList_ofList]
          rw [strings_cons, hbuf]
          by_cases hknown : String.ofList key ∈ t.keys
          · cases ws with
            | nil =>
                -- the key ends the text
                have hfault : t.checked (String.ofList key) (strings []) r = .error .fault :=
                  if_pos ⟨hknown, rfl⟩
                refine Or.inl ⟨confItem_error hkey' hfault, ?_⟩
                rw [Nat.add_right_comm]
                exact .last hknown
            | cons v rest =>
                obtain ⟨hv, hrest⟩ := List.forall_mem_cons.mp hws
                rw [strings_cons]
                have hchecked := t.checked_cons (String.ofList key) (v ++ nul :: strings rest) (by simp) r
                by_cases hvalue : t.rejects (String.ofList key) (String.ofList v) = true
                · refine Or.inr (Or.inl ⟨confItem_error hkey' ?_, fun h => ?_⟩)
                  · rw [hchecked, field_rejects hv hvalue]
                  · rw [Nat.add_right_comm, overruns_field] at h
                    exact Bool.false_ne_true (h.1.2.symm.trans hvalue)
                · have haccepts : t.Accepts key v := ⟨hknown, by simpa using hvalue⟩
                  obtain ⟨r', v', hv', hfield⟩ := field_accepts hv haccepts (strings rest) r
                  rw [confItem_ok hkey' hv' (hchecked.trans hfield), ← strings_append, Nat.add_right_comm,
                    overruns_field, and_iff_right haccepts]
                  refine ih (fun w hw => ?_) r'
                  rcases List.mem_append.mp hw with hw | hw
                  · exact nul_notMem_more hv w hw
                  · exact hrest w hw
          · have hunknown : t.checked (String.ofList key) (strings ws) r = .error .argEr := by
              rw [checked, if_neg fun h => hknown h.1, field_unknown hknown]
            exact Or.inr (Or.inl ⟨confItem_error hkey' hunknown, fun h => hknown h.known⟩)

/-- **The outer loop.** -/
theorem confItems_checked (cnt : Nat) {ws : List (List Char)} (hws : ∀ w ∈ ws, nul ∉ w)
    (uninit : Nat → t.Record) (p : Nat) :
    confItems t.checked t.keys.length uninit p cnt (strings ws) = .error .fault ↔
      t.Overruns (cnt * t.keys.length) ws := by
  induction cnt generalizing ws p with
  | zero =>
      rw [Nat.zero_mul]
      exact iff_of_false (by simp [confItems]) not_overruns_zero
  | succ cnt ih =>
      have hcount : (cnt + 1) * t.keys.length = t.keys.length + cnt * t.keys.length := by
        rw [Nat.succ_mul, Nat.add_comm]
      rw [hcount, confItems]
      rcases confItem_checked t.keys.length (cnt * t.keys.length) hws (uninit p) with
        ⟨herr, hover⟩ | ⟨herr, hover⟩ | ⟨r', ws', hok, hws', hover⟩
      · rw [herr]
        exact iff_of_true rfl hover
      · rw [herr]
        exact iff_of_false (by simp) hover
      · simp only [hok]
        rw [hover, ← ih hws' (p + 1)]
        cases confItems t.checked t.keys.length uninit (p + 1) cnt (strings ws') <;> simp

end ConfTable

/-- **The decoders stay inside of their text** exactly when `strlen` can count it and their walk does not
come to a key that ends it while a field of a record is missing. -/
theorem conf_inBounds_iff (t : ConfTable) (uninit : Nat → t.Record) (conf : CString) :
    t.InBounds uninit conf ↔ conf.val.length < 2 ^ 31 ∧
      ¬ t.Overruns ((conf.val.count ';' + 1) * t.keys.length) (pieces conf.val) := by
  rw [ConfTable.InBounds, confDecode, cstr_eq_self conf.property]
  by_cases hlen : conf.val.length < 2 ^ 31
  · rw [if_pos ⟨hlen, rfl, rfl⟩, confRaw_eq_strings, ne_eq,
      ConfTable.confItems_checked _ (fun w hw => nul_notMem_pieces hw), and_iff_right hlen]
  · rw [if_neg fun h => hlen h.1]
    exact iff_of_false (fun h => h rfl) fun h => hlen h.1

/-- A partition whose only field is a key: the name of the partition is behind the text. -/
theorem conf_overruns_name : ¬ ∀ t uninit conf, ConfTable.InBounds t uninit conf := by
  intro h
  refine h .partitions (fun _ => ⟨"", "", 0, 0, 0⟩) ⟨"name".toList, by decide⟩ ?_
  have hfault : ConfTable.partitions.checked "name" [] ⟨"", "", 0, 0, 0⟩ = .error .fault := if_pos (by decide)
  have hitem := confItem_error (n := 4) (by decide) hfault
  rw [confDecode, cstr_eq_self (by decide), if_pos (by decide)]
  show confItems ConfTable.partitions.checked 5 _ 0 1 ("name".toList ++ nul :: []) = _
  rw [confItems, hitem]

end Jrinx
