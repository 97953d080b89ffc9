import Jrinx.Boot.Bootargs

/-! # Tables in the boot arguments

A table is a list of items, an item a list of keys with their values. In the text the items are joined by
semicolons, the fields of an item by commas, and a key and its value by an equals sign.

* **`tableText`**, **`confRaw_tableText`** — the text, and the strings that the decoders make of it.
* **`confItem_strings`**, **`confItems_strings`** — what the two loops read from such strings. -/

namespace Jrinx

/-- An item of a table. -/
abbrev Fields : Type := List (String × String)

/-- The strings of an item. -/
def fieldStrings (it : Fields) : List (List Char) := it.flatMap fun kv => [kv.1.toList, kv.2.toList]

/-- The text of a field. -/
def fieldText (kv : String × String) : List Char := kv.1.toList ++ '=' :: kv.2.toList

/-- The text of a table. -/
def tableText (items : List Fields) : List Char :=
  [';'].intercalate (items.map fun it => [','].intercalate (it.map fieldText))

/-- A string without separators and terminators. -/
def Plain (w : String) : Prop := ∀ c ∈ w.toList, c ≠ ';' ∧ c ≠ ',' ∧ c ≠ '=' ∧ c ≠ nul

instance : DecidablePred Plain := fun w =>
  List.decidableBAll (fun c => c ≠ ';' ∧ c ≠ ',' ∧ c ≠ '=' ∧ c ≠ nul) w.toList

/-- A table of items with fields, which are plain strings. -/
structure PlainTable (items : List Fields) : Prop where
  plain : ∀ it ∈ items, ∀ kv ∈ it, Plain kv.1 ∧ Plain kv.2
  fields : ∀ it ∈ items, it ≠ []

variable {w : String} {items : List Fields}

theorem Plain.nul_notMem (h : Plain w) : nul ∉ w.toList := fun hmem => (h nul hmem).2.2.2 rfl

/-- The replacement of the separators. -/
def sepToNul (c : Char) : Char := if c = ';' ∨ c = ',' ∨ c = '=' then nul else c

theorem Plain.map_sepToNul (h : Plain w) : w.toList.map sepToNul = w.toList := by
  have hid : ∀ c ∈ w.toList, sepToNul c = id c := by
    intro c hc
    obtain ⟨h₁, h₂, h₃, -⟩ := h c hc
    simp [sepToNul, h₁, h₂, h₃]
  rw [List.map_congr_left hid, List.map_id]

/-! ## The text as strings -/

theorem map_fieldText {kv : String × String} (hk : Plain kv.1) (hv : Plain kv.2) :
    (fieldText kv).map sepToNul = kv.1.toList ++ nul :: kv.2.toList := by
  rw [fieldText, List.map_append, List.map_cons, hk.map_sepToNul, hv.map_sepToNul]
  rfl

theorem strings_fieldStrings (it : Fields) :
    strings (fieldStrings it) = it.flatMap fun kv => kv.1.toList ++ nul :: kv.2.toList ++ [nul] := by
  induction it with
  | nil => rfl
  | cons kv it ih =>
      rw [fieldStrings, List.flatMap_cons, strings_append, ← fieldStrings, ih, List.flatMap_cons]
      simp

/-- **The separators become terminators.** -/
theorem confRaw_tableText (h : PlainTable items) (hne : items ≠ []) :
    confRaw (tableText items) = strings (items.flatMap fieldStrings) := by
  have hitem : ∀ it ∈ items, ([','].intercalate (it.map fieldText)).map sepToNul ++ [nul] =
      strings (fieldStrings it) := by
    intro it hit
    have hmap : (it.map fieldText).map (List.map sepToNul) =
        it.map fun kv => kv.1.toList ++ nul :: kv.2.toList := by
      rw [List.map_map]
      refine List.map_congr_left fun kv hkv => ?_
      exact map_fieldText (h.plain it hit kv hkv).1 (h.plain it hit kv hkv).2
    have hsep : [','].map sepToNul = [nul] := by simp [sepToNul]
    rw [map_intercalate, hmap, hsep, intercalate_append_sep _ (by simpa using h.fields it hit),
      strings_fieldStrings, List.flatMap_map]
  have hsep : [';'].map sepToNul = [nul] := by simp [sepToNul]
  show (tableText items).map sepToNul ++ [nul] = _
  rw [tableText, map_intercalate, hsep, intercalate_append_sep _ (by simpa using hne), List.flatMap_map,
    List.flatMap_map]
  -- item by item
  clear hne hsep
  induction items with
  | nil => rfl
  | cons it items ih =>
      rw [List.flatMap_cons, List.flatMap_cons, strings_append, hitem it (by simp)]
      refine congrArg _ (ih ⟨fun i hi => ?_, fun i hi => ?_⟩ fun i hi => ?_)
      · exact h.plain i (List.mem_cons_of_mem it hi)
      · exact h.fields i (List.mem_cons_of_mem it hi)
      · exact hitem i (List.mem_cons_of_mem it hi)

/-- The text contains no other characters than its strings and the separators. -/
theorem of_mem_tableText {c : Char} (h : c ∈ tableText items) :
    c = ';' ∨ c = ',' ∨ c = '=' ∨ ∃ it ∈ items, ∃ kv ∈ it, c ∈ kv.1.toList ∨ c ∈ kv.2.toList := by
  rcases mem_intercalate h with hc | ⟨_, ht, hc⟩
  · exact Or.inl (by simpa using hc)
  obtain ⟨it, hit, rfl⟩ := List.mem_map.mp ht
  rcases mem_intercalate hc with hc | ⟨_, ht, hc⟩
  · exact Or.inr (Or.inl (by simpa using hc))
  obtain ⟨kv, hkv, rfl⟩ := List.mem_map.mp ht
  rcases List.mem_append.mp hc with hc | hc
  · exact Or.inr (Or.inr (Or.inr ⟨it, hit, kv, hkv, Or.inl hc⟩))
  · rcases List.mem_cons.mp hc with rfl | hc
    · exact Or.inr (Or.inr (Or.inl rfl))
    · exact Or.inr (Or.inr (Or.inr ⟨it, hit, kv, hkv, Or.inr hc⟩))

theorem PlainTable.nul_notMem (h : PlainTable items) : nul ∉ tableText items := by
  intro hmem
  rcases of_mem_tableText hmem with hc | hc | hc | ⟨it, hit, kv, hkv, hc | hc⟩
  · exact absurd hc (by decide)
  · exact absurd hc (by decide)
  · exact absurd hc (by decide)
  · exact (h.plain it hit kv hkv).1.nul_notMem hc
  · exact (h.plain it hit kv hkv).2.nul_notMem hc

/-- The semicolons count the items. -/
theorem PlainTable.count (h : PlainTable items) (hne : items ≠ []) :
    (tableText items).count ';' + 1 = items.length := by
  have hparts : ∀ t ∈ items.map (fun it => [','].intercalate (it.map fieldText)), ';' ∉ t := by
    intro t ht hc
    obtain ⟨it, hit, rfl⟩ := List.mem_map.mp ht
    rcases mem_intercalate hc with hc | ⟨_, ht, hc⟩
    · exact absurd hc (by decide)
    obtain ⟨kv, hkv, rfl⟩ := List.mem_map.mp ht
    rcases List.mem_append.mp hc with hc | hc
    · exact ((h.plain it hit kv hkv).1 _ hc).1 rfl
    · rcases List.mem_cons.mp hc with hc | hc
      · exact absurd hc (by decide)
      · exact ((h.plain it hit kv hkv).2 _ hc).1 rfl
  rw [tableText, count_intercalate ';' (by simpa using hne) hparts, List.length_map]

/-! ## The walk over the strings -/

section Walk

variable {ρ : Type}

section Field

variable {field : String → List Char → ρ → Except ConfError (ρ × List Char)} {r r' : ρ} {n : ℕ}
  {key : String} {buf value rest : List Char}

/-- A field that is refused ends the walk. -/
theorem confItem_error {e : ConfError} (hk : nul ∉ key.toList) (h : field key buf r = .error e) :
    confItem field (n + 1) r (key.toList ++ nul :: buf) = .error e := by
  rw [confItem, if_neg (by simp)]
  simp only [cstr_append hk, drop_append, String.ofList_toList, h]

/-- Behind a field, the walk goes on after the first string of its value. -/
theorem confItem_ok (hk : nul ∉ key.toList) (hv : nul ∉ value)
    (h : field key buf r = .ok (r', value ++ nul :: rest)) :
    confItem field (n + 1) r (key.toList ++ nul :: buf) = confItem field n r' rest := by
  rw [confItem, if_neg (by simp)]
  simp only [cstr_append hk, drop_append, String.ofList_toList, h, take_append]
  rw [List.append_assoc, List.singleton_append, skipStr_append hk, Option.bind_some, skipStr_append hv]

end Field

variable (store : String → String → ρ → Option ρ)

/-- The fields of an item are stored one after the other. -/
def storeItem (it : Fields) (r : ρ) : Option ρ :=
  it.foldlM (fun r kv => store kv.1 kv.2 r) r

/-- The records of a table. -/
def storeItems (uninit : Nat → ρ) (p : Nat) :
    List Fields → Option (List ρ)
  | [] => some []
  | it :: items =>
      (storeItem store it (uninit p)).bind fun r =>
        (storeItems uninit (p + 1) items).map (List.cons r)

/-- **The inner loop** stores the fields of the item in front of it. -/
theorem confItem_strings (it : Fields) (h : ∀ kv ∈ it, Plain kv.1 ∧ Plain kv.2) (r : ρ) (buf : List Char) :
    confItem (plainField store) it.length r (strings (fieldStrings it) ++ buf) =
      (storeItem store it r).elim (.error .argEr) fun r => .ok (r, buf) := by
  induction it generalizing r with
  | nil => rfl
  | cons kv it ih =>
      obtain ⟨hk, hv⟩ := h kv (by simp)
      have htext : strings (fieldStrings (kv :: it)) ++ buf =
          kv.1.toList ++ nul :: (kv.2.toList ++ nul :: (strings (fieldStrings it) ++ buf)) := by
        simp [fieldStrings]
      rw [htext, List.length_cons, storeItem, List.foldlM_cons]
      cases hs : store kv.1 kv.2 r with
      | none =>
          have hfield : plainField store kv.1 (kv.2.toList ++ nul :: (strings (fieldStrings it) ++ buf)) r =
              .error .argEr := by
            rw [plainField, cstr_append hv.nul_notMem, String.ofList_toList, hs]
          exact confItem_error hk.nul_notMem hfield
      | some r' =>
          have hfield : plainField store kv.1 (kv.2.toList ++ nul :: (strings (fieldStrings it) ++ buf)) r =
              .ok (r', kv.2.toList ++ nul :: (strings (fieldStrings it) ++ buf)) := by
            rw [plainField, cstr_append hv.nul_notMem, String.ofList_toList, hs]
          rw [confItem_ok hk.nul_notMem hv.nul_notMem hfield]
          exact ih (fun kv' hkv' => h kv' (List.mem_cons_of_mem kv hkv')) r'

/-- **The outer loop** stores the items of the table. -/
theorem confItems_strings {n : ℕ} (h : PlainTable items) (hlen : ∀ it ∈ items, it.length = n)
    (uninit : ℕ → ρ) (p : ℕ) :
    confItems (plainField store) n uninit p items.length (strings (items.flatMap fieldStrings)) =
      (storeItems store uninit p items).elim (.error .argEr) .ok := by
  induction items generalizing p with
  | nil => rfl
  | cons it items ih =>
      have hone := confItem_strings store it (h.plain it (by simp)) (uninit p)
        (strings (items.flatMap fieldStrings))
      have hrest := ih ⟨fun i hi => h.plain i (List.mem_cons_of_mem it hi), fun i hi =>
        h.fields i (List.mem_cons_of_mem it hi)⟩ (fun i hi => hlen i (List.mem_cons_of_mem it hi)) (p + 1)
      rw [hlen it (by simp)] at hone
      rw [List.flatMap_cons, strings_append, List.length_cons, confItems, hone, storeItems]
      cases storeItem store it (uninit p) with
      | none => rfl
      | some r =>
          simp only [Option.elim_some, Option.bind_some]
          rw [hrest]
          cases storeItems store uninit (p + 1) items <;> rfl

end Walk

end Jrinx
