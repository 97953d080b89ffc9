import Mathlib.Data.List.TakeWhile

/-! # Texts of C strings

A text is a list of characters. A pointer into it is the rest of the list from there on, so that a scan is a
recursion on the list, and a read past the end of the text is a failure.

* **`cstr`**, **`skipStr`** — the string at a pointer, and the loop `while (*p++ != '\0')`.
* **`strings`** — strings laid one after the other, and what the two scans find there.
* **`map_intercalate`**, **`intercalate_append_sep`** — a text whose parts are joined by a separator becomes
  such strings when the separator is replaced by the terminator. -/

namespace Jrinx

/-- The terminator of a C string. -/
def nul : Char := Char.ofNat 0

/-- The string at a pointer. -/
def cstr (buf : List Char) : List Char := buf.takeWhile (· ≠ nul)

/-- `while (*p++ != '\0')`; `none` is a read past the end. -/
def skipStr : List Char → Option (List Char)
  | [] => none
  | c :: buf => if c = nul then some buf else skipStr buf

/-- Strings laid one after the other, each with its terminator. -/
def strings (ws : List (List Char)) : List Char := ws.flatMap (· ++ [nul])

variable {w buf : List Char}

theorem nul_notMem_cstr (buf : List Char) : nul ∉ cstr buf := by
  intro h
  have hne := List.mem_takeWhile_imp h
  simp at hne

theorem cstr_eq_self (h : nul ∉ w) : cstr w = w := by
  rw [cstr, List.takeWhile_eq_self_iff]
  intro c hc
  simp only [decide_eq_true_eq]
  exact fun heq => h (heq ▸ hc)

theorem cstr_append (h : nul ∉ w) (buf : List Char) : cstr (w ++ nul :: buf) = w := by
  induction w with
  | nil => simp [cstr]
  | cons c w ih =>
      obtain ⟨hc, hw⟩ := List.ne_and_not_mem_of_not_mem_cons h
      have hne : c ≠ nul := fun heq => hc heq.symm
      rw [List.cons_append, cstr, List.takeWhile_cons_of_pos (by simpa using hne)]
      exact congrArg (List.cons c) (ih hw)

theorem skipStr_append (h : nul ∉ w) (buf : List Char) : skipStr (w ++ nul :: buf) = some buf := by
  induction w with
  | nil => simp [skipStr]
  | cons c w ih =>
      obtain ⟨hc, hw⟩ := List.ne_and_not_mem_of_not_mem_cons h
      rw [List.cons_append, skipStr, if_neg fun heq => hc heq.symm]
      exact ih hw

/-- The pointer behind the terminator of a string. -/
theorem drop_append (w buf : List Char) : (w ++ nul :: buf).drop (w.length + 1) = buf := by
  rw [← List.drop_drop, List.drop_left]
  rfl

theorem take_append (w buf : List Char) : (w ++ nul :: buf).take (w.length + 1) = w ++ [nul] := by
  rw [List.take_append, List.take_of_length_le (Nat.le_succ _), Nat.add_sub_cancel_left]
  rfl

@[simp] theorem strings_nil : strings [] = [] := rfl

@[simp] theorem strings_cons (w : List Char) (ws : List (List Char)) :
    strings (w :: ws) = w ++ nul :: strings ws := by
  simp [strings]

theorem strings_append (ws ws' : List (List Char)) : strings (ws ++ ws') = strings ws ++ strings ws' := by
  simp [strings]

/-! ## Joined texts -/

variable {α β : Type*}

theorem map_intercalate (f : α → β) (sep : List α) (ws : List (List α)) :
    (sep.intercalate ws).map f = (sep.map f).intercalate (ws.map (List.map f)) := by
  induction ws with
  | nil => simp [List.intercalate]
  | cons w ws ih =>
      cases ws with
      | nil => simp [List.intercalate]
      | cons w' ws =>
          simp only [List.map_cons, List.intercalate_cons_cons, List.map_append] at ih ⊢
          rw [ih]

/-- With one more separator at the end, every part has its own. -/
theorem intercalate_append_sep (sep : List α) {ws : List (List α)} (h : ws ≠ []) :
    sep.intercalate ws ++ sep = ws.flatMap (· ++ sep) := by
  induction ws with
  | nil => exact absurd rfl h
  | cons w ws ih =>
      cases ws with
      | nil => simp [List.intercalate]
      | cons w' ws =>
          rw [List.intercalate_cons_cons, List.append_assoc, ih (by simp), List.flatMap_cons]
          simp

theorem mem_intercalate {c : α} {sep : List α} {ws : List (List α)} (h : c ∈ sep.intercalate ws) :
    c ∈ sep ∨ ∃ w ∈ ws, c ∈ w := by
  induction ws with
  | nil => exact absurd h (by simp [List.intercalate])
  | cons w ws ih =>
      cases ws with
      | nil => exact Or.inr ⟨w, by simp, by simpa [List.intercalate] using h⟩
      | cons w' ws =>
          rw [List.intercalate_cons_cons] at h
          rcases List.mem_append.mp h with h | h
          · rcases List.mem_append.mp h with h | h
            · exact Or.inr ⟨w, by simp, h⟩
            · exact Or.inl h
          · rcases ih h with h | ⟨v, hv, h⟩
            · exact Or.inl h
            · exact Or.inr ⟨v, List.mem_cons_of_mem w hv, h⟩

theorem mem_intercalate_of_mem {c : α} (sep : List α) {ws : List (List α)} {w : List α} (hw : w ∈ ws)
    (hc : c ∈ w) : c ∈ sep.intercalate ws := by
  induction ws with
  | nil => exact absurd hw (by simp)
  | cons v ws ih =>
      cases ws with
      | nil =>
          rw [List.mem_singleton.mp hw] at hc
          simpa [List.intercalate] using hc
      | cons v' ws =>
          rw [List.intercalate_cons_cons]
          rcases List.mem_cons.mp hw with rfl | hw
          · exact List.mem_append_left _ (List.mem_append_left _ hc)
          · exact List.mem_append_right _ (ih hw)

/-- A separator that no part contains counts the parts. -/
theorem count_intercalate [DecidableEq α] (c : α) {ws : List (List α)} (hne : ws ≠ [])
    (h : ∀ w ∈ ws, c ∉ w) : ([c].intercalate ws).count c + 1 = ws.length := by
  induction ws with
  | nil => exact absurd rfl hne
  | cons w ws ih =>
      have hw : w.count c = 0 := List.count_eq_zero_of_not_mem (h w (by simp))
      cases ws with
      | nil => simpa [List.intercalate] using hw
      | cons w' ws =>
          have hrest := ih (by simp) fun v hv => h v (List.mem_cons_of_mem w hv)
          rw [List.intercalate_cons_cons, List.count_append, List.count_append, hw]
          simp only [List.count_singleton_self, List.length_cons] at hrest ⊢
          omega

end Jrinx
