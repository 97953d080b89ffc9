import Mathlib.Data.List.Find
import Mathlib.Data.List.GetD
import Mathlib.Data.List.Nodup
import Mathlib.Logic.Function.Basic

/-! # Hash tables with chains

A table is a list of buckets. Every entry carries its own key; the code of the key, modulo the number of
buckets, chooses the bucket.

* **`put`**, **`remove`**, **`get`** — a new entry goes to the head of its bucket and replaces those with its
  key.
* **`get_put`**, **`get_remove`** — what is found after one entry was put, and after one was removed.
* **`get_foldl_put`** — a table filled with entries of distinct keys finds exactly these.
* **`Sound`** — every entry is in the bucket of its key, and no two have the same key.
* **`Sound.get_eq_some`** — in a sound table what is found is what is stored. -/

namespace Jrinx

/-- The buckets of a table with entries in `ν`. -/
abbrev HashTable (ν : Type) : Type := List (List ν)

namespace HashTable

variable {ν κ : Type}

/-- The bucket of a key. -/
def slot (code : κ → Nat) (t : HashTable ν) (k : κ) : Nat := code k % t.length

/-- A table without entries. -/
def empty (n : Nat) : HashTable ν := List.replicate n []

section Operations

variable [DecidableEq κ] (key : ν → κ) (code : κ → Nat)

/-- Put an entry into its bucket, in place of every entry with its key. -/
def put (t : HashTable ν) (v : ν) : HashTable ν :=
  let i := slot code t (key v)
  t.set i (v :: (t.getD i []).filter fun w => key w ≠ key v)

/-- Take every entry with this key out of its bucket. -/
def remove (t : HashTable ν) (k : κ) : HashTable ν :=
  let i := slot code t k
  t.set i ((t.getD i []).filter fun w => key w ≠ k)

/-- The entry of a key. -/
def get (t : HashTable ν) (k : κ) : Option ν :=
  (t.getD (slot code t k) []).find? fun w => key w = k

@[simp] theorem length_put (t : HashTable ν) (v : ν) : (put key code t v).length = t.length :=
  List.length_set

@[simp] theorem length_remove (t : HashTable ν) (k : κ) : (remove key code t k).length = t.length :=
  List.length_set

theorem length_foldl_put (t : HashTable ν) (vs : List ν) :
    (vs.foldl (put key code) t).length = t.length := by
  induction vs generalizing t with
  | nil => rfl
  | cons v vs ih => rw [List.foldl_cons, ih, length_put]

theorem get_empty (n : Nat) (k : κ) : get key code (empty n) k = none := by
  have hslot : (empty n : HashTable ν).getD (slot code (empty n : HashTable ν) k) [] = [] := by
    rw [empty, List.getD_eq_getElem?_getD, List.getElem?_getD_replicate_default_eq]
  rw [get, hslot, List.find?_nil]

variable {key code}

/-- An entry is found under its key, and the entries of the other keys stay. -/
theorem get_put {t : HashTable ν} (ht : 0 < t.length) (v : ν) (k : κ) :
    get key code (put key code t v) k = if key v = k then some v else get key code t k := by
  have hi : slot code t (key v) < t.length := Nat.mod_lt _ ht
  have hslot : ∀ k, slot code (put key code t v) k = slot code t k := by
    intro k
    rw [slot, slot, length_put]
  rw [get, hslot]
  by_cases hk : key v = k
  · subst hk
    rw [if_pos rfl, put, List.getD_eq_getElem _ _ (by simpa using hi), List.getElem_set_self]
    simp
  · rw [if_neg hk, get]
    by_cases hs : slot code t (key v) = slot code t k
    · -- the two keys share a bucket: the filter drops no entry of `k`
      rw [put, ← hs, List.getD_eq_getElem _ _ (by simpa using hi), List.getElem_set_self,
        List.find?_cons_of_neg (by simpa using hk), List.find?_filter]
      congr 1
      funext w
      by_cases hw : key w = k
      · have hne : k ≠ key v := fun h => hk h.symm
        simp [hw, hne]
      · simp [hw]
    · rw [put, List.getD_eq_getElem?_getD, List.getElem?_set_ne hs, ← List.getD_eq_getElem?_getD]

/-- A key that none of the entries has is found as before. -/
theorem get_foldl_put_of_notMem {t : HashTable ν} (ht : 0 < t.length) {vs : List ν} {k : κ}
    (hk : k ∉ vs.map key) : get key code (vs.foldl (put key code) t) k = get key code t k := by
  induction vs generalizing t with
  | nil => rfl
  | cons v vs ih =>
      rw [List.map_cons, List.mem_cons, not_or] at hk
      rw [List.foldl_cons, ih (by rwa [length_put]) hk.2, get_put ht, if_neg fun h => hk.1 h.symm]

/-- Entries with distinct keys are all found. -/
theorem get_foldl_put {t : HashTable ν} (ht : 0 < t.length) {vs : List ν} (hvs : (vs.map key).Nodup)
    {v : ν} (hv : v ∈ vs) : get key code (vs.foldl (put key code) t) (key v) = some v := by
  induction vs generalizing t with
  | nil => exact absurd hv List.not_mem_nil
  | cons w vs ih =>
      rw [List.map_cons, List.nodup_cons] at hvs
      have hlen : 0 < (put key code t w).length := by rwa [length_put]
      rw [List.foldl_cons]
      rcases List.mem_cons.mp hv with rfl | hv
      · rw [get_foldl_put_of_notMem hlen hvs.1, get_put ht, if_pos rfl]
      · exact ih hlen hvs.2 hv

/-- The buckets after an entry was put. -/
theorem getD_put {t : HashTable ν} (ht : 0 < t.length) (v : ν) :
    ((put key code t v).getD · []) = Function.update (t.getD · []) (slot code t (key v))
      (v :: (t.getD (slot code t (key v)) []).filter fun w => key w ≠ key v) := by
  have hi : slot code t (key v) < t.length := Nat.mod_lt _ ht
  funext j
  by_cases hj : j = slot code t (key v)
  · rw [hj, Function.update_self, put, List.getD_eq_getElem _ _ (by simpa using hi), List.getElem_set_self]
  · rw [Function.update_of_ne hj, put, List.getD_eq_getElem?_getD, List.getElem?_set_ne (Ne.symm hj),
      ← List.getD_eq_getElem?_getD]

/-- The buckets after a key was removed. -/
theorem getD_remove {t : HashTable ν} (ht : 0 < t.length) (k : κ) :
    ((remove key code t k).getD · []) = Function.update (t.getD · []) (slot code t k)
      ((t.getD (slot code t k) []).filter fun w => key w ≠ k) := by
  have hi : slot code t k < t.length := Nat.mod_lt _ ht
  funext j
  by_cases hj : j = slot code t k
  · rw [hj, Function.update_self, remove, List.getD_eq_getElem _ _ (by simpa using hi),
      List.getElem_set_self]
  · rw [Function.update_of_ne hj, remove, List.getD_eq_getElem?_getD, List.getElem?_set_ne (Ne.symm hj),
      ← List.getD_eq_getElem?_getD]

/-- A removed key is not found, and the entries of the other keys stay. -/
theorem get_remove {t : HashTable ν} (ht : 0 < t.length) (k k' : κ) :
    get key code (remove key code t k) k' = if k = k' then none else get key code t k' := by
  have hslot : slot code (remove key code t k) k' = slot code t k' := by
    rw [slot, slot, length_remove]
  have hbuckets : ((remove key code t k).getD · []) = _ := getD_remove ht k
  have hget := congrFun hbuckets (slot code t k')
  rw [get, hslot, hget]
  by_cases hk : k = k'
  · subst hk
    rw [if_pos rfl, Function.update_self, List.find?_filter]
    simp
  · rw [if_neg hk, get]
    by_cases hs : slot code t k' = slot code t k
    · -- the two keys share a bucket: the filter drops no entry of `k'`
      rw [hs, Function.update_self, List.find?_filter]
      congr 1
      funext w
      by_cases hw : key w = k'
      · simp [hw, Ne.symm hk]
      · simp [hw]
    · rw [Function.update_of_ne hs]

/-! ## Sound tables -/

variable (key code) in
/-- **A sound table**: every entry is in the bucket of its key, and in a bucket the keys are distinct. -/
structure Sound (t : HashTable ν) : Prop where
  placed : ∀ i, ∀ w ∈ t.getD i [], slot code t (key w) = i
  distinct : ∀ i, ((t.getD i []).map key).Nodup

omit [DecidableEq κ] in
theorem Sound.empty (n : Nat) : Sound key code (empty n : HashTable ν) := by
  have hnil : ∀ i, (HashTable.empty n : HashTable ν).getD i [] = [] := by
    intro i
    rw [HashTable.empty, List.getD_eq_getElem?_getD, List.getElem?_getD_replicate_default_eq]
  constructor
  · intro i w hw
    rw [hnil] at hw
    exact absurd hw List.not_mem_nil
  · intro i
    rw [hnil]
    exact List.nodup_nil

theorem Sound.put {t : HashTable ν} (h : Sound key code t) (ht : 0 < t.length) (v : ν) :
    Sound key code (put key code t v) := by
  have hslot : ∀ k, slot code (HashTable.put key code t v) k = slot code t k := by
    intro k
    rw [slot, slot, length_put]
  have hgetD : ∀ i, (HashTable.put key code t v).getD i [] = _ := congrFun (getD_put ht v)
  constructor
  · intro i w hw
    rw [hgetD] at hw
    rw [hslot]
    -- only the slot of the new value is written
    by_cases hi : i = slot code t (key v)
    · subst hi
      rw [Function.update_self] at hw
      rcases List.mem_cons.mp hw with rfl | hw
      · rfl
      · exact h.placed _ w (List.mem_filter.mp hw).1
    · rw [Function.update_of_ne hi] at hw
      exact h.placed i w hw
  · intro i
    rw [hgetD]
    by_cases hi : i = slot code t (key v)
    · subst hi
      rw [Function.update_self, List.map_cons, List.nodup_cons]
      constructor
      · intro hmem
        -- what had its key is filtered out
        obtain ⟨w, hw, hkey⟩ := List.mem_map.mp hmem
        simp [hkey] at hw
      · exact (h.distinct _).sublist (List.filter_sublist.map key)
    · rw [Function.update_of_ne hi]
      exact h.distinct i

theorem Sound.remove {t : HashTable ν} (h : Sound key code t) (ht : 0 < t.length) (k : κ) :
    Sound key code (remove key code t k) := by
  have hslot : ∀ k', slot code (HashTable.remove key code t k) k' = slot code t k' := by
    intro k'
    rw [slot, slot, length_remove]
  have hgetD : ∀ i, (HashTable.remove key code t k).getD i [] = _ := congrFun (getD_remove ht k)
  have hsub : ∀ i, ((HashTable.remove key code t k).getD i []).Sublist (t.getD i []) := by
    intro i
    rw [hgetD]
    by_cases hi : i = slot code t k
    · subst hi
      rw [Function.update_self]
      exact List.filter_sublist
    · rw [Function.update_of_ne hi]
  constructor
  · intro i w hw
    rw [hslot]
    exact h.placed i w ((hsub i).subset hw)
  · intro i
    exact (h.distinct i).sublist ((hsub i).map key)

/-- What is found is what is stored. -/
theorem Sound.get_eq_some {t : HashTable ν} (h : Sound key code t) {k : κ} {w : ν} :
    get key code t k = some w ↔ key w = k ∧ ∃ i, w ∈ t.getD i [] := by
  constructor
  · intro hget
    exact ⟨by simpa using List.find?_some hget, _, List.mem_of_find?_eq_some hget⟩
  · rintro ⟨rfl, i, hw⟩
    rw [get, h.placed i w hw, List.find?_eq_some_iff_append]
    obtain ⟨l, r, hl⟩ := List.append_of_mem hw
    refine ⟨by simp, l, r, hl, ?_⟩
    intro x hx
    have hnodup := h.distinct i
    rw [hl, List.map_append, List.map_cons] at hnodup
    simpa using (List.nodup_append.mp hnodup).2.2 (key x) (List.mem_map_of_mem hx) (key w)
      List.mem_cons_self

/-- No two entries have the same key. -/
theorem Sound.eq_of_key {t : HashTable ν} (h : Sound key code t) {i j : Nat} {v w : ν} (hv : v ∈ t.getD i [])
    (hw : w ∈ t.getD j []) (hkey : key v = key w) : v = w := by
  have hv' := h.get_eq_some.mpr ⟨hkey, i, hv⟩
  have hw' := h.get_eq_some.mpr ⟨rfl, j, hw⟩
  exact Option.some.inj (hv'.symm.trans hw')

omit [DecidableEq κ] in
/-- Only the keys of the entries matter. -/
theorem Sound.congr {key' : ν → κ} {t : HashTable ν} (h : Sound key code t)
    (hkey : ∀ i, ∀ w ∈ t.getD i [], key' w = key w) : Sound key' code t where
  placed i w hw := by
    rw [hkey i w hw]
    exact h.placed i w hw
  distinct i := by
    rw [List.map_congr_left (hkey i)]
    exact h.distinct i

theorem get_congr {key' : ν → κ} {t : HashTable ν} (hkey : ∀ i, ∀ w ∈ t.getD i [], key' w = key w) (k : κ) :
    get key' code t k = get key code t k := by
  rw [get, get]
  refine List.find?_congr fun w hw => ?_
  rw [hkey _ w hw]

end Operations

end HashTable

end Jrinx
