import Mathlib.Data.List.Rotate
import Mathlib.Data.List.Nodup

/-! # Handing a turn round

A system in which one of several members has the turn, and every step hands the turn on.

* **`handOver`** — the holders after the steps of a run, and its last state.
* **`handOver_round`** — where a step gives the turn to the next member of a list, the last one to the first,
  as many steps as there are members give every member its turn, and then the turn is back.
* **`rotate_idxOf_succ`**, **`find?_or_find?`** — the cyclic order of a list and what a search in two
  pieces finds. -/

namespace Jrinx

variable {σ ε α : Type*}

/-! ## The run -/

/-- The holders of the turn after each of the steps, and the last state. -/
def handOver (step : σ → ε → Option σ) (holder : σ → Option α) : List ε → σ → Option (List α × σ)
  | [], s => some ([], s)
  | e :: es, s =>
      match step s e with
      | none => none
      | some s' =>
          match holder s', handOver step holder es s' with
          | some a, some (as, t) => some (a :: as, t)
          | _, _ => none

variable {step : σ → ε → Option σ} {holder : σ → Option α}

@[simp] theorem handOver_nil (s : σ) : handOver step holder [] s = some ([], s) := rfl

theorem handOver_cons {e : ε} {es : List ε} {s s' t : σ} {a : α} {as : List α} (hstep : step s e = some s')
    (hholder : holder s' = some a) (hrest : handOver step holder es s' = some (as, t)) :
    handOver step holder (e :: es) s = some (a :: as, t) := by
  simp only [handOver, hstep, hholder, hrest]

theorem handOver_append {es fs : List ε} {s t u : σ} {as bs : List α}
    (hfirst : handOver step holder es s = some (as, t)) (hrest : handOver step holder fs t = some (bs, u)) :
    handOver step holder (es ++ fs) s = some (as ++ bs, u) := by
  induction es generalizing s as with
  | nil =>
      obtain ⟨rfl, rfl⟩ := Prod.mk.inj ((Option.some.injEq _ _).mp hfirst)
      exact hrest
  | cons e es ih =>
      simp only [handOver] at hfirst
      cases hstep : step s e with
      | none => simp [hstep] at hfirst
      | some s' =>
          simp only [hstep] at hfirst
          split at hfirst
          · rename_i a as' t' hholder hes
            obtain ⟨rfl, rfl⟩ := Prod.mk.inj ((Option.some.injEq _ _).mp hfirst)
            exact handOver_cons hstep hholder (ih hes)
          · cases hfirst

/-! ## The round -/

section Round

variable {members : List α} {Inv : σ → Prop}

/-- The turn goes from a member to the one that follows it, from the last to the first. -/
def HandsOn (step : σ → ε → Option σ) (holder : σ → Option α) (members : List α) (Inv : σ → Prop) : Prop :=
  ∀ s e pre c post, Inv s → holder s = some c → members = pre ++ c :: post →
    ∃ s', step s e = some s' ∧ Inv s' ∧ holder s' = (post ++ members).head?

/-- The turn walks along the members that follow its holder. -/
theorem HandsOn.walk (h : HandsOn step holder members Inv) {es : List ε} {s : σ} {pre xs ys : List α} {c : α}
    (hlen : es.length = xs.length) (hmem : members = pre ++ c :: (xs ++ ys)) (hinv : Inv s)
    (hholder : holder s = some c) :
    ∃ t, handOver step holder es s = some (xs, t) ∧ Inv t ∧ holder t = (c :: xs).getLast? := by
  induction xs generalizing es s pre c with
  | nil =>
      obtain rfl := List.length_eq_zero_iff.mp hlen
      exact ⟨s, rfl, hinv, hholder⟩
  | cons x xs ih =>
      obtain ⟨e, es, rfl⟩ := List.exists_cons_of_length_eq_add_one hlen
      obtain ⟨s', hstep, hinv', hholder'⟩ := h s e pre c _ hinv hholder hmem
      have hmem' : members = (pre ++ [c]) ++ x :: (xs ++ ys) := by
        rw [hmem, List.append_assoc, List.singleton_append, List.cons_append]
      have hlen' : es.length = xs.length := Nat.succ.inj hlen
      obtain ⟨t, hrun, hinv'', hlast⟩ := ih hlen' hmem' hinv' hholder'
      refine ⟨t, handOver_cons hstep hholder' hrun, hinv'', ?_⟩
      rw [hlast, List.getLast?_cons_cons]

/-- **As many steps as there are members are one round**: the members behind the holder have their turns, then
those before it, and the last step gives the turn back. -/
theorem HandsOn.handOver_round (h : HandsOn step holder members Inv) {es : List ε} {s : σ}
    {pre post : List α} {c : α} (hlen : es.length = members.length) (hmem : members = pre ++ c :: post)
    (hinv : Inv s) (hholder : holder s = some c) :
    ∃ t, handOver step holder es s = some (post ++ pre ++ [c], t) ∧ Inv t ∧ holder t = some c := by
  -- the list from its head on: the turn gets there from the last member
  obtain ⟨x, xs, hhead⟩ : ∃ x xs, pre ++ [c] = x :: xs :=
    List.exists_cons_of_ne_nil (List.append_ne_nil_of_right_ne_nil _ (List.cons_ne_nil _ _))
  have hmem' : members = [] ++ x :: (xs ++ post) := by
    rw [hmem, List.nil_append, ← List.cons_append, ← hhead, List.append_assoc, List.singleton_append]
  have hcount : es.length = post.length + (1 + xs.length) := by
    rw [hlen, hmem', List.nil_append, List.length_cons, List.length_append]
    omega
  have hlen₁ : (es.take post.length).length = post.length := by
    rw [List.length_take]
    omega
  have hmem₁ : members = pre ++ c :: (post ++ []) := by rw [List.append_nil, hmem]
  obtain ⟨t₁, hrun₁, hinv₁, hlast₁⟩ := h.walk hlen₁ hmem₁ hinv hholder
  have hdrop : (es.drop post.length).length = xs.length + 1 := by
    rw [List.length_drop]
    omega
  obtain ⟨e, es₂, hes₂⟩ := List.exists_cons_of_length_eq_add_one hdrop
  obtain ⟨d, hd⟩ : ∃ d, (c :: post).getLast? = some d :=
    ⟨_, List.getLast?_eq_some_getLast (List.cons_ne_nil _ _)⟩
  obtain ⟨ds, hds⟩ := List.getLast?_eq_some_iff.mp hd
  obtain ⟨t₂, hstep, hinv₂, hholder₂⟩ := h t₁ e (pre ++ ds) d [] hinv₁ (hlast₁.trans hd)
    (by rw [hmem, hds, List.append_assoc])
  rw [List.nil_append, hmem', List.nil_append, List.head?_cons] at hholder₂
  have hlen₂ : es₂.length = xs.length := by
    rw [hes₂, List.length_cons] at hdrop
    exact Nat.succ.inj hdrop
  obtain ⟨t, hrun₂, hinv₃, hlast₂⟩ := h.walk hlen₂ hmem' hinv₂ hholder₂
  refine ⟨t, ?_, hinv₃, ?_⟩
  · have hrun := handOver_append hrun₁ (handOver_cons hstep hholder₂ hrun₂)
    rw [← hes₂, List.take_append_drop, ← hhead] at hrun
    rw [hrun, List.append_assoc]
  · rw [hlast₂, ← hhead, List.getLast?_concat]

end Round

/-! ## Cyclic order -/

/-- The cyclic order of a list after one of its elements. -/
theorem rotate_idxOf_succ [DecidableEq α] {a b : List α} {c : α} (h : c ∉ a) :
    (a ++ c :: b).rotate ((a ++ c :: b).idxOf c + 1) = b ++ (a ++ [c]) := by
  have hidx : (a ++ c :: b).idxOf c + 1 = (a ++ [c]).length := by
    rw [List.idxOf_append_of_notMem h, List.idxOf_cons_self, List.length_append, List.length_singleton]
  rw [hidx, List.append_cons, List.rotate_append_length_eq]

/-- A search that begins behind an element and goes on at the head of the list finds what the filtered list
has next. -/
theorem find?_or_find? (P : α → Bool) (b l : List α) :
    (b.find? P).or (l.find? P) = (b.filter P ++ l.filter P).head? := by
  rw [List.head?_append, List.head?_filter, List.head?_filter]

end Jrinx
