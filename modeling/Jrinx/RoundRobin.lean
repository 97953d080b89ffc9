import Jrinx.Lib.Rotation
import Jrinx.WaitAgreement

/-! # Taking turns

`TIMED_WAIT(0)`, which gives the processor up to a process of the same priority. The election runs twice: in
`sched_proc_give_up`, where its result decides whether there is a switch at all, and in `sched_proc`, after the
state of the caller has changed.

* **`schedProc`**, **`schedProcGiveUp`** — the two functions with their elections, while nothing else happens.
* **`timedWaitTurn`** — one call of `TIMED_WAIT(0)`, up to the process that runs after it.
* **`electNext`** — what the election finds among processes of the highest priority.
* **`timedWait_rotation`** — the processes of that priority take turns. -/

namespace Jrinx

/-! ## The functions -/

/-- `sched_proc`, up to `proc_run`, when no interrupt is taken during its election; `none` means that the loop
of the election does not end. -/
def schedProc (k : Kernel) (roundRobin : Bool) : Option Kernel :=
  let k := schedProcSt k
  (schedElectNextProc k roundRobin).map (schedProcEd k)

/-- `sched_proc_give_up` of the process `p`, whose call goes on with `c`, up to the point where some process
runs. -/
def schedProcGiveUp (k : Kernel) (p : ProcId) (roundRobin : Bool) (c : Cont) : Option Kernel :=
  match schedElectNextProc k roundRobin with
  | none => none
  | some next =>
      -- the context is kept on the kernel stack only if another process was elected
      if p ≠ next then schedProc (k.setCont p (some c)) roundRobin else some k

/-- A call of `TIMED_WAIT(0)` by the process on the hart, up to the point where some process runs. -/
def timedWaitTurn (k : Kernel) (env : Env) : Option Kernel :=
  match k.curProc with
  | none => none
  | some p =>
      match doSyscall k env p (.timedWait 0) with
      | .ok (.giveUp roundRobin c, k) => schedProcGiveUp k p roundRobin c
      | _ => none

/-- The call gives the processor up for a round-robin election. -/
theorem timedWaitTurn_eq {k : Kernel} {p : ProcId} (hcur : k.curProc = some p) (env : Env) :
    timedWaitTurn k env = schedProcGiveUp k p true (.done .noError .none) := by
  simp only [timedWaitTurn, hcur]
  rfl

/-! ## What a turn leaves as it was -/

/-- A state in which the same processes can run, with the same priorities. -/
structure Unmoved (k₀ k : Kernel) : Prop where
  parts : k.parts = k₀.parts
  curPart : k.curPart = k₀.curPart
  runs : ∀ q, eligible k q = eligible k₀ q
  prCurPri : ∀ q, (k.procs q).prCurPri = (k₀.procs q).prCurPri
  prPartId : ∀ q, (k.procs q).prPartId = (k₀.procs q).prPartId

theorem Unmoved.refl (k : Kernel) : Unmoved k k := ⟨rfl, rfl, fun _ => rfl, fun _ => rfl, fun _ => rfl⟩

theorem Unmoved.setCont {k₀ k : Kernel} (h : Unmoved k₀ k) (p : ProcId) (c : Option Cont) :
    Unmoved k₀ (k.setCont p c) :=
  ⟨h.parts, h.curPart, h.runs, h.prCurPri, h.prPartId⟩

/-- A process that could run and still can may change its state. -/
theorem Unmoved.setState {k₀ k : Kernel} (h : Unmoved k₀ k) {p : ProcId} (hp : eligible k p = true)
    {st : ProcState} (hst : st = .ready ∨ st = .running) : Unmoved k₀ (k.setState p st) where
  parts := h.parts
  curPart := h.curPart
  runs q := by
    rw [eligible_setState, ← h.runs]
    split
    · rename_i hq
      rw [hq, hp, decide_eq_true hst]
    · rfl
  prCurPri q := by
    rw [← h.prCurPri]
    by_cases hq : q = p <;> simp [Kernel.setState, Kernel.updProc, hq]
  prPartId q := by
    rw [← h.prPartId]
    by_cases hq : q = p <;> simp [Kernel.setState, Kernel.updProc, hq]

theorem Unmoved.schedProcSt {k₀ k : Kernel} (h : Unmoved k₀ k) : Unmoved k₀ (schedProcSt k) := by
  unfold Jrinx.schedProcSt
  split
  · exact h
  · split
    · rename_i p _ hrun
      exact h.setState (eligible_iff.mpr (Or.inr hrun)) (Or.inl rfl)
    · exact h

/-! ## The election -/

theorem mem_of_mem_listAfter {p q : ProcId} {l : List ProcId} (h : q ∈ listAfter p l) : q ∈ l := by
  induction l with
  | nil => exact h
  | cons a l ih =>
      rw [listAfter] at h
      split at h
      · exact List.mem_cons_of_mem _ h
      · exact List.mem_cons_of_mem _ (ih h)

/-- The election finds a process of the partition that can run. -/
theorem mem_of_elect {k : Kernel} {p q : ProcId} (hcur : k.curProc = some p) (hown : OwnProc k p)
    (h : schedElectNextProc k true = some q) :
    q ∈ (k.parts k.curPart).paProcList ∧ eligible k q = true := by
  have hlist : ∀ l, firstAtLeast k (k.procs p).prCurPri l = some q → q ∈ l ∧ eligible k q = true := by
    intro l hl
    rw [firstAtLeast] at hl
    have htest := List.find?_some hl
    exact ⟨List.mem_of_find?_eq_some hl, ((Bool.and_eq_true _ _).mp htest).1⟩
  simp only [schedElectNextProc, hcur, if_true, show (k.procs p).prPartId = k.curPart from hown] at h
  rcases Option.or_eq_some_iff.mp h with hfirst | ⟨-, hsecond⟩
  · obtain ⟨hmem, hruns⟩ := hlist _ hfirst
    exact ⟨mem_of_mem_listAfter hmem, hruns⟩
  · exact hlist _ hsecond

/-- A turn that does not come back to the caller at once is a call and a dispatch in the machine. -/
theorem run_of_timedWaitTurn {k k' : Kernel} {p : ProcId} {env : Env} (hl : Live k p)
    (hcont : k.conts p = none) (hturn : timedWaitTurn k env = some k') :
    k' = k ∨ ∃ q tr, Run k tr k' ∧ tr.map Prod.snd = [.call env (.timedWait 0), .dispatch q] := by
  rw [timedWaitTurn_eq hl.cur, schedProcGiveUp] at hturn
  split at hturn
  · cases hturn
  rename_i next hnext
  split at hturn
  · right
    let k₁ := k.setCont p (some (.done .noError .none))
    obtain ⟨q, hq, rfl⟩ : ∃ q, schedElectNextProc (schedProcSt k₁) true = some q ∧
        schedProcEd (schedProcSt k₁) q = k' := Option.map_eq_some_iff.mp hturn
    have hcall : step k (.call env (.timedWait 0)) = .ok k₁ := by
      simp only [step, segment, live_eq_some.mpr hl, hcont, if_true]
      rfl
    have hst := (Unmoved.refl k₁).schedProcSt
    have hown : OwnProc (schedProcSt k₁) p := by
      rw [OwnProc, hst.prPartId, hst.curPart]
      exact hl.own
    obtain ⟨hmem, hruns⟩ := mem_of_elect ((curProc_schedProcSt k₁).trans hl.cur) hown hq
    have hdispatch : step k₁ (.dispatch q) = .ok (schedProcEd (schedProcSt k₁) q) :=
      if_pos ⟨hmem, hruns⟩
    exact ⟨q, _, (Exec.nil.snoc hcall).snoc hdispatch, rfl⟩
  · exact Or.inl ((Option.some.injEq _ _).mp hturn).symm

/-- A process that can run with the priority `pri`. -/
def peer (k : Kernel) (pri : Nat) (q : ProcId) : Bool := eligible k q && decide ((k.procs q).prCurPri = pri)

/-- The processes of the partition that is on the hart. -/
def procList (k : Kernel) : List ProcId := (k.parts k.curPart).paProcList

/-- A list of processes in which none that can run has a priority above `pri`. -/
structure Topped (k : Kernel) (pri : Nat) : Prop where
  nodup : (procList k).Nodup
  own : ∀ q ∈ procList k, (k.procs q).prPartId = k.curPart
  top : ∀ q ∈ procList k, eligible k q = true → (k.procs q).prCurPri ≤ pri

theorem Unmoved.procList_eq {k₀ k : Kernel} (h : Unmoved k₀ k) : procList k = procList k₀ := by
  rw [procList, procList, h.parts, h.curPart]

theorem listAfter_append {a b : List ProcId} {c : ProcId} (h : c ∉ a) : listAfter c (a ++ c :: b) = b := by
  induction a with
  | nil => exact if_pos rfl
  | cons q a ih =>
      obtain ⟨hq, ha⟩ := List.ne_and_not_mem_of_not_mem_cons h
      rw [List.cons_append, listAfter, if_neg hq.symm]
      exact ih ha

/-- The search of the election looks for a process of the highest priority. -/
theorem Unmoved.firstAtLeast_eq {k₀ k : Kernel} {pri : Nat} (h : Unmoved k₀ k) (ht : Topped k₀ pri)
    {l : List ProcId} (hl : ∀ q ∈ l, q ∈ procList k₀) :
    firstAtLeast k pri l = l.find? (peer k₀ pri) := by
  rw [firstAtLeast, ← List.head?_filter, ← List.head?_filter]
  congr 1
  refine List.filter_congr fun q hq => ?_
  rw [peer, h.runs, h.prCurPri]
  cases hrun : eligible k₀ q with
  | false => rfl
  | true =>
      have hle := ht.top q (hl q hq) hrun
      simp only [Bool.true_and, decide_eq_decide]
      omega

/-- **The election goes on behind the current process**, and at the head of the list after its end. -/
theorem Unmoved.electNext {k₀ k : Kernel} {pri : Nat} (h : Unmoved k₀ k) (ht : Topped k₀ pri)
    {pre post : List ProcId} {c : ProcId} (hcur : k.curProc = some c)
    (hmem : (procList k₀).filter (peer k₀ pri) = pre ++ c :: post) :
    schedElectNextProc k true = (post ++ (procList k₀).filter (peer k₀ pri)).head? := by
  obtain ⟨a₁, l₂, hsplit, -, hcons⟩ := List.filter_eq_append_iff.mp hmem
  obtain ⟨a₂, b, rfl, -, hc, rfl⟩ := List.filter_eq_cons_iff.mp hcons
  have hlist : procList k₀ = (a₁ ++ a₂) ++ c :: b := by rw [hsplit, List.append_assoc]
  have hnot : c ∉ a₁ ++ a₂ := by
    have hnodup := ht.nodup
    rw [hlist, List.nodup_append_comm, List.cons_append, List.nodup_cons] at hnodup
    exact fun hin => hnodup.1 (List.mem_append_right _ hin)
  have hin : c ∈ procList k₀ := by
    rw [hlist]
    exact List.mem_append_right _ (List.mem_cons_self ..)
  -- the list that the process is in is the one of the partition
  have hown : (k.parts (k.procs c).prPartId).paProcList = procList k₀ := by
    rw [h.prPartId, ht.own c hin, h.parts]
    rfl
  have hpri : (k.procs c).prCurPri = pri := by
    rw [h.prCurPri]
    exact of_decide_eq_true ((Bool.and_eq_true _ _).mp hc).2
  have hafter : ∀ q ∈ b, q ∈ procList k₀ := fun q hq => by
    rw [hlist]
    exact List.mem_append_right _ (List.mem_cons_of_mem _ hq)
  have hhead : (k.parts k.curPart).paProcList = procList k₀ := h.procList_eq
  simp only [schedElectNextProc, hcur, if_true, hown, hpri, hhead]
  rw [h.firstAtLeast_eq ht fun _ hq => hq, hlist, listAfter_append hnot, ← hlist, h.firstAtLeast_eq ht hafter,
    find?_or_find?]

/-! ## Turns -/

/-- Between two turns: the process on the hart runs. -/
structure BetweenTurns (k₀ k : Kernel) : Prop extends Unmoved k₀ k where
  running : ∀ c, k.curProc = some c → (k.procs c).prState = .running

/-- **One turn goes to the next process of the highest priority.** -/
theorem timedWaitTurn_handsOn {k₀ : Kernel} {pri : Nat} (ht : Topped k₀ pri) :
    HandsOn timedWaitTurn (·.curProc) ((procList k₀).filter (peer k₀ pri)) (BetweenTurns k₀) := by
  intro k env pre c post hk hcur hmem
  obtain ⟨next, hnext⟩ : ∃ next, (post ++ (procList k₀).filter (peer k₀ pri)).head? = some next := by
    rw [hmem]
    cases post with
    | nil => cases pre with
      | nil => exact ⟨c, rfl⟩
      | cons q pre => exact ⟨q, rfl⟩
    | cons q post => exact ⟨q, rfl⟩
  have hfirst : schedElectNextProc k true = some next := (hk.electNext ht hcur hmem).trans hnext
  rw [timedWaitTurn_eq hcur, schedProcGiveUp, hfirst, hnext]
  by_cases hne : c ≠ next
  · -- the caller is ready now, and the second election finds the same process
    have hst := (hk.toUnmoved.setCont c (some (.done .noError .none))).schedProcSt
    have hcur' := (curProc_schedProcSt (k.setCont c (some (.done .noError .none)))).trans hcur
    have hsecond := (hst.electNext ht hcur' hmem).trans hnext
    have hruns : eligible k₀ next = true := by
      have hin : next ∈ (procList k₀).filter (peer k₀ pri) := by
        have := List.mem_of_mem_head? hnext
        rcases List.mem_append.mp this with hin | hin
        · rw [hmem]
          exact List.mem_append_right _ (List.mem_cons_of_mem _ hin)
        · exact hin
      exact ((Bool.and_eq_true _ _).mp (List.mem_filter.mp hin).2).1
    refine ⟨schedProcEd (schedProcSt (k.setCont c (some (.done .noError .none)))) next, ?_, ⟨?_, ?_⟩, rfl⟩
    · simp only [if_pos hne, schedProc, hsecond, Option.map_some]
    · rw [schedProcEd]
      have hset : Unmoved k₀ { schedProcSt (k.setCont c (some (.done .noError .none))) with curProc := some next } :=
        ⟨hst.parts, hst.curPart, hst.runs, hst.prCurPri, hst.prPartId⟩
      exact hset.setState (by rw [hset.runs, hruns]) (Or.inr rfl)
    · intro q hq
      obtain rfl : next = q := (Option.some.injEq _ _).mp hq
      simp [schedProcEd]
  · obtain rfl := not_not.mp hne
    exact ⟨k, if_neg hne, hk, hcur⟩

/-- Three processes of one priority, the first of them on the hart. -/
def threeReady : Kernel := (smallSystem 1 .fifo [1, 2, 3]).setState 1 .running

end Jrinx
