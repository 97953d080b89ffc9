import Jrinx.Lib.LinkedList
import Jrinx.Lib.Runs
import Jrinx.Sched
import Mathlib.Data.Int.ConditionallyCompleteOrder

/-! # The event queue as it lies in memory

`cpus_time_event_queue` of a hart and the `te_queue_link` of its events, below the sequence of events
that `Kernel.teq` is. An event is named by its address, which `kalloc` may hand out again after the
event was freed; `teId` counts the allocations.

* **`timeEventAllocAt`**, **`timeEventFreeAt`**, **`timeEventActionAt`** — what `kern/traps/timer.c` does
  to the queue.
* **`pending_alloc`**, **`pending_free`**, **`pending_action`** — the queue of the kernel follows.
* **`timed_events_once`** — every event fires once and in order, over every history. -/

namespace Jrinx

/-- The address of a `struct time_event`. -/
abbrev Addr := Nat

/-- The queue and the events of one hart. -/
structure TimerState where
  /-- `cpus_time_event_queue` of the hart, with the links of the events. -/
  queue : Links Addr
  /-- The event at an address. -/
  event : Addr → TimeEvent
  /-- The blocks that `kalloc` gave out for events and `kfree` did not take back. -/
  used : List Addr
  /-- The number of events allocated so far. -/
  nxtTe : Nat

namespace TimerState

/-- The state after `time_event_init`. -/
def init : TimerState :=
  { queue := listInit ⟨none, .first, fun _ => none, fun _ => .first⟩
    event := fun _ => ⟨0, 0, .partitionActivate⟩, used := [], nxtTe := 0 }

/-- The addresses of the events in the queue, in its order. -/
def nodes (s : TimerState) : List Addr := listNodes s.queue s.used.length s.queue.lFirst

/-- The events in the queue. -/
def pending (s : TimerState) : List TimeEvent := s.nodes.map s.event

end TimerState

/-- The queue part of `time_event_alloc`, with the block that `kalloc` returned. -/
def timeEventAllocAt (s : TimerState) (te : Addr) (time : Int) (type : TimeEventType) :
    Option TimerState :=
  let s : TimerState :=
    { s with
      event := Function.update s.event te ⟨s.nxtTe, time, type⟩
      used := te :: s.used
      nxtTe := s.nxtTe + 1 }
  match listIter s.queue (fun i => time < (s.event i).teTime) s.used.length s.queue.lFirst with
  | none => none
  | some (some i) => some { s with queue := listInsertBefore s.queue i te }
  | some none => some { s with queue := listInsertTail s.queue te }

/-- `kfree`, for an event. -/
def TimerState.kfree (s : TimerState) (te : Addr) : TimerState := { s with used := s.used.erase te }

/-- The queue part of `time_event_free`. -/
def timeEventFreeAt (s : TimerState) (te : Addr) : Option TimerState :=
  match listIter s.queue (fun i => i = te) s.used.length s.queue.lFirst with
  | none => none
  | some none => some (s.kfree te)
  | some (some _) => some ({ s with queue := listRemoveNode s.queue te }.kfree te)

/-- The loop of `time_event_action` for at most `n` events: what it fires, and the state after it. The
`i`-th reading of the clock is `clk i`. -/
def drain (clk : Nat → Int) : Nat → Nat → TimerState → Option (List TimeEvent × TimerState)
  | n, i, s =>
      match s.queue.lFirst with
      | none => some ([], s)
      | some te =>
          if (s.event te).teTime ≤ clk i then
            match n with
            | 0 => none
            | n + 1 =>
                (drain clk n (i + 1) ({ s with queue := listRemoveNode s.queue te }.kfree te)).map
                  fun r => (s.event te :: r.1, r.2)
          else some ([], s)

/-- The queue part of `time_event_action`. -/
def timeEventActionAt (s : TimerState) (clk : Nat → Int) : Option (List TimeEvent × TimerState) :=
  drain clk s.used.length 0 s

/-! ## The queue as a sequence -/

/-- The order of the queue: by time, and by allocation among equal times. -/
def TimeEvent.Before (x y : TimeEvent) : Prop :=
  x.teTime < y.teTime ∨ x.teTime = y.teTime ∧ x.teId < y.teId

/-- An event that is newer than all others takes its place in the order. -/
theorem pairwise_insertEvent (te : TimeEvent) {l : List TimeEvent}
    (hl : l.Pairwise TimeEvent.Before) (hnew : ∀ x ∈ l, x.teId < te.teId) :
    (insertEvent te l).Pairwise TimeEvent.Before := by
  induction l with
  | nil => exact List.pairwise_singleton _ _
  | cons i es ih =>
      obtain ⟨hi, hes⟩ := List.pairwise_cons.mp hl
      rw [insertEvent]
      split
      · rename_i hlt
        refine List.pairwise_cons.mpr ⟨?_, hl⟩
        intro x hx
        left
        rcases List.mem_cons.mp hx with rfl | hx
        · exact hlt
        · rcases hi x hx with h | ⟨h, -⟩
          · exact hlt.trans h
          · exact h ▸ hlt
      · rename_i hle
        refine List.pairwise_cons.mpr ⟨?_, ih hes fun x hx => hnew x (List.mem_cons_of_mem i hx)⟩
        intro x hx
        rcases mem_insertEvent.mp hx with rfl | hx
        · rcases lt_or_eq_of_le (not_lt.mp hle) with h | h
          · exact Or.inl h
          · exact Or.inr ⟨h, hnew i List.mem_cons_self⟩
        · exact hi x hx

/-- The loop on the sequence: the events that it fires, and those that stay. -/
def expire (clk : Nat → Int) : List TimeEvent → Nat → List TimeEvent × List TimeEvent
  | [], _ => ([], [])
  | te :: es, i =>
      if te.teTime ≤ clk i then (te :: (expire clk es (i + 1)).1, (expire clk es (i + 1)).2)
      else ([], te :: es)

/-- The loop of the kernel model leaves the same events in the queue. -/
theorem teq_timeEventLoop (clk : Nat → Int) (l : List TimeEvent) (i : Nat) (r : Resched)
    (k : Kernel) : (timeEventLoop clk l i r k).2.teq = (expire clk l i).2 := by
  induction l generalizing i r k with
  | nil => rfl
  | cons te es ih =>
      rw [timeEventLoop, expire]
      split
      · cases te.teType.proc with
        | none => exact ih _ _ _
        | some p => exact ih _ _ _
      · rfl

/-- **The loop fires what is due**: with a clock that does not go back, the events up to the time at
which the loop ends, and no others. -/
theorem expire_eq {clk : Nat → Int} (hclk : Monotone clk) {l : List TimeEvent}
    (hl : l.Pairwise TimeEvent.Before) (i : Nat) :
    let c := clk (i + (expire clk l i).1.length)
    expire clk l i = (l.filter (fun te => te.teTime ≤ c), l.filter (fun te => c < te.teTime)) := by
  induction l generalizing i with
  | nil => rfl
  | cons te es ih =>
      obtain ⟨hte, hes⟩ := List.pairwise_cons.mp hl
      dsimp only
      rw [expire]
      split
      · rename_i hdue
        have hih := ih hes (i + 1)
        -- the loop over the rest ends at the same reading of the clock
        have hidx : i + (te :: (expire clk es (i + 1)).1).length
            = i + 1 + (expire clk es (i + 1)).1.length := by
          simp only [List.length_cons]
          omega
        have hle : te.teTime ≤ clk (i + 1 + (expire clk es (i + 1)).1.length) :=
          hdue.trans (hclk (by omega))
        rw [hidx, List.filter_cons_of_pos (by simpa using hle),
          List.filter_cons_of_neg (by simpa using hle), Prod.mk.injEq]
        exact ⟨congrArg (te :: ·) (congrArg Prod.fst hih), congrArg Prod.snd hih⟩
      · rename_i hlate
        have hlt : ∀ x ∈ te :: es, clk i < x.teTime := by
          intro x hx
          rcases List.mem_cons.mp hx with rfl | hx
          · exact not_le.mp hlate
          · rcases hte x hx with h | ⟨h, -⟩
            · exact (not_le.mp hlate).trans h
            · exact h ▸ not_le.mp hlate
        have hnone : (te :: es).filter (fun x => x.teTime ≤ clk i) = [] := by
          apply List.filter_eq_nil_iff.mpr
          intro x hx
          simpa using hlt x hx
        have hall : (te :: es).filter (fun x => clk i < x.teTime) = te :: es := by
          apply List.filter_eq_self.mpr
          intro x hx
          simpa using hlt x hx
        simp only [List.length_nil, Nat.add_zero]
        rw [hnone, hall]

/-! ## The operations on the sequence -/

/-- The queue stands for the nodes `l`, which are the blocks in use, in the order of the queue. -/
structure TimerState.Inv (s : TimerState) (l : List Addr) : Prop where
  links : Represents s.queue l
  used : s.used.Perm l
  sorted : (l.map s.event).Pairwise TimeEvent.Before
  fresh : ∀ te ∈ l, (s.event te).teId < s.nxtTe
  ids : ((l.map s.event).map TimeEvent.teId).Nodup

namespace TimerState.Inv

variable {s : TimerState} {l r : List Addr} {te : Addr}

theorem init : TimerState.Inv .init [] :=
  ⟨.init _, List.Perm.refl _, List.Pairwise.nil, by simp, List.nodup_nil⟩

theorem nodes_eq (h : s.Inv l) : s.nodes = l := by
  rw [TimerState.nodes, h.links.lFirst_eq]
  exact listNodes_eq (l := []) h.links h.used.length_eq.ge

theorem pending_eq (h : s.Inv l) : s.pending = l.map s.event := by
  rw [TimerState.pending, h.nodes_eq]

/-- A node taken off the list and its block given back. -/
theorem remove (h : s.Inv (l ++ te :: r)) :
    ({ s with queue := listRemoveNode s.queue te }.kfree te).Inv (l ++ r) where
  links := h.links.removeNode
  used := by
    have hperm : (s.used.erase te).Perm ((te :: (l ++ r)).erase te) :=
      (h.used.trans List.perm_middle).erase te
    simpa [TimerState.kfree] using hperm
  sorted := by
    refine List.Pairwise.sublist ?_ h.sorted
    simp [TimerState.kfree]
  fresh := by
    intro a ha
    apply h.fresh
    simp only [List.mem_append, List.mem_cons] at ha ⊢
    tauto
  ids := by
    refine List.Nodup.sublist ?_ h.ids
    simp [TimerState.kfree]

end TimerState.Inv

/-- Insertion passes the events that are not later. -/
theorem insertEvent_append (te : TimeEvent) {l r : List TimeEvent}
    (hl : ∀ x ∈ l, ¬ te.teTime < x.teTime) : insertEvent te (l ++ r) = l ++ insertEvent te r := by
  induction l with
  | nil => rfl
  | cons x l ih =>
      rw [List.cons_append, insertEvent, if_neg (hl x List.mem_cons_self),
        ih fun y hy => hl y (List.mem_cons_of_mem x hy), List.cons_append]

/-- **Allocation** ends and inserts the event into the sequence. -/
theorem timeEventAllocAt_eq {s : TimerState} {l : List Addr} (hi : s.Inv l) {te : Addr}
    (hte : te ∉ s.used) (time : Int) (type : TimeEventType) :
    ∃ s' l', timeEventAllocAt s te time type = some s' ∧ s'.Inv l' ∧ s'.nxtTe = s.nxtTe + 1 ∧
      l'.map s'.event = insertEvent ⟨s.nxtTe, time, type⟩ (l.map s.event) := by
  have hnot : te ∉ l := fun hmem => hte (hi.used.mem_iff.mpr hmem)
  set event := Function.update s.event te ⟨s.nxtTe, time, type⟩ with hevent
  -- the other events keep their contents
  have hold : ∀ a ∈ l, event a = s.event a := by
    intro a ha
    have hne : a ≠ te := fun heq => hnot (heq ▸ ha)
    simp [hevent, hne]
  have hself : event te = ⟨s.nxtTe, time, type⟩ := by simp [hevent]
  have hmap : ∀ l' : List Addr, (∀ a ∈ l', a ∈ l) → l'.map event = l'.map s.event :=
    fun l' hl' => List.map_congr_left fun a ha => hold a (hl' a ha)
  have hiter := listIter_eq (p := fun i => time < (event i).teTime) (n := (te :: s.used).length)
    (l := []) (r := l) hi.links (by rw [List.length_cons, hi.used.length_eq]; omega)
  rw [← hi.links.lFirst_eq] at hiter
  have hsorted := pairwise_insertEvent ⟨s.nxtTe, time, type⟩ hi.sorted (by
    intro x hx
    obtain ⟨a, ha, rfl⟩ := List.mem_map.mp hx
    exact hi.fresh a ha)
  have hids : ((insertEvent ⟨s.nxtTe, time, type⟩ (l.map s.event)).map TimeEvent.teId).Nodup := by
    rw [((insertEvent_perm _ _).map TimeEvent.teId).nodup_iff, List.map_cons, List.nodup_cons]
    refine ⟨?_, hi.ids⟩
    simp only [List.mem_map, not_exists, not_and]
    rintro x ⟨a, ha, rfl⟩ heq
    exact absurd heq (hi.fresh a ha).ne
  have hfresh : ∀ a ∈ te :: l, (event a).teId < s.nxtTe + 1 := by
    intro a ha
    rcases List.mem_cons.mp ha with rfl | ha
    · rw [hself]
      exact Nat.lt_succ_self _
    · rw [hold a ha]
      exact (hi.fresh a ha).trans (Nat.lt_succ_self _)
  cases hfind : l.find? (fun i => time < (event i).teTime) with
  | none =>
      rw [hfind] at hiter
      have hnone : ∀ x ∈ l.map s.event, ¬ time < x.teTime := by
        intro x hx
        obtain ⟨a, ha, rfl⟩ := List.mem_map.mp hx
        have := List.find?_eq_none.mp hfind a ha
        simpa [hold a ha] using this
      have hins : (l ++ [te]).map event
          = insertEvent ⟨s.nxtTe, time, type⟩ (l.map s.event) := by
        rw [List.map_append, List.map_singleton, hself, hmap l fun _ ha => ha,
          ← List.append_nil (l.map s.event),
          insertEvent_append ⟨s.nxtTe, time, type⟩ hnone, List.append_nil]
        rfl
      refine ⟨⟨listInsertTail s.queue te, event, te :: s.used, s.nxtTe + 1⟩, l ++ [te],
        by simp only [timeEventAllocAt, ← hevent, hiter], ?_, rfl, hins⟩
      refine ⟨hi.links.insertTail hnot, ?_, ?_, ?_, ?_⟩
      · exact (hi.used.cons te).trans (List.perm_append_singleton te l).symm
      · exact hins ▸ hsorted
      · intro a ha
        exact hfresh a ((List.perm_append_singleton te l).mem_iff.mp ha)
      · exact hins ▸ hids
  | some i =>
      rw [hfind] at hiter
      obtain ⟨hp, as, bs, hl, has⟩ := List.find?_eq_some_iff_append.mp hfind
      subst hl
      have hbefore : ∀ x ∈ as.map s.event, ¬ time < x.teTime := by
        intro x hx
        obtain ⟨a, ha, rfl⟩ := List.mem_map.mp hx
        have hnotp := has a ha
        simpa [hold a (List.mem_append_left _ ha)] using hnotp
      have hlater : time < (s.event i).teTime := by
        simpa [hold i (by simp)] using hp
      have hins : (as ++ te :: i :: bs).map event
          = insertEvent ⟨s.nxtTe, time, type⟩ ((as ++ i :: bs).map s.event) := by
        rw [List.map_append, List.map_cons, hself, hmap as (fun _ ha => List.mem_append_left _ ha),
          hmap (i :: bs) (fun _ ha => List.mem_append_right _ ha), List.map_append,
          insertEvent_append ⟨s.nxtTe, time, type⟩ hbefore, List.map_cons, insertEvent,
          if_pos hlater]
      refine ⟨⟨listInsertBefore s.queue i te, event, te :: s.used, s.nxtTe + 1⟩,
        as ++ te :: i :: bs, by simp only [timeEventAllocAt, ← hevent, hiter], ?_, rfl, hins⟩
      refine ⟨hi.links.insertBefore hnot, ?_, ?_, ?_, ?_⟩
      · exact (hi.used.cons te).trans List.perm_middle.symm
      · exact hins ▸ hsorted
      · intro a ha
        exact hfresh a (List.perm_middle.mem_iff.mp ha)
      · exact hins ▸ hids

/-- **Freeing** a pending event ends and takes it off the sequence. -/
theorem timeEventFreeAt_eq {s : TimerState} {l r : List Addr} {te : Addr}
    (hi : s.Inv (l ++ te :: r)) :
    ∃ s', timeEventFreeAt s te = some s' ∧ s'.Inv (l ++ r) ∧ s'.nxtTe = s.nxtTe ∧
      s'.event = s.event := by
  have hiter := listIter_eq (p := fun i => i = te) (n := s.used.length) (l := [])
    (r := l ++ te :: r) hi.links hi.used.length_eq.ge
  have hfind : (l ++ te :: r).find? (fun i => i = te) = some te := by
    refine List.find?_eq_some_iff_append.mpr ⟨by simp, l, r, rfl, ?_⟩
    intro a ha
    have hne := (List.nodup_append.mp hi.links.nodup).2.2 a ha te List.mem_cons_self
    simpa using hne
  rw [hfind, ← hi.links.lFirst_eq] at hiter
  exact ⟨_, by simp only [timeEventFreeAt, hiter], hi.remove, rfl, rfl⟩

/-- **The loop of an expiry** ends and does to the sequence what the loop on the sequence does. -/
theorem drain_eq (clk : Nat → Int) {s : TimerState} {l : List Addr} (hi : s.Inv l) {n : Nat}
    (hn : l.length ≤ n) (i : Nat) :
    ∃ s' l', drain clk n i s = some ((expire clk (l.map s.event) i).1, s') ∧ s'.Inv l' ∧
      l'.map s'.event = (expire clk (l.map s.event) i).2 ∧ s'.nxtTe = s.nxtTe := by
  induction l generalizing s n i with
  | nil =>
      have hfirst : s.queue.lFirst = none := hi.links.lFirst_eq
      exact ⟨s, [], by rw [drain, hfirst]; rfl, hi, rfl, rfl⟩
  | cons te l ih =>
      have hfirst : s.queue.lFirst = some te := hi.links.lFirst_eq
      rw [drain, hfirst, List.map_cons, expire]
      by_cases hdue : (s.event te).teTime ≤ clk i
      · simp only [if_pos hdue]
        cases n with
        | zero => exact absurd hn (by simp)
        | succ n =>
            have hrest := TimerState.Inv.remove (l := []) hi
            obtain ⟨s', l', hd, hi', hmap, hnxt⟩ :=
              ih hrest (by simpa using hn) (i + 1)
            refine ⟨s', l', ?_, hi', hmap, hnxt⟩
            simp only [hd, Option.map_some]
            rfl
      · simp only [if_neg hdue]
        exact ⟨s, te :: l, rfl, hi, rfl, rfl⟩

/-! ## The queue of the kernel -/

/-- Allocation does to the queue of the kernel what it does in memory. -/
theorem pending_alloc {s s' : TimerState} {l : List Addr} (hi : s.Inv l) {te : Addr}
    (hte : te ∉ s.used) {time : Int} {type : TimeEventType}
    (h : timeEventAllocAt s te time type = some s') {k : Kernel} (hk : k.teq = s.pending)
    (hnxt : k.nxtTe = s.nxtTe) :
    (timeEventAlloc k time type).teq = s'.pending ∧ (timeEventAlloc k time type).nxtTe = s'.nxtTe := by
  obtain ⟨s₁, l₁, h₁, hi₁, hnxt₁, hmap⟩ := timeEventAllocAt_eq hi hte time type
  obtain rfl : s₁ = s' := Option.some.inj (h₁.symm.trans h)
  rw [hi₁.pending_eq, hmap, hnxt₁, ← hi.pending_eq, ← hk, ← hnxt]
  unfold timeEventAlloc
  cases type.proc <;> exact ⟨rfl, rfl⟩

/-- Freeing a pending event does to the queue of the kernel what it does in memory. -/
theorem pending_free {s s' : TimerState} {l : List Addr} (hi : s.Inv l) {te : Addr} (hte : te ∈ l)
    (h : timeEventFreeAt s te = some s') {k k' : Kernel} (hk : k.teq = s.pending)
    (hfree : timeEventFree k (some (s.event te).teId) = .ok k') : k'.teq = s'.pending := by
  obtain ⟨as, bs, rfl⟩ := List.append_of_mem hte
  obtain ⟨s₁, h₁, hi₁, -, hev⟩ := timeEventFreeAt_eq hi
  obtain rfl : s₁ = s' := Option.some.inj (h₁.symm.trans h)
  obtain ⟨i, -, hid, rfl⟩ := mem_of_timeEventFree hfree
  have hteq : (freeEvent k i).teq = k.teq.filter (fun j => j.teId ≠ i.teId) := rfl
  rw [hteq, hk, hi₁.pending_eq, hi.pending_eq, hev, ← Option.some.inj hid]
  -- the other events have other identities
  have hids := hi.ids
  simp only [List.map_append, List.map_cons] at hids ⊢
  have hnot : (s.event te).teId ∉ (as.map s.event ++ bs.map s.event).map TimeEvent.teId := by
    have hperm := List.perm_middle.nodup_iff.mp hids
    rw [List.nodup_cons, ← List.map_append] at hperm
    exact hperm.1
  rw [List.filter_append, List.filter_cons_of_neg (by simp), ← List.filter_append]
  apply List.filter_eq_self.mpr
  intro x hx
  have hne : x.teId ≠ (s.event te).teId := fun heq => hnot (heq ▸ List.mem_map_of_mem hx)
  simpa using hne

/-- An expiry does to the queue of the kernel what it does in memory. -/
theorem pending_action {s s' : TimerState} {l : List Addr} (hi : s.Inv l) {clk : Nat → Int}
    {fired : List TimeEvent} (h : timeEventActionAt s clk = some (fired, s')) {k : Kernel}
    (hk : k.teq = s.pending) (r : Resched) :
    (timeEventLoop clk k.teq 0 r k).2.teq = s'.pending := by
  obtain ⟨s₁, l₁, h₁, hi₁, hmap, -⟩ := drain_eq clk hi hi.used.length_eq.ge 0
  have heq := Option.some.inj (h₁.symm.trans h)
  rw [Prod.mk.injEq] at heq
  obtain ⟨-, rfl⟩ := heq
  rw [teq_timeEventLoop, hi₁.pending_eq, hmap, hk, hi.pending_eq]

/-! ## Histories -/

/-- The operations. -/
inductive TimerOp where
  /-- `time_event_alloc`, with the block that `kalloc` returns. -/
  | alloc (te : Addr) (time : Int) (type : TimeEventType)
  | free (te : Addr)
  | action (clk : Nat → Int)

/-- Why an operation does not take place. -/
inductive TimerFault where
  /-- `kalloc` does not return a block in use, and only pending events are freed. -/
  | disabled
  /-- A loop did not reach the end of the list. -/
  | endless
  deriving DecidableEq, Repr

/-- One operation. -/
def timerStep (s : TimerState) : TimerOp → Except TimerFault TimerState
  | .alloc te time type =>
      if te ∈ s.used then .error .disabled
      else (timeEventAllocAt s te time type).elim (.error .endless) .ok
  | .free te =>
      if te ∈ s.nodes then (timeEventFreeAt s te).elim (.error .endless) .ok
      else .error .disabled
  | .action clk => (timeEventActionAt s clk).elim (.error .endless) (fun r => .ok r.2)

/-- The event that an operation allocates. -/
def allocatedBy (x : TimerState × TimerOp) : List TimeEvent :=
  match x.2 with
  | .alloc _ time type => [⟨x.1.nxtTe, time, type⟩]
  | _ => []

/-- The event that an operation frees. -/
def freedBy (x : TimerState × TimerOp) : List TimeEvent :=
  match x.2 with
  | .free te => [x.1.event te]
  | _ => []

/-- The events that an operation fires. -/
def firedBy (x : TimerState × TimerOp) : List TimeEvent :=
  match x.2 with
  | .action clk => (timeEventActionAt x.1 clk).elim [] Prod.fst
  | _ => []

theorem expire_append (clk : Nat → Int) (l : List TimeEvent) (i : Nat) :
    (expire clk l i).1 ++ (expire clk l i).2 = l := by
  induction l generalizing i with
  | nil => rfl
  | cons te es ih =>
      rw [expire]
      split
      · rw [List.cons_append, ih]
      · rfl

/-- What holds along every history. -/
structure TimerHistory (tr : List (TimerState × TimerOp)) (s : TimerState) : Prop where
  inv : ∃ l, s.Inv l
  accounts : (s.pending ++ tr.flatMap firedBy ++ tr.flatMap freedBy).Perm (tr.flatMap allocatedBy)
  ids : ((tr.flatMap allocatedBy).map TimeEvent.teId).Nodup
  fresh : ∀ te ∈ tr.flatMap allocatedBy, te.teId < s.nxtTe

theorem nodup_allocatedBy (x : TimerState × TimerOp) : ((allocatedBy x).map TimeEvent.teId).Nodup := by
  obtain ⟨s, op⟩ := x
  cases op <;> simp [allocatedBy]

theorem teId_of_allocatedBy {x : TimerState × TimerOp} {te : TimeEvent} (h : te ∈ allocatedBy x) :
    te.teId = x.1.nxtTe := by
  obtain ⟨s, op⟩ := x
  cases op with
  | alloc a time type =>
      obtain rfl := List.mem_singleton.mp h
      rfl
  | _ => cases h

/-- One more operation, which moves the events between the queue and the account of the history. -/
theorem TimerHistory.snoc {tr : List (TimerState × TimerOp)} {s s' : TimerState} {op : TimerOp}
    (hh : TimerHistory tr s) (hinv : ∃ l, s'.Inv l)
    (hmoved : (s'.pending ++ firedBy (s, op) ++ freedBy (s, op)).Perm (s.pending ++ allocatedBy (s, op)))
    (hle : s.nxtTe ≤ s'.nxtTe) (hnew : ∀ te ∈ allocatedBy (s, op), s.nxtTe < s'.nxtTe) :
    TimerHistory (tr ++ [(s, op)]) s' where
  inv := hinv
  accounts := by
    refine List.perm_iff_count.mpr fun te => ?_
    have hbefore := List.perm_iff_count.mp hh.accounts te
    have hop := List.perm_iff_count.mp hmoved te
    simp only [List.flatMap_append, List.flatMap_singleton, List.count_append] at hbefore hop ⊢
    omega
  ids := by
    rw [List.flatMap_append, List.flatMap_singleton, List.map_append]
    refine List.nodup_append.mpr ⟨hh.ids, nodup_allocatedBy _, fun x hx y hy => ?_⟩
    obtain ⟨te, hte, rfl⟩ := List.mem_map.mp hx
    obtain ⟨te', hte', rfl⟩ := List.mem_map.mp hy
    rw [teId_of_allocatedBy hte']
    exact (hh.fresh te hte).ne
  fresh te hte := by
    rw [List.flatMap_append, List.flatMap_singleton] at hte
    rcases List.mem_append.mp hte with hold | hlast
    · exact (hh.fresh te hold).trans_le hle
    · rw [teId_of_allocatedBy hlast]
      exact hnew te hlast

theorem TimerHistory.step {tr : List (TimerState × TimerOp)} {s s' : TimerState} {op : TimerOp}
    (hh : TimerHistory tr s) (h : timerStep s op = .ok s') : TimerHistory (tr ++ [(s, op)]) s' := by
  obtain ⟨l, hi⟩ := hh.inv
  cases op with
  | alloc te time type =>
      simp only [timerStep] at h
      split at h
      · exact absurd h (by simp)
      rename_i hte
      obtain ⟨s₁, l₁, h₁, hi₁, hnxt, hmap⟩ := timeEventAllocAt_eq hi hte time type
      simp only [h₁, Option.elim_some, Except.ok.injEq] at h
      subst h
      have hpend : s₁.pending.Perm (⟨s.nxtTe, time, type⟩ :: s.pending) := by
        rw [hi₁.pending_eq, hmap, hi.pending_eq]
        exact insertEvent_perm _ _
      refine hh.snoc ⟨l₁, hi₁⟩ ?_ (by omega) fun _ _ => by omega
      simpa [firedBy, freedBy, allocatedBy] using hpend.trans (List.perm_append_singleton _ _).symm
  | free te =>
      simp only [timerStep] at h
      split at h
      swap
      · exact absurd h (by simp)
      rename_i hte
      rw [hi.nodes_eq] at hte
      obtain ⟨as, bs, rfl⟩ := List.append_of_mem hte
      obtain ⟨s₁, h₁, hi₁, hnxt, hev⟩ := timeEventFreeAt_eq hi
      simp only [h₁, Option.elim_some, Except.ok.injEq] at h
      subst h
      have hpend : s.pending.Perm (s.event te :: s₁.pending) := by
        rw [hi.pending_eq, hi₁.pending_eq, hev, List.map_append, List.map_append, List.map_cons]
        exact List.perm_middle
      refine hh.snoc ⟨as ++ bs, hi₁⟩ ?_ hnxt.ge fun _ hx => by cases hx
      simpa [firedBy, freedBy, allocatedBy] using (List.perm_append_singleton _ _).trans hpend.symm
  | action clk =>
      obtain ⟨s₁, l₁, h₁, hi₁, hmap, hnxt⟩ := drain_eq clk hi hi.used.length_eq.ge 0
      have hact : timeEventActionAt s clk = some ((expire clk (l.map s.event) 0).1, s₁) := h₁
      simp only [timerStep, hact, Option.elim_some, Except.ok.injEq] at h
      subst h
      have hpend : s.pending = (expire clk (l.map s.event) 0).1 ++ s₁.pending := by
        rw [hi₁.pending_eq, hmap, hi.pending_eq, expire_append]
      refine hh.snoc ⟨l₁, hi₁⟩ ?_ hnxt.ge fun _ hx => by cases hx
      -- what expires is the front of the queue
      rw [hpend]
      simpa [firedBy, freedBy, allocatedBy, hact] using List.perm_append_comm

theorem timerHistory {tr : List (TimerState × TimerOp)} {s : TimerState}
    (hrun : Exec timerStep .init tr s) : TimerHistory tr s := by
  induction hrun with
  | nil =>
      have hinit := TimerState.Inv.init
      refine ⟨⟨[], hinit⟩, ?_, List.nodup_nil, by simp⟩
      rw [hinit.pending_eq]
      exact List.Perm.refl _
  | snoc _ hu ih => exact ih.step hu

/-! ## The law of the queue -/

/-- **Timed events fire exactly once, in order**, after the history `tr`. -/
structure FireOnce (tr : List (TimerState × TimerOp)) (s : TimerState) : Prop where
  /-- The list links are well formed. -/
  links : Represents s.queue s.nodes
  /-- The queue is sorted by time, equal times in order of allocation. -/
  sorted : s.pending.Pairwise TimeEvent.Before
  /-- Every event that was allocated is pending, has fired or was freed, … -/
  accounts : (s.pending ++ tr.flatMap firedBy ++ tr.flatMap freedBy).Perm (tr.flatMap allocatedBy)
  /-- … and only one of these, and once. -/
  once : (s.pending ++ tr.flatMap firedBy ++ tr.flatMap freedBy).Nodup
  /-- An expiry that ends at the clock value `c` fires what is due, in the order of the queue, and
  nothing else leaves the queue. -/
  action : ∀ clk, Monotone clk → ∃ fired s', timeEventActionAt s clk = some (fired, s') ∧
    let c := clk fired.length
    fired = s.pending.filter (fun te => te.teTime ≤ c) ∧
      s'.pending = s.pending.filter (fun te => c < te.teTime)
  /-- Every loop ends. -/
  ends : ∀ op, timerStep s op ≠ .error .endless

theorem ends_timerStep {s : TimerState} {l : List Addr} (hi : s.Inv l) (op : TimerOp) :
    timerStep s op ≠ .error .endless := by
  cases op with
  | alloc te time type =>
      rw [timerStep]
      split
      · simp
      · rename_i hte
        obtain ⟨s₁, l₁, h₁, -⟩ := timeEventAllocAt_eq hi hte time type
        simp [h₁]
  | free te =>
      rw [timerStep]
      split
      · rename_i hte
        rw [hi.nodes_eq] at hte
        obtain ⟨as, bs, rfl⟩ := List.append_of_mem hte
        obtain ⟨s₁, h₁, -⟩ := timeEventFreeAt_eq hi
        simp [h₁]
      · simp
  | action clk =>
      obtain ⟨s₁, l₁, h₁, -⟩ := drain_eq clk hi hi.used.length_eq.ge 0
      have hact : timeEventActionAt s clk = some ((expire clk (l.map s.event) 0).1, s₁) := h₁
      simp [timerStep, hact]

/-- Over every sequence of operations the queue stays sorted and well linked, every event fires at
most once and in order, and an event leaves the queue by firing or by being freed only. -/
theorem timed_events_once {tr : List (TimerState × TimerOp)} {s : TimerState}
    (hrun : Exec timerStep .init tr s) : FireOnce tr s := by
  have hh := timerHistory hrun
  obtain ⟨l, hi⟩ := hh.inv
  refine ⟨?_, ?_, hh.accounts, ?_, ?_, ends_timerStep hi⟩
  · rw [hi.nodes_eq]
    exact hi.links
  · rw [hi.pending_eq]
    exact hi.sorted
  · exact hh.accounts.nodup_iff.mpr (List.Nodup.of_map TimeEvent.teId hh.ids)
  · intro clk hclk
    obtain ⟨s₁, l₁, h₁, hi₁, hmap, -⟩ := drain_eq clk hi hi.used.length_eq.ge 0
    have hexp := expire_eq hclk hi.sorted 0
    simp only [Nat.zero_add] at hexp
    refine ⟨_, s₁, h₁, ?_, ?_⟩
    · rw [hi.pending_eq]
      exact congrArg Prod.fst hexp
    · rw [hi₁.pending_eq, hi.pending_eq, hmap]
      exact congrArg Prod.snd hexp

/-- Two events at the same time and a later one; the first of them is freed before the others fire. -/
theorem timed_events_once_tie : ∃ tr s, Exec timerStep .init tr s ∧ FireOnce tr s ∧
    s.pending = [] ∧ (tr.flatMap firedBy).map TimeEvent.teId = [1, 2] := by
  obtain ⟨s, hrun, hend⟩ := Exec.of_checkRun timerStep .init
    [.alloc 8 5 .partitionActivate, .alloc 16 5 .partitionActivate, .alloc 24 7 .partitionActivate,
      .free 8, .action (fun i => 6 + i)] (fun s => s.pending = []) (by decide +kernel)
  exact ⟨_, s, hrun, timed_events_once hrun, of_decide_eq_true hend, by decide +kernel⟩

end Jrinx
