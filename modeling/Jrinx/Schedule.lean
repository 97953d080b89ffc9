import Jrinx.Lib.Timetable
import Jrinx.PartTimers
import Jrinx.WaitAgreement

/-! # The partition schedule over a run

`sched_global` moves a cursor over the module table by one, once for an interrupt, however many partition
events have expired, and arms the next event of the module that it comes to.

* **`Aligned`** — the current module is the one that was activated last, and every module has its own event.
* **`Launched`** — the states in which `sched_launch` and the first `sched_global` leave the kernel.
* **`OnTime`** — the interrupt is handled while the next module, and no other, is due.
* **`schedule_aligned_iff`** — over all runs. -/

namespace Jrinx

variable {k k' : Kernel} {T₀ : Int}

/-! ## The law -/

/-- **The schedule is aligned** at the time `h`: the current module is the one with the latest activation
instant that has come, and the partition events are, one for one, set to the next activation instants of the
modules. -/
structure Aligned (T₀ h : Int) (k : Kernel) : Prop where
  current : ∃ i m n, k.schedCurMod = some i ∧ k.schedModules[i]? = some m ∧
    instant (T₀ + m.smOffset) k.schedMajorFrame n ≤ h ∧
    ∀ m' ∈ k.schedModules, ∀ n', instant (T₀ + m'.smOffset) k.schedMajorFrame n' ≤ h →
      instant (T₀ + m'.smOffset) k.schedMajorFrame n' ≤ instant (T₀ + m.smOffset) k.schedMajorFrame n
  pending : ∃ next, List.Forall₂ (fun (m : SchedModule) t =>
      IsNext (T₀ + m.smOffset) k.schedMajorFrame h t) k.schedModules next ∧
    (partitionTimes k.teq).Perm next

/-- An interrupt that reschedules partitions leaves the schedule aligned. -/
def LeavesAligned (T₀ : Int) (k : Kernel) (e : Event) : Prop :=
  ∀ clk r k', e = .timer clk → timeEventAction k clk = .ok (r, k') → r.part = true →
    Aligned T₀ (handledAt clk k.teq 0) k'

/-- The clock does not go back while an interrupt is handled. -/
def Event.ClockRises : Event → Prop
  | .timer clk => Monotone clk
  | _ => True

/-- **Only the module after the current one is due** at the time `h`, it is less than a major frame late, and
the first window of the table was not to begin after it. -/
structure OnTime (T₀ h : Int) (k : Kernel) (m : SchedModule) : Prop where
  next : k.schedModules[nextMod k]? = some m
  due : m.smPrevActTime ≤ h
  inFrame : h < m.smPrevActTime + k.schedMajorFrame
  alone : ∀ j m', k.schedModules[j]? = some m' → j ≠ nextMod k → h < m'.smPrevActTime
  begun : ∀ m₀, k.schedModules.head? = some m₀ → T₀ + m₀.smOffset ≤ m.smPrevActTime

/-- Partition events that have expired are handled on time. -/
def HandledOnTime (T₀ : Int) (k : Kernel) (e : Event) : Prop :=
  ∀ clk, e = .timer clk → (∃ t ∈ partitionTimes k.teq, t ≤ handledAt clk k.teq 0) →
    ∃ m, OnTime T₀ (handledAt clk k.teq 0) k m

/-! ## The launch -/

/-- Modules are added with `sched_module_add`. -/
inductive ModulesAdded (k : Kernel) : Kernel → Prop
  | refl : ModulesAdded k k
  | add {m k' : Kernel} (part : PartId) (offset duration : Int) (h : ModulesAdded k m)
      (added : schedModuleAdd m part offset duration = some k') : ModulesAdded k k'

/-- After boot there are no timed events and no modules. -/
structure Booted (k : Kernel) : Prop where
  quiet : Quiet k
  teq : k.teq = []
  schedModules : k.schedModules = []
  schedCurMod : k.schedCurMod = none

/-- The state in which `kernel_init` leaves the scheduler that it launched at the time `T₀`. -/
def Launched (T₀ : Int) (k : Kernel) : Prop :=
  ∃ k₀ k₁ k₂, Booted k₀ ∧ ModulesAdded k₀ k₁ ∧ schedLaunch k₁ T₀ = some k₂ ∧ schedGlobal k₂ = .ok k

/-- Before the first switch: the first module was activated at once, the others wait for their offset. -/
def Launching (T₀ : Int) (k : Kernel) : Prop :=
  k.schedCurMod = some 0 ∧ ∃ m₀ ms, k.schedModules = m₀ :: ms ∧
    m₀.smPrevActTime = T₀ + m₀.smOffset + k.schedMajorFrame ∧
    ∀ m ∈ ms, m.smPrevActTime = T₀ + m.smOffset

/-- At a time since the first window began, every module is set to its next activation instant. -/
def SetAt (T₀ : Int) (k : Kernel) (h : Int) : Prop :=
  (∀ m ∈ k.schedModules, IsNext (T₀ + m.smOffset) k.schedMajorFrame h m.smPrevActTime) ∧
    ∀ m₀, k.schedModules.head? = some m₀ → T₀ + m₀.smOffset ≤ h

/-- **The cursor and the events are in step**: every module has one event, at the time that the module keeps,
and these times were right when the last interrupt was handled. -/
structure OnSchedule (T₀ : Int) (k : Kernel) : Prop where
  registered : Registered k
  order : QueueOrder k
  frame : 0 ≤ k.schedMajorFrame
  pending : (partitionTimes k.teq).Perm (k.schedModules.map SchedModule.smPrevActTime)
  armed : Launching T₀ k ∨ ∃ h, SetAt T₀ k h

theorem majorFrame_nonneg (k : Kernel) : 0 ≤ majorFrame k := by
  have hfold : ∀ (l : List PartId) (acc : Int), 0 ≤ acc →
      0 ≤ l.foldl (fun acc pt => (Int.lcm acc (k.parts pt).paPeriod : Int)) acc := by
    intro l
    induction l with
    | nil => exact fun acc h => h
    | cons pt l ih => exact fun acc _ => ih _ (Int.natCast_nonneg _)
  exact hfold k.schedParts 1 (by decide)

/-- The modules that are added change nothing else. -/
theorem ModulesAdded.eq (h : ModulesAdded k k') : ∃ ms, k' = { k with schedModules := ms } := by
  induction h with
  | refl => exact ⟨k.schedModules, rfl⟩
  | @add m k' part offset duration _ added ih =>
      obtain ⟨ms, rfl⟩ := ih
      unfold schedModuleAdd at added
      dsimp only at added
      split at added
      · exact ⟨_, (Option.some.inj added).symm⟩
      · split at added
        · exact absurd added (by simp)
        · exact ⟨_, (Option.some.inj added).symm⟩

/-- The loop of `sched_launch` touches the queue only. -/
theorem launchModules_eq (now : Int) (first : Bool) (ms : List SchedModule) (k : Kernel) :
    ∃ es n, launchModules now first ms k = { k with teq := es, nxtTe := n } := by
  induction ms generalizing first k with
  | nil => exact ⟨k.teq, k.nxtTe, rfl⟩
  | cons m ms ih =>
      rw [launchModules]
      split
      · exact ih false k
      · obtain ⟨es, n, h⟩ := ih false (timeEventAlloc k (now + m.smOffset) .partitionActivate)
        exact ⟨es, n, h⟩

theorem QueueOrder.partitionEvent (h : QueueOrder k) (time : Int) :
    QueueOrder (timeEventAlloc k time .partitionActivate) :=
  h.insert ⟨k.nxtTe, time, .partitionActivate⟩ rfl rfl rfl fun _ => Or.inl rfl

/-- The events that the loop arms, for the modules after the first one. -/
theorem launchModules_rest (now : Int) (ms : List SchedModule) (h : QueueOrder k) :
    QueueOrder (launchModules now false ms k) ∧
      (partitionTimes (launchModules now false ms k).teq).Perm
        (ms.map (fun m => now + m.smOffset) ++ partitionTimes k.teq) := by
  induction ms generalizing k with
  | nil => exact ⟨h, List.Perm.refl _⟩
  | cons m ms ih =>
      obtain ⟨horder, hperm⟩ := ih (h.partitionEvent (now + m.smOffset))
      refine ⟨horder, hperm.trans ?_⟩
      have hins : (partitionTimes (timeEventAlloc k (now + m.smOffset) .partitionActivate).teq).Perm
          ((now + m.smOffset) :: partitionTimes k.teq) :=
        partitionTimes_insertEvent_perm ⟨k.nxtTe, now + m.smOffset, .partitionActivate⟩ rfl k.teq
      exact (hins.append_left _).trans List.perm_middle

/-- The registry does not depend on the scheduler. -/
theorem Registered.setSched (h : Registered k) (ms : List SchedModule) (frame : Int) (es : List TimeEvent)
    (n : Nat) : Registered { k with schedModules := ms, schedMajorFrame := frame, teq := es, nxtTe := n } :=
  ⟨h.procs_lt, h.bufs_lt, h.bbs_lt, h.ports_lt, h.procList, h.calls, h.fits, h.cur⟩

/-- `sched_launch` succeeds only as a whole. -/
theorem schedLaunch_eq_some {now : Int} (h : schedLaunch k now = some k') :
    ∃ k₁, launchModules now true k.schedModules { k with schedMajorFrame := majorFrame k } = k₁ ∧
      k' = { k₁ with
        schedModules := k.schedModules.map fun m => { m with smPrevActTime := now + m.smOffset } } := by
  unfold schedLaunch at h
  dsimp only at h
  split at h
  · exact absurd h (by simp)
  · split at h
    · exact absurd h (by simp)
    · obtain ⟨es, n, heq⟩ := launchModules_eq now true k.schedModules
        { k with schedMajorFrame := majorFrame k }
      rw [heq] at h ⊢
      exact ⟨_, rfl, (Option.some.inj h).symm⟩

/-- `sched_global` with a module table: the cursor moves and the module that it comes to is set anew. -/
theorem schedGlobal_of_modules {m : SchedModule} (hm : k.schedModules[nextMod k]? = some m) :
    schedGlobal k = .ok
      { k with
        schedCurMod := some (nextMod k)
        teq := insertEvent ⟨k.nxtTe, m.smPrevActTime + k.schedMajorFrame, .partitionActivate⟩ k.teq
        nxtTe := k.nxtTe + 1
        schedModules := k.schedModules.set (nextMod k)
          { m with smPrevActTime := m.smPrevActTime + k.schedMajorFrame }
        curPart := m.smPart } := by
  unfold schedGlobal
  cases hmods : k.schedModules with
  | nil =>
      rw [hmods] at hm
      exact absurd hm (by simp)
  | cons m₀ ms =>
      rw [hmods] at hm
      have hget : (m₀ :: ms).getD (nextMod k) m₀ = m := by
        rw [List.getD_eq_getElem?_getD, hm]
        rfl
      dsimp only
      rw [hget]
      rfl

/-- After boot the queue is in order. -/
theorem Booted.queueOrder (h : Booted k) : QueueOrder k := by
  constructor
  · rw [h.teq]
    exact List.Pairwise.nil
  · rw [h.teq]
    simp
  · exact fun p t ht => absurd ((h.quiet.timer p).symm.trans ht) (by simp)
  · exact fun p t ht => absurd ((h.quiet.timer p).symm.trans ht) (by simp)

/-- **The queue has one event for every module** after the launch. -/
theorem Launched.onSchedule (h : Launched T₀ k) : OnSchedule T₀ k := by
  obtain ⟨k₀, k₁, k₂, hboot, hadded, hlaunch, hglobal⟩ := h
  obtain ⟨ms, rfl⟩ := hadded.eq
  obtain ⟨k₃, hloop, rfl⟩ := schedLaunch_eq_some hlaunch
  have hframe := majorFrame_nonneg { k₀ with schedModules := ms }
  generalize majorFrame { k₀ with schedModules := ms } = frame at hframe hloop
  have horder : QueueOrder { k₀ with schedModules := ms, schedMajorFrame := frame } :=
    ⟨hboot.queueOrder.sorted, hboot.queueOrder.ids, hboot.queueOrder.fresh, hboot.queueOrder.own⟩
  cases ms with
  | nil =>
      obtain rfl : { k₀ with schedModules := [], schedMajorFrame := frame } = k₃ := hloop
      have hreg : Registered k :=
        ((hboot.quiet.registered.setSched [] frame k₀.teq k₀.nxtTe).eff (Eff.global hglobal)).1
      simp only [schedGlobal, List.map_nil] at hglobal
      split at hglobal
      · exact absurd hglobal (by simp)
      · rw [← Except.ok.inj hglobal] at hreg ⊢
        constructor
        · exact hreg
        · exact ⟨horder.sorted, horder.ids, horder.fresh, horder.own⟩
        · exact hframe
        · simp [hboot.teq, partitionTimes]
        · exact Or.inr ⟨0, by simp [SetAt]⟩
  | cons m₀ ms =>
      rw [launchModules, if_pos rfl] at hloop
      obtain ⟨horder₃, hperm⟩ := launchModules_rest T₀ ms horder
      obtain ⟨es, n, hk₃⟩ := launchModules_eq T₀ false ms
        { k₀ with schedModules := m₀ :: ms, schedMajorFrame := frame }
      rw [hk₃] at horder₃ hperm hloop
      subst hloop
      have hreg : Registered k :=
        ((hboot.quiet.registered.setSched _ frame es n).eff (Eff.global hglobal)).1
      -- the first call of `sched_global` comes to the first module
      have hnext : ∀ l, nextMod { k₀ with
          schedModules := l, schedMajorFrame := frame, teq := es, nxtTe := n } = 0 := by
        intro l
        simp [nextMod, hboot.schedCurMod]
      rw [schedGlobal_of_modules (m := { m₀ with smPrevActTime := T₀ + m₀.smOffset })
        (by simp [hnext])] at hglobal
      rw [← Except.ok.inj hglobal] at hreg ⊢
      simp only [hnext, List.map_cons, List.set_cons_zero] at hreg ⊢
      constructor
      · exact hreg
      · exact horder₃.insert ⟨n, T₀ + m₀.smOffset + frame, .partitionActivate⟩ rfl rfl rfl
          fun _ => Or.inl rfl
      · exact hframe
      · refine (partitionTimes_insertEvent_perm
          ⟨n, T₀ + m₀.smOffset + frame, .partitionActivate⟩ rfl es).trans ?_
        have hrest : (partitionTimes es).Perm (ms.map fun m => T₀ + m.smOffset) := by
          simpa [hboot.teq, partitionTimes] using hperm
        simpa [Function.comp_def] using hrest
      · refine Or.inl ⟨rfl, _, _, rfl, rfl, fun m hm => ?_⟩
        obtain ⟨m', -, rfl⟩ := List.mem_map.mp hm
        rfl

/-! ## A timer interrupt -/

theorem partitionTimes_filter (h : Int) (l : List TimeEvent) :
    partitionTimes (l.filter fun te => h < te.teTime) = (partitionTimes l).filter fun t => h < t := by
  induction l with
  | nil => rfl
  | cons te es ih =>
      by_cases hlate : h < te.teTime
      · rw [List.filter_cons_of_pos (by simpa using hlate), partitionTimes_cons, partitionTimes_cons, ih]
        split
        · rw [List.filter_cons_of_pos (by simpa using hlate)]
        · rfl
      · rw [List.filter_cons_of_neg (by simpa using hlate), partitionTimes_cons, ih]
        split
        · rw [List.filter_cons_of_neg (by simpa using hlate)]
        · rfl

/-- What a timer interrupt that is handled at the time `h` does to the schedule. -/
inductive TimerTurn (h : Int) (k : Kernel) (r : Resched) (k' : Kernel) : Prop
  /-- No partition event has expired. -/
  | stay (early : ∀ t ∈ partitionTimes k.teq, h < t) (resched : r.part = false)
      (keeps : KeepsPartTimers k k')
  /-- The cursor moves by one, and the module that it comes to is set anew. -/
  | move (late : ∃ t ∈ partitionTimes k.teq, t ≤ h) (resched : r.part = true) (m : SchedModule)
      (next : k.schedModules[nextMod k]? = some m) (order : QueueOrder k')
      (cur : k'.schedCurMod = some (nextMod k)) (frame : k'.schedMajorFrame = k.schedMajorFrame)
      (modules : k'.schedModules = k.schedModules.set (nextMod k)
        { m with smPrevActTime := m.smPrevActTime + k.schedMajorFrame })
      (times : (partitionTimes k'.teq).Perm ((m.smPrevActTime + k.schedMajorFrame) ::
        (partitionTimes k.teq).filter fun t => h < t))

theorem nextMod_lt (h : k.schedModules ≠ []) : nextMod k < k.schedModules.length := by
  have hpos := List.length_pos_of_ne_nil h
  unfold nextMod
  split
  · exact hpos
  · split
    · assumption
    · exact hpos

theorem timerTurn {clk : Nat → Int} {r : Resched} (hclk : Monotone clk) (ho : QueueOrder k)
    (hmods : k.schedModules = [] → partitionTimes k.teq = [])
    (h : timeEventAction k clk = .ok (r, k')) : TimerTurn (handledAt clk k.teq 0) k r k' := by
  have hfilter := expire_eq_filter hclk ho.sorted 0
  have hteq := teq_timeEventLoop clk k.teq 0 ⟨false, false⟩ k
  have hpart := part_timeEventLoop clk k.teq 0 ⟨false, false⟩ k
  have hframe := LoopFrame.timeEventLoop clk k.teq 0 ⟨false, false⟩ k
  rw [hfilter] at hteq hpart
  unfold timeEventAction at h
  generalize timeEventLoop clk k.teq 0 ⟨false, false⟩ k = x at h hteq hpart hframe
  obtain ⟨r₁, k₁⟩ := x
  dsimp only at h hteq hpart hframe
  -- a partition event is among those that have expired
  have hlate : r₁.part = true ↔ ∃ t ∈ partitionTimes k.teq, t ≤ handledAt clk k.teq 0 := by
    rw [hpart]
    simp only [Bool.false_or, List.any_eq_true, List.mem_filter, decide_eq_true_eq, partitionTimes,
      List.mem_map]
    constructor
    · rintro ⟨te, ⟨hmem, hle⟩, hp⟩
      exact ⟨te.teTime, ⟨te, ⟨hmem, hp⟩, rfl⟩, hle⟩
    · rintro ⟨t, ⟨te, ⟨hmem, hp⟩, rfl⟩, hle⟩
      exact ⟨te, ⟨hmem, hle⟩, hp⟩
  have horder : QueueOrder k₁ := by
    refine ho.sub ?_ hframe.nxtTe hframe.timers
    rw [hteq]
    exact List.filter_sublist
  have htimes : partitionTimes k₁.teq =
      (partitionTimes k.teq).filter fun t => handledAt clk k.teq 0 < t := by
    rw [hteq, partitionTimes_filter]
  split at h
  · -- the switch: the event of the module that becomes the current one enters the queue
    rename_i hresched
    have hexists := hlate.mp hresched
    have hne : k.schedModules ≠ [] := by
      intro hnil
      rw [hmods hnil] at hexists
      simp at hexists
    have hnext : nextMod k₁ = nextMod k := by
      rw [nextMod, nextMod, hframe.schedCurMod, hframe.schedModules]
    obtain ⟨m, hm⟩ : ∃ m, k.schedModules[nextMod k]? = some m :=
      ⟨_, List.getElem?_eq_getElem (nextMod_lt hne)⟩
    have hm₁ : k₁.schedModules[nextMod k₁]? = some m := by
      rw [hnext, hframe.schedModules, hm]
    rw [schedGlobal_of_modules hm₁] at h
    simp only [bind, Except.bind, Except.ok.injEq, Prod.mk.injEq] at h
    obtain ⟨rfl, rfl⟩ := h
    refine .move hexists hresched m hm ?_ ?_ ?_ ?_ ?_
    · exact horder.insert ⟨k₁.nxtTe, m.smPrevActTime + k₁.schedMajorFrame, .partitionActivate⟩
        rfl rfl rfl fun _ => Or.inl rfl
    · rw [hnext]
    · exact hframe.schedMajorFrame
    · rw [hnext, hframe.schedModules, hframe.schedMajorFrame]
    · rw [← hframe.schedMajorFrame, ← htimes]
      exact partitionTimes_insertEvent_perm _ rfl k₁.teq
  · -- no partition event has expired, and the schedule stays
    rename_i hresched
    simp only [Except.ok.injEq, Prod.mk.injEq] at h
    obtain ⟨rfl, rfl⟩ := h
    have hearly : ∀ t ∈ partitionTimes k.teq, handledAt clk k.teq 0 < t := by
      intro t ht
      by_contra hle
      exact hresched (hlate.mpr ⟨t, ht, not_lt.mp hle⟩)
    refine .stay hearly (by simpa using hresched) ⟨horder, hframe.schedModules, hframe.schedCurMod,
      hframe.schedMajorFrame, ?_⟩
    rw [htimes, List.filter_eq_self.mpr]
    exact fun t ht => by simpa using hearly t ht

/-! ## The modules -/

/-- The element at an index, with what stands before and after it. -/
theorem exists_split_of_getElem? {α : Type*} {l : List α} {i : Nat} {a : α} (h : l[i]? = some a) :
    ∃ xs ys, l = xs ++ a :: ys ∧ xs.length = i := by
  obtain ⟨hi, ha⟩ := List.getElem?_eq_some_iff.mp h
  refine ⟨l.take i, l.drop (i + 1), ?_, List.length_take_of_le hi.le⟩
  rw [← ha, List.getElem_cons_drop, List.take_append_drop]

/-- A property of all elements but the one at an index. -/
theorem forall_getElem?_ne_iff {α : Type*} {xs ys : List α} {a : α} {P : α → Prop} :
    (∀ j b, (xs ++ a :: ys)[j]? = some b → j ≠ xs.length → P b) ↔ ∀ b ∈ xs ++ ys, P b := by
  constructor
  · intro h b hb
    rcases List.mem_append.mp hb with hb | hb
    · obtain ⟨j, hj⟩ := List.mem_iff_getElem?.mp hb
      have hlt := (List.getElem?_eq_some_iff.mp hj).1
      exact h j b (by rw [List.getElem?_append_left hlt, hj]) hlt.ne
    · obtain ⟨j, hj⟩ := List.mem_iff_getElem?.mp hb
      refine h (xs.length + (j + 1)) b ?_ (by omega)
      rw [List.getElem?_append_right (by omega), Nat.add_sub_cancel_left, List.getElem?_cons_succ, hj]
  · intro h j b hj hne
    rcases Nat.lt_trichotomy j xs.length with hlt | heq | hgt
    · rw [List.getElem?_append_left hlt] at hj
      exact h b (List.mem_append_left ys (List.mem_of_getElem? hj))
    · exact absurd heq hne
    · obtain ⟨d, rfl⟩ := Nat.exists_eq_add_of_lt hgt
      rw [List.getElem?_append_right (by omega), show xs.length + d + 1 - xs.length = d + 1 by omega,
        List.getElem?_cons_succ] at hj
      exact h b (List.mem_append_right xs (List.mem_of_getElem? hj))

/-- What is set after the switch. -/
def afterMove (xs : List SchedModule) (m : SchedModule) (ys : List SchedModule) (frame : Int) :
    List SchedModule :=
  xs ++ { m with smPrevActTime := m.smPrevActTime + frame } :: ys

theorem set_eq_afterMove (xs : List SchedModule) (m : SchedModule) (ys : List SchedModule) (frame : Int) :
    (xs ++ m :: ys).set xs.length { m with smPrevActTime := m.smPrevActTime + frame } =
      afterMove xs m ys frame := by
  simp [afterMove]

/-- When only one module was due, there is again one event for every module. -/
theorem pending_afterMove {xs ys : List SchedModule} {m : SchedModule} {frame h : Int} {times : List Int}
    (hp : times.Perm ((xs ++ m :: ys).map SchedModule.smPrevActTime)) (hdue : m.smPrevActTime ≤ h)
    (halone : ∀ m' ∈ xs ++ ys, h < m'.smPrevActTime) :
    ((m.smPrevActTime + frame) :: times.filter fun t => h < t).Perm
      ((afterMove xs m ys frame).map SchedModule.smPrevActTime) := by
  have hkeep : ∀ l : List SchedModule, l ⊆ xs ++ ys →
      (l.map SchedModule.smPrevActTime).filter (fun t => h < t) = l.map SchedModule.smPrevActTime := by
    intro l hl
    refine List.filter_eq_self.mpr fun t ht => ?_
    obtain ⟨m', hm', rfl⟩ := List.mem_map.mp ht
    simpa using halone m' (hl hm')
  have hfilter : ((xs ++ m :: ys).map SchedModule.smPrevActTime).filter (fun t => h < t) =
      xs.map SchedModule.smPrevActTime ++ ys.map SchedModule.smPrevActTime := by
    rw [List.map_append, List.map_cons, List.filter_append,
      List.filter_cons_of_neg (by simpa using hdue), hkeep xs (List.subset_append_left xs ys),
      hkeep ys (List.subset_append_right xs ys)]
  have hrest := hp.filter fun t => h < t
  rw [hfilter] at hrest
  refine (hrest.cons (m.smPrevActTime + frame)).trans ?_
  rw [afterMove, List.map_append, List.map_cons]
  exact List.perm_middle.symm

/-! ## What has come -/

/-- Every module is set to one of its activation instants. -/
theorem OnSchedule.exists_instant (hi : OnSchedule T₀ k) {m : SchedModule} (hm : m ∈ k.schedModules) :
    ∃ n, m.smPrevActTime = instant (T₀ + m.smOffset) k.schedMajorFrame n := by
  rcases hi.armed with ⟨-, m₀, ms, hmods, hfirst, hrest⟩ | ⟨h₀, hset, -⟩
  · rw [hmods] at hm
    rcases List.mem_cons.mp hm with rfl | hm
    · exact ⟨1, by rw [hfirst, instant_succ, instant_zero]⟩
    · exact ⟨0, by rw [hrest m hm, instant_zero]⟩
  · obtain ⟨n, hn, -⟩ := hset m hm
    exact ⟨n, hn⟩

/-- **An instant of the past** comes before all that are set, but for the start of the first window right
after the launch. -/
theorem OnSchedule.past (hi : OnSchedule T₀ k) {m : SchedModule} (hm : m ∈ k.schedModules) {n : ℕ}
    (hlt : instant (T₀ + m.smOffset) k.schedMajorFrame n < m.smPrevActTime) :
    (∀ m' ∈ k.schedModules, instant (T₀ + m.smOffset) k.schedMajorFrame n < m'.smPrevActTime) ∨
      Launching T₀ k ∧ k.schedModules.head? = some m ∧
        instant (T₀ + m.smOffset) k.schedMajorFrame n = T₀ + m.smOffset := by
  rcases hi.armed with ⟨hcur, m₀, ms, hmods, hfirst, hrest⟩ | ⟨h₀, hset, -⟩
  · right
    rw [hmods] at hm
    rcases List.mem_cons.mp hm with rfl | hm
    · refine ⟨⟨hcur, m, ms, hmods, hfirst, hrest⟩, by rw [hmods]; rfl, ?_⟩
      cases n with
      | zero => exact instant_zero
      | succ n =>
          have hmono := instant_mono (T₀ + m.smOffset) hi.frame (Nat.le_add_left 1 n)
          rw [instant_succ 0, instant_zero, ← hfirst] at hmono
          exact absurd hlt (not_lt.mpr hmono)
    · have hmono := instant_mono (T₀ + m.smOffset) hi.frame (Nat.zero_le n)
      rw [instant_zero] at hmono
      rw [hrest m hm] at hlt
      exact absurd hlt (not_lt.mpr hmono)
  · left
    intro m' hm'
    rcases (hset m hm).le_or_le hi.frame n with hle | hle
    · exact hle.trans_lt (hset m' hm').lt
    · exact absurd hlt (not_lt.mpr hle)

/-! ## A switch on time -/

/-- The table, with the module after the cursor told apart. -/
structure Table (k : Kernel) (xs : List SchedModule) (m : SchedModule) (ys : List SchedModule) : Prop where
  modules : k.schedModules = xs ++ m :: ys
  index : xs.length = nextMod k

theorem exists_table {m : SchedModule} (h : k.schedModules[nextMod k]? = some m) :
    ∃ xs ys, Table k xs m ys := by
  obtain ⟨xs, ys, hmods, hlen⟩ := exists_split_of_getElem? h
  exact ⟨xs, ys, hmods, hlen⟩

variable {xs ys : List SchedModule} {m : SchedModule} {h : Int}

theorem Table.mem (ht : Table k xs m ys) : m ∈ k.schedModules := by
  rw [ht.modules]
  exact List.mem_append_right xs List.mem_cons_self

theorem Table.mem_of_mem (ht : Table k xs m ys) {m' : SchedModule} (hm : m' ∈ xs ++ ys) :
    m' ∈ k.schedModules := by
  rw [ht.modules]
  rcases List.mem_append.mp hm with hm | hm
  · exact List.mem_append_left _ hm
  · exact List.mem_append_right xs (List.mem_cons_of_mem m hm)

theorem Table.alone_iff (ht : Table k xs m ys) :
    (∀ j m', k.schedModules[j]? = some m' → j ≠ nextMod k → h < m'.smPrevActTime) ↔
      ∀ m' ∈ xs ++ ys, h < m'.smPrevActTime := by
  rw [ht.modules, ← ht.index]
  exact forall_getElem?_ne_iff

/-- The instants that have come when the switch is on time. -/
theorem OnTime.come (hi : OnSchedule T₀ k) (ht : OnTime T₀ h k m) (htab : Table k xs m ys)
    {m' : SchedModule} (hm' : m' ∈ xs ++ ys) {n : ℕ}
    (hn : instant (T₀ + m'.smOffset) k.schedMajorFrame n < m'.smPrevActTime) :
    instant (T₀ + m'.smOffset) k.schedMajorFrame n ≤ m.smPrevActTime := by
  rcases hi.past (htab.mem_of_mem hm') hn with hall | ⟨-, hhead, heq⟩
  · exact (hall m htab.mem).le
  · rw [heq]
    exact ht.begun m' hhead

/-- **Every module is set right** after a switch on time. -/
theorem OnTime.isNext (hi : OnSchedule T₀ k) (ht : OnTime T₀ h k m) (htab : Table k xs m ys) :
    ∀ m' ∈ afterMove xs m ys k.schedMajorFrame,
      IsNext (T₀ + m'.smOffset) k.schedMajorFrame h m'.smPrevActTime := by
  have halone := htab.alone_iff.mp ht.alone
  have hother : ∀ m' ∈ xs ++ ys, IsNext (T₀ + m'.smOffset) k.schedMajorFrame h m'.smPrevActTime := by
    intro m' hm'
    obtain ⟨n, hn⟩ := hi.exists_instant (htab.mem_of_mem hm')
    refine ⟨n, hn, halone m' hm', fun n' hn' => ?_⟩
    refine (ht.come hi htab hm' ?_).trans ht.due
    -- time goes on between the instants, since one frame was not over
    have hpos : 0 < k.schedMajorFrame := by linarith [ht.due, ht.inFrame]
    have hmono := instant_mono (T₀ + m'.smOffset) hi.frame hn'
    rw [Nat.succ_eq_add_one, instant_succ, ← hn] at hmono
    linarith
  intro m' hm'
  rcases List.mem_append.mp hm' with hx | hx
  · exact hother m' (List.mem_append_left ys hx)
  · rcases List.mem_cons.mp hx with rfl | hy
    · obtain ⟨n, hn⟩ := hi.exists_instant htab.mem
      have hdue := ht.due
      have hlate := ht.inFrame
      dsimp only
      rw [hn] at hdue hlate ⊢
      exact isNext_add_frame hdue hlate
    · exact hother m' (List.mem_append_right xs hy)

/-- The state after a switch. -/
structure Moved (k : Kernel) (xs : List SchedModule) (m : SchedModule) (ys : List SchedModule) (h : Int)
    (k' : Kernel) : Prop where
  order : QueueOrder k'
  cur : k'.schedCurMod = some xs.length
  frame : k'.schedMajorFrame = k.schedMajorFrame
  modules : k'.schedModules = afterMove xs m ys k.schedMajorFrame
  times : (partitionTimes k'.teq).Perm ((m.smPrevActTime + k.schedMajorFrame) ::
    (partitionTimes k.teq).filter fun t => h < t)

theorem Table.moved (htab : Table k xs m ys) (order : QueueOrder k')
    (cur : k'.schedCurMod = some (nextMod k)) (frame : k'.schedMajorFrame = k.schedMajorFrame)
    (modules : k'.schedModules = k.schedModules.set (nextMod k)
      { m with smPrevActTime := m.smPrevActTime + k.schedMajorFrame })
    (times : (partitionTimes k'.teq).Perm ((m.smPrevActTime + k.schedMajorFrame) ::
      (partitionTimes k.teq).filter fun t => h < t)) : Moved k xs m ys h k' := by
  refine ⟨order, by rw [cur, htab.index], frame, ?_, times⟩
  rw [modules, ← htab.index, htab.modules, set_eq_afterMove]

theorem Moved.current (hmv : Moved k xs m ys h k') : k'.schedModules[xs.length]? =
    some { m with smPrevActTime := m.smPrevActTime + k.schedMajorFrame } := by
  rw [hmv.modules, afterMove, List.getElem?_append_right le_rfl, Nat.sub_self]
  rfl

/-- There is one event for every module. -/
theorem Moved.pending (hi : OnSchedule T₀ k) (htab : Table k xs m ys) (hmv : Moved k xs m ys h k')
    (hdue : m.smPrevActTime ≤ h) (halone : ∀ m' ∈ xs ++ ys, h < m'.smPrevActTime) :
    (partitionTimes k'.teq).Perm (k'.schedModules.map SchedModule.smPrevActTime) := by
  have hp := hi.pending
  rw [htab.modules] at hp
  rw [hmv.modules]
  exact hmv.times.trans (pending_afterMove hp hdue halone)

/-- **A switch on time leaves the schedule aligned.** -/
theorem OnTime.aligned (hi : OnSchedule T₀ k) (ht : OnTime T₀ h k m) (htab : Table k xs m ys)
    (hmv : Moved k xs m ys h k') : Aligned T₀ h k' := by
  have halone := htab.alone_iff.mp ht.alone
  obtain ⟨n, hn⟩ := hi.exists_instant htab.mem
  constructor
  · refine ⟨xs.length, _, n, hmv.cur, hmv.current, ?_, ?_⟩
    · rw [hmv.frame, ← hn]
      exact ht.due
    · intro m' hm' n' hle
      rw [hmv.modules] at hm'
      rw [hmv.frame] at hle ⊢
      rw [← hn]
      have hother : ∀ m' ∈ xs ++ ys, instant (T₀ + m'.smOffset) k.schedMajorFrame n' ≤ h →
          instant (T₀ + m'.smOffset) k.schedMajorFrame n' ≤ m.smPrevActTime :=
        fun m' hm' hle => ht.come hi htab hm' (hle.trans_lt (halone m' hm'))
      rcases List.mem_append.mp hm' with hx | hx
      · exact hother m' (List.mem_append_left ys hx) hle
      · rcases List.mem_cons.mp hx with rfl | hy
        · -- the instant after the one that was due has not come
          have hlate := ht.inFrame
          rw [hn, ← instant_succ] at hlate
          rw [hn]
          refine instant_mono _ hi.frame ?_
          by_contra hgt
          have hmono := instant_mono (T₀ + m.smOffset) hi.frame (Nat.succ_le_of_lt (not_le.mp hgt))
          exact absurd (hmono.trans hle) (not_le.mpr hlate)
        · exact hother m' (List.mem_append_right xs hy) hle
  · refine ⟨k'.schedModules.map SchedModule.smPrevActTime, ?_, hmv.pending hi htab ht.due halone⟩
    rw [List.forall₂_map_right_iff, List.forall₂_same, hmv.frame, hmv.modules]
    exact ht.isNext hi htab

/-- The cursor and the events stay in step. -/
theorem OnTime.setAt (hi : OnSchedule T₀ k) (ht : OnTime T₀ h k m) (htab : Table k xs m ys)
    (hmv : Moved k xs m ys h k') : SetAt T₀ k' h := by
  constructor
  · rw [hmv.frame, hmv.modules]
    exact ht.isNext hi htab
  · intro m₀ hhead
    rw [hmv.modules, afterMove] at hhead
    have hbegun := ht.begun
    rw [htab.modules] at hbegun
    cases xs with
    | nil =>
        obtain rfl := Option.some.inj hhead
        exact (hbegun m rfl).trans ht.due
    | cons x xs =>
        obtain rfl := Option.some.inj hhead
        exact (hbegun x rfl).trans ht.due

/-! ## A switch that leaves the schedule aligned -/

/-- Right after the launch the next module is the second one, if there is one. -/
theorem Launching.table (hl : Launching T₀ k) (htab : Table k xs m ys) :
    xs = [] ∧ ys = [] ∧ m.smPrevActTime = T₀ + m.smOffset + k.schedMajorFrame ∨
      ∃ m₀, xs = [m₀] ∧ m₀.smPrevActTime = T₀ + m₀.smOffset + k.schedMajorFrame ∧
        ∀ m' ∈ m :: ys, m'.smPrevActTime = T₀ + m'.smOffset := by
  obtain ⟨hcur, m₀, ms, hmods, hfirst, hrest⟩ := hl
  have hlen := htab.index
  have heq := hmods.symm.trans htab.modules
  rw [nextMod, hcur, hmods] at hlen
  cases ms with
  | nil =>
      obtain rfl : xs = [] := by simpa using hlen
      obtain ⟨rfl, rfl⟩ := List.cons.inj heq
      exact Or.inl ⟨rfl, rfl, hfirst⟩
  | cons m₁ ms =>
      obtain ⟨x, rfl⟩ : ∃ x, xs = [x] := List.length_eq_one_iff.mp (by simpa using hlen)
      obtain ⟨rfl, htail⟩ := List.cons.inj heq
      have hrest' : ∀ m' ∈ m :: ys, m'.smPrevActTime = T₀ + m'.smOffset := by
        rw [← show m₁ :: ms = m :: ys from htail]
        exact hrest
      exact Or.inr ⟨m₀, rfl, hfirst, hrest'⟩

theorem lt_of_forall₂_isNext {frame : Int} {l : List SchedModule} {next : List Int}
    (hf : List.Forall₂ (fun (m : SchedModule) t => IsNext (T₀ + m.smOffset) frame h t) l next) :
    ∀ t ∈ next, h < t := by
  induction hf with
  | nil => simp
  | cons hn _ ih =>
      intro t ht
      rcases List.mem_cons.mp ht with rfl | ht
      · exact hn.lt
      · exact ih t ht

/-- The current module after an aligned switch is the one that was due. -/
theorem Aligned.due (hi : OnSchedule T₀ k) (htab : Table k xs m ys) (hmv : Moved k xs m ys h k')
    (hlate : ∃ t ∈ partitionTimes k.teq, t ≤ h) (ha : Aligned T₀ h k') : m.smPrevActTime ≤ h := by
  by_contra hearly
  rw [not_le] at hearly
  obtain ⟨t, ht, hle⟩ := hlate
  obtain ⟨d, hd, rfl⟩ := List.mem_map.mp (hi.pending.subset ht)
  have hother : d ∈ xs ++ ys := by
    rw [htab.modules, List.mem_append, List.mem_cons] at hd
    rcases hd with hd | rfl | hd
    · exact List.mem_append_left ys hd
    · exact absurd hle (not_le.mpr hearly)
    · exact List.mem_append_right xs hd
  obtain ⟨i, m', n, hcur, hm', hcome, hlatest⟩ := ha.current
  obtain rfl := Option.some.inj (hmv.cur.symm.trans hcur)
  obtain rfl := Option.some.inj (hmv.current.symm.trans hm')
  obtain ⟨nd, hnd⟩ := hi.exists_instant hd
  -- the module of an event that has expired is not ahead of the instant of the current one
  have hdm : d.smPrevActTime ≤ instant (T₀ + m.smOffset) k.schedMajorFrame n := by
    have hmem : d ∈ k'.schedModules := by
      rw [hmv.modules, afterMove, List.mem_append, List.mem_cons]
      exact (List.mem_append.mp hother).imp_right Or.inr
    have hmax := hlatest d hmem nd
    rw [hmv.frame, ← hnd] at hmax
    exact hmax hle
  rw [hmv.frame] at hcome
  have hpast : instant (T₀ + m.smOffset) k.schedMajorFrame n < m.smPrevActTime := hcome.trans_lt hearly
  -- an instant before the pending one of its module has passed for all modules
  rcases hi.past htab.mem hpast with hall | ⟨hl, -, heq⟩
  · exact absurd (hall d hd) (not_lt.mpr hdm)
  · rcases hl.table htab with ⟨rfl, rfl, -⟩ | ⟨m₀, -, -, hrest⟩
    · exact absurd hother (by simp)
    · exact absurd (heq.trans (hrest m List.mem_cons_self).symm) hpast.ne

/-- No other module was due. -/
theorem Aligned.alone (hi : OnSchedule T₀ k) (htab : Table k xs m ys) (hmv : Moved k xs m ys h k')
    (hdue : m.smPrevActTime ≤ h) (ha : Aligned T₀ h k') : ∀ m' ∈ xs ++ ys, h < m'.smPrevActTime := by
  obtain ⟨next, hset, hperm⟩ := ha.pending
  have hlen := hset.length_eq
  rw [← hperm.length_eq, hmv.times.length_eq, hmv.modules] at hlen
  have hp := hi.pending
  rw [htab.modules] at hp
  rw [List.length_cons, (hp.filter fun t => h < t).length_eq, List.map_append, List.map_cons,
    List.filter_append, List.filter_cons_of_neg (by simpa using hdue), ← List.filter_append,
    ← List.map_append, afterMove, List.length_append, List.length_cons] at hlen
  have hall : (((xs ++ ys).map SchedModule.smPrevActTime).filter fun t => h < t).length =
      ((xs ++ ys).map SchedModule.smPrevActTime).length := by
    rw [List.length_map, List.length_append]
    omega
  intro m' hm'
  have hmem := List.length_filter_eq_length_iff.mp hall m'.smPrevActTime (List.mem_map_of_mem hm')
  simpa using hmem

/-- An alarm for the first instant to come is set at most as late as one for any instant to come. -/
theorem forall₂_le_of_isNext {frame : Int} (hf : 0 ≤ frame) {l : List SchedModule} {next : List Int}
    (hset : List.Forall₂ (fun (m : SchedModule) t => IsNext (T₀ + m.smOffset) frame h t) l next)
    (hto : ∀ m ∈ l, h < m.smPrevActTime ∧ ∃ n, m.smPrevActTime = instant (T₀ + m.smOffset) frame n) :
    List.Forall₂ (· ≤ ·) next (l.map SchedModule.smPrevActTime) := by
  induction hset with
  | nil => exact List.Forall₂.nil
  | @cons m t l next hn _ ih =>
      obtain ⟨hlt, n, heq⟩ := hto m List.mem_cons_self
      refine List.Forall₂.cons ?_ (ih fun m' hm' => hto m' (List.mem_cons_of_mem m hm'))
      rw [heq] at hlt ⊢
      exact hn.le_of_lt hf hlt

/-- **Right alarms are the ones that the modules keep.** -/
theorem Aligned.isNext (hi : OnSchedule T₀ k) (htab : Table k xs m ys) (hmv : Moved k xs m ys h k')
    (hdue : m.smPrevActTime ≤ h) (hlate : h < m.smPrevActTime + k.schedMajorFrame)
    (halone : ∀ m' ∈ xs ++ ys, h < m'.smPrevActTime) (ha : Aligned T₀ h k') :
    ∀ m' ∈ k'.schedModules, IsNext (T₀ + m'.smOffset) k.schedMajorFrame h m'.smPrevActTime := by
  obtain ⟨next, hset, hperm⟩ := ha.pending
  rw [hmv.frame] at hset
  -- every module is set to an instant that is to come, so none is set too early
  have hto : ∀ m' ∈ k'.schedModules, h < m'.smPrevActTime ∧
      ∃ n, m'.smPrevActTime = instant (T₀ + m'.smOffset) k.schedMajorFrame n := by
    intro m' hm'
    rw [hmv.modules, afterMove, List.mem_append, List.mem_cons] at hm'
    rcases hm' with hx | rfl | hy
    · have hx' := List.mem_append_left ys hx
      exact ⟨halone m' hx', hi.exists_instant (htab.mem_of_mem hx')⟩
    · obtain ⟨n, hn⟩ := hi.exists_instant htab.mem
      exact ⟨hlate, n + 1, by rw [instant_succ, ← hn]⟩
    · have hy' := List.mem_append_right xs hy
      exact ⟨halone m' hy', hi.exists_instant (htab.mem_of_mem hy')⟩
  have hle := forall₂_le_of_isNext hi.frame hset hto
  have heq := eq_of_forall₂_le_of_perm hle (hperm.symm.trans (hmv.pending hi htab hdue halone))
  rw [heq, List.forall₂_map_right_iff, List.forall₂_same] at hset
  exact hset

/-- The first window has begun. -/
theorem Aligned.begun (hi : OnSchedule T₀ k) (htab : Table k xs m ys) (hmv : Moved k xs m ys h k')
    (hdue : m.smPrevActTime ≤ h) (hlate : h < m.smPrevActTime + k.schedMajorFrame)
    (halone : ∀ m' ∈ xs ++ ys, h < m'.smPrevActTime) (ha : Aligned T₀ h k') {m₀ : SchedModule}
    (hhead : k.schedModules.head? = some m₀) : T₀ + m₀.smOffset ≤ m.smPrevActTime := by
  rcases hi.armed with hl | ⟨h₀, hset, hbegun⟩
  · rcases hl.table htab with ⟨rfl, rfl, heq⟩ | ⟨m₁, rfl, hfirst, hrest⟩
    · rw [htab.modules] at hhead
      obtain rfl := Option.some.inj hhead
      rw [heq]
      exact le_add_of_nonneg_right hi.frame
    · rw [htab.modules] at hhead
      obtain rfl := Option.some.inj hhead
      have hm₁ : m₁ ∈ k'.schedModules := by
        rw [hmv.modules, afterMove]
        exact List.mem_cons_self
      have hm : m.smPrevActTime = T₀ + m.smOffset := hrest m List.mem_cons_self
      -- otherwise its first instant is still to come, and its event is set a frame after it
      have hcome : T₀ + m₁.smOffset ≤ h := by
        by_contra hto
        rw [not_le] at hto
        have hnext := ha.isNext hi htab hmv hdue hlate halone m₁ hm₁
        have hle := hnext.le_of_lt hi.frame (n := 0) (by rwa [instant_zero])
        rw [instant_zero, hfirst] at hle
        linarith
      obtain ⟨i, m', n, hcur, hm', hle, hlatest⟩ := ha.current
      obtain rfl := Option.some.inj (hmv.cur.symm.trans hcur)
      obtain rfl := Option.some.inj (hmv.current.symm.trans hm')
      have hmax := hlatest m₁ hm₁ 0
      rw [instant_zero] at hmax
      rw [hmv.frame] at hle hmax
      have hzero : n = 0 := by
        by_contra hne
        have hmono := instant_mono (T₀ + m.smOffset) hi.frame (Nat.one_le_iff_ne_zero.mpr hne)
        rw [instant_succ 0, instant_zero] at hmono
        rw [hm] at hlate
        exact absurd (hmono.trans hle) (not_le.mpr hlate)
      rw [hzero, instant_zero] at hmax
      rw [hm]
      exact hmax hcome
  · exact (hbegun m₀ hhead).trans (hset m htab.mem).lt.le

/-- **A switch leaves the schedule aligned iff it is on time.** -/
theorem aligned_iff (hi : OnSchedule T₀ k) (hnext : k.schedModules[nextMod k]? = some m)
    (htab : Table k xs m ys) (hmv : Moved k xs m ys h k')
    (hlate : ∃ t ∈ partitionTimes k.teq, t ≤ h) : Aligned T₀ h k' ↔ OnTime T₀ h k m := by
  constructor
  · intro ha
    have hdue := ha.due hi htab hmv hlate
    have halone := ha.alone hi htab hmv hdue
    have hframe : h < m.smPrevActTime + k.schedMajorFrame := by
      obtain ⟨next, hset, hperm⟩ := ha.pending
      refine lt_of_forall₂_isNext hset _ (hperm.subset ?_)
      exact hmv.times.symm.subset List.mem_cons_self
    exact ⟨hnext, hdue, hframe, htab.alone_iff.mpr halone,
      fun m₀ hhead => ha.begun hi htab hmv hdue hframe halone hhead⟩
  · intro ht
    exact ht.aligned hi htab hmv

/-! ## Runs -/

/-- What leaves the events of the partitions alone leaves them in step with the cursor. -/
theorem OnSchedule.of_keeps (hi : OnSchedule T₀ k) (hr : Registered k') (hk : KeepsPartTimers k k') :
    OnSchedule T₀ k' := by
  obtain ⟨horder, hmods, hcur, hframe, htimes⟩ := hk
  refine ⟨hr, horder, hframe ▸ hi.frame, ?_, ?_⟩
  · rw [htimes, hmods]
    exact hi.pending
  · unfold Launching SetAt
    rw [hmods, hcur, hframe]
    exact hi.armed

/-- A segment of a service, or a dispatch. -/
theorem keepsPartTimers_of_path {e : Event} {k₀ : Kernel} (he : ∀ k a, Allowed k₀ e k a → a.ofTimer = false)
    (ho : QueueOrder k) (hpath : Path (Allowed k₀ e) k k') : KeepsPartTimers k k' := by
  induction hpath with
  | refl k => exact .of_eq ho rfl rfl rfl rfl rfl fun _ => Or.inr rfl
  | cons hstep ha _ ih =>
      have hkeep := hstep.keepsPartTimers ho (he _ _ ha)
      exact hkeep.trans (ih hkeep.order)

theorem keepsPartTimers_of_step {e : Event} (hi : OnSchedule T₀ k) (he : ∀ clk, e ≠ .timer clk)
    (h : step k e = .ok k') : KeepsPartTimers k k' := by
  have hservice : e.ofService = true → KeepsPartTimers k k' := by
    intro hs
    refine keepsPartTimers_of_path (fun k₁ a ha => ?_) hi.order (step_path hi.registered h)
    have hnot : a.ofHart = false := by
      by_contra hhart
      exact absurd (ha.hart (by simpa using hhart)) (by simp [hs])
    cases a <;> simp_all [Act.ofHart, Act.ofTimer]
  cases e with
  | dispatch p => exact (Eff.dispatch h).keepsPartTimers hi.order rfl
  | call env s => exact hservice rfl
  | resume env => exact hservice rfl
  | timer clk => exact absurd rfl (he clk)

theorem OnSchedule.no_modules (hi : OnSchedule T₀ k) (h : k.schedModules = []) :
    partitionTimes k.teq = [] := by
  have hp := hi.pending
  rw [h] at hp
  exact hp.eq_nil

/-- A timer interrupt that finds no partition event to handle, or handles them on time. -/
theorem OnSchedule.step {e : Event} (hi : OnSchedule T₀ k) (hclk : e.ClockRises)
    (hok : HandledOnTime T₀ k e) (h : step k e = .ok k') : OnSchedule T₀ k' := by
  have hr := (hi.registered.step h).1
  by_cases he : ∃ clk, e = .timer clk
  · obtain ⟨clk, rfl⟩ := he
    rcases step_eq_ok h with ⟨p, he, -⟩ | ⟨clk', r, he, ht⟩ | ⟨p, r, hs, -⟩
    · exact absurd he (by simp)
    · obtain rfl := Event.timer.inj he
      cases timerTurn hclk hi.order hi.no_modules ht with
      | stay early resched keeps => exact hi.of_keeps hr keeps
      | move late resched m next order cur frame modules times =>
          obtain ⟨m', ht⟩ := hok clk rfl late
          obtain rfl := Option.some.inj (next.symm.trans ht.next)
          obtain ⟨xs, ys, htab⟩ := exists_table next
          have hmv := htab.moved order cur frame modules times
          refine ⟨hr, order, frame ▸ hi.frame, ?_, Or.inr ⟨_, ht.setAt hi htab hmv⟩⟩
          exact hmv.pending hi htab ht.due (htab.alone_iff.mp ht.alone)
    · exact absurd hs (by simp [segment])
  · rw [not_exists] at he
    exact hi.of_keeps hr (keepsPartTimers_of_step hi he h)

/-- A step leaves the schedule aligned iff it handles partition events on time. -/
theorem leavesAligned_iff {e : Event} (hi : OnSchedule T₀ k) (hclk : e.ClockRises)
    (h : step k e = .ok k') : LeavesAligned T₀ k e ↔ HandledOnTime T₀ k e := by
  by_cases he : ∃ clk, e = .timer clk
  · obtain ⟨clk, rfl⟩ := he
    rcases step_eq_ok h with ⟨p, he, -⟩ | ⟨clk', r, he, ht⟩ | ⟨p, r, hs, -⟩
    · exact absurd he (by simp)
    · obtain rfl := Event.timer.inj he
      -- an interrupt that finds no partition event leaves nothing to handle
      cases timerTurn hclk hi.order hi.no_modules ht with
      | stay early resched keeps =>
          constructor
          · rintro - clk' he' ⟨t, hmem, hle⟩
            obtain rfl := Event.timer.inj he'
            exact absurd hle (not_le.mpr (early t hmem))
          · intro _ clk' r' k₁ he' ht' hresched
            obtain rfl := Event.timer.inj he'
            obtain ⟨rfl, -⟩ := Prod.mk.inj (Except.ok.inj (ht.symm.trans ht'))
            exact absurd (resched.symm.trans hresched) (by decide)
      | move late resched m next order cur frame modules times =>
          -- the module that follows the current one splits the table
          obtain ⟨xs, ys, htab⟩ := exists_table next
          have hmv := htab.moved order cur frame modules times
          have hiff := aligned_iff hi next htab hmv late
          constructor
          · intro hall clk' he' _
            obtain rfl := Event.timer.inj he'
            exact ⟨m, hiff.mp (hall clk r k' rfl ht resched)⟩
          · intro hok clk' r' k₁ he' ht' _
            obtain rfl := Event.timer.inj he'
            obtain ⟨rfl, rfl⟩ := Prod.mk.inj (Except.ok.inj (ht.symm.trans ht'))
            obtain ⟨m', hon⟩ := hok clk rfl late
            obtain rfl := Option.some.inj (next.symm.trans hon.next)
            exact hiff.mpr hon
    · exact absurd hs (by simp [segment])
  · constructor
    · intro _ clk he'
      exact absurd ⟨clk, he'⟩ he
    · intro _ clk r k₁ he'
      exact absurd ⟨clk, he'⟩ he

/-- **The partition schedule stays aligned over a run** iff all its partition events are handled on time. -/
theorem schedule_aligned_iff {k₀ : Kernel} {tr : List (Kernel × Event)} (hl : Launched T₀ k₀)
    (hrun : Run k₀ tr k) (hclk : AllSteps (fun _ e => e.ClockRises) tr) :
    AllSteps (LeavesAligned T₀) tr ↔ AllSteps (HandledOnTime T₀) tr :=
  hrun.allSteps_iff_within hl.onSchedule hclk
    (fun _ _ _ hi hc hok h => hi.step hc hok h)
    (fun _ _ _ hi hc h => leavesAligned_iff hi hc h)

/-! ## A table with two windows -/

/-- A partition with a period of 100 has the windows from 0 to 50 and from 50 to 100. -/
def twoWindows : Option Kernel := do
  let k ← schedModuleAdd (smallSystem 1 .fifo [1]) 1 0 50
  let k ← schedModuleAdd k 1 50 50
  let k ← schedLaunch k 0
  (schedGlobal k).toOption

theorem launched_twoWindows (h : twoWindows = some k) : Launched 0 k := by
  simp only [twoWindows, bind, Option.bind_eq_some_iff] at h
  obtain ⟨k₁, h₁, k₂, h₂, k₃, h₃, h⟩ := h
  refine ⟨smallSystem 1 .fifo [1], k₂, k₃, ⟨quiet_smallSystem 1 .fifo [1], rfl, rfl, rfl⟩,
    .add 1 50 50 (.add 1 0 50 .refl h₁) h₂, h₃, ?_⟩
  cases hg : schedGlobal k₃ with
  | error f => simp [hg, Except.toOption] at h
  | ok k' =>
      rw [hg] at h
      rw [Option.some.inj h]

/-- The schedule does not always stay aligned: an interrupt that comes after two instants makes up for one
of them, and one module has no event any more. -/
theorem schedule_misaligned : ¬ ∀ (T₀ : Int) (k₀ k : Kernel) (tr : List (Kernel × Event)),
    Launched T₀ k₀ → Run k₀ tr k → AllSteps (fun _ e => e.ClockRises) tr →
    AllSteps (LeavesAligned T₀) tr := by
  intro hall
  have hcheck : twoWindows.elim false (fun k =>
      match timeEventAction k fun _ => 120 with
      | .ok (r, k') => r.part && (partitionTimes k'.teq).length = 1 && k'.schedModules.length = 2
      | .error _ => false) = true := by decide +kernel
  cases hk : twoWindows with
  | none => simp [hk] at hcheck
  | some k₀ =>
      rw [hk] at hcheck
      dsimp only [Option.elim] at hcheck
      cases ht : timeEventAction k₀ fun _ => 120 with
      | error f => simp [ht] at hcheck
      | ok x =>
          obtain ⟨r, k'⟩ := x
          rw [ht] at hcheck
          simp only [Bool.and_eq_true, decide_eq_true_eq] at hcheck
          obtain ⟨⟨hresched, htimes⟩, hmods⟩ := hcheck
          have hrun : Run k₀ ([] ++ [(k₀, .timer fun _ => 120)]) k' :=
            .snoc .nil (by simp [step, ht, Except.map])
          have hsteps := hall 0 k₀ k' _ (launched_twoWindows hk) hrun
            (by simp [AllSteps, Event.ClockRises, Monotone])
          have ha := hsteps (k₀, .timer fun _ => 120) (by simp) (fun _ => 120) r k' rfl ht hresched
          obtain ⟨next, hset, hperm⟩ := ha.pending
          have hlen := hset.length_eq
          rw [← hperm.length_eq, htimes, hmods] at hlen
          exact absurd hlen (by decide)

/-- A run over a major frame and a half in which every interrupt comes a little late. -/
def lateInterrupts : List Event :=
  [.dispatch 1, .timer fun _ => 53, .dispatch 1, .timer fun _ => 101, .dispatch 1, .timer fun _ => 149,
    .timer fun _ => 150]

theorem schedule_aligned_lateInterrupts : ∃ k₀ k tr, Launched 0 k₀ ∧ Run k₀ tr k ∧ tr.length = 7 ∧
    (AllSteps (LeavesAligned 0) tr ↔ AllSteps (HandledOnTime 0) tr) := by
  have hcheck : twoWindows.elim false (fun k => checkRun step k lateInterrupts (fun _ => true) &&
      (traceEvents step k lateInterrupts).length = 7) = true := by decide +kernel
  cases hk : twoWindows with
  | none => simp [hk] at hcheck
  | some k₀ =>
      rw [hk] at hcheck
      simp only [Option.elim, Bool.and_eq_true, decide_eq_true_eq] at hcheck
      obtain ⟨k, hrun, -⟩ := Exec.of_checkRun step k₀ lateInterrupts (fun _ => true) hcheck.1
      refine ⟨k₀, k, _, launched_twoWindows hk, hrun, hcheck.2,
        schedule_aligned_iff (launched_twoWindows hk) hrun (allSteps_traceEvents ?_)⟩
      simp [lateInterrupts, Event.ClockRises, Monotone]

end Jrinx
