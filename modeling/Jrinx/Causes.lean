import Jrinx.Returns

/-! # What released the caller

A blocked process is released by its time event or by another process, but when it runs again it only
looks at the clock. A monitor over the run keeps, for every process, the time event that its last
segment armed and the step in which that event left the queue, so that the cause of the release can
be compared with the code that the service returns.

* **`Watched`**, **`watched`** — the monitor.
* **`TellsRelease`**, **`InTime`** — the law of the return codes, and when it holds.
* **`return_codes_iff`** — the runs in which every return code tells what released the caller. -/

namespace Jrinx

variable {k k' : Kernel}

/-! ## The monitor -/

/-- What is known of a process that gave the processor up. -/
structure Watched where
  /-- The service it called last. -/
  service : Option Service
  /-- The time event that its last segment armed. -/
  armed : Option TimeEvent
  /-- The step in which that event left the queue. -/
  released : Option (Kernel × Event)

/-- The time event that the process armed in a segment from `k` on, by what is left of its call. -/
def armedBy (k : Kernel) (p : ProcId) : Option Cont → Option TimeEvent
  | some (.suspendSelf w) => some ⟨k.nxtTe, w, .processSuspendTimeout p⟩
  | some (.comm c _ a) =>
      if c.timeOut ≠ systemTimeInfiniteVal then some ⟨k.nxtTe, a, c.teType p⟩ else none
  | _ => none

/-- One step of the monitor of the process `p`. -/
def watch (p : ProcId) (m : Watched) (x : Kernel × Event) : Watched :=
  match step x.1 x.2 with
  | .error _ => m
  | .ok k' =>
      if x.2.ofService = true ∧ live x.1 = some p then
        { service := match x.2 with
            | .call _ s => some s
            | _ => m.service
          armed := armedBy x.1 p (k'.conts p)
          released := none }
      else
        match m.armed with
        | none => m
        | some te =>
            if m.released.isNone = true ∧ te ∈ x.1.teq ∧ te ∉ k'.teq then
              { m with released := some x }
            else m

/-- The monitor of the process `p` after a run. -/
def watched (p : ProcId) (tr : List (Kernel × Event)) : Watched :=
  tr.foldl (watch p) ⟨none, none, none⟩

theorem watched_snoc (p : ProcId) (tr : List (Kernel × Event)) (x : Kernel × Event) :
    watched p (tr ++ [x]) = watch p (watched p tr) x := by
  simp [watched, List.foldl_append]

/-- The event of the process expired. -/
def Watched.byTimer (m : Watched) : Prop := ∃ k clk, m.released = some (k, .timer clk)

/-- The segment sends or displays a message. -/
def delivers (k : Kernel) : Event → Bool
  | .call _ (.displayBlackboard ..) => true
  | .call _ (.sendBuffer ..) => true
  | .call _ (.sendQueuingMessage ..) => true
  | .resume _ =>
      match (live k).bind k.conts with
      | some (.comm (.sendBuffer ..) _ _) => true
      | some (.comm (.sendQueuingMessage ..) _ _) => true
      | _ => false
  | _ => false

/-- The process was woken up by a `SEND` or a `DISPLAY`. -/
def Watched.byDelivery (m : Watched) : Prop :=
  ∃ x, m.released = some x ∧ delivers x.1 x.2 = true

/-! ## The law -/

/-- What a receiving call finds in its object. -/
def readable (k : Kernel) : CommCall → Option Out
  | .receiveBuffer b _ _ =>
      let recv := commRecv (k.bufs b).bufBody
      if circbufIsEmpty (k.bufs b).bufBody then none else some (.message recv.1.1 recv.1.2)
  | .receiveQueuingMessage port _ _ =>
      let cc := (k.chans (k.ports port).qpChannel).chBody
      let recv := commRecv cc
      if circbufIsEmpty cc then none else some (.message recv.1.1 recv.1.2)
  | .readBlackboard b _ _ =>
      let bb := k.bbs b
      if bb.bbEmptyInd = .empty then none
      else some (.message bb.bbLen (loadBytes bb.bbData 0 bb.bbLen))
  | _ => none

/-- **The return code tells what released the caller**, for the segment of the event `e` after the
run `pre`: a `SUSPEND_SELF` with a positive time-out says `TIMED_OUT` iff its event expired, and a
receiving call that was woken up by a message and finds one returns it. -/
structure TellsRelease (pre : List (Kernel × Event)) (x : Kernel × Event) : Prop where
  suspend : ∀ env p n k₁ w t, x.2 = .resume env → segment x.1 x.2 = some (p, .ok (n, k₁)) →
    x.1.conts p = some (.suspendSelf w) → (watched p pre).service = some (.suspendSelf t) → 0 < t →
    ((∃ out, n = .ret .timedOut out) ↔ (watched p pre).byTimer)
  receive : ∀ env p n k₁ c w a out, x.2 = .resume env →
    segment x.1 x.2 = some (p, .ok (n, k₁)) → x.1.conts p = some (.comm c w a) →
    c.timeOut ≠ systemTimeInfiniteVal → (watched p pre).byDelivery → readable x.1 c = some out →
    n.noErrorOut = some out

/-- A process that was released by another one runs again before its deadline. -/
structure InTime (pre : List (Kernel × Event)) (x : Kernel × Event) : Prop where
  suspend : ∀ env p w t, x.2 = .resume env → live x.1 = some p →
    x.1.conts p = some (.suspendSelf w) → (watched p pre).service = some (.suspendSelf t) → 0 < t →
    ¬ (watched p pre).byTimer → env.clk 0 < w
  receive : ∀ env p c w a out, x.2 = .resume env → live x.1 = some p →
    x.1.conts p = some (.comm c w a) → c.timeOut ≠ systemTimeInfiniteVal →
    (watched p pre).byDelivery → readable x.1 c = some out → env.clk 0 < a

/-- A property of the steps of a run and of the run before them. -/
def EachStep (P : List (Kernel × Event) → Kernel × Event → Prop) (tr : List (Kernel × Event)) :
    Prop :=
  ∀ pre x post, tr = pre ++ x :: post → P pre x

/-- The clock of an event. -/
def Event.clk : Event → Option (Nat → Int)
  | .dispatch _ => none
  | .call env _ => some env.clk
  | .resume env => some env.clk
  | .timer clk => some clk

/-- The clock never goes back over the run. -/
def ClockRuns (tr : List (Kernel × Event)) : Prop :=
  tr.Pairwise fun x y => ∀ cx cy, x.2.clk = some cx → y.2.clk = some cy → ∀ i, cx i ≤ cy 0

/-! ## An event leaves the queue -/

/-- An event that the loop took off the queue had expired. -/
theorem le_clk_of_timeEventLoop {clk : Nat → Int} {l : List TimeEvent} {i : Nat} {r : Resched}
    {k : Kernel} {te : TimeEvent} (hte : te ∈ l) (hgone : te ∉ (timeEventLoop clk l i r k).2.teq) :
    ∃ j, te.teTime ≤ clk j := by
  induction l generalizing i r k with
  | nil => exact absurd hte List.not_mem_nil
  | cons te' es ih =>
      rw [timeEventLoop] at hgone
      split at hgone
      · rename_i hexp
        rcases List.mem_cons.mp hte with rfl | hmem
        · exact ⟨i, hexp⟩
        · cases hp : te'.teType.proc with
          | none =>
              rw [hp] at hgone
              exact ih hmem hgone
          | some q =>
              rw [hp] at hgone
              exact ih hmem hgone
      · exact absurd hte hgone

/-- A partition switch takes no event off the queue. -/
theorem mem_of_schedGlobal {te : TimeEvent} (hte : te ∈ k.teq) (h : schedGlobal k = .ok k') :
    te ∈ k'.teq := by
  obtain ⟨pt, rfl⟩ | ⟨time, mods, pt, rfl⟩ := schedGlobal_eq_ok h
  · exact hte
  · exact mem_insertEvent.mpr (Or.inr hte)

/-- An event that left the queue in a timer interrupt had expired. -/
theorem le_clk_of_timer {clk : Nat → Int} {te : TimeEvent} (h : step k (.timer clk) = .ok k')
    (hte : te ∈ k.teq) (hgone : te ∉ k'.teq) : ∃ j, te.teTime ≤ clk j := by
  simp only [step, timeEventAction] at h
  refine le_clk_of_timeEventLoop (i := 0) (r := ⟨false, false⟩) (k := k) hte ?_
  intro hmem
  generalize timeEventLoop clk k.teq 0 ⟨false, false⟩ k = x at h hmem
  obtain ⟨r, k₁⟩ := x
  dsimp only at h hmem
  split at h
  · cases hg : schedGlobal k₁ with
    | error f => simp [hg, bind, Except.bind, Except.map] at h
    | ok k₂ =>
        simp only [hg, bind, Except.bind, Except.map, Except.ok.injEq] at h
        rw [← h] at hgone
        exact hgone (mem_of_schedGlobal hmem hg)
  · simp only [Except.map, Except.ok.injEq] at h
    rw [← h] at hgone
    exact hgone hmem

/-! ## The invariant of the monitor -/

/-- What the monitor knows of a process in `SUSPEND_SELF`: its event is queued until the step that the
monitor keeps, and if that step was an expiry the deadline had passed. -/
structure WatchInv (tr : List (Kernel × Event)) (k : Kernel) : Prop where
  queued : ∀ p w, k.conts p = some (.suspendSelf w) → (watched p tr).released = none →
    ∃ te ∈ k.teq, (watched p tr).armed = some te ∧ te.teTime = w
  expired : ∀ p w k₀ clk, k.conts p = some (.suspendSelf w) →
    (watched p tr).released = some (k₀, .timer clk) → (k₀, .timer clk) ∈ tr ∧ ∃ j, w ≤ clk j

/-- A call of `SUSPEND_SELF` that gives the processor up arms its event. -/
theorem armed_of_suspendSelf {env : Env} {p : ProcId} {s : Service} {rr : Bool} {w : Int}
    {k₁ : Kernel} (h : doSyscall k env p s = .ok (.giveUp rr (.suspendSelf w), k₁)) :
    ⟨k.nxtTe, w, .processSuspendTimeout p⟩ ∈ k₁.teq := by
  have hends := (ends_doSyscall h).next
  cases hends with
  | sleep rr w t hs =>
      subst hs
      simp only [doSyscall, doSuspendSelf] at h
      split at h
      · exact absurd (Except.ok.inj h) (by simp)
      split at h
      · exact absurd (Except.ok.inj h) (by simp)
      split at h
      · have heq := Except.ok.inj h
        rw [Prod.mk.injEq, Next.giveUp.injEq, Cont.suspendSelf.injEq] at heq
        rw [← heq.2, ← heq.1.2, sleepUntil, timeEventAlloc_of_proc _ _ rfl]
        exact mem_insertEvent.mpr (Or.inl rfl)
      · exact absurd (Except.ok.inj h) (by simp)

/-- A process that executes a segment and is then in `SUSPEND_SELF` has just called it. -/
theorem started_of_step {e : Event} {p : ProcId} {w : Int} (h : step k e = .ok k')
    (hlive : live k = some p) (he : e.ofService = true)
    (hc : k'.conts p = some (.suspendSelf w)) : ⟨k.nxtTe, w, .processSuspendTimeout p⟩ ∈ k'.teq := by
  rcases step_eq_ok h with ⟨q, rfl, -⟩ | ⟨clk, r, rfl, -⟩ | ⟨q, ⟨n, k₁⟩, hs, rfl⟩
  · exact absurd he (by simp [Event.ofService])
  · exact absurd he (by simp [Event.ofService])
  obtain ⟨hl, hseg⟩ := segment_eq_some hs
  obtain rfl : q = p := Option.some.inj (hl.symm.trans hlive)
  cases n with
  | ret code out => exact absurd hc (by simp [settle, Kernel.setCont])
  | giveUp rr c =>
      simp only [settle, Kernel.setCont, Function.update_self, Option.some.injEq] at hc
      subst hc
      rcases hseg with ⟨env, s, rfl, -, hout⟩ | ⟨env, c₀, rfl, -, hout⟩
      · show _ ∈ k₁.teq
        exact armed_of_suspendSelf hout.symm
      · have hrest := (ends_resumeCont hout.symm).1 rr _ rfl
        cases hrest

theorem WatchInv.step {tr : List (Kernel × Event)} {e : Event} (hi : WatchInv tr k)
    (h : step k e = .ok k') : WatchInv (tr ++ [(k, e)]) k' := by
  have hwatch : ∀ p, watched p (tr ++ [(k, e)]) = watch p (watched p tr) (k, e) :=
    fun p => watched_snoc p tr (k, e)
  -- a process that does not execute and is in `SUSPEND_SELF` was in it before
  have hheld : ∀ p w, ¬ (e.ofService = true ∧ live k = some p) →
      k'.conts p = some (.suspendSelf w) → k.conts p = some (.suspendSelf w) := by
    intro p w hnot hc
    rcases conts_step h hc with hold | ⟨env, s, rr, rfl, hl, -⟩ | ⟨env, c₀, rfl, hl, -, -⟩
    · exact hold
    · exact absurd ⟨rfl, hl⟩ hnot
    · exact absurd ⟨rfl, hl⟩ hnot
  constructor
  · intro p w hc hrel
    rw [hwatch, watch] at hrel ⊢
    simp only [h] at hrel ⊢
    split at hrel
    · rename_i hexec
      rw [if_pos hexec]
      refine ⟨_, started_of_step h hexec.2 hexec.1 hc, ?_, rfl⟩
      rw [hc]
      rfl
    · rename_i hexec
      rw [if_neg hexec]
      have hc₀ := hheld p w hexec hc
      cases ha : (watched p tr).armed with
      | none =>
          simp only [ha] at hrel
          obtain ⟨te, -, hte, -⟩ := hi.queued p w hc₀ hrel
          exact absurd (ha.symm.trans hte) (by simp)
      | some te =>
          simp only [ha] at hrel ⊢
          split at hrel
          · exact absurd hrel (by simp)
          · rename_i hstay
            rw [if_neg hstay]
            obtain ⟨te', hmem, harm, htime⟩ := hi.queued p w hc₀ hrel
            obtain rfl : te = te' := Option.some.inj (ha.symm.trans harm)
            refine ⟨te, ?_, ha, htime⟩
            by_contra hgone
            exact hstay ⟨by rw [hrel]; rfl, hmem, hgone⟩
  · intro p w k₀ clk hc hrel
    rw [hwatch, watch] at hrel
    simp only [h] at hrel
    split at hrel
    · exact absurd hrel (by simp)
    · rename_i hexec
      have hc₀ := hheld p w hexec hc
      have hold : (watched p tr).released = some (k₀, .timer clk) →
          (k₀, Event.timer clk) ∈ tr ++ [(k, e)] ∧ ∃ j, w ≤ clk j := by
        intro hrel
        obtain ⟨hmem, hle⟩ := hi.expired p w k₀ clk hc₀ hrel
        exact ⟨List.mem_append_left _ hmem, hle⟩
      cases ha : (watched p tr).armed with
      | none =>
          simp only [ha] at hrel
          exact hold hrel
      | some te =>
          simp only [ha] at hrel
          split at hrel
          · rename_i hleft
            rw [Option.some.injEq, Prod.mk.injEq] at hrel
            obtain ⟨rfl, rfl⟩ := hrel
            obtain ⟨te', -, harm, htime⟩ := hi.queued p w hc₀ (Option.isNone_iff_eq_none.mp hleft.1)
            obtain rfl : te = te' := Option.some.inj (ha.symm.trans harm)
            refine ⟨by simp, ?_⟩
            rw [← htime]
            exact le_clk_of_timer h hleft.2.1 hleft.2.2
          · exact hold hrel

theorem watchInv {tr : List (Kernel × Event)} (hq : Quiet k) (hrun : Run k tr k') :
    WatchInv tr k' := by
  induction hrun with
  | nil =>
      constructor
      · intro p w hc
        exact absurd ((hq.conts p).symm.trans hc) (by simp)
      · intro p w k₀ clk hc
        exact absurd ((hq.conts p).symm.trans hc) (by simp)
  | snoc _ hu ih => exact ih.step hu

/-! ## The code that a resumed call returns -/

/-- Back from `SUSPEND_SELF`: only the clock decides. -/
theorem segment_suspendSelf (env : Env) {p : ProcId} {w : Int} (hl : live k = some p)
    (hc : k.conts p = some (.suspendSelf w)) :
    segment k (.resume env) =
      some (p, .ok (.ret (if w ≤ env.clk 0 then .timedOut else .noError) .none,
        k.setWoken p false)) := by
  simp only [segment, hl, hc]
  rfl

/-- Back in the loop of a blocking service. -/
theorem segment_comm (env : Env) {p : ProcId} {c : CommCall} {w a : Int} (hl : live k = some p)
    (hc : k.conts p = some (.comm c w a)) :
    segment k (.resume env) = some (p, commResume (k.setWoken p false) env p c w a) := by
  simp only [segment, hl, hc]
  rfl

theorem mustWait_of_readable {c : CommCall} {out : Out} (h : readable k c = some out) :
    mustWait k c = false := by
  cases c with
  | sendBuffer b a len t => exact absurd h (by simp [readable])
  | sendQueuingMessage port a len t => exact absurd h (by simp [readable])
  | receiveBuffer b t a =>
      simp only [readable, Option.ite_none_left_eq_some] at h
      simpa only [mustWait, Bool.not_eq_true] using h.1
  | receiveQueuingMessage port t a =>
      simp only [readable, Option.ite_none_left_eq_some] at h
      simpa only [mustWait, Bool.not_eq_true] using h.1
  | readBlackboard b t a =>
      simp only [readable, Option.ite_none_left_eq_some] at h
      simpa only [mustWait, decide_eq_false_iff_not] using h.1

/-- A receiving call that finds its object readable ends with that message. -/
theorem noErrorOut_of_commFinish {env : Env} {c : CommCall} {out : Out} {n : Next}
    (hr : readable k c = some out) (h : commFinish k env c = .ok (n, k')) :
    n.noErrorOut = some out := by
  -- the message is taken out before the wake-up
  cases c with
  | sendBuffer b a len t => exact absurd hr (by simp [readable])
  | sendQueuingMessage port a len t => exact absurd hr (by simp [readable])
  | receiveBuffer b t a =>
      simp only [readable, Option.ite_none_left_eq_some] at hr
      simp only [commFinish, bufferWakeup] at h
      generalize wakeup _ _ _ = x at h
      rcases x with f | ⟨woke, k₁⟩
      · exact absurd h (by simp [bind, Except.bind])
      · -- both ends of the wake-up carry the message
        cases woke with
        | none =>
            have hn := (Prod.mk.inj (Except.ok.inj h)).1
            rw [← hn]
            exact hr.2
        | some q =>
            have hn := (Prod.mk.inj (Except.ok.inj h)).1
            rw [← hn]
            exact hr.2
  | receiveQueuingMessage port t a =>
      simp only [readable, Option.ite_none_left_eq_some] at hr
      simp only [commFinish, queuingPortWakeup] at h
      generalize wakeup _ _ _ = x at h
      rcases x with f | ⟨woke, k₁⟩
      · exact absurd h (by simp [bind, Except.bind])
      · have hn := (Prod.mk.inj (Except.ok.inj h)).1
        rw [← hn]
        exact hr.2
  | readBlackboard b t a =>
      simp only [readable, Option.ite_none_left_eq_some] at hr
      have hn := (Prod.mk.inj (Except.ok.inj h)).1
      rw [← hn]
      exact hr.2

/-- A process whose event expired comes back after its deadline. -/
theorem le_clk_of_byTimer {pre post : List (Kernel × Event)} {env : Env} {p : ProcId} {w : Int}
    (hi : WatchInv pre k) (hclk : ClockRuns (pre ++ (k, .resume env) :: post))
    (hc : k.conts p = some (.suspendSelf w)) (h : (watched p pre).byTimer) : w ≤ env.clk 0 := by
  obtain ⟨k₀, clk, hrel⟩ := h
  obtain ⟨hmem, j, hle⟩ := hi.expired p w k₀ clk hc hrel
  have hmono := (List.pairwise_append.mp hclk).2.2 _ hmem (k, .resume env) (by simp)
  exact hle.trans (hmono clk env.clk rfl rfl j)

/-! ## The runs that tell what released the caller -/

/-- In the runs from a quiet state over which the clock does not go back, every return code tells what
released the caller **iff** every process that another one released runs again before its deadline. -/
theorem return_codes_iff {tr : List (Kernel × Event)} (hq : Quiet k) (hrun : Run k tr k')
    (hclk : ClockRuns tr) : EachStep TellsRelease tr ↔ EachStep InTime tr := by
  constructor
  · rintro h pre ⟨k₁, e⟩ post htr
    have htells := h pre (k₁, e) post htr
    constructor
    · rintro env p w t (rfl : e = .resume env) hl hc hs ht hnot
      have hiff := htells.suspend env p _ _ w t rfl (segment_suspendSelf env hl hc) hc hs ht
      -- a process that comes too late returns `TIMED_OUT`, whoever released it
      by_contra hlate
      rw [if_pos (not_lt.mp hlate)] at hiff
      exact hnot (hiff.mp ⟨_, rfl⟩)
    · rintro env p c w a out (rfl : e = .resume env) hl hc ht hd hr
      -- the deadline is looked at before the object
      by_contra hlate
      have hlate' : c.timeOut ≠ systemTimeInfiniteVal ∧ a ≤ env.clk 0 := ⟨ht, not_lt.mp hlate⟩
      have hseg := segment_comm env hl hc
      rw [commResume, if_pos hlate'] at hseg
      have hout := htells.receive env p _ _ c w a out rfl hseg hc ht hd hr
      exact absurd hout (by simp [Next.noErrorOut])
  · rintro h pre ⟨k₁, e⟩ post htr
    have hin := h pre (k₁, e) post htr
    have hi := watchInv hq (hrun.split htr).1
    constructor
    · rintro env p n k₂ w t (rfl : e = .resume env) hseg hc hs ht
      have hl := (segment_eq_some hseg).1
      rw [segment_suspendSelf env hl hc] at hseg
      have hn := (Prod.mk.inj (Except.ok.inj (Prod.mk.inj (Option.some.inj hseg)).2)).1
      constructor
      · rintro ⟨out, rfl⟩
        by_contra hnot
        have hlt := hin.suspend env p w t rfl hl hc hs ht hnot
        rw [if_neg (not_le.mpr hlt)] at hn
        exact absurd hn (by simp)
      · intro hby
        have hle := le_clk_of_byTimer hi (htr ▸ hclk) hc hby
        rw [if_pos hle] at hn
        exact ⟨_, hn.symm⟩
    · rintro env p n k₂ c w a out (rfl : e = .resume env) hseg hc ht hd hr
      have hl := (segment_eq_some hseg).1
      have hlt := hin.receive env p c w a out rfl hl hc ht hd hr
      rw [segment_comm env hl hc] at hseg
      have hout := (Prod.mk.inj (Option.some.inj hseg)).2
      have hmust : mustWait (k₁.setWoken p false) c = false := mustWait_of_readable hr
      rw [commResume, if_neg (fun hlate => absurd hlate.2 (not_le.mpr hlt)), if_neg (by simp [hmust])]
        at hout
      exact noErrorOut_of_commFinish (k := k₁.setWoken p false) hr hout

/-- A run over which the clock stands still. -/
theorem clockRuns_of_forall {tr : List (Kernel × Event)} {t : Int}
    (h : ∀ x ∈ tr, ∀ c, x.2.clk = some c → c = fun _ => t) : ClockRuns tr := by
  refine List.pairwise_iff_forall_sublist.mpr ?_
  intro x y hsub cx cy hcx hcy i
  have hx := h x (hsub.subset (by simp)) cx hcx
  have hy := h y (hsub.subset (by simp)) cy hcy
  rw [hx, hy]

/-- A process suspends itself, its neighbour resumes it before the deadline and returns. -/
def suspendResume : List Event :=
  let env : Env := ⟨fun _ => 0, fun _ => 0⟩
  [.call env (.suspendSelf 5), .dispatch 2, .call env (.resume 1), .resume env, .dispatch 1]

theorem clk_of_suspendResume {k₀ : Kernel} {x : Kernel × Event}
    (hx : x ∈ traceEvents step k₀ suspendResume) (c : Nat → Int) (hc : x.2.clk = some c) :
    c = fun _ => 0 := by
  have hmem := mem_of_traceEvents hx
  simp only [suspendResume, List.mem_cons, List.not_mem_nil, or_false] at hmem
  rcases hmem with he | he | he | he | he <;> rw [he] at hc <;> simp [Event.clk] at hc
  all_goals exact hc.symm

/-- A process that was resumed before its deadline but is dispatched after it returns `TIMED_OUT`. -/
theorem resumed_returns_timed_out : ¬ ∀ (k k' : Kernel) (tr : List (Kernel × Event)), Quiet k →
    Run k tr k' → ClockRuns tr → EachStep TellsRelease tr := by
  intro hall
  obtain ⟨k₁, hrun, hcheck⟩ := Exec.of_checkRun step (smallSystem 1 .fifo [1, 2]) suspendResume
    (fun k => live k = some 1 && k.conts 1 = some (.suspendSelf 5)) (by decide +kernel)
  simp only [Bool.and_eq_true, decide_eq_true_eq] at hcheck
  obtain ⟨hl, hc⟩ := hcheck
  let late : Env := ⟨fun _ => 6, fun _ => 0⟩
  have hseg := segment_suspendSelf late hl hc
  have hstep : step k₁ (.resume late) = .ok ((k₁.setWoken 1 false).setCont 1 none) := by
    simp only [step, hseg]
    rfl
  -- the clock stands at 0 until the process runs again at 6
  have hclk : ClockRuns (traceEvents step (smallSystem 1 .fifo [1, 2]) suspendResume ++
      [(k₁, .resume late)]) := by
    refine List.pairwise_append.mpr ⟨clockRuns_of_forall fun x hx => clk_of_suspendResume hx,
      List.pairwise_singleton _ _, ?_⟩
    rintro x hx y hy cx cy hcx hcy i
    rw [List.mem_singleton.mp hy] at hcy
    rw [clk_of_suspendResume hx cx hcx, ← Option.some.inj hcy]
    simp [late]
  have htells := hall _ _ _ (quiet_smallSystem 1 .fifo [1, 2]) (hrun.snoc hstep) hclk _ _ [] rfl
  have hby := (htells.suspend late 1 _ _ 5 5 rfl hseg hc (by decide +kernel) (by decide)).mp ⟨_, rfl⟩
  obtain ⟨k₂, clk, hrel⟩ := hby
  have hevent : (watched 1 (traceEvents step (smallSystem 1 .fifo [1, 2]) suspendResume)).released.map
      (fun x => x.2.ofService) = some true := by decide +kernel
  rw [hrel] at hevent
  exact absurd hevent (by simp [Event.ofService])

theorem return_codes_iff_suspendResume : ∃ k' tr, Run (smallSystem 1 .fifo [1, 2]) tr k' ∧
    tr.length = 6 ∧ (EachStep TellsRelease tr ↔ EachStep InTime tr) := by
  obtain ⟨k', hrun, -⟩ := Exec.of_checkRun step (smallSystem 1 .fifo [1, 2])
    (suspendResume ++ [.resume ⟨fun _ => 0, fun _ => 0⟩]) (fun _ => true) (by decide +kernel)
  refine ⟨k', _, hrun, by decide +kernel, return_codes_iff (quiet_smallSystem 1 .fifo [1, 2]) hrun
    (clockRuns_of_forall (t := 0) fun x hx c hc => ?_)⟩
  have hmem := mem_of_traceEvents hx
  simp only [suspendResume, List.cons_append, List.nil_append, List.mem_cons, List.not_mem_nil,
    or_false] at hmem
  rcases hmem with he | he | he | he | he | he <;> rw [he] at hc <;> simp [Event.clk] at hc
  all_goals exact hc.symm

end Jrinx
