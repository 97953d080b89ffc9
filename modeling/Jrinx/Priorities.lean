import Jrinx.Dispatches

/-! # Priorities

Whether the process that returns to its program is one of the highest priority. Services that make a process ready
give the processor up, and so do timers, which take it away; the services on queuing ports do not.

* **`HighestRuns`** — nobody in the partition who is ready has a higher priority than the process on the hart.
* **`Ranked`**, **`TurnOk`** — what the two kinds of elections have found out so far.
* **`PriorityInv`** — the invariant, with what it says of every flow in `RankOk`.
* **`highest_runs_iff`** — the exact condition on the wake-ups, in runs that resume no election. -/

namespace Jrinx

variable {k k' : Kernel} {p q : ProcId}

/-! ## The property -/

/-- Nobody in the current partition who can run has a higher priority. -/
def Highest (k : Kernel) (p : ProcId) : Prop :=
  ∀ q ∈ procList k, eligible k q = true → (k.procs q).prCurPri ≤ (k.procs p).prCurPri

/-- **The running process has the highest priority** when it returns to its program. -/
def HighestRuns (h : Interleaved) : Prop :=
  h.flow = .user → ∃ p, h.kernel.curProc = some p ∧
    ∀ q ∈ procList h.kernel, (h.kernel.procs q).prState = .ready →
      (h.kernel.procs q).prCurPri ≤ (h.kernel.procs p).prCurPri

/-- The process that a service on a queuing port wakes up in this event. -/
def Interleaved.wakes (h : Interleaved) : FlowEvent → Option ProcId
  | .call _ s => s.wakes h.kernel
  | .resume env =>
      match h.kernel.curProc with
      | none => none
      | some p => (h.kernel.conts p).bind fun c => c.wakes (h.kernel.setWoken p false) env
  | _ => none

/-- The event wakes up no process of the current partition that has a higher priority than the process on the hart,
through a queuing port. -/
def WakesNoHigher (h : Interleaved) (e : FlowEvent) : Prop :=
  ∀ p q, h.kernel.curProc = some p → h.wakes e = some q → q ∈ procList h.kernel →
    (h.kernel.procs q).prCurPri ≤ (h.kernel.procs p).prCurPri

/-! ## What an election has found out -/

/-- The processes that the priority branch still has to look at. -/
def ahead (k : Kernel) : Option ProcId → List ProcId
  | none => []
  | some p => p :: listAfter p (procList k)

/-- The priority branch: whoever can run is still ahead, or is not higher than the process chosen so far. -/
def Ranked (k : Kernel) : Scan → Prop
  | .round => True
  | .best proc b => (∀ p, proc = some p → p ∈ procList k) ∧ ∀ q ∈ procList k, eligible k q = true →
      q ∈ ahead k proc ∨ ∃ b', b = some b' ∧ (k.procs q).prCurPri ≤ (k.procs b').prCurPri
  | .found b => Highest k b
  | _ => False

/-- The round-robin branch, for a process with the priority `pri`. -/
def TurnOk (k : Kernel) (pri : Nat) : Scan → Prop
  | .round => True
  | .rest curPri _ => curPri = pri
  | .again curPri _ => curPri = pri
  | .best _ _ => False
  | .found q => pri ≤ (k.procs q).prCurPri

/-- What holds of the priorities while the hart executes a flow. -/
inductive RankOk (k : Kernel) : Flow → Prop
  | user {p : ProcId} (cur : k.curProc = some p) (top : Highest k p) : RankOk k .user
  | back {p : ProcId} (cur : k.curProc = some p) (top : Highest k p) : RankOk k .back
  /-- The process came back to its election as the highest, or the election will tell. -/
  | giveUp {p : ProcId} {roundRobin : Bool} {sc : Scan} (cur : k.curProc = some p)
      (rank : Highest k p ∨ roundRobin = false ∧ Ranked k sc) : RankOk k (.giveUp p roundRobin sc)
  | elect {sc : Scan} (rank : Ranked k sc) : RankOk k (.elect false sc)
  | turn {p : ProcId} {sc : Scan} (cur : k.curProc = some p) (top : Highest k p)
      (rank : TurnOk k (k.procs p).prCurPri sc) : RankOk k (.elect true sc)

/-! ## One step of an election -/

theorem listAfter_head (p : ProcId) (l : List ProcId) : listAfter p (p :: l) = l := by
  rw [listAfter, if_pos rfl]

/-- The list after the next process is the rest of the list after this one. -/
theorem listAfter_next {l : List ProcId} (hnd : l.Nodup) {r : List ProcId} (h : listAfter p l = q :: r) :
    listAfter q l = r := by
  induction l with
  | nil => cases h
  | cons a l ih =>
      obtain ⟨ha, hl⟩ := List.nodup_cons.mp hnd
      rw [listAfter] at h
      split at h
      · have hne : a ≠ q := by
          rintro rfl
          rw [h] at ha
          exact ha List.mem_cons_self
        rw [listAfter, if_neg hne, h, listAfter_head]
      · have hmem : q ∈ l := mem_of_mem_listAfter (by rw [h]; exact List.mem_cons_self)
        have hne : a ≠ q := by
          rintro rfl
          exact ha hmem
        rw [listAfter, if_neg hne]
        exact ih hl h

/-- Following the link moves on to the rest. -/
theorem ahead_schedLinkNext (hnd : (procList k).Nodup) (hown : OwnProc k p) :
    ahead k (schedLinkNext k p) = listAfter p (procList k) := by
  rw [schedLinkNext, show (k.procs p).prPartId = k.curPart from hown]
  show ahead k (listAfter p (procList k)).head? = _
  cases hl : listAfter p (procList k) with
  | nil => rfl
  | cons q r =>
      show q :: listAfter q (procList k) = q :: r
      rw [listAfter_next hnd hl]

theorem ahead_head (k : Kernel) : ahead k (procList k).head? = procList k := by
  cases hl : procList k with
  | nil => rfl
  | cons p l =>
      show p :: listAfter p (procList k) = p :: l
      rw [hl, listAfter_head]

/-- Whoever can run is not higher than the better of two. -/
theorem le_betterOf_right (b : Option ProcId) (hp : eligible k p = true) :
    ∃ b', betterOf k b p = some b' ∧ (k.procs p).prCurPri ≤ (k.procs b').prCurPri := by
  unfold betterOf
  rw [if_pos hp]
  cases b with
  | none => exact ⟨p, rfl, le_refl _⟩
  | some b =>
      dsimp only
      split
      · exact ⟨p, rfl, le_refl _⟩
      · exact ⟨b, rfl, by omega⟩

theorem le_betterOf_left (b p : ProcId) :
    ∃ b', betterOf k (some b) p = some b' ∧ (k.procs b).prCurPri ≤ (k.procs b').prCurPri := by
  unfold betterOf
  split
  · dsimp only
    split
    · exact ⟨p, rfl, by omega⟩
    · exact ⟨b, rfl, le_refl _⟩
  · exact ⟨b, rfl, le_refl _⟩

/-- The priority branch goes on, and ends with a process of the highest priority. -/
theorem Ranked.next {sc : Scan} (hr : Registered k) (hnd : (procList k).Nodup) (h : Ranked k sc) :
    Ranked k (sc.next k false) := by
  cases sc with
  | round =>
      refine ⟨fun p hp => List.mem_of_mem_head? hp, fun q hq _ => Or.inl ?_⟩
      rwa [ahead_head]
  | rest curPri p => exact h.elim
  | again curPri p => exact h.elim
  | best proc b =>
      obtain ⟨hmem, hrank⟩ := h
      cases proc with
      | none =>
          cases b with
          | none => trivial
          | some b =>
              intro q hq hruns
              -- what is ahead is the process that is looked at and what follows it
              rcases hrank q hq hruns with hahead | ⟨b', hb, hle⟩
              · cases hahead
              · obtain rfl : b = b' := Option.some.inj hb
                exact hle
      | some p =>
          have hown : OwnProc k p := registered_own hr (hmem p rfl)
          refine ⟨fun q hq => mem_of_schedLinkNext hown hq, fun q hq hruns => ?_⟩
          rw [ahead_schedLinkNext hnd hown]
          rcases hrank q hq hruns with hahead | ⟨b', rfl, hle⟩
          · rcases List.mem_cons.mp hahead with rfl | hafter
            · exact Or.inr (le_betterOf_right b hruns)
            · exact Or.inl hafter
          · obtain ⟨b₁, hbetter, hle₁⟩ := le_betterOf_left (k := k) b' p
            exact Or.inr ⟨b₁, hbetter, hle.trans hle₁⟩
  | found p => exact h

theorem pri_of_atLeast {curPri : Nat} (h : atLeast k curPri p = true) : curPri ≤ (k.procs p).prCurPri :=
  of_decide_eq_true ((Bool.and_eq_true _ _).mp h).2

/-- The round-robin branch goes on, and ends with a process that is not lower than the current one. -/
theorem TurnOk.next {sc : Scan} (hcur : k.curProc = some p) (h : TurnOk k (k.procs p).prCurPri sc) :
    TurnOk k (k.procs p).prCurPri (sc.next k true) := by
  cases sc with
  | round =>
      rw [Scan.next, if_pos rfl, hcur]
      exact rfl
  | rest curPri proc =>
      cases proc with
      | none => exact h
      | some q =>
          rw [Scan.next]
          split
          · rename_i htest
            exact (show curPri = _ from h) ▸ pri_of_atLeast htest
          · exact h
  | again curPri proc =>
      cases proc with
      | none => trivial
      | some q =>
          rw [Scan.next]
          split
          · rename_i htest
            exact (show curPri = _ from h) ▸ pri_of_atLeast htest
          · exact h
  | best proc b => exact h.elim
  | found q => exact h

/-! ## What leaves the order as it is -/

/-- Nobody in the current partition can run who could not, and the priorities are the same. -/
structure NobodyNew (k k' : Kernel) : Prop where
  procList : procList k' = procList k
  curProc : k'.curProc = k.curProc
  runs : ∀ q ∈ Jrinx.procList k, eligible k' q = true → eligible k q = true
  prCurPri : ∀ q, (k'.procs q).prCurPri = (k.procs q).prCurPri

theorem Highest.mono (hn : NobodyNew k k') (h : Highest k p) : Highest k' p := by
  intro q hq hruns
  rw [hn.procList] at hq
  rw [hn.prCurPri, hn.prCurPri]
  exact h q hq (hn.runs q hq hruns)

theorem ahead_eq (h : procList k' = procList k) (proc : Option ProcId) : ahead k' proc = ahead k proc := by
  cases proc with
  | none => rfl
  | some p => rw [ahead, ahead, h]

theorem Ranked.mono {sc : Scan} (hn : NobodyNew k k') (h : Ranked k sc) : Ranked k' sc := by
  cases sc with
  | round => trivial
  | rest curPri p => exact h.elim
  | again curPri p => exact h.elim
  | best proc b =>
      obtain ⟨hmem, hrank⟩ := h
      refine ⟨fun p hp => hn.procList ▸ hmem p hp, fun q hq hruns => ?_⟩
      rw [hn.procList] at hq
      rw [ahead_eq hn.procList]
      refine (hrank q hq (hn.runs q hq hruns)).imp_right ?_
      rintro ⟨b', hb, hle⟩
      refine ⟨b', hb, ?_⟩
      rwa [hn.prCurPri, hn.prCurPri]
  | found p => exact Highest.mono hn h

theorem TurnOk.mono {sc : Scan} {pri : Nat} (hn : NobodyNew k k') (h : TurnOk k pri sc) : TurnOk k' pri sc := by
  cases sc with
  | found q => exact (h : pri ≤ _).trans_eq (hn.prCurPri q).symm
  | _ => exact h

theorem RankOk.mono {f : Flow} (hn : NobodyNew k k') (h : RankOk k f) : RankOk k' f := by
  cases h with
  | user cur top => exact .user (hn.curProc.trans cur) (top.mono hn)
  | back cur top => exact .back (hn.curProc.trans cur) (top.mono hn)
  | giveUp cur rank =>
      refine .giveUp (hn.curProc.trans cur) ?_
      exact rank.imp (·.mono hn) fun ⟨hrr, hrank⟩ => ⟨hrr, hrank.mono hn⟩
  | elect rank => exact .elect (rank.mono hn)
  | @turn p sc cur top rank =>
      refine .turn (hn.curProc.trans cur) (top.mono hn) ?_
      rw [hn.prCurPri]
      exact rank.mono hn

theorem Unmoved.highest (h : Unmoved k k') (htop : Highest k p) : Highest k' p := by
  intro q hq hruns
  rw [h.procList_eq] at hq
  rw [h.runs] at hruns
  rw [h.prCurPri, h.prCurPri]
  exact htop q hq hruns

/-- The dispatch of a process that can run. -/
theorem unmoved_schedProcEd (hq : eligible k q = true) : Unmoved k (schedProcEd k q) := by
  have hset : Unmoved k { k with curProc := some q } := ⟨rfl, rfl, fun _ => rfl, fun _ => rfl, fun _ => rfl⟩
  exact hset.setState hq (Or.inr rfl)

/-- A service that returns leaves its caller the highest, unless a process that it woke up is higher. -/
theorem Highest.returns {woke : Option ProcId} (hr : Registered k) (hl : Live k p) (h : Highest k p)
    (hkept : OrderKept (woke = some ·) k k')
    (hwakes : ∀ q, woke = some q → q ∈ procList k → (k.procs q).prCurPri ≤ (k.procs p).prCurPri) :
    Highest k' p := by
  have hp : p ∈ k.procIds := hr.cur p hl.cur
  intro q hq hruns
  have hmem : q ∈ procList k := hkept.listed q hq hruns
  have hknown : q ∈ k.procIds := (hr.procList _ q hmem).1
  rw [hkept.prCurPri q hknown hruns, hkept.prCurPri p hp (hkept.kept p hp hl.runs)]
  rcases hkept.new q hknown hruns with hold | hwoken
  · exact h q hmem hold
  · exact hwakes q hwoken hmem

/-! ## The lists of processes -/

/-- A process is linked once in its partition. -/
def LinkedOnce (k : Kernel) : Prop := ∀ pt, (k.parts pt).paProcList.Nodup

theorem Same.linkedOnce (h : Same k k') (ho : LinkedOnce k) : LinkedOnce k' := fun pt => h.procLists pt ▸ ho pt

/-- The lists of processes only get longer, by new processes. -/
theorem Eff.procLists {a : Act} (he : Eff k a k') (hr : Registered k) (pt : PartId) :
    (k'.parts pt).paProcList = (k.parts pt).paProcList ∨
      ∃ p ∉ k.procIds, (k'.parts pt).paProcList = (k.parts pt).paProcList ++ [p] := by
  by_cases hnew : a ≠ .newProc ∧ a ≠ .newBuffer ∧ a ≠ .newBoard ∧ a ≠ .newPort ∧ a ≠ .spend
  · exact Or.inl ((he.same hnew).procLists pt)
  · cases he with
    | newProc mem pr own dormant timer frame =>
        have hfresh : k.nxtProcId ∉ k.procIds := fun hmem => (hr.procs_lt _ hmem).false
        by_cases hpt : pt = k.curPart
        · refine Or.inr ⟨k.nxtProcId, hfresh, ?_⟩
          simp [procReset, Kernel.setWoken, Kernel.setCont, registerProc, hpt]
        · left
          simp [procReset, Kernel.setWoken, Kernel.setCont, registerProc, hpt]
    | newBuffer mem buf own empty body frame =>
        left
        by_cases hpt : pt = k.curPart <;> simp [registerBuffer, hpt]
    | newBoard mem bb own empty blank frame =>
        left
        by_cases hpt : pt = k.curPart <;> simp [registerBlackboard, hpt]
    | newPort qp own => exact Or.inl rfl
    | spend mem nb nbb hb hbb frame => exact Or.inl rfl
    | _ => simp at hnew

theorem LinkedOnce.eff {a : Act} (ho : LinkedOnce k) (hr : Registered k) (he : Eff k a k') : LinkedOnce k' := by
  intro pt
  rcases he.procLists hr pt with heq | ⟨p, hfresh, heq⟩
  · rw [heq]
    exact ho pt
  · rw [heq, List.nodup_append_comm, List.singleton_append, List.nodup_cons]
    exact ⟨fun hmem => hfresh (hr.procList pt p hmem).1, ho pt⟩

theorem LinkedOnce.path {A : Kernel → Act → Prop} (ho : LinkedOnce k) (hr : Registered k) (h : Path A k k') :
    LinkedOnce k' :=
  (h.preserves (I := fun m => Registered m ∧ LinkedOnce m) ⟨hr, ho⟩
    fun _ _ _ hm _ he => ⟨(hm.1.eff he).1, hm.2.eff hm.1 he⟩).2

/-- No process is unlinked. -/
theorem procLists_of_path {A : Kernel → Act → Prop} (hr : Registered k) (h : Path A k k') (pt : PartId)
    (hp : p ∈ (k.parts pt).paProcList) : p ∈ (k'.parts pt).paProcList := by
  induction h with
  | refl k => exact hp
  | cons he _ _ ih =>
      refine ih (hr.eff he).1 ?_
      rcases he.procLists hr pt with heq | ⟨q, -, heq⟩
      · rwa [heq]
      · rw [heq]
        exact List.mem_append_left _ hp

/-! ## The invariant -/

/-- **The invariant** of runs in which no port wakes up a process that is higher than its caller. -/
structure PriorityInv (h : Interleaved) : Prop extends InterleavedInv h where
  once : LinkedOnce h.kernel
  rank : RankOk h.kernel h.flow

variable {h h' : Interleaved}

theorem curProc_settle (p : ProcId) (n : Next) (k : Kernel) : (settle p (n, k)).curProc = k.curProc := by
  cases n <;> rfl

theorem kernel_serviceEnd {n : Next} (hend : h.serviceEnd p n = .ok h') : h'.kernel = h.kernel := by
  cases n with
  | ret code out =>
      rw [Interleaved.serviceEnd, Interleaved.pop] at hend
      split at hend
      · cases hend
      · cases hend
        rfl
  | giveUp rr c =>
      cases hend
      rfl

/-- A segment of a service ends. -/
theorem RankOk.serviceEnd {k₁ : Kernel} {woke : Option ProcId} {n : Next} {saved : ProcId → List Flow} {f : Flow}
    (hr : Registered k) (hl : Live k p) (htop : Highest k p) (hc : Closes woke k n k₁)
    (hcur : k₁.curProc = some p) (hself : saved p = [.user])
    (hwakes : ∀ q, woke = some q → q ∈ procList k → (k.procs q).prCurPri ≤ (k.procs p).prCurPri)
    (hend : Interleaved.serviceEnd ⟨settle p (n, k₁), saved, f⟩ p n = .ok h') : RankOk h'.kernel h'.flow := by
  cases hc with
  | @ret code out _ undisturbed ready =>
      have hkept : OrderKept (woke = some ·) k (settle p (.ret code out, k₁)) := undisturbed.settle
      simp only [Interleaved.serviceEnd, Interleaved.pop, hself, Except.ok.injEq] at hend
      subst hend
      exact .user hcur (htop.returns hr hl hkept hwakes)
  | giveUp silent =>
      cases hend
      exact .giveUp hcur (Or.inr ⟨rfl, trivial⟩)
  | roundRobin silent =>
      cases hend
      exact .giveUp hcur (Or.inl htop)

namespace PriorityInv

/-! ## The steps -/

/-- The process that runs its program, or goes on with a service, is the highest. -/
theorem highest_of_live (hi : PriorityInv h) (hl : Live h.kernel p) (hflow : h.flow = .user ∨ h.flow = .back) :
    Highest h.kernel p := by
  have hrank := hi.rank
  rcases hflow with hflow | hflow
  · rw [hflow] at hrank
    cases hrank with
    | user cur top => exact Option.some.inj (cur.symm.trans hl.cur) ▸ top
  · rw [hflow] at hrank
    cases hrank with
    | back cur top => exact Option.some.inj (cur.symm.trans hl.cur) ▸ top

theorem call (hi : PriorityInv h) {env : Env} {s : Service} (hok : WakesNoHigher h (.call env s))
    (hs : interleavedStep h (.call env s) = .ok h') : PriorityInv h' := by
  obtain ⟨p, n, k₁, hflow, hl, hdo, -, -, hself, hend⟩ := hi.call_eq_ok hs
  have htop := hi.highest_of_live hl (Or.inl hflow)
  have hpath := path_doSyscall hi.registered hl hdo
  have hcur : k₁.curProc = some p := by
    rw [← curProc_settle p n k₁, (Serves.of_path rfl hpath).curProc]
    exact hl.cur
  refine ⟨hi.toInterleavedInv.call hs, ?_, ?_⟩
  · rw [kernel_serviceEnd hend]
    exact hi.once.path hi.registered hpath
  · exact .serviceEnd hi.registered hl htop (closes_doSyscall hi.registered hdo) hcur hself
      (fun q hw hq => hok p q hl.cur hw hq) hend

theorem resume (hi : PriorityInv h) {env : Env} (hok : WakesNoHigher h (.resume env))
    (hs : interleavedStep h (.resume env) = .ok h') : PriorityInv h' := by
  obtain ⟨p, c, n, k₁, hflow, hl, hc, hdo, hself, hend⟩ := hi.resume_eq_ok hs
  have htop := hi.highest_of_live hl (Or.inr hflow)
  have hpath := path_resumeCont hi.registered hl hc hdo
  have hcur : k₁.curProc = some p := by
    rw [← curProc_settle p n k₁, (Serves.of_path rfl hpath).curProc]
    exact hl.cur
  have hl₁ : Live (h.kernel.setWoken p false) p := ⟨hl.cur, hl.runs, hl.own⟩
  refine ⟨hi.toInterleavedInv.resume hs, ?_, ?_⟩
  · rw [kernel_serviceEnd hend]
    exact hi.once.path hi.registered hpath
  · have hcloses := closes_resumeCont hdo
    refine .serviceEnd (InterleavedInv.registered_setWoken hi.registered) hl₁ htop hcloses hcur hself (fun q hw hq => ?_) hend
    refine hok p q hl.cur ?_ hq
    rw [Interleaved.wakes, hl.cur]
    dsimp only
    rw [hc]
    exact hw

theorem scan (hi : PriorityInv h) (hs : interleavedStep h .scan = .ok h') : PriorityInv h' := by
  have hnext := hi.toInterleavedInv.scan hs
  rw [interleavedStep] at hs
  split at hs
  next p rr sc hflow =>
    cases hs
    have hrank : RankOk h.kernel (.giveUp p rr sc) := hflow ▸ hi.rank
    cases hrank with
    | giveUp cur rank =>
        refine ⟨hnext, hi.once, .giveUp cur (rank.imp_right ?_)⟩
        rintro ⟨rfl, hsc⟩
        exact ⟨rfl, hsc.next hi.registered (hi.once _)⟩
  next rr sc hflow =>
    cases hs
    have hrank : RankOk h.kernel (.elect rr sc) := hflow ▸ hi.rank
    cases hrank with
    | elect rank => exact ⟨hnext, hi.once, .elect (rank.next hi.registered (hi.once _))⟩
    | turn cur top rank => exact ⟨hnext, hi.once, .turn cur top (rank.next cur)⟩
  next => cases hs

/-- The process that an election found is one of the highest priority. -/
theorem highest_of_found (hi : PriorityInv h) {rr : Bool} (hflow : h.flow = .elect rr (.found q)) :
    Highest h.kernel q := by
  have hrank : RankOk h.kernel (.elect rr (.found q)) := hflow ▸ hi.rank
  cases hrank with
  | elect rank => exact rank
  | turn cur top rank => exact fun r hr hruns => (top r hr hruns).trans rank

theorem elected (hi : PriorityInv h) (hok : ResumesNoElection h .elected)
    (hs : interleavedStep h .elected = .ok h') : PriorityInv h' := by
  have hnext := hi.toInterleavedInv.elected hok hs
  rw [interleavedStep] at hs
  split at hs
  next p rr q hflow =>
    have hrank : RankOk h.kernel (.giveUp p rr (.found q)) := hflow ▸ hi.rank
    cases hrank with
    | giveUp cur rank =>
    split at hs
    · rename_i hpq
      cases hs
      refine ⟨hnext, hi.once, .back cur ?_⟩
      rcases rank with htop | ⟨-, hsc⟩
      · exact htop
      · exact hpq ▸ hsc
    · cases hs
      refine ⟨hnext, (Same.schedProcSt h.kernel).linkedOnce hi.once, ?_⟩
      rcases rank with htop | ⟨rfl, -⟩
      · cases rr with
        | false => exact .elect trivial
        | true =>
            exact .turn ((curProc_schedProcSt h.kernel).trans cur) ((Unmoved.refl _).schedProcSt.highest htop) trivial
      · exact .elect trivial
  next rr q hflow =>
    have htop : Highest h.kernel q := hi.highest_of_found hflow
    have hruns : eligible h.kernel q = true := by
      have hf : FlowOk h.kernel (.elect rr (.found q)) := hflow ▸ hi.flow
      cases hf with
      | elect idle turn proc nextProc => exact (nextProc q rfl).2
    have htop' : Highest (schedProcEd h.kernel q) q := (unmoved_schedProcEd hruns).highest htop
    have honce : LinkedOnce (schedProcEd h.kernel q) := (Same.schedProcEd q).linkedOnce hi.once
    rw [Interleaved.pop] at hs
    split at hs
    · cases hs
    rename_i f l hl
    have hstack : Stack q (.elect rr (.found q)) (f :: l) := by
      rw [← hl]
      by_cases hq : h.kernel.curProc = some q
      · exact hflow ▸ hi.current q hq
      · exact (hi.others q hq).elect_of
    cases hs
    refine ⟨hnext, honce, ?_⟩
    -- what is loaded is not an election of `sched_proc`
    cases hstack with
    | elect hbelow =>
        cases hbelow with
        | user => exact .user rfl htop'
        | giveUp => exact .giveUp rfl (Or.inl htop')
        | back => exact .back rfl htop'
        | elect hbelow => exact absurd hl (hok q (by simp [Interleaved.dispatches, hflow]) _ _ _)
  next => cases hs

theorem timer (hi : PriorityInv h) {clk : Nat → Int} (hs : interleavedStep h (.timer clk) = .ok h') :
    PriorityInv h' := by
  have hnext := hi.toInterleavedInv.timer hs
  rw [interleavedStep] at hs
  split at hs
  next => cases hs
  next p hcur =>
    obtain ⟨⟨r, k₁⟩, hact, hs⟩ := except_bind_eq_ok.mp hs
    have honce : LinkedOnce k₁ := hi.once.path hi.registered (path_timeEventAction (fun _ _ _ => trivial) hact)
    dsimp only at hs
    split at hs
    · cases hs
      exact ⟨hnext, (Same.schedProcSt k₁).linkedOnce honce, .elect trivial⟩
    · rename_i hresched
      cases hs
      refine ⟨hnext, honce, hi.rank.mono ?_⟩
      obtain ⟨hpart, hproc⟩ : r.part = false ∧ r.proc = false := by simpa using hresched
      obtain ⟨k₂, hloop, ⟨hpart', -⟩ | ⟨-, rfl⟩⟩ := timeEventAction_eq_ok hact
      · rw [hpart] at hpart'
        cases hpart'
      -- the processes that became ready belong to other partitions
      have hexp : Expires h.kernel k₁ := by
        have hexp := Expires.timeEventLoop clk h.kernel.teq 0 ⟨false, false⟩ h.kernel
        rwa [hloop] at hexp
      have hkept := (orderKept_timeEventLoop clk h.kernel.teq 0 ⟨false, false⟩ h.kernel (by rwa [hloop])).2
      rw [hloop] at hkept
      refine ⟨hexp.same.procList_eq hexp.curPart, hexp.curProc, fun q hq hruns => ?_, hexp.prCurPri⟩
      rcases hkept.new q (hi.registered.procList _ q hq).1 hruns with hold | hforeign
      · exact hold
      · exact absurd (registered_own hi.registered hq) hforeign

/-- **Every step keeps the invariant** that resumes no election and wakes up no higher process through a port. -/
theorem step (hi : PriorityInv h) {e : FlowEvent} (hdom : ResumesNoElection h e) (hok : WakesNoHigher h e)
    (hs : interleavedStep h e = .ok h') : PriorityInv h' := by
  cases e with
  | call env s => exact hi.call hok hs
  | resume env => exact hi.resume hok hs
  | scan => exact hi.scan hs
  | elected => exact hi.elected hdom hs
  | timer clk => exact hi.timer hs

theorem atBoot (hb : AtBoot h) : PriorityInv h := by
  refine ⟨.atBoot hb, hb.once, ?_⟩
  rw [hb.flow]
  exact .elect trivial

/-- The invariant gives the property. -/
theorem highestRuns (hi : PriorityInv h) : HighestRuns h := by
  intro hflow
  have hrank : RankOk h.kernel .user := hflow ▸ hi.rank
  cases hrank with
  | user cur top => exact ⟨_, cur, fun q hq hready => top q hq (eligible_iff.mpr (Or.inl hready))⟩

/-! ## A higher process is woken up -/

/-- A service that woke up a higher process returns to its program, with that process ready. -/
theorem overtaken {k₁ : Kernel} {n : Next} {saved : ProcId → List Flow} {f : Flow} (hr : Registered k)
    (hl : Live k p) (hc : Closes (some q) k n k₁) (hcur : k₁.curProc = some p) (hself : saved p = [.user])
    (hrunning : (k₁.procs q).prState = .running → k₁.curProc = some q) (hq : q ∈ procList k)
    (hstill : q ∈ procList k₁) (hlt : (k.procs p).prCurPri < (k.procs q).prCurPri)
    (hend : Interleaved.serviceEnd ⟨settle p (n, k₁), saved, f⟩ p n = .ok h') : ¬ HighestRuns h' := by
  cases hc with
  | giveUp silent => cases silent
  | roundRobin silent => cases silent
  | ret undisturbed ready =>
      have hready : (k₁.procs q).prState = .ready := by
        rcases eligible_iff.mp (ready q rfl) with hready | hruns
        · exact hready
        · obtain rfl : p = q := Option.some.inj (hcur.symm.trans (hrunning hruns))
          exact absurd hlt (lt_irrefl _)
      have hp := hr.cur p hl.cur
      have hpriq := undisturbed.prCurPri q (hr.procList _ q hq).1 (ready q rfl)
      have hprip := undisturbed.prCurPri p hp (undisturbed.kept p hp hl.runs)
      simp only [Interleaved.serviceEnd, Interleaved.pop, hself, Except.ok.injEq] at hend
      subst hend
      intro hhighest
      obtain ⟨p', hcur', hle⟩ := hhighest rfl
      obtain rfl : p = p' := Option.some.inj (hcur.symm.trans hcur')
      have hle : (k₁.procs q).prCurPri ≤ (k₁.procs p).prCurPri := hle q hstill hready
      omega

/-- Lists and states after a segment of a service, on the way to `overtaken`. -/
theorem after_segment (hi : PriorityInv h) {e : Event} (he : e.ofService = true) {k₁ : Kernel} {n : Next}
    (hpath : Path (Allowed h.kernel e) h.kernel (settle p (n, k₁))) :
    k₁.curProc = h.kernel.curProc ∧ (∀ q ∈ procList h.kernel, q ∈ procList k₁) ∧
      ∀ q, (k₁.procs q).prState = .running → k₁.curProc = some q := by
  have hserves := Serves.of_path he hpath
  have hcur : k₁.curProc = h.kernel.curProc := (curProc_settle p n k₁).symm.trans hserves.curProc
  have hfields : (settle p (n, k₁)).parts = k₁.parts ∧ (settle p (n, k₁)).curPart = k₁.curPart ∧
      (settle p (n, k₁)).procs = k₁.procs := by cases n <;> exact ⟨rfl, rfl, rfl⟩
  refine ⟨hcur, fun q hq => ?_, fun q hq => ?_⟩
  · have hlist := procLists_of_path hi.registered hpath h.kernel.curPart hq
    rw [hfields.1, ← hserves.curPart, hfields.2.1] at hlist
    exact hlist
  · rw [hcur]
    exact hi.running q (hserves.running q (by rwa [hfields.2.2]))

theorem not_highestRuns (hi : PriorityInv h) {e : FlowEvent} (hnot : ¬ WakesNoHigher h e)
    (hs : interleavedStep h e = .ok h') : ¬ HighestRuns h' := by
  simp only [WakesNoHigher, not_forall, not_le] at hnot
  obtain ⟨p, q, hcur, hwakes, hq, hlt⟩ := hnot
  cases e with
  | call env s =>
      obtain ⟨p', n, k₁, -, hl, hdo, -, -, hself, hend⟩ := hi.call_eq_ok hs
      obtain rfl : p = p' := Option.some.inj (hcur.symm.trans hl.cur)
      have hpath := path_doSyscall hi.registered hl hdo
      obtain ⟨hcur₁, hlists, hrunning⟩ := hi.after_segment rfl hpath
      have hc : Closes (some q) h.kernel n k₁ :=
        (show s.wakes h.kernel = some q from hwakes) ▸ closes_doSyscall hi.registered hdo
      exact overtaken hi.registered hl hc (hcur₁.trans hcur) hself (hrunning q) hq (hlists q hq) hlt hend
  | resume env =>
      obtain ⟨p', c, n, k₁, -, hl, hc, hdo, hself, hend⟩ := hi.resume_eq_ok hs
      obtain rfl : p = p' := Option.some.inj (hcur.symm.trans hl.cur)
      have hpath := path_resumeCont hi.registered hl hc hdo
      obtain ⟨hcur₁, hlists, hrunning⟩ := hi.after_segment rfl hpath
      rw [Interleaved.wakes, hcur] at hwakes
      dsimp only at hwakes
      rw [hc] at hwakes
      have hl₁ : Live (h.kernel.setWoken p false) p := ⟨hl.cur, hl.runs, hl.own⟩
      have hcloses : Closes (some q) (h.kernel.setWoken p false) n k₁ :=
        (show c.wakes (h.kernel.setWoken p false) env = some q from hwakes) ▸ closes_resumeCont hdo
      exact overtaken (InterleavedInv.registered_setWoken hi.registered) hl₁ hcloses (hcur₁.trans hcur) hself (hrunning q) hq
        (hlists q hq) hlt hend
  | _ => cases hwakes

end PriorityInv

/-! ## The condition -/

/-- **The running process has the highest priority** exactly as long as no service on a queuing port wakes up a
higher process of the partition, in runs that resume no interrupted election of `sched_proc`. -/
theorem highest_runs_iff {tr : List (Interleaved × FlowEvent)} (hb : AtBoot h) (hrun : Exec interleavedStep h tr h')
    (hdom : AllSteps ResumesNoElection tr) : Throughout HighestRuns tr h' ↔ AllSteps WakesNoHigher tr :=
  hrun.forall_iff_within (.atBoot hb) hdom (fun _ hi => hi.highestRuns)
    (fun _ _ _ hi hd hok hs => PriorityInv.step hi hd hok hs)
    fun _ _ _ hi _ hnot hs => PriorityInv.not_highestRuns hi hnot hs

/-- The main process `1` of a partition at boot, which may start the process `2` and the process `3` of a higher
priority. Both ports of the channel `0` belong to the partition. -/
def mainAtBoot : Interleaved where
  kernel := { smallSystem 1 .fifo [1, 2, 3] with
    parts := fun pt => { (smallSystem 1 .fifo [1, 2, 3]).parts pt with paOpMode := .coldStart }
    procs := fun p =>
      { Proc.blank with
        prPartId := 1
        prState := if p = 1 then .ready else .dormant
        prBasePri := if p = 3 then 5 else 1
        prPeriod := systemTimeInfiniteVal }
    portConfs := [⟨"in", "part", .destination, 4, 1, some 0⟩, ⟨"out", "part", .source, 4, 1, some 0⟩]
    curProc := none }
  saved _ := [.user]
  flow := .elect false .round

theorem atBoot_mainAtBoot : AtBoot mainAtBoot where
  quiet :=
    { quiet_smallSystem 1 .fifo [1, 2, 3] with
      registered :=
        { (quiet_smallSystem 1 .fifo [1, 2, 3]).registered with
          cur := fun p hp => by cases hp }
      lists := fun o => by cases o <;> rfl
      state := fun p => by
        show (if p = 1 then ProcState.ready else .dormant) ≠ .waiting
        split <;> decide
      timer := fun _ => rfl }
  idle p := by
    show (if p = 1 then ProcState.ready else .dormant) ≠ .running
    split <;> decide
  curProc := rfl
  once pt := by
    show (if pt = 1 then [1, 2, 3] else []).Nodup
    split <;> decide
  saved _ := rfl
  flow := rfl

/-- The main process creates the ports, starts the others and leaves; the process `3` waits for a message, and the
process `2` is dispatched. -/
def waitForMessage : List FlowEvent :=
  let env : Env := ⟨fun _ => 0, fun _ => 0⟩
  let election : List FlowEvent := [.scan, .scan, .scan, .scan, .scan, .elected]
  election ++ [.call env (.createQueuingPort "in" 4 1 (some .destination) .fifo),
      .call env (.createQueuingPort "out" 4 1 (some .source) .fifo), .call env (.start 2), .call env (.start 3),
      .call env (.setPartitionMode 3)] ++ election ++ election ++
    [.call env (.receiveQueuingMessage 1 systemTimeInfiniteVal 0)] ++ election ++ election

/-- Up to there, the highest process runs. -/
theorem highest_runs_waitForMessage : ∃ h tr, Exec interleavedStep mainAtBoot tr h ∧ tr.length = 36 ∧
    (Throughout HighestRuns tr h ↔ AllSteps WakesNoHigher tr) := by
  obtain ⟨h, hrun, -⟩ := Exec.of_checkRun interleavedStep mainAtBoot waitForMessage (fun _ => true)
    (by decide +kernel)
  have hlen : (traceEvents interleavedStep mainAtBoot waitForMessage).length = 36 := by decide +kernel
  have hcheck : (traceEvents interleavedStep mainAtBoot waitForMessage).all (fun x =>
      (x.1.dispatches x.2).all fun q => (x.1.saved q).head? = some .user ∨ (x.1.saved q).head? = some .back) =
      true := by decide +kernel
  have hdom : AllSteps ResumesNoElection (traceEvents interleavedStep mainAtBoot waitForMessage) := by
    intro x hx q hq rr sc l hl
    have hx' := List.all_eq_true.mp hcheck x hx
    rw [hq] at hx'
    simp [hl] at hx'
  exact ⟨h, _, hrun, hlen, highest_runs_iff atBoot_mainAtBoot hrun hdom⟩

/-- The highest process does not always run: the sender returns to its program, and the receiver that it woke up
has a higher priority. -/
theorem highest_overtaken : ¬ ∀ (h h' : Interleaved) (tr : List (Interleaved × FlowEvent)), AtBoot h →
    Exec interleavedStep h tr h' → Throughout HighestRuns tr h' := by
  intro hall
  obtain ⟨h, hrun, hcheck⟩ := Exec.of_checkRun interleavedStep mainAtBoot
    (waitForMessage ++ [.call ⟨fun _ => 0, fun _ => 0⟩ (.sendQueuingMessage 2 0 4 0)])
    (fun h => decide (h.flow = .user ∧ h.kernel.curProc = some 2 ∧ 3 ∈ procList h.kernel ∧
      (h.kernel.procs 3).prState = .ready ∧ (h.kernel.procs 2).prCurPri < (h.kernel.procs 3).prCurPri))
    (by decide +kernel)
  obtain ⟨hflow, hcur, hmem, hready, hlt⟩ := of_decide_eq_true hcheck
  obtain ⟨p, hp, hle⟩ := (hall _ _ _ atBoot_mainAtBoot hrun).2 hflow
  obtain rfl : 2 = p := Option.some.inj (hcur.symm.trans hp)
  exact absurd (hle 3 hmem hready) (not_le.mpr hlt)

end Jrinx
