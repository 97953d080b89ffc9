import Jrinx.AtOnce
import Jrinx.Elections

/-! # Dispatches

Whether `sched_proc` dispatches a process that may be dispatched. An election that was struck by an interrupt and
goes on much later chooses among processes as they were when it looked at them, and it chooses for a process that
is `RUNNING` already.

* **`SoundDispatch`** — the process is one of the partition, it can run, and it is the only one that is `RUNNING`.
* **`InterleavedInv`** — the invariant of runs that resume no election.
* **`dispatches_sound`** — in these runs every dispatch is sound. -/

namespace Jrinx

variable {k k' : Kernel} {p q : ProcId}

/-! ## Who is running -/

/-- Only a dispatch makes a process `RUNNING`. -/
theorem Eff.running {a : Act} (he : Eff k a k') (ha : ∀ p, a ≠ .dispatch p)
    (h : (k'.procs q).prState = .running) : (k.procs q).prState = .running := by
  have hset : ∀ {m : Kernel} {p : ProcId} {s : ProcState}, s ≠ .running →
      ((m.setState p s).procs q).prState = .running → (m.procs q).prState = .running := by
    intro m p s hs h
    rw [Kernel.prState_setState] at h
    split at h
    · exact absurd h hs
    · exact h
  -- a state that is set is another one than `RUNNING`, a dispatch apart
  cases he with
  | mode m => exact h
  | @attr p f own other =>
      by_cases hqp : q = p
      · subst hqp
        simp only [Kernel.updProc, Function.update_self] at h
        rw [other] at h
        exact h
      · simpa [Kernel.updProc, hqp] using h
  | ready own held => exact hset (by decide) h
  | doze reason own free kind => exact hset (s := .waiting) (by decide) (by simpa [waitFor] using h)
  | sleep time known own free kind =>
      rw [sleepUntil, prState_timeEventAlloc] at h
      exact hset (s := .waiting) (by decide) (by simpa [waitFor] using h)
  | rouse own waits reason freed =>
      obtain ⟨i, -, -, rfl⟩ := mem_of_timeEventFree freed
      have hfreed := hset (by decide) h
      rwa [prState_freeEvent] at hfreed
  | halt cur own runs => exact hset (by decide) h
  | stop own alive freed =>
      split at freed
      · obtain ⟨i, -, -, rfl⟩ := mem_of_timeEventFree freed
        rw [prState_freeEvent] at h
        exact hset (by decide) h
      · rw [← Except.ok.inj freed] at h
        exact hset (by decide) h
  | reset own dormant => exact h
  | @block p c w a cur own runs call fits full =>
      obtain ⟨hother, -, hself, -⟩ := block_fields k p c w a
      by_cases hqp : q = p
      · rw [hqp, hself] at h
        cases h
      · rwa [(hother q hqp).1] at h
  | @wake p o _ linked obj done =>
      rw [prState_wakeProc done] at h
      split at h
      · cases h
      · exact h
  | queue cc obj => rwa [Kernel.procs_setBody] at h
  | board f obj part list => exact h
  | newProc mem pr own dormant timer frame =>
      by_cases hq : q = k.nxtProcId
      · rw [hq] at h
        simp [procReset, Kernel.setWoken, Kernel.setCont, registerProc, dormant] at h
      · simpa [procReset, Kernel.setWoken, Kernel.setCont, registerProc, hq] using h
  | newBuffer mem buf own empty body frame => exact h
  | newBoard mem bb own empty blank frame => exact h
  | newPort qp own => exact h
  | spend mem nb nbb hb hbb frame => exact h
  | cont c cur own free plain => exact h
  | resumed cur own runs => exact h
  | @dispatch p _ done => exact absurd rfl (ha p)
  | @expire te es p head proc =>
      have hexp : ((expireProc k te p).procs q).prState = .running := h
      rw [procs_expireProc] at hexp
      by_cases hqp : q = p
      · simp [hqp] at hexp
      · rwa [Function.update_of_ne hqp] at hexp
  | partition head proc => exact h
  | global done => rwa [procs_of_schedGlobal done] at h

/-- What a service leaves of the hart. -/
structure Serves (k k' : Kernel) : Prop where
  curPart : k'.curPart = k.curPart
  curProc : k'.curProc = k.curProc
  running : ∀ p, (k'.procs p).prState = .running → (k.procs p).prState = .running

theorem Serves.of_path {k₀ : Kernel} {e : Event} (he : e.ofService = true) (h : Path (Allowed k₀ e) k k') :
    Serves k k' := by
  induction h with
  | refl k => exact ⟨rfl, rfl, fun _ h => h⟩
  | @cons k k₁ k' a hstep ha _ ih =>
      have hhart : a.ofHart = false := by
        by_contra hh
        rw [ha.hart (by simpa using hh)] at he
        exact absurd he (by decide)
      obtain ⟨hpart, hproc⟩ := hstep.hart_eq hhart
      refine ⟨ih.curPart.trans hpart, ih.curProc.trans hproc, fun p hp => hstep.running ?_ (ih.running p hp)⟩
      rintro q rfl
      cases hhart

/-! ## Timer interrupts -/

/-- What the loop of a timer interrupt does: processes become ready, and nothing else happens to any. -/
structure Expires (k k' : Kernel) : Prop where
  same : Same k k'
  curPart : k'.curPart = k.curPart
  curProc : k'.curProc = k.curProc
  prState : ∀ p, (k'.procs p).prState = (k.procs p).prState ∨ (k'.procs p).prState = .ready
  prCurPri : ∀ p, (k'.procs p).prCurPri = (k.procs p).prCurPri

theorem Expires.refl (k : Kernel) : Expires k k := ⟨.refl k, rfl, rfl, fun _ => Or.inl rfl, fun _ => rfl⟩

theorem Expires.setTeq (es : List TimeEvent) : Expires k { k with teq := es } :=
  ⟨.setTeq es _, rfl, rfl, fun _ => Or.inl rfl, fun _ => rfl⟩

theorem Expires.trans {k₁ : Kernel} (h : Expires k k₁) (h' : Expires k₁ k') : Expires k k' := by
  refine ⟨h.same.trans h'.same, h'.curPart.trans h.curPart, h'.curProc.trans h.curProc, fun p => ?_,
    fun p => (h'.prCurPri p).trans (h.prCurPri p)⟩
  rcases h'.prState p with heq | hready
  · rw [heq]
    exact h.prState p
  · exact Or.inr hready

theorem Expires.expireProc (te : TimeEvent) (p : ProcId) : Expires k (expireProc k te p) := by
  refine ⟨.expireProc te p, curPart_expireProc k te p, curProc_expireProc k te p, fun q => ?_, fun q => ?_⟩
  all_goals
    rw [procs_expireProc]
    by_cases hq : q = p <;> simp [hq]

theorem Expires.timeEventLoop (clk : Nat → Int) (es : List TimeEvent) (i : Nat) (r : Resched) (k : Kernel) :
    Expires k (timeEventLoop clk es i r k).2 := by
  induction es generalizing i r k with
  | nil => exact .setTeq []
  | cons te es ih =>
      rw [Jrinx.timeEventLoop]
      split
      · cases te.teType.proc with
        | none => exact (Expires.setTeq es).trans (ih _ _ _)
        | some p => exact ((Expires.expireProc te p).trans (.setTeq es)).trans (ih _ _ _)
      · exact .setTeq _

/-- A process that could run still can. -/
theorem Expires.eligible (h : Expires k k') (hp : eligible k p = true) : eligible k' p = true := by
  rw [eligible_iff] at hp ⊢
  rcases h.prState p with heq | hready
  · rwa [heq]
  · exact Or.inl hready

theorem Expires.running (h : Expires k k') (hp : (k'.procs p).prState = .running) :
    (k.procs p).prState = .running := by
  rcases h.prState p with heq | hready
  · rwa [heq] at hp
  · rw [hready] at hp
    cases hp

theorem Expires.ownProc (h : Expires k k') : OwnProc k' p ↔ OwnProc k p := by
  rw [OwnProc, OwnProc, h.same.prPartId, h.curPart]

/-- Without a process of the current partition among them, the expired processes are processes of others. -/
theorem orderKept_timeEventLoop (clk : Nat → Int) (es : List TimeEvent) (i : Nat) (r : Resched) (k : Kernel)
    (h : (timeEventLoop clk es i r k).1.proc = false) :
    r.proc = false ∧ OrderKept (fun p => ¬ OwnProc k p) k (timeEventLoop clk es i r k).2 := by
  -- the loop marks a rescheduling for every process of the partition that it releases
  induction es generalizing i r k with
  | nil => exact ⟨h, .of_procs rfl rfl rfl rfl⟩
  | cons te es ih =>
      rw [timeEventLoop] at h ⊢
      split at h
      · rename_i hdue
        rw [if_pos hdue]
        cases hp : te.teType.proc with
        | none =>
            rw [hp] at h
            dsimp only at h ⊢
            obtain ⟨hr, hrest⟩ := ih _ _ _ h
            have hone : OrderKept (fun q => ¬ OwnProc k q) k { k with teq := es } := .of_procs rfl rfl rfl rfl
            exact ⟨hr, hone.trans (hrest.mono fun q hq => hq) (Expires.setTeq es).same fun _ => rfl⟩
        | some p =>
            rw [hp] at h
            dsimp only at h ⊢
            obtain ⟨hr, hrest⟩ := ih _ _ _ h
            split at hr
            · cases hr
            -- the mark is not set, so the process that the event releases is of another partition
            rename_i hforeign
            have hexp : Expires k { expireProc k te p with teq := es } := (Expires.expireProc te p).trans (.setTeq es)
            have hone : OrderKept (fun q => ¬ OwnProc k q) k { expireProc k te p with teq := es } := by
              refine .of_same hexp.same hexp.curPart hexp.curProc (fun q => hexp.eligible) (fun q hq => ?_)
                fun q _ => hexp.prCurPri q
              by_cases hqp : q = p
              · exact Or.inr (hqp ▸ hforeign)
              · left
                have hprocs : (expireProc k te p).procs q = k.procs q := by
                  rw [procs_expireProc, Function.update_of_ne hqp]
                rwa [eligible, hprocs] at hq
            refine ⟨hr, hone.trans (hrest.mono fun q hq => ?_) hexp.same hexp.prCurPri⟩
            rwa [hexp.ownProc] at hq
      · rename_i hdue
        rw [if_neg hdue]
        exact ⟨h, .of_procs rfl rfl rfl rfl⟩

/-! ## The property -/

/-- The process that an event dispatches. -/
def Interleaved.dispatches (h : Interleaved) : FlowEvent → Option ProcId
  | .elected =>
      match h.flow with
      | .elect _ (.found q) => some q
      | _ => none
  | _ => none

/-- **A dispatch is sound**: the process is one of the current partition, it is `READY` or `RUNNING`, and after the
dispatch it is the only one that is `RUNNING`. -/
structure SoundDispatch (k : Kernel) (q : ProcId) : Prop where
  listed : q ∈ procList k
  own : OwnProc k q
  runs : (k.procs q).prState = .ready ∨ (k.procs q).prState = .running
  only : ∀ p, ((schedProcEd k q).procs p).prState = .running ↔ p = q

/-- What the event dispatches, it dispatches soundly. -/
def DispatchesSoundly (h : Interleaved) (e : FlowEvent) : Prop :=
  ∀ q, h.dispatches e = some q → SoundDispatch h.kernel q

/-- The event dispatches no process whose newest context is that of an interrupted election of `sched_proc`. -/
def ResumesNoElection (h : Interleaved) (e : FlowEvent) : Prop :=
  ∀ q, h.dispatches e = some q → ∀ roundRobin sc l, h.saved q ≠ .elect roundRobin sc :: l

/-! ## The invariant -/

/-- What `tf_ctx_list` of `p` holds below what executes for `p`. -/
inductive Stack (p : ProcId) : Flow → List Flow → Prop
  | user : Stack p .user []
  | giveUp {roundRobin : Bool} {sc : Scan} : Stack p (.giveUp p roundRobin sc) [.user]
  | back : Stack p .back [.user]
  /-- Below an election lies what it was called by, or was struck in. -/
  | elect {roundRobin : Bool} {sc : Scan} {f : Flow} {l : List Flow} (h : Stack p f l) :
      Stack p (.elect roundRobin sc) (f :: l)

/-- What holds of the kernel while the hart executes a flow. -/
inductive FlowOk (k : Kernel) : Flow → Prop
  | user {p : ProcId} (live : Live k p) : FlowOk k .user
  | back {p : ProcId} (live : Live k p) : FlowOk k .back
  | giveUp {p : ProcId} {roundRobin : Bool} {sc : Scan} (cur : k.curProc = some p) (own : OwnProc k p)
      (self : sc.nextProc = some p → eligible k p = true) : FlowOk k (.giveUp p roundRobin sc)
  | elect {roundRobin : Bool} {sc : Scan} (idle : ∀ p, (k.procs p).prState ≠ .running)
      (turn : roundRobin = true → ∃ p, k.curProc = some p ∧ OwnProc k p)
      (proc : ∀ p, sc.proc = some p → p ∈ procList k)
      (nextProc : ∀ p, sc.nextProc = some p → p ∈ procList k ∧ eligible k p = true) :
      FlowOk k (.elect roundRobin sc)

/-- **The invariant** of runs that resume no election. -/
structure InterleavedInv (h : Interleaved) : Prop where
  registered : Registered h.kernel
  /-- Only the process on the hart is `RUNNING`. -/
  running : ∀ p, (h.kernel.procs p).prState = .running → h.kernel.curProc = some p
  flow : FlowOk h.kernel h.flow
  current : ∀ p, h.kernel.curProc = some p → Stack p h.flow (h.saved p)
  others : ∀ p, h.kernel.curProc ≠ some p → Stack p (.elect false .round) (h.saved p)

variable {h h' : Interleaved} {roundRobin : Bool} {sc : Scan} {f : Flow} {l : List Flow}

theorem Stack.elect_eq (hs : Stack p (.elect roundRobin sc) l) : ∃ f l', l = f :: l' ∧ Stack p f l' := by
  cases hs with
  | elect hs => exact ⟨_, _, rfl, hs⟩

theorem Stack.user_eq (hs : Stack p .user l) : l = [] := by
  cases hs with
  | user => rfl

theorem Stack.back_eq (hs : Stack p .back l) : l = [.user] := by
  cases hs with
  | back => rfl

theorem Stack.giveUp_eq (hs : Stack p (.giveUp q roundRobin sc) l) : q = p ∧ l = [.user] := by
  cases hs with
  | giveUp => exact ⟨rfl, rfl⟩

/-- The variables of an election do not matter to what lies below it. -/
theorem Stack.elect_of (hs : Stack p (.elect roundRobin sc) l) {rr : Bool} {sc' : Scan} :
    Stack p (.elect rr sc') l := by
  obtain ⟨f, l', rfl, hbelow⟩ := hs.elect_eq
  exact .elect hbelow

/-- A process that has only its program below. -/
theorem Stack.of_user (p : ProcId) : Stack p (.elect roundRobin sc) [.user] := .elect .user

theorem registered_own (hr : Registered k) (hp : p ∈ procList k) : OwnProc k p := (hr.procList _ p hp).2

/-- One step of the election on the hart. -/
theorem FlowOk.next (hr : Registered k) (hf : FlowOk k (.elect roundRobin sc)) :
    FlowOk k (.elect roundRobin (sc.next k roundRobin)) := by
  cases hf with
  | elect idle turn proc nextProc =>
      refine .elect idle turn (fun q hq => ?_) fun q hq => ?_
      · rcases Scan.proc_next hq with hmem | ⟨p, hp, hlink⟩
        · exact hmem
        · rcases hp with hp | ⟨hrr, hcur⟩
          · exact mem_of_schedLinkNext (registered_own hr (proc p hp)) hlink
          · obtain ⟨p', hcur', hown⟩ := turn hrr
            exact mem_of_schedLinkNext (Option.some.inj (hcur.symm.trans hcur') ▸ hown) hlink
      · rcases Scan.nextProc_next hq with hold | ⟨hmem, hruns⟩
        · exact nextProc q hold
        · exact ⟨proc q hmem, hruns⟩

theorem FlowOk.next_giveUp (hf : FlowOk k (.giveUp p roundRobin sc)) :
    FlowOk k (.giveUp p roundRobin (sc.next k roundRobin)) := by
  cases hf with
  | giveUp cur own self =>
      refine .giveUp cur own fun hq => ?_
      rcases Scan.nextProc_next hq with hold | ⟨-, hruns⟩
      · exact self hold
      · exact hruns

/-- Timers that expire meanwhile do not matter to what the hart executes. -/
theorem FlowOk.expires (hf : FlowOk k f) (he : Expires k k') : FlowOk k' f := by
  have hown : ∀ {p}, OwnProc k p → OwnProc k' p := fun hp => he.ownProc.mpr hp
  have hlist : procList k' = procList k := he.same.procList_eq he.curPart
  cases hf with
  | user live => exact .user ⟨he.curProc.trans live.cur, he.eligible live.runs, hown live.own⟩
  | back live => exact .back ⟨he.curProc.trans live.cur, he.eligible live.runs, hown live.own⟩
  | giveUp cur own self => exact .giveUp (he.curProc.trans cur) (hown own) fun hq => he.eligible (self hq)
  | elect idle turn proc nextProc =>
      refine .elect (fun p hp => idle p (he.running hp)) (fun hrr => ?_) (fun p hp => ?_) fun p hp => ?_
      · obtain ⟨p, hcur, hp⟩ := turn hrr
        exact ⟨p, he.curProc.trans hcur, hown hp⟩
      · rw [hlist]
        exact proc p hp
      · obtain ⟨hmem, hruns⟩ := nextProc p hp
        rw [hlist]
        exact ⟨hmem, he.eligible hruns⟩

/-- `sched_proc` begins with nobody running. -/
theorem idle_schedProcSt (hrun : ∀ p, (k.procs p).prState = .running → k.curProc = some p) (p : ProcId) :
    ((schedProcSt k).procs p).prState ≠ .running := by
  unfold schedProcSt
  cases hcur : k.curProc with
  | none =>
      intro hp
      rw [hrun p hp] at hcur
      cases hcur
  | some cur =>
      dsimp only
      split
      · rw [Kernel.prState_setState]
        split
        · decide
        · rename_i hne
          intro hp
          exact hne (Option.some.inj ((hrun p hp).symm.trans hcur))
      · rename_i hidle
        intro hp
        obtain rfl : p = cur := Option.some.inj ((hrun p hp).symm.trans hcur)
        exact hidle hp

theorem registered_schedProcSt (hr : Registered k) : Registered (schedProcSt k) :=
  hr.of_same (.schedProcSt k) (fun p c w a hc => Or.inl (by rwa [conts_schedProcSt] at hc))
    fun p hp => Or.inl (by rwa [curProc_schedProcSt] at hp)

namespace InterleavedInv

/-! ## The steps -/

/-- A segment of a service of `p` ends. -/
theorem serviceEnd (hi : InterleavedInv h) {n : Next} {k' : Kernel} {saved : ProcId → List Flow}
    (hl : Live h.kernel p) (hreg : Registered k') (hserves : Serves h.kernel k') (hown : OwnProc k' p)
    (hruns : ∀ code out, n = .ret code out → eligible k' p = true) (hself : saved p = [.user])
    (hothers : ∀ q ≠ p, saved q = h.saved q ∨ saved q = [.user])
    (hend : Interleaved.serviceEnd ⟨k', saved, h.flow⟩ p n = .ok h') : InterleavedInv h' := by
  have hcur : k'.curProc = some p := hserves.curProc.trans hl.cur
  have hrunning : ∀ q, (k'.procs q).prState = .running → k'.curProc = some q := fun q hq =>
    hserves.curProc.trans (hi.running q (hserves.running q hq))
  have hrest : ∀ q, k'.curProc ≠ some q → Stack q (.elect false .round) (saved q) := by
    intro q hq
    rcases hothers q fun heq => hq (heq ▸ hcur) with hold | hreset
    · rw [hold]
      exact hi.others q (hserves.curProc ▸ hq)
    · rw [hreset]
      exact .of_user q
  -- a service returns to its caller, or begins an election in the frame that it was called from
  cases n with
  | ret code out =>
      simp only [Interleaved.serviceEnd, Interleaved.pop, hself, Except.ok.injEq] at hend
      subst hend
      refine ⟨hreg, hrunning, .user ⟨hcur, hruns code out rfl, hown⟩, fun q hq => ?_, fun q hq => ?_⟩
      · obtain rfl : p = q := Option.some.inj (hcur.symm.trans hq)
        simp only [Function.update_self]
        exact .user
      · have hne : q ≠ p := by
          rintro rfl
          exact hq hcur
        show Stack q _ (Function.update saved p [] q)
        rw [Function.update_of_ne hne]
        exact hrest q hq
  | giveUp rr c =>
      simp only [Interleaved.serviceEnd, Except.ok.injEq] at hend
      subst hend
      refine ⟨hreg, hrunning, .giveUp hcur hown fun hnone => ?_, fun q hq => ?_, hrest⟩
      · cases hnone
      · obtain rfl : p = q := Option.some.inj (hcur.symm.trans hq)
        show Stack p _ (saved p)
        rw [hself]
        exact .giveUp

/-- What returns at once goes on executing. -/
theorem runs_of_closes {n : Next} {k₁ : Kernel} {woke : Option ProcId} (hr : Registered k) (hl : Live k p)
    (hc : Closes woke k n k₁) {code : RetCode} {out : Out} (hn : n = .ret code out) : eligible k₁ p = true := by
  subst hn
  cases hc with
  | ret undisturbed ready => exact undisturbed.kept p (hr.cur p hl.cur) hl.runs

theorem eligible_settle (n : Next) (p q : ProcId) : eligible (settle p (n, k)) q = eligible k q := by
  cases n <;> rfl

/-- A call resets no process but a dormant one. -/
theorem dormant_of_resetBy {s : Service} (h : resetBy k s = some q) : (k.procs q).prState = .dormant := by
  have hstarted : ∀ {id : ProcId} {t : Int}, resetBy.started k id t = some q → (k.procs q).prState = .dormant := by
    intro id t hs
    rw [resetBy.started] at hs
    cases hpr : curPartProc k id with
    | none =>
        rw [hpr] at hs
        cases hs
    | some pr =>
        obtain ⟨-, -, rfl⟩ := of_curPartProc hpr
        simp only [hpr] at hs
        split_ifs at hs with hdormant
        rw [← Option.some.inj hs]
        exact not_not.mp hdormant
  cases s with
  | start id => exact hstarted h
  | delayedStart id t => exact hstarted h
  | _ => cases h

theorem resetSaved_of_ne (saved : ProcId → List Flow) {r : Option ProcId} (hr : r ≠ some q) :
    resetSaved saved r q = saved q := by
  cases r with
  | none => rfl
  | some r => exact Function.update_of_ne (fun heq => hr (congrArg some heq.symm)) _ _

theorem resetSaved_eq (saved : ProcId → List Flow) (r : Option ProcId) (q : ProcId) :
    resetSaved saved r q = saved q ∨ resetSaved saved r q = [.user] := by
  by_cases hr : r = some q
  · rw [hr]
    exact Or.inr (Function.update_self _ _ _)
  · exact Or.inl (resetSaved_of_ne saved hr)

/-- **What a call does**: a segment of the process on the hart, which runs its program, and its end. -/
theorem call_eq_ok (hi : InterleavedInv h) {env : Env} {s : Service}
    (hs : interleavedStep h (.call env s) = .ok h') :
    ∃ p n k₁, h.flow = .user ∧ Live h.kernel p ∧ doSyscall h.kernel env p s = .ok (n, k₁) ∧ h.saved p = [] ∧
      resetBy h.kernel s ≠ some p ∧ resetSaved (h.push p .user).saved (resetBy h.kernel s) p = [.user] ∧
      Interleaved.serviceEnd ⟨settle p (n, k₁), resetSaved (h.push p .user).saved (resetBy h.kernel s), h.flow⟩ p n =
        .ok h' := by
  rw [interleavedStep] at hs
  split at hs
  next p hflow hcur =>
    obtain ⟨⟨n, k₁⟩, hdo, hend⟩ := except_bind_eq_ok.mp hs
    obtain ⟨p', hl⟩ : ∃ p', Live h.kernel p' := by
      have hf : FlowOk h.kernel .user := hflow ▸ hi.flow
      cases hf with
      | user live => exact ⟨_, live⟩
    obtain rfl : p = p' := Option.some.inj (hcur.symm.trans hl.cur)
    have hempty : h.saved p = [] := (hflow ▸ hi.current p hcur : Stack p .user _).user_eq
    -- the call resets another process, if any
    have hreset : resetBy h.kernel s ≠ some p := fun hres => by
      have hruns := eligible_iff.mp hl.runs
      rw [dormant_of_resetBy hres] at hruns
      simp at hruns
    refine ⟨p, n, k₁, hflow, hl, hdo, hempty, hreset, (resetSaved_of_ne _ hreset).trans ?_, hend⟩
    simp [Interleaved.push, hempty]
  next => cases hs

/-- What the rest of a call does. -/
theorem resume_eq_ok (hi : InterleavedInv h) {env : Env} (hs : interleavedStep h (.resume env) = .ok h') :
    ∃ p c n k₁, h.flow = .back ∧ Live h.kernel p ∧ h.kernel.conts p = some c ∧
      resumeCont (h.kernel.setWoken p false) env p c = .ok (n, k₁) ∧ h.saved p = [.user] ∧
      Interleaved.serviceEnd ⟨settle p (n, k₁), h.saved, h.flow⟩ p n = .ok h' := by
  rw [interleavedStep] at hs
  split at hs
  next p hflow hcur =>
    cases hc : h.kernel.conts p with
    | none =>
        rw [hc] at hs
        cases hs
    | some c =>
        simp only [hc] at hs
        obtain ⟨⟨n, k₁⟩, hdo, hend⟩ := except_bind_eq_ok.mp hs
        obtain ⟨p', hl⟩ : ∃ p', Live h.kernel p' := by
          have hf : FlowOk h.kernel .back := hflow ▸ hi.flow
          cases hf with
          | back live => exact ⟨_, live⟩
        obtain rfl : p = p' := Option.some.inj (hcur.symm.trans hl.cur)
        have hself : h.saved p = [.user] := (hflow ▸ hi.current p hcur : Stack p .back _).back_eq
        exact ⟨p, c, n, k₁, hflow, hl, hc, hdo, hself, hend⟩
  next => cases hs

theorem call (hi : InterleavedInv h) {env : Env} {s : Service}
    (hs : interleavedStep h (.call env s) = .ok h') : InterleavedInv h' := by
  obtain ⟨p, n, k₁, -, hl, hdo, -, -, hself, hend⟩ := hi.call_eq_ok hs
  have hpath := path_doSyscall hi.registered hl hdo
  obtain ⟨hreg, hext⟩ := hi.registered.path hpath
  have hserves : Serves h.kernel (settle p (n, k₁)) := .of_path rfl hpath
  have hown : OwnProc (settle p (n, k₁)) p := by
    rw [OwnProc, (hext.procs p (hi.registered.cur p hl.cur)).2, hserves.curPart]
    exact hl.own
  refine hi.serviceEnd hl hreg hserves hown (fun code out hn => ?_) hself (fun q hq => ?_) hend
  · rw [eligible_settle]
    exact runs_of_closes hi.registered hl (closes_doSyscall hi.registered hdo) hn
  · rcases resetSaved_eq (h.push p .user).saved (resetBy h.kernel s) q with hold | hnew
    · exact Or.inl (hold.trans (Function.update_of_ne hq _ _))
    · exact Or.inr hnew

theorem registered_setWoken (hr : Registered k) : Registered (k.setWoken p false) :=
  hr.of_same (.setWoken p false) (fun _ _ _ _ hq => Or.inl hq) fun _ hq => Or.inl hq

theorem resume (hi : InterleavedInv h) {env : Env} (hs : interleavedStep h (.resume env) = .ok h') :
    InterleavedInv h' := by
  obtain ⟨p, c, n, k₁, -, hl, hc, hdo, hself, hend⟩ := hi.resume_eq_ok hs
  have hpath := path_resumeCont hi.registered hl hc hdo
  obtain ⟨hreg, hext⟩ := hi.registered.path hpath
  have hserves : Serves h.kernel (settle p (n, k₁)) := .of_path rfl hpath
  have hown : OwnProc (settle p (n, k₁)) p := by
    rw [OwnProc, (hext.procs p (hi.registered.cur p hl.cur)).2, hserves.curPart]
    exact hl.own
  refine hi.serviceEnd hl hreg hserves hown (fun code out hn => ?_) hself (fun q _ => Or.inl rfl) hend
  rw [eligible_settle]
  have hl₁ : Live (h.kernel.setWoken p false) p := ⟨hl.cur, hl.runs, hl.own⟩
  exact runs_of_closes (registered_setWoken hi.registered) hl₁ (closes_resumeCont hdo) hn

theorem scan (hi : InterleavedInv h) (hs : interleavedStep h .scan = .ok h') : InterleavedInv h' := by
  rw [interleavedStep] at hs
  split at hs
  next p rr sc hflow =>
    cases hs
    refine ⟨hi.registered, hi.running, (hflow ▸ hi.flow : FlowOk _ (.giveUp p rr sc)).next_giveUp, fun q hq => ?_,
      hi.others⟩
    obtain ⟨rfl, hl⟩ := (hflow ▸ hi.current q hq : Stack q (.giveUp p rr sc) _).giveUp_eq
    show Stack p (.giveUp p rr _) (h.saved p)
    rw [hl]
    exact .giveUp
  next rr sc hflow =>
    cases hs
    refine ⟨hi.registered, hi.running, (hflow ▸ hi.flow : FlowOk _ (.elect rr sc)).next hi.registered, fun q hq => ?_,
      hi.others⟩
    exact (hflow ▸ hi.current q hq : Stack q (.elect rr sc) _).elect_of
  next => cases hs

/-- An election ends, and resumes none. -/
theorem elected (hi : InterleavedInv h) (hok : ResumesNoElection h .elected)
    (hs : interleavedStep h .elected = .ok h') : InterleavedInv h' := by
  rw [interleavedStep] at hs
  split at hs
  next p rr q hflow =>
    have hf : FlowOk h.kernel (.giveUp p rr (.found q)) := hflow ▸ hi.flow
    cases hf with
    | giveUp cur own self =>
        have hself : h.saved p = [.user] := (hflow ▸ hi.current p cur : Stack p (.giveUp p rr _) _).giveUp_eq.2
        split at hs
        · rename_i hpq
          cases hs
          refine ⟨hi.registered, hi.running, .back ⟨cur, self (congrArg some hpq.symm), own⟩, fun r hr => ?_, hi.others⟩
          obtain rfl : p = r := Option.some.inj (cur.symm.trans hr)
          show Stack p .back (h.saved p)
          rw [hself]
          exact .back
        · cases hs
          have hidle := idle_schedProcSt hi.running
          have hcur : (schedProcSt h.kernel).curProc = some p := (curProc_schedProcSt h.kernel).trans cur
          refine ⟨registered_schedProcSt hi.registered, fun r hr => absurd hr (hidle r),
            .elect hidle (fun _ => ⟨p, hcur, ?_⟩) (fun r hr => ?_) fun r hr => ?_, fun r hr => ?_, fun r hr => ?_⟩
          · rw [OwnProc, (Same.schedProcSt h.kernel).prPartId, curPart_schedProcSt]
            exact own
          · cases hr
          · cases hr
          · obtain rfl : p = r := Option.some.inj (hcur.symm.trans hr)
            show Stack p _ (Function.update h.saved p _ p)
            rw [Function.update_self, hself]
            exact .elect .back
          · have hne : r ≠ p := by
              rintro rfl
              exact hr hcur
            show Stack r _ (Function.update h.saved p _ r)
            rw [Function.update_of_ne hne]
            exact hi.others r fun heq => hr ((curProc_schedProcSt h.kernel).trans heq)
  next rr q hflow =>
    have hf : FlowOk h.kernel (.elect rr (.found q)) := hflow ▸ hi.flow
    cases hf with
    | elect idle turn proc nextProc =>
        obtain ⟨hmem, -⟩ := nextProc q rfl
        -- everybody has something to go on with, as long as the election is on
        have hstacks : ∀ r, Stack r (.elect false .round) (h.saved r) := by
          intro r
          by_cases hr : h.kernel.curProc = some r
          · exact (hflow ▸ hi.current r hr : Stack r (.elect rr (.found q)) _).elect_of
          · exact hi.others r hr
        obtain ⟨f, l, hl, hstack⟩ := (hstacks q).elect_eq
        simp only [Interleaved.pop, hl, Except.ok.injEq] at hs
        subst hs
        have hstate : ∀ r, ((schedProcEd h.kernel q).procs r).prState =
            if r = q then .running else (h.kernel.procs r).prState := fun r => by
          rw [schedProcEd, Kernel.prState_setState]
        have hlive : Live (schedProcEd h.kernel q) q := by
          refine ⟨rfl, eligible_iff.mpr (Or.inr (by rw [hstate, if_pos rfl])), ?_⟩
          rw [OwnProc, (Same.schedProcEd q).prPartId]
          exact registered_own hi.registered hmem
        refine ⟨?_, fun r hr => ?_, ?_, fun r hr => ?_, fun r hr => ?_⟩
        · refine hi.registered.of_same (.schedProcEd q) (fun _ _ _ _ hc => Or.inl hc) fun r hr => Or.inr ?_
          rw [← Option.some.inj (show some q = some r from hr)]
          exact (hi.registered.procList _ q hmem).1
        · have hr : ((schedProcEd h.kernel q).procs r).prState = .running := hr
          rw [hstate] at hr
          split at hr
          · rename_i hrq
            rw [hrq]
            rfl
          · exact absurd hr (idle r)
        · show FlowOk (schedProcEd h.kernel q) f
          cases hstack with
          | user => exact .user hlive
          | giveUp => exact .giveUp hlive.cur hlive.own fun _ => hlive.runs
          | back => exact .back hlive
          | elect hbelow => exact absurd hl (hok q (by simp [Interleaved.dispatches, hflow]) _ _ _)
        · obtain rfl : q = r := Option.some.inj hr
          show Stack q f (Function.update h.saved q l q)
          rw [Function.update_self]
          exact hstack
        · have hne : r ≠ q := by
            rintro rfl
            exact hr rfl
          show Stack r _ (Function.update h.saved q l r)
          rw [Function.update_of_ne hne]
          exact hstacks r
  next => cases hs

theorem timer (hi : InterleavedInv h) {clk : Nat → Int} (hs : interleavedStep h (.timer clk) = .ok h') :
    InterleavedInv h' := by
  rw [interleavedStep] at hs
  split at hs
  next => cases hs
  next p hcur =>
    obtain ⟨⟨r, k₁⟩, hact, hs⟩ := except_bind_eq_ok.mp hs
    obtain ⟨k₂, hloop, hk₁⟩ := timeEventAction_eq_ok hact
    have hreg : Registered k₁ := (hi.registered.path (path_timeEventAction (fun _ _ _ => trivial) hact)).1
    have hexp : Expires h.kernel k₂ := by
      have := Expires.timeEventLoop clk h.kernel.teq 0 ⟨false, false⟩ h.kernel
      rwa [hloop] at this
    -- neither the expiries nor the change of partition take a process off the hart
    have hcur₁ : k₁.curProc = some p := by
      rcases hk₁ with ⟨-, hg⟩ | ⟨-, rfl⟩
      · exact (conts_of_schedGlobal hg).2.trans (hexp.curProc.trans hcur)
      · exact hexp.curProc.trans hcur
    have hrun₁ : ∀ q, (k₁.procs q).prState = .running → k₁.curProc = some q := by
      intro q hq
      have hq₂ : (k₂.procs q).prState = .running := by
        rcases hk₁ with ⟨-, hg⟩ | ⟨-, rfl⟩
        · rwa [procs_of_schedGlobal hg] at hq
        · exact hq
      rw [hcur₁, ← hcur]
      exact hi.running q (hexp.running hq₂)
    dsimp only at hs
    split at hs
    · cases hs
      -- a rescheduling: the interrupted frame stays on the stack, below the election
      have hidle := idle_schedProcSt hrun₁
      have hcur' : (schedProcSt k₁).curProc = some p := (curProc_schedProcSt k₁).trans hcur₁
      refine ⟨registered_schedProcSt hreg, fun q hq => absurd hq (hidle q), .elect hidle (fun hrr => ?_)
        (fun q hq => ?_) fun q hq => ?_, fun q hq => ?_, fun q hq => ?_⟩
      · cases hrr
      · cases hq
      · cases hq
      · obtain rfl : p = q := Option.some.inj (hcur'.symm.trans hq)
        show Stack p _ (Function.update h.saved p _ p)
        rw [Function.update_self]
        exact .elect (hi.current p hcur)
      · have hne : q ≠ p := by
          rintro rfl
          exact hq hcur'
        show Stack q _ (Function.update h.saved p _ q)
        rw [Function.update_of_ne hne]
        exact hi.others q fun heq => hne (Option.some.inj (heq.symm.trans hcur))
    · rename_i hresched
      cases hs
      -- no rescheduling: the interrupted frame goes on
      obtain ⟨hpart, -⟩ | ⟨-, rfl⟩ := hk₁
      · simp [hpart] at hresched
      · exact ⟨hreg, hrun₁, hi.flow.expires hexp, fun q hq => hi.current q (hexp.curProc ▸ hq),
          fun q hq => hi.others q (hexp.curProc ▸ hq)⟩

/-- **Every step keeps the invariant** that resumes no election. -/
theorem step (hi : InterleavedInv h) {e : FlowEvent} (hok : ResumesNoElection h e)
    (hs : interleavedStep h e = .ok h') : InterleavedInv h' := by
  cases e with
  | call env s => exact hi.call hs
  | resume env => exact hi.resume hs
  | scan => exact hi.scan hs
  | elected => exact hi.elected hok hs
  | timer clk => exact hi.timer hs

theorem atBoot (hb : AtBoot h) : InterleavedInv h := by
  refine ⟨hb.quiet.registered, fun p hp => absurd hp (hb.idle p), ?_, fun p hp => ?_, fun p _ => ?_⟩
  · rw [hb.flow]
    exact .elect hb.idle (fun hrr => by cases hrr) (fun p hp => by cases hp) fun p hp => by cases hp
  · rw [hb.curProc] at hp
    cases hp
  · rw [hb.saved]
    exact .of_user p

/-- What is dispatched may be dispatched. -/
theorem soundDispatch (hi : InterleavedInv h) (e : FlowEvent) : DispatchesSoundly h e := by
  intro q hq
  cases e with
  | elected =>
      rw [Interleaved.dispatches] at hq
      split at hq
      next rr q' hflow =>
        obtain rfl : q' = q := Option.some.inj hq
        have hf : FlowOk h.kernel (.elect rr (.found q')) := hflow ▸ hi.flow
        cases hf with
        | elect idle turn proc nextProc =>
            obtain ⟨hmem, hruns⟩ := nextProc q' rfl
            refine ⟨hmem, registered_own hi.registered hmem, eligible_iff.mp hruns, fun p => ?_⟩
            rw [schedProcEd, Kernel.prState_setState]
            split
            · simpa using ‹p = q'›
            · exact ⟨fun hp => absurd hp (idle p), fun hp => absurd hp ‹p ≠ q'›⟩
      next => cases hq
  | _ => cases hq

end InterleavedInv

/-- **Dispatches are sound** in every run up to the first that resumes an interrupted election of `sched_proc`. -/
theorem dispatches_sound {tr : List (Interleaved × FlowEvent)} (hb : AtBoot h)
    (hrun : Exec interleavedStep h tr h') (hok : AllSteps ResumesNoElection tr) :
    AllSteps DispatchesSoundly tr ∧ ∀ e, DispatchesSoundly h' e := by
  have hall := hrun.throughout_of_forall (InterleavedInv.atBoot hb) hok fun _ _ _ hi hc hs => hi.step hc hs
  exact ⟨fun x hx => (hall.1 x hx).soundDispatch x.2, hall.2.soundDispatch⟩

/-- Two processes of one priority at boot, with a partition switch at the time 10. -/
def twoAtBoot : Interleaved where
  kernel := { smallSystem 1 .fifo [1, 2] with
    curProc := none
    teq := [⟨0, 10, .partitionActivate⟩]
    nxtTe := 1 }
  saved _ := [.user]
  flow := .elect false .round

theorem atBoot_twoAtBoot : AtBoot twoAtBoot where
  quiet :=
    { quiet_smallSystem 1 .fifo [1, 2] with
      registered :=
        { (quiet_smallSystem 1 .fifo [1, 2]).registered with
          cur := fun p hp => by cases hp }
      lists := fun o => by cases o <;> rfl
      events := by simp [twoAtBoot, TimeEventType.proc]
      ids := by simp [twoAtBoot]
      fresh := by simp [twoAtBoot] }
  idle _ := by simp [twoAtBoot, smallSystem]
  curProc := rfl
  once pt := by
    show (if pt = 1 then [1, 2] else []).Nodup
    split <;> decide
  saved _ := rfl
  flow := rfl

/-- The first dispatch is one of the first process. -/
theorem dispatches_sound_first : ∃ h : Interleaved, h.flow = .elect false (.found 1) ∧ SoundDispatch h.kernel 1 := by
  obtain ⟨h, hrun, hflow⟩ := Exec.of_checkRun interleavedStep twoAtBoot [.scan, .scan, .scan, .scan]
    (fun h => h.flow = .elect false (.found 1)) (by decide +kernel)
  have hflow : h.flow = .elect false (.found 1) := by simpa using hflow
  have hok : AllSteps ResumesNoElection
      (traceEvents interleavedStep twoAtBoot [.scan, .scan, .scan, .scan]) := by
    intro x hx q hq
    have hscan : x.2 = .scan := by simpa using mem_of_traceEvents hx
    rw [hscan] at hq
    cases hq
  have hsound := (dispatches_sound atBoot_twoAtBoot hrun hok).2 .elected
  exact ⟨h, hflow, hsound 1 (by simp [Interleaved.dispatches, hflow])⟩

/-- The first process is dispatched and asks for a turn of the others. The partition switch strikes the election
and elects the first process again, which goes on with the election that was struck. -/
def switchInElection : List FlowEvent :=
  [.scan, .scan, .scan, .scan, .elected, .call ⟨fun _ => 0, fun _ => 0⟩ (.timedWait 0), .scan, .scan, .elected,
    .timer fun _ => 10, .scan, .scan, .scan, .scan, .elected, .scan, .scan]

/-- Not every dispatch is sound: the election goes on for the first process, which is running, and a second one
runs as well. -/
theorem dispatches_unsound : ¬ ∀ (h h' : Interleaved) (tr : List (Interleaved × FlowEvent)), AtBoot h →
    Exec interleavedStep h tr h' → AllSteps DispatchesSoundly tr := by
  intro hall
  obtain ⟨s, hrun, hcheck⟩ := Exec.of_checkRun interleavedStep twoAtBoot switchInElection
    (fun s => s.flow = .elect true (.found 2) && (s.kernel.procs 1).prState = .running &&
      (interleavedStep s .elected).toBool) (by decide +kernel)
  simp only [Bool.and_eq_true, decide_eq_true_eq] at hcheck
  obtain ⟨⟨hflow, hrunning⟩, hlast⟩ := hcheck
  obtain ⟨s', hs'⟩ : ∃ s', interleavedStep s .elected = .ok s' := by
    cases hres : interleavedStep s .elected with
    | error f =>
        rw [hres] at hlast
        cases hlast
    | ok s' => exact ⟨s', rfl⟩
  have hsound := hall _ _ _ atBoot_twoAtBoot (hrun.snoc hs') (s, .elected) (by simp) 2
    (by simp [Interleaved.dispatches, hflow])
  have hone := (hsound.only 1).mp (by
    rw [schedProcEd, Kernel.prState_setState, if_neg (by decide)]
    exact hrunning)
  cases hone

end Jrinx
