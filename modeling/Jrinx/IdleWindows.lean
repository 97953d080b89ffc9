import Jrinx.ContextUse

/-! # Partition windows in which nobody runs

While nobody of the current partition can run, `sched_elect_next_proc` goes round with interrupts enabled. Each
partition switch strikes it: the handler never returns, as `sched_global` ends in an election of its own, and the
context it took stays on the list of the process that ran last.

* **`Nobody`**, **`Waits`** — an idle hart.
* **`windows`** — the partition windows that begin in a run.
* **`idle_windows_iff`** — how many of them the contexts last for. -/

namespace Jrinx

variable {k k' : Kernel} {h h' : Interleaved} {t t' : Traps} {p q : ProcId} {sc : Scan} {roundRobin : Bool}

/-! ## An idle hart -/

/-- No process of the current partition is `READY` or `RUNNING`. -/
def Nobody (h : Interleaved) : Prop := ∀ p, OwnProc h.kernel p → eligible h.kernel p = false

/-- An election that has chosen nobody, and looks at processes of the current partition. -/
structure Undecided (k : Kernel) (roundRobin : Bool) (sc : Scan) : Prop where
  turn : roundRobin = true → ∃ p, k.curProc = some p ∧ OwnProc k p
  proc : ∀ p, sc.proc = some p → OwnProc k p
  nextProc : sc.nextProc = none

/-- The hart is in such an election. -/
inductive Searches (k : Kernel) : Flow → Prop
  | giveUp {p : ProcId} {roundRobin : Bool} {sc : Scan} (scan : Undecided k roundRobin sc) :
      Searches k (.giveUp p roundRobin sc)
  | elect {roundRobin : Bool} {sc : Scan} (scan : Undecided k roundRobin sc) : Searches k (.elect roundRobin sc)

/-- An idle hart waits for a process to become ready. -/
structure Waits (h : Interleaved) : Prop where
  registered : Registered h.kernel
  flow : Searches h.kernel h.flow

/-- A partition window begins: a `TE_PARTITION_ACTIVATE` expires. -/
def beginsWindow (h : Interleaved) : FlowEvent → Bool
  | .timer clk => (timeEventLoop clk h.kernel.teq 0 ⟨false, false⟩ h.kernel).1.part
  | _ => false

/-- The partition windows that begin in a run. -/
def windows (tr : List (Interleaved × FlowEvent)) : Nat := tr.countP fun x => beginsWindow x.1 x.2

theorem windows_snoc (tr : List (Interleaved × FlowEvent)) (x : Interleaved × FlowEvent) :
    windows (tr ++ [x]) = windows tr + if beginsWindow x.1 x.2 then 1 else 0 := by
  rw [windows, List.countP_append, List.countP_singleton]
  rfl

/-! ## The election goes on -/

theorem Undecided.next (hr : Registered k) (hn : ∀ p, OwnProc k p → eligible k p = false)
    (h : Undecided k roundRobin sc) : Undecided k roundRobin (sc.next k roundRobin) := by
  refine ⟨h.turn, fun q hq => ?_, ?_⟩
  · rcases Scan.proc_next hq with hmem | ⟨p, hp, hlink⟩
    · exact registered_own hr hmem
    · have hown : OwnProc k p := by
        rcases hp with hp | ⟨hrr, hcur⟩
        · exact h.proc p hp
        · obtain ⟨p', hcur', hown⟩ := h.turn hrr
          exact Option.some.inj (hcur.symm.trans hcur') ▸ hown
      exact registered_own hr (mem_of_schedLinkNext hown hlink)
  · rw [Option.eq_none_iff_forall_ne_some]
    intro q hq
    rcases Scan.nextProc_next hq with hold | ⟨hproc, hruns⟩
    · rw [h.nextProc] at hold
      cases hold
    · rw [hn q (h.proc q hproc)] at hruns
      cases hruns

/-- A new election has looked at nobody. -/
theorem Undecided.fresh (k : Kernel) : Undecided k false .round :=
  ⟨fun hrr => (by cases hrr), fun _ hp => (by cases hp), rfl⟩

theorem Undecided.expires (he : Expires k k') (h : Undecided k roundRobin sc) : Undecided k' roundRobin sc := by
  refine ⟨fun hrr => ?_, fun q hq => he.ownProc.mpr (h.proc q hq), h.nextProc⟩
  obtain ⟨p, hcur, hown⟩ := h.turn hrr
  exact ⟨p, he.curProc.trans hcur, he.ownProc.mpr hown⟩

theorem Searches.expires {f : Flow} (he : Expires k k') (h : Searches k f) : Searches k' f := by
  cases h with
  | giveUp scan => exact .giveUp (scan.expires he)
  | elect scan => exact .elect (scan.expires he)

/-- A process of the current partition has expired only if one of them is ready then. -/
theorem ready_of_timeEventLoop (clk : Nat → Int) (es : List TimeEvent) (i : Nat) (r : Resched) (k : Kernel)
    (h : (timeEventLoop clk es i r k).1.proc = true) : r.proc = true ∨
      ∃ p, OwnProc k p ∧ ((timeEventLoop clk es i r k).2.procs p).prState = .ready := by
  -- a process that expires is ready, and no later event of the list changes that
  induction es generalizing i r k with
  | nil => exact Or.inl h
  | cons te es ih =>
      rw [timeEventLoop] at h ⊢
      split at h
      · rename_i hdue
        rw [if_pos hdue]
        cases hp : te.teType.proc with
        | none =>
            rw [hp] at h
            exact ih _ _ _ h
        | some p =>
            rw [hp] at h
            dsimp only at h ⊢
            have hexp : Expires k { expireProc k te p with teq := es } := (Expires.expireProc te p).trans (.setTeq es)
            have hrest := Expires.timeEventLoop clk es (i + 1)
              (if (k.procs p).prPartId = k.curPart then { r with proc := true } else r)
              { expireProc k te p with teq := es }
            rcases ih _ _ _ h with hr | ⟨q, hown, hready⟩
            · split at hr
              · rename_i hown
                refine Or.inr ⟨p, hown, ?_⟩
                have hready : ((expireProc k te p).procs p).prState = .ready := by
                  rw [procs_expireProc, Function.update_self]
                rcases hrest.prState p with heq | hready'
                · rw [heq]
                  exact hready
                · exact hready'
              · exact Or.inl hr
            · exact Or.inr ⟨q, hexp.ownProc.mp hown, hready⟩
      · exact Or.inl h

/-! ## Steps of an idle hart -/

/-- A timer interrupt leaves the hart idle. It returns, unless a window begins. -/
theorem Waits.timer {clk : Nat → Int} (hw : Waits h) (hs : interleavedStep h (.timer clk) = .ok h')
    (hn' : Nobody h') : Waits h' ∧ h'.kernel.curProc = h.kernel.curProc ∧ h.kernel.curProc ≠ none ∧
      contextEvents h (.timer clk) = [.trap, if beginsWindow h (.timer clk) then .schedProc else .exit] := by
  rw [interleavedStep] at hs
  split at hs
  next => cases hs
  next p hcur =>
    obtain ⟨⟨r, k₁⟩, hact, hs⟩ := except_bind_eq_ok.mp hs
    obtain ⟨k₂, hloop, hk₁⟩ := timeEventAction_eq_ok hact
    have hexp : Expires h.kernel k₂ := by
      have hexp := Expires.timeEventLoop clk h.kernel.teq 0 ⟨false, false⟩ h.kernel
      rwa [hloop] at hexp
    have hreg : Registered k₁ :=
      (hw.registered.path (path_timeEventAction (fun _ _ _ => trivial) hact)).1
    have hcur₁ : k₁.curProc = h.kernel.curProc := by
      rcases hk₁ with ⟨-, hg⟩ | ⟨-, rfl⟩
      · exact (conts_of_schedGlobal hg).2.trans hexp.curProc
      · exact hexp.curProc
    have hbegins : beginsWindow h (.timer clk) = r.part := by
      rw [beginsWindow, hloop]
    have hevents : contextEvents h (.timer clk) = [.trap, if r.part || r.proc then .schedProc else .exit] := by
      rw [contextEvents, hact]
    dsimp only at hs
    split at hs
    · rename_i hresched
      cases hs
      -- a process of the partition that became ready would run
      have hpart : r.part = true := by
        by_contra hpart
        obtain ⟨hpart', -⟩ | ⟨-, rfl⟩ := hk₁
        · exact hpart hpart'
        have hproc : r.proc = true := by simpa [hpart] using hresched
        have hready := ready_of_timeEventLoop clk h.kernel.teq 0 ⟨false, false⟩ h.kernel (by rwa [hloop])
        rw [hloop] at hready
        rcases hready with hr | ⟨q, hown, hready⟩
        · cases hr
        · have hst := (Unmoved.refl k₁).schedProcSt
          have hown' : OwnProc (schedProcSt k₁) q := by
            rw [OwnProc, hst.prPartId, hst.curPart]
            exact hexp.ownProc.mpr hown
          have hruns := hn' q hown'
          rw [show eligible (schedProcSt k₁) q = eligible k₁ q from hst.runs q,
            eligible_iff.mpr (Or.inl hready)] at hruns
          cases hruns
      refine ⟨⟨registered_schedProcSt hreg, .elect (.fresh _)⟩, ?_, ?_, ?_⟩
      · exact (curProc_schedProcSt k₁).trans hcur₁
      · rw [hcur]
        exact Option.some_ne_none p
      · rw [hevents, hbegins, hpart]
        rfl
    · rename_i hresched
      cases hs
      obtain ⟨hpart, hproc⟩ : r.part = false ∧ r.proc = false := by simpa using hresched
      obtain ⟨hpart', -⟩ | ⟨-, rfl⟩ := hk₁
      · rw [hpart] at hpart'
        cases hpart'
      refine ⟨⟨hreg, hw.flow.expires hexp⟩, hcur₁, ?_, ?_⟩
      · rw [hcur]
        exact Option.some_ne_none p
      · rw [hevents, hbegins, hpart, hproc]
        rfl

/-- **One step of an idle hart**: a step of the election, which moves no context, or a timer interrupt. -/
theorem Waits.step {e : FlowEvent} (hw : Waits h) (hn : Nobody h) (hs : interleavedStep h e = .ok h')
    (hn' : Nobody h') : Waits h' ∧ h'.kernel.curProc = h.kernel.curProc ∧
      (e = .scan ∨ ∃ clk, e = .timer clk ∧ h.kernel.curProc ≠ none ∧
        contextEvents h e = [.trap, if beginsWindow h e then .schedProc else .exit]) := by
  have hflow : (∃ p rr sc, h.flow = .giveUp p rr sc ∧ Undecided h.kernel rr sc) ∨
      ∃ rr sc, h.flow = .elect rr sc ∧ Undecided h.kernel rr sc := by
    have hsearch := hw.flow
    revert hsearch
    generalize h.flow = f
    rintro (scan | scan)
    · exact Or.inl ⟨_, _, _, rfl, scan⟩
    · exact Or.inr ⟨_, _, rfl, scan⟩
  cases e with
  | call env s =>
      rcases hflow with ⟨p, rr, sc, hflow, -⟩ | ⟨rr, sc, hflow, -⟩ <;> simp [interleavedStep, hflow] at hs
  | resume env =>
      rcases hflow with ⟨p, rr, sc, hflow, -⟩ | ⟨rr, sc, hflow, -⟩ <;> simp [interleavedStep, hflow] at hs
  | scan =>
      rcases hflow with ⟨p, rr, sc, hflow, hund⟩ | ⟨rr, sc, hflow, hund⟩
      · simp only [interleavedStep, hflow, Except.ok.injEq] at hs
        subst hs
        exact ⟨⟨hw.registered, .giveUp (hund.next hw.registered hn)⟩, rfl, Or.inl rfl⟩
      · simp only [interleavedStep, hflow, Except.ok.injEq] at hs
        subst hs
        exact ⟨⟨hw.registered, .elect (hund.next hw.registered hn)⟩, rfl, Or.inl rfl⟩
  | elected =>
      -- nobody has been chosen
      rcases hflow with ⟨p, rr, sc, hflow, hund⟩ | ⟨rr, sc, hflow, hund⟩
      · cases sc with
        | found q => cases hund.nextProc
        | _ => simp [interleavedStep, hflow] at hs
      · cases sc with
        | found q => cases hund.nextProc
        | _ => simp [interleavedStep, hflow] at hs
  | timer clk =>
      obtain ⟨hw', hcur', hcur, hevents⟩ := hw.timer hs hn'
      exact ⟨hw', hcur', Or.inr ⟨clk, rfl, hcur, hevents⟩⟩

/-! ## Idle runs -/

/-- `n` contexts last for a run: whenever a timer interrupt is taken, fewer windows have begun. -/
def Lasts (n : Nat) (tr : List (Interleaved × FlowEvent)) : Prop :=
  ∀ pre a clk post, tr = pre ++ (a, .timer clk) :: post → windows pre < n

theorem lasts_nil (n : Nat) : Lasts n [] := by
  intro pre a clk post heq
  simp at heq

theorem lasts_snoc {n : Nat} {tr : List (Interleaved × FlowEvent)} {x : Interleaved × FlowEvent} :
    Lasts n (tr ++ [x]) ↔ Lasts n tr ∧ ∀ clk, x.2 = .timer clk → windows tr < n := by
  constructor
  · intro h
    refine ⟨fun pre a clk post heq => h pre a clk (post ++ [x]) (by rw [heq]; simp), fun clk hx => ?_⟩
    exact h tr x.1 clk [] (by rw [← hx])
  · rintro ⟨hpre, hlast⟩ pre a clk post heq
    rcases List.eq_nil_or_concat post with rfl | ⟨post', y, rfl⟩
    · obtain ⟨rfl, hx⟩ := List.append_inj' heq rfl
      exact hlast clk (by rw [List.singleton_inj.mp hx])
    · rw [List.concat_eq_append, ← List.cons_append, ← List.append_assoc] at heq
      exact hpre pre a clk post' (List.append_inj_left' heq rfl)

/-- **The contexts of an idle run.** As long as they last each window takes one for good, and then the next
interrupt finds none. -/
theorem contextsRun_of_idle {tr : List (Interleaved × FlowEvent)} (hcur : t.curProc = h.kernel.curProc)
    (hw : Waits h) (hrun : Exec interleavedStep h tr h') (hn : Throughout Nobody tr h') :
    Waits h' ∧ h'.kernel.curProc = h.kernel.curProc ∧
      ((Lasts t.ctxFreeList.length tr ∧ ∃ t', contextsRun t tr = .ok t' ∧ t'.curProc = t.curProc ∧
          t'.ctxFreeList.length + windows tr = t.ctxFreeList.length) ∨
        (¬ Lasts t.ctxFreeList.length tr ∧ contextsRun t tr = .error .panic)) := by
  induction hrun with
  | nil => exact ⟨hw, rfl, Or.inl ⟨lasts_nil _, t, rfl, rfl, rfl⟩⟩
  | @snoc tr u v e _ hs ih =>
      obtain ⟨hpre, hnv⟩ := (throughout_snoc Nobody _ _ _ _).mp hn
      obtain ⟨hwu, hcuru, hctx⟩ := ih hpre
      obtain ⟨hwv, hcurv, hevent⟩ := hwu.step hpre.2 hs hnv
      refine ⟨hwv, hcurv.trans hcuru, ?_⟩
      rw [contextsRun_snoc, windows_snoc, lasts_snoc]
      rcases hctx with ⟨hlasts, t', hok, hcur', hcount⟩ | ⟨hnot, hpanic⟩
      · rw [hok]
        rcases hevent with rfl | ⟨clk, rfl, hsome, hevents⟩
        · exact Or.inl ⟨⟨hlasts, fun clk hx => by cases hx⟩, t', rfl, hcur', hcount⟩
        · obtain ⟨p, hp⟩ : ∃ p, t'.curProc = some p := by
            rw [hcur', hcur, ← hcuru]
            exact Option.ne_none_iff_exists'.mp hsome
          show _ ∨ _ ∧ trapSteps t' (contextEvents u (.timer clk)) = _
          simp only [bind, Except.bind, hevents]
          -- an interrupt takes a context at its entry, whether the window lasts or not
          cases hfree : t'.ctxFreeList with
          | nil =>
              refine Or.inr ⟨fun h => ?_, trapSteps_of_nil hp hfree⟩
              have hlt := h.2 clk rfl
              rw [hfree, List.length_nil] at hcount
              omega
          | cons c l =>
              have hlt : windows tr < t.ctxFreeList.length := by
                rw [hfree, List.length_cons] at hcount
                omega
              refine Or.inl ⟨⟨hlasts, fun _ _ => hlt⟩, ?_⟩
              rw [hfree, List.length_cons] at hcount
              cases hbegins : beginsWindow u (.timer clk) with
              | true =>
                  -- the hart waits in the handler, and the context stays in use
                  refine ⟨_, trapSteps_leave hp hfree, hcur', ?_⟩
                  show l.length + (windows tr + 1) = _
                  omega
              | false =>
                  -- the handler returns, and gives its context back
                  refine ⟨_, trapSteps_return hp hfree, hcur', ?_⟩
                  rw [ctxFreeList_return, List.length_cons]
                  exact hcount
      · rw [hpanic]
        exact Or.inr ⟨fun h => hnot h.1, rfl⟩

/-! ## The idle states of a run -/

/-- `sched_proc_give_up` of a process that cannot run is in its first election. -/
def FirstElection (h : Interleaved) : Prop :=
  ∀ p roundRobin sc, h.flow = .giveUp p roundRobin sc → eligible h.kernel p = true ∨
    ((∀ q, sc.proc = some q → q ∈ procList h.kernel) ∧
      ∀ q, sc.nextProc = some q → q ∈ procList h.kernel ∧ eligible h.kernel q = true)

theorem FirstElection.of_round {rr : Bool} (hflow : h.flow = .giveUp p rr .round) : FirstElection h := by
  intro p' rr' sc hflow'
  obtain ⟨rfl, rfl, rfl⟩ := Flow.giveUp.inj (hflow.symm.trans hflow')
  exact Or.inr ⟨fun q hq => (by cases hq), fun q hq => (by cases hq)⟩

theorem FirstElection.of_ne (hflow : ∀ p rr sc, h.flow ≠ .giveUp p rr sc) : FirstElection h :=
  fun p rr sc hgive => absurd hgive (hflow p rr sc)

/-- The end of a segment begins such an election, or there is none. -/
theorem FirstElection.serviceEnd {n : Next} {saved : ProcId → List Flow} {f : Flow} (hself : saved p = [.user])
    (hend : Interleaved.serviceEnd ⟨k, saved, f⟩ p n = .ok h') : FirstElection h' := by
  cases n with
  | ret code out =>
      simp only [Interleaved.serviceEnd, Interleaved.pop, hself, Except.ok.injEq] at hend
      subst hend
      exact .of_ne fun p rr sc hflow => by cases hflow
  | giveUp rr c =>
      cases hend
      exact .of_round rfl

theorem FirstElection.step {e : FlowEvent} (hi : InterleavedInv h) (hf : FirstElection h)
    (hok : ResumesNoElection h e) (hs : interleavedStep h e = .ok h') : FirstElection h' := by
  cases e with
  | call env s =>
      obtain ⟨p, n, k₁, -, -, -, -, -, hself, hend⟩ := hi.call_eq_ok hs
      exact .serviceEnd hself hend
  | resume env =>
      obtain ⟨p, c, n, k₁, -, -, -, -, hself, hend⟩ := hi.resume_eq_ok hs
      exact .serviceEnd hself hend
  | scan =>
      rw [interleavedStep] at hs
      split at hs
      next p rr sc hflow =>
        cases hs
        intro p' rr' sc' hflow'
        cases hflow'
        have hgive : FlowOk h.kernel (.giveUp p rr sc) := hflow ▸ hi.flow
        obtain ⟨hcur, hown⟩ : h.kernel.curProc = some p ∧ OwnProc h.kernel p := by
          cases hgive with
          | giveUp cur own self => exact ⟨cur, own⟩
        refine (hf p rr sc hflow).imp_right fun hhonest => ?_
        obtain ⟨hproc, hnext⟩ := hhonest
        refine ⟨fun q hq => ?_, fun q hq => ?_⟩
        · rcases Scan.proc_next hq with hmem | ⟨r, hr, hlink⟩
          · exact hmem
          · refine mem_of_schedLinkNext ?_ hlink
            rcases hr with hr | ⟨-, hr⟩
            · exact registered_own hi.registered (hproc r hr)
            · exact Option.some.inj (hcur.symm.trans hr) ▸ hown
        · rcases Scan.nextProc_next hq with hold | ⟨hmem, hruns⟩
          · exact hnext q hold
          · exact ⟨hproc q hmem, hruns⟩
      next rr sc hflow =>
        cases hs
        exact .of_ne fun p rr sc hflow => by cases hflow
      next => cases hs
  | elected =>
      rw [interleavedStep] at hs
      split at hs
      next p rr q hflow =>
        split at hs
        · cases hs
          exact .of_ne fun p rr sc hflow => by cases hflow
        · cases hs
          exact .of_ne fun p rr sc hflow => by cases hflow
      next rr q hflow =>
        -- the process that is dispatched can run
        rw [Interleaved.pop] at hs
        split at hs
        · cases hs
        rename_i f l hl
        cases hs
        have hstack : Stack q (.elect rr (.found q)) (f :: l) := by
          rw [← hl]
          by_cases hq : h.kernel.curProc = some q
          · exact hflow ▸ hi.current q hq
          · exact (hi.others q hq).elect_of
        intro p' rr' sc' hflow'
        obtain rfl : f = .giveUp p' rr' sc' := hflow'
        cases hstack with
        | elect hbelow =>
            obtain ⟨rfl, -⟩ := hbelow.giveUp_eq
            left
            show eligible (schedProcEd h.kernel p') p' = true
            rw [schedProcEd, eligible_setState, if_pos rfl]
            rfl
      next => cases hs
  | timer clk =>
      rw [interleavedStep] at hs
      split at hs
      next => cases hs
      next p hcur =>
        obtain ⟨⟨r, k₁⟩, hact, hs⟩ := except_bind_eq_ok.mp hs
        obtain ⟨k₂, hloop, hk₁⟩ := timeEventAction_eq_ok hact
        have hexp : Expires h.kernel k₂ := by
          have hexp := Expires.timeEventLoop clk h.kernel.teq 0 ⟨false, false⟩ h.kernel
          rwa [hloop] at hexp
        dsimp only at hs
        split at hs
        · cases hs
          exact .of_ne fun p rr sc hflow => by cases hflow
        · rename_i hresched
          cases hs
          obtain ⟨hpart, -⟩ | ⟨-, rfl⟩ := hk₁
          · simp [hpart] at hresched
          have hlist : procList k₁ = procList h.kernel := hexp.same.procList_eq hexp.curPart
          intro p' rr' sc' hflow'
          rcases hf p' rr' sc' hflow' with hruns | ⟨hproc, hnext⟩
          · exact Or.inl (hexp.eligible hruns)
          · refine Or.inr ⟨fun q hq => ?_, fun q hq => ?_⟩
            · show q ∈ procList k₁
              rw [hlist]
              exact hproc q hq
            · obtain ⟨hmem, hruns⟩ := hnext q hq
              refine ⟨?_, hexp.eligible hruns⟩
              show q ∈ procList k₁
              rw [hlist]
              exact hmem

/-- **An idle hart waits.** In every run from boot that resumes no interrupted election, a state in which nobody of the
current partition can run is one in which an election has chosen nobody. -/
theorem waits_of_nobody {tr : List (Interleaved × FlowEvent)} (hb : AtBoot h) (hrun : Exec interleavedStep h tr h')
    (hok : AllSteps ResumesNoElection tr) (hn : Nobody h') : Waits h' := by
  have hfirst : FirstElection h := .of_ne fun p rr sc hflow => by
    rw [hb.flow] at hflow
    cases hflow
  have hall : Throughout (fun m => InterleavedInv m ∧ FirstElection m) tr h' :=
    hrun.throughout_of_forall ⟨.atBoot hb, hfirst⟩ hok fun _ _ _ hm hd hs => ⟨hm.1.step hd hs, hm.2.step hm.1 hd hs⟩
  obtain ⟨hi, hf⟩ := hall.2
  have hidle : ∀ {p}, OwnProc h'.kernel p → eligible h'.kernel p ≠ true := fun hown => by
    rw [hn _ hown]
    decide
  refine ⟨hi.registered, ?_⟩
  have hflow := hi.flow
  -- where a process runs it can run, so that the hart is in an election
  cases hfl : h'.flow with
  | user =>
      rw [hfl] at hflow
      cases hflow with
      | user live => exact absurd live.runs (hidle live.own)
  | back =>
      rw [hfl] at hflow
      cases hflow with
      | back live => exact absurd live.runs (hidle live.own)
  | giveUp p rr sc =>
      rw [hfl] at hflow
      cases hflow with
      | giveUp cur own self =>
          rcases hf p rr sc hfl with hruns | ⟨hproc, hnext⟩
          · exact absurd hruns (hidle own)
          refine .giveUp ⟨fun _ => ⟨p, cur, own⟩, fun q hq => registered_own hi.registered (hproc q hq), ?_⟩
          -- the election chooses only processes that can run
          refine Option.eq_none_iff_forall_ne_some.mpr fun q hq => ?_
          exact hidle (registered_own hi.registered (hnext q hq).1) (hnext q hq).2
  | elect rr sc =>
      rw [hfl] at hflow
      cases hflow with
      | elect idle turn proc nextProc =>
          refine .elect ⟨turn, fun q hq => registered_own hi.registered (proc q hq), ?_⟩
          refine Option.eq_none_iff_forall_ne_some.mpr fun q hq => ?_
          exact hidle (registered_own hi.registered (nextProc q hq).1) (nextProc q hq).2

/-! ## Windows without end -/

/-- A hart that goes from window to window. -/
structure Idling (h : Interleaved) : Prop where
  waits : Waits h
  nobody : ∀ p, eligible h.kernel p = false
  cur : ∃ p, h.kernel.curProc = some p
  modules : ∃ m ms, h.kernel.schedModules = m :: ms
  window : ∃ te, h.kernel.teq = [te] ∧ te.teType = .partitionActivate

theorem Idling.next (hi : Idling h) : ∃ clk h', interleavedStep h (.timer clk) = .ok h' ∧
    beginsWindow h (.timer clk) = true ∧ Idling h' := by
  obtain ⟨p, hcur⟩ := hi.cur
  obtain ⟨m, ms, hmodules⟩ := hi.modules
  obtain ⟨te, hteq, htype⟩ := hi.window
  have hloop : timeEventLoop (fun _ => te.teTime) h.kernel.teq 0 ⟨false, false⟩ h.kernel =
      (⟨true, false⟩, { h.kernel with teq := [] }) := by
    rw [hteq, timeEventLoop, if_pos le_rfl, htype]
    rfl
  have hbegins : beginsWindow h (.timer fun _ => te.teTime) = true := by rw [beginsWindow, hloop]
  -- the timer of the next window is the only one
  obtain ⟨k₁, hg, hmodules₁, te₁, hteq₁, htype₁⟩ : ∃ k₁, schedGlobal { h.kernel with teq := [] } = .ok k₁ ∧
      (∃ m ms, k₁.schedModules = m :: ms) ∧ ∃ te, k₁.teq = [te] ∧ te.teType = .partitionActivate := by
    simp only [schedGlobal, hmodules]
    refine ⟨_, rfl, ?_, _, rfl, rfl⟩
    rw [← List.ne_nil_iff_exists_cons, ← List.length_pos_iff, List.length_set]
    exact Nat.succ_pos _
  have hact : timeEventAction h.kernel (fun _ => te.teTime) = .ok (⟨true, false⟩, k₁) := by
    simp only [timeEventAction, hloop, hg, if_true]
    rfl
  have hprocs : k₁.procs = h.kernel.procs := (procs_of_schedGlobal hg).trans rfl
  have hcur₁ : k₁.curProc = some p := ((conts_of_schedGlobal hg).2.trans rfl).trans hcur
  have hidle : ∀ q, eligible k₁ q = false := fun q => by
    rw [eligible, hprocs]
    exact hi.nobody q
  have hst : schedProcSt k₁ = k₁ := by
    have hstopped : (k₁.procs p).prState ≠ .running := fun hruns => by
      have hp := hidle p
      rw [eligible_iff.mpr (Or.inr hruns)] at hp
      cases hp
    simp only [schedProcSt, hcur₁, if_neg hstopped]
  let h' : Interleaved := { h.push p h.flow with kernel := k₁, flow := .elect false .round }
  have hstep : interleavedStep h (.timer fun _ => te.teTime) = .ok h' := by
    simp only [interleavedStep, hcur, hact]
    show Except.ok { h.push p h.flow with kernel := schedProcSt k₁, flow := .elect false .round } = _
    rw [hst]
  have hn' : Nobody h' := fun q _ => hidle q
  exact ⟨_, h', hstep, hbegins, (hi.waits.timer hstep hn').1, hidle, ⟨p, hcur₁⟩, hmodules₁, te₁, hteq₁, htype₁⟩

/-- There is no end to the windows. -/
theorem Idling.run (hi : Idling h) (n : Nat) : ∃ tr h', Exec interleavedStep h tr h' ∧
    Throughout (fun m => ∀ p, eligible m.kernel p = false) tr h' ∧ windows tr = n ∧ Idling h' := by
  induction n with
  | zero => exact ⟨[], h, .nil, (throughout_nil _ _).mpr hi.nobody, rfl, hi⟩
  | succ n ih =>
      obtain ⟨tr, h₁, hrun, hidle, hwindows, hi₁⟩ := ih
      obtain ⟨clk, h', hstep, hbegins, hi'⟩ := hi₁.next
      refine ⟨tr ++ [(h₁, .timer clk)], h', hrun.snoc hstep, ?_, ?_, hi'⟩
      · exact (throughout_snoc _ _ _ _ _).mpr ⟨hidle, hi'.nobody⟩
      · rw [windows_snoc, hwindows, hbegins]
        rfl

/-- One process at boot, in a partition with one window in each major frame. -/
def oneAtBoot : Interleaved where
  kernel := { smallSystem 1 .fifo [1] with
    procs := fun p =>
      { Proc.blank with
        prPartId := 1
        prState := if p = 1 then .ready else .dormant
        prPeriod := systemTimeInfiniteVal }
    curProc := none
    teq := [⟨0, 10, .partitionActivate⟩]
    nxtTe := 1
    schedModules := [⟨1, 0, 100, 10⟩] }
  saved _ := [.user]
  flow := .elect false .round

theorem atBoot_oneAtBoot : AtBoot oneAtBoot where
  quiet :=
    { quiet_smallSystem 1 .fifo [1] with
      registered :=
        { (quiet_smallSystem 1 .fifo [1]).registered with
          cur := fun p hp => by cases hp }
      lists := fun o => by cases o <;> rfl
      state := fun p => by
        show (if p = 1 then ProcState.ready else .dormant) ≠ .waiting
        split <;> decide
      timer := fun _ => rfl
      events := by simp [oneAtBoot, TimeEventType.proc]
      ids := by simp [oneAtBoot]
      fresh := by simp [oneAtBoot] }
  idle p := by
    show (if p = 1 then ProcState.ready else .dormant) ≠ .running
    split <;> decide
  curProc := rfl
  once pt := by
    show (if pt = 1 then [1] else []).Nodup
    split <;> decide
  saved _ := rfl
  flow := rfl

/-- The process is dispatched and stops. -/
def stopAtOnce : List FlowEvent :=
  [.scan, .scan, .scan, .elected, .call ⟨fun _ => 0, fun _ => 0⟩ .stopSelf]

/-- The kernel then. -/
def stoppedKernel : Kernel :=
  ((schedProcEd oneAtBoot.kernel 1).setState 1 .dormant).setCont 1 (some (.done .noError .none))

theorem registered_stoppedKernel : Registered stoppedKernel := by
  have hsame : Same oneAtBoot.kernel stoppedKernel :=
    ((Same.schedProcEd 1).trans .updProc).trans (.setCont 1 _)
  refine atBoot_oneAtBoot.quiet.registered.of_same hsame (fun p c w a hc => ?_) fun p hp => Or.inr ?_
  · have hconts : stoppedKernel.conts p = if p = 1 then some (.done .noError .none) else none := by
      by_cases hp : p = 1
      · rw [hp]
        rfl
      · simp only [stoppedKernel, Kernel.setCont, Function.update_of_ne hp, if_neg hp]
        rfl
    rw [hconts] at hc
    split at hc <;> cases hc
  · obtain rfl : 1 = p := Option.some.inj hp
    exact List.mem_singleton_self 1

/-- After its call the partition has nobody to run, window after window. -/
theorem idling_stopAtOnce : ∃ h,
    Exec interleavedStep oneAtBoot (traceEvents interleavedStep oneAtBoot stopAtOnce) h ∧ h.kernel.curProc = some 1 ∧ Idling h := by
  refine ⟨⟨stoppedKernel, _, .giveUp 1 false .round⟩, .of_runEvents rfl, rfl, ?_⟩
  refine ⟨⟨registered_stoppedKernel, .giveUp (.fresh _)⟩, fun p => ?_, ⟨1, rfl⟩, ⟨_, _, rfl⟩, _, rfl, rfl⟩
  by_cases hp : p = 1
  · rw [hp]
    rfl
  · have hprocs : stoppedKernel.procs p = oneAtBoot.kernel.procs p := by
      simp [stoppedKernel, schedProcEd, Kernel.setState, Kernel.setCont, Kernel.updProc, hp]
    show eligible stoppedKernel p = false
    rw [eligible, hprocs]
    simp [oneAtBoot, hp]

/-- The contexts up to there. -/
theorem contexts_stopAtOnce : ∃ t₀ t, bootContexts 2 oneAtBoot.kernel = .ok t₀ ∧
    contextsRun t₀ (traceEvents interleavedStep oneAtBoot stopAtOnce) = .ok t ∧ t.curProc = some 1 := by
  have hcontexts : (match bootContexts 2 oneAtBoot.kernel with
      | .error _ => false
      | .ok t₀ =>
          match contextsRun t₀ (traceEvents interleavedStep oneAtBoot stopAtOnce) with
          | .error _ => false
          | .ok t => t.curProc = some 1) = true := by decide +kernel
  split at hcontexts
  next => cases hcontexts
  next t₀ hboot =>
  split at hcontexts
  next => cases hcontexts
  next t hrun => exact ⟨t₀, t, hboot, hrun, by simpa using hcontexts⟩

theorem nobody_of_idle {tr : List (Interleaved × FlowEvent)}
    (hidle : Throughout (fun m => ∀ p, eligible m.kernel p = false) tr h') : Throughout Nobody tr h' :=
  ⟨fun x hx p _ => hidle.1 x hx p, fun p _ => hidle.2 p⟩

/-! ## How long the contexts last -/

/-- **The contexts last for as many idle windows as there are free ones.** In a run in which nobody of the current
partition can run, the contexts are enough exactly if each timer interrupt is taken before that many windows have
begun; each window takes one of them for good. -/
theorem idle_windows_iff {tr : List (Interleaved × FlowEvent)} (hcur : t.curProc = h.kernel.curProc)
    (hw : Waits h) (hrun : Exec interleavedStep h tr h') (hn : Throughout Nobody tr h') :
    (contextsRun t tr ≠ .error .panic ↔ Lasts t.ctxFreeList.length tr) ∧
      ∀ t', contextsRun t tr = .ok t' → t'.ctxFreeList.length + windows tr = t.ctxFreeList.length := by
  obtain ⟨-, -, ⟨hlasts, t₁, hok, -, hcount⟩ | ⟨hnot, hpanic⟩⟩ := contextsRun_of_idle hcur hw hrun hn
  · refine ⟨⟨fun _ => hlasts, fun _ h => ?_⟩, fun t' ht' => ?_⟩
    · rw [hok] at h
      cases h
    · rw [hok] at ht'
      obtain rfl : t₁ = t' := Except.ok.inj ht'
      exact hcount
  · refine ⟨⟨fun h => absurd hpanic h, fun h => absurd h hnot⟩, fun t' ht' => ?_⟩
    rw [hpanic] at ht'
    cases ht'

/-- Three windows of the partition whose process has stopped. -/
theorem idle_windows_iff_three : ∃ (h h' : Interleaved) (t : Traps) (tr : List (Interleaved × FlowEvent)),
    Exec interleavedStep h tr h' ∧ windows tr = 3 ∧
      (contextsRun t tr ≠ .error .panic ↔ Lasts t.ctxFreeList.length tr) := by
  obtain ⟨-, t, -, -, hcur⟩ := contexts_stopAtOnce
  obtain ⟨h, -, hcurProc, hi⟩ := idling_stopAtOnce
  obtain ⟨tr, h', hexec, hidle, hwindows, -⟩ := hi.run 3
  exact ⟨h, h', t, tr, hexec, hwindows,
    (idle_windows_iff (hcur.trans hcurProc.symm) hi.waits hexec (nobody_of_idle hidle)).1⟩

/-- The contexts do not last for ever: the partition is idle for one window more than there are contexts, and the trap
at the beginning of the last one finds none. -/
theorem idle_windows_exhausted : ¬ ∀ (h₀ h h' : Interleaved) (t₀ t : Traps) (tr₀ tr : List (Interleaved × FlowEvent)),
    AtBoot h₀ → bootContexts 2 h₀.kernel = .ok t₀ → Exec interleavedStep h₀ tr₀ h → contextsRun t₀ tr₀ = .ok t →
    Exec interleavedStep h tr h' → Throughout (fun m => ∀ p, eligible m.kernel p = false) tr h' →
    contextsRun t tr ≠ .error .panic := by
  intro hall
  obtain ⟨t₀, t, hboot, hrun₀, hcur⟩ := contexts_stopAtOnce
  obtain ⟨h, hexec₀, hcurProc, hi⟩ := idling_stopAtOnce
  obtain ⟨tr, h', hexec, hidle, hwindows, -⟩ := hi.run (t.ctxFreeList.length + 1)
  obtain ⟨-, -, ⟨-, t', -, -, hcount⟩ | ⟨-, hpanic⟩⟩ :=
    contextsRun_of_idle (hcur.trans hcurProc.symm) hi.waits hexec (nobody_of_idle hidle)
  · omega
  · exact hall _ _ _ _ _ _ _ atBoot_oneAtBoot hboot hexec₀ hrun₀ hexec hidle hpanic

end Jrinx
