import Jrinx.Timeouts

/-! # Blackboards

A blackboard shows one message. `DISPLAY` replaces it and releases everybody who waits, `CLEAR` takes it
away, and a reader that was released looks again when it runs, which may be much later.

* **`displayed`** — the message of the latest `DISPLAY`, unless a `CLEAR` followed it.
* **`BoardOk`** — the invariant of one blackboard: what it shows is that message, it is no longer than the
  blackboard admits, and nobody waits while there is one.
* **`blackboard_semantics`** — the law of `READ` and the state of every blackboard, over all runs. -/

namespace Jrinx

variable {k k' : Kernel} {b : BbId} {m : Option (List UInt8)}

/-! ## The latest message -/

/-- The event is a segment that ends with `NO_ERROR`. -/
def tookEffect (x : Kernel × Event) : Bool :=
  match segment x.1 x.2 with
  | some (_, .ok (n, _)) => n.noErrorOut.isSome
  | _ => false

/-- The monitor of a blackboard. -/
def post (b : BbId) (m : Option (List UInt8)) (x : Kernel × Event) : Option (List UInt8) :=
  match x.2 with
  | .call env (.displayBlackboard b' msgAddr length) =>
      if b' = b ∧ tookEffect x = true then some (loadBytes env.mem msgAddr length) else m
  | .call _ (.clearBlackboard b') => if b' = b ∧ tookEffect x = true then none else m
  | _ => m

/-- The message of the latest `DISPLAY` on the blackboard that took effect, if no `CLEAR` followed it. -/
def displayed (b : BbId) (tr : List (Kernel × Event)) : Option (List UInt8) := tr.foldl (post b) none

theorem displayed_snoc (b : BbId) (tr : List (Kernel × Event)) (x : Kernel × Event) :
    displayed b (tr ++ [x]) = post b (displayed b tr) x := by
  simp [displayed, List.foldl_append]

/-- Only an event on the blackboard changes the latest message. -/
theorem post_of_ne {x : Kernel × Event} (h : x.2.board ≠ some b) : post b m x = m := by
  obtain ⟨k, e⟩ := x
  unfold post
  split
  · rename_i he
    refine if_neg fun hb => h ?_
    rw [he, ← hb.1]
    rfl
  · rename_i he
    refine if_neg fun hb => h ?_
    rw [he, ← hb.1]
    rfl
  · rfl

/-! ## The invariant of one blackboard -/

/-- **The invariant**, where `m` is the latest message. -/
structure BoardOk (m : Option (List UInt8)) (k : Kernel) (b : BbId) : Prop where
  fits : (k.bbs b).bbLen ≤ (k.bbs b).bbMaxMsgSize
  idle : (k.bbs b).bbEmptyInd = .occupied → k.waitingProcs (.blackboard b) = []
  shows : (k.bbs b).bbEmptyInd = .occupied → ∃ msg, m = some msg ∧ (k.bbs b).bbLen = msg.length ∧
    loadBytes (k.bbs b).bbData 0 (k.bbs b).bbLen = msg

/-- What is on a blackboard, apart from who waits for it. -/
def face (k : Kernel) (b : BbId) : Blackboard := { k.bbs b with bbWaitingProcs := [] }

/-- The message stays, and nobody is added to an empty list. -/
theorem BoardOk.of_face (h : BoardOk m k b) (hface : face k' b = face k b)
    (hlist : (k.bbs b).bbEmptyInd = .occupied → k.waitingProcs (.blackboard b) = [] →
      k'.waitingProcs (.blackboard b) = []) : BoardOk m k' b := by
  simp only [face, Blackboard.mk.injEq] at hface
  obtain ⟨-, -, hind, hmax, hdata, hlen, -⟩ := hface
  constructor
  · rw [hlen, hmax]
    exact h.fits
  · intro hocc
    rw [hind] at hocc
    exact hlist hocc (h.idle hocc)
  · intro hocc
    rw [hind] at hocc
    rw [hlen, hdata]
    exact h.shows hocc

theorem BoardOk.of_bbs (h : BoardOk m k b) (hbbs : k'.bbs = k.bbs) : BoardOk m k' b := by
  refine h.of_face (by rw [face, hbbs, face]) fun _ hnil => ?_
  show (k'.bbs b).bbWaitingProcs = []
  rw [hbbs]
  exact hnil

@[simp] theorem face_setWaitingProcs (o : WaitObj) (l : List ProcId) :
    face (k.setWaitingProcs o l) b = face k b := by
  cases o with
  | buffer b' => rfl
  | channel ch => rfl
  | blackboard b' =>
      by_cases hb : b = b'
      · simp [face, Kernel.setWaitingProcs, hb]
      · simp [face, Kernel.setWaitingProcs, hb]

/-- A wake-up writes nothing. -/
theorem face_wakeProc {o : WaitObj} {p : ProcId} (h : wakeProc k o p = .ok k') : face k' b = face k b := by
  obtain ⟨k₁, hk₁, rfl⟩ := wakeProc_eq_ok h
  rcases hk₁ with ⟨-, hfree⟩ | ⟨-, rfl⟩
  · obtain ⟨i, -, -, rfl⟩ := mem_of_timeEventFree hfree
    exact face_setWaitingProcs o _
  · exact face_setWaitingProcs o _

/-- An expiry writes nothing. -/
theorem face_expireProc (te : TimeEvent) (p : ProcId) : face (expireProc k te p) b = face k b := by
  unfold expireProc
  dsimp only
  split
  · rfl
  · exact face_setWaitingProcs _ _

theorem face_commWait {p : ProcId} {c : CommCall} {a : Int} : face (commWait k p c a) b = face k b := by
  unfold commWait
  dsimp only
  split
  · rw [timeEventAlloc_of_proc _ _ (proc_teType p c)]
    exact face_setWaitingProcs _ _
  · exact face_setWaitingProcs _ _

/-- A list that an expiry changes loses a process. -/
theorem waitingProcs_expireProc (te : TimeEvent) (p : ProcId) (o : WaitObj) :
    (expireProc k te p).waitingProcs o ⊆ k.waitingProcs o := by
  unfold expireProc
  dsimp only
  split
  · rw [Kernel.waitingProcs_updProc]
    exact List.Subset.refl _
  · rw [delWaitingProc, Kernel.waitingProcs_setWaitingProcs, Kernel.waitingProcs_updProc]
    split
    · rename_i ho
      rw [ho]
      exact List.erase_subset
    · exact List.Subset.refl _

/-- **Every effect but writing the blackboard keeps the invariant**: a process can only be linked while
there is no message. -/
theorem BoardOk.eff {a : Act} (hi : b ∈ k.bbIds → BoardOk m k b) (hr : Registered k) (he : Eff k a k')
    (ha : a ≠ .board b) : b ∈ k'.bbIds → BoardOk m k' b := by
  -- an effect that creates nothing leaves the identifiers alone
  have hids : ∀ {P : Prop}, (b ∈ k.bbIds → P) →
      (a ≠ .newProc ∧ a ≠ .newBuffer ∧ a ≠ .newBoard ∧ a ≠ .newPort ∧ a ≠ .spend) → b ∈ k'.bbIds → P := by
    intro P hP hnew hb
    exact hP ((he.same hnew).bbIds ▸ hb)
  cases he with
  | @sleep p reason type time known own free kind =>
      refine hids (fun hb => (hi hb).of_bbs ?_) (by simp)
      rw [sleepUntil, timeEventAlloc_of_proc _ time kind.proc]
      rfl
  | @rouse p k₁ own waits reason freed =>
      refine hids (fun hb => ?_) (by simp)
      obtain ⟨i, -, -, rfl⟩ := mem_of_timeEventFree freed
      exact (hi hb).of_bbs rfl
  | @stop p _ own alive freed =>
      refine hids (fun hb => ?_) (by simp)
      split at freed
      · obtain ⟨i, -, -, rfl⟩ := mem_of_timeEventFree freed
        exact (hi hb).of_bbs rfl
      · rw [← Except.ok.inj freed]
        exact (hi hb).of_bbs rfl
  | @block p c w armed cur own runs call fits full =>
      refine hids (fun hb => ?_) (by simp)
      obtain ⟨-, -, -, hlists, -⟩ := block_fields k p c w armed
      refine (hi hb).of_face face_commWait fun hocc hnil => ?_
      rw [hlists]
      split
      · rename_i ho
        -- the loop is entered only while the blackboard is empty
        cases c with
        | readBlackboard b' t addr =>
            obtain rfl : b = b' := by simpa [CommCall.obj] using ho
            rw [mustWait, hocc] at full
            exact absurd full (by decide)
        | _ => exact absurd ho (by simp [CommCall.obj])
      · exact hnil
  | @wake p o _ linked obj done =>
      refine hids (fun hb => ?_) (by simp)
      refine (hi hb).of_face (face_wakeProc done) fun _ hnil => ?_
      rw [waitingProcs_wakeProc done]
      split
      · rename_i ho
        rw [← ho, hnil]
        rfl
      · exact hnil
  | @queue q cc obj =>
      refine hids (fun hb => (hi hb).of_bbs ?_) (by simp)
      cases q <;> rfl
  | @board b' f obj part list =>
      refine hids (fun hb => ?_) (by simp)
      have hne : b ≠ b' := fun h => ha (by rw [h])
      have hsame : (k.updBb b' f).bbs b = k.bbs b := by simp [Kernel.updBb, hne]
      refine (hi hb).of_face (by rw [face, hsame, face]) fun _ hnil => ?_
      show ((k.updBb b' f).bbs b).bbWaitingProcs = []
      rw [hsame]
      exact hnil
  | newBoard mem bb own empty blank frame =>
      intro hb
      rcases List.mem_append.mp hb with hold | hnew
      · have hne : b ≠ k.nxtBbId := (hr.bbs_lt b hold).ne
        have hsame : (registerBlackboard k mem k.curPart bb).bbs b = k.bbs b := by
          simp [registerBlackboard, hne]
        refine (hi hold).of_face (by rw [face, hsame, face]) fun _ hnil => ?_
        show ((registerBlackboard k mem k.curPart bb).bbs b).bbWaitingProcs = []
        rw [hsame]
        exact hnil
      · obtain rfl := List.mem_singleton.mp hnew
        have hsame : (registerBlackboard k mem k.curPart bb).bbs k.nxtBbId = bb := by
          simp [registerBlackboard]
        constructor
        · rw [hsame, blank.2]
          exact Nat.zero_le _
        all_goals
          intro hocc
          rw [hsame, blank.1] at hocc
          exact absurd hocc (by decide)
  | @dispatch p _ done =>
      refine hids (fun hb => (hi hb).of_bbs ?_) (by simp)
      rw [(dispatch_eq_ok done).2]
      rcases schedProcSt_cases k with hst | ⟨cur, -, -, hst⟩ <;> rw [hst] <;> rfl
  | @expire te es p head proc =>
      refine hids (fun hb => ?_) (by simp)
      refine (hi hb).of_face (face_expireProc te p) fun _ hnil => ?_
      have hsub := waitingProcs_expireProc (k := k) te p (.blackboard b)
      rw [hnil] at hsub
      exact List.eq_nil_of_subset_nil hsub
  | global done =>
      refine hids (fun hb => (hi hb).of_bbs ?_) (by simp)
      obtain ⟨pt, rfl⟩ | ⟨time, mods, pt, rfl⟩ := schedGlobal_eq_ok done <;> rfl
  | _ => exact fun hb => (hi hb).of_bbs rfl

/-! ## `DISPLAY` and `CLEAR` -/

/-- The loop of `DISPLAY` releases everybody and writes nothing. -/
theorem wakeupAll_eq_ok {l : List ProcId} (hl : k.waitingProcs (.blackboard b) = l)
    (h : wakeupAll (.blackboard b) l k = .ok k') :
    face k' b = face k b ∧ k'.waitingProcs (.blackboard b) = [] ∧ k'.bbIds = k.bbIds := by
  induction l generalizing k with
  | nil =>
      obtain rfl : k = k' := Except.ok.inj h
      exact ⟨rfl, hl, rfl⟩
  | cons q l ih =>
      simp only [wakeupAll] at h
      cases hw : wakeProc k (.blackboard b) q with
      | error f => simp [hw, bind, Except.bind] at h
      | ok k₁ =>
          simp only [hw, bind, Except.bind] at h
          have hl₁ : k₁.waitingProcs (.blackboard b) = l := by
            rw [waitingProcs_wakeProc hw, if_pos rfl, hl, List.erase_cons_head]
          obtain ⟨hface, hnil, hids⟩ := ih hl₁ h
          exact ⟨hface.trans (face_wakeProc hw), hnil, hids.trans (Same.wakeProc hw).bbIds⟩

/-- A `DISPLAY` is refused, or the message is on the blackboard and nobody waits. -/
theorem doDisplayBlackboard_eq_ok {env : Env} {msgAddr length : Nat} {n : Next}
    (h : doDisplayBlackboard k env b msgAddr length = .ok (n, k')) :
    (n.noErrorOut = none ∧ k' = k) ∨
      (n.noErrorOut.isSome = true ∧ BoardOk (some (loadBytes env.mem msgAddr length)) k' b) := by
  have hrefused : ∀ {code : RetCode}, code ≠ .noError → retCode k code = .ok (n, k') →
      n.noErrorOut = none ∧ k' = k := by
    rintro code hcode hret
    obtain ⟨rfl, rfl⟩ := Prod.mk.inj (Except.ok.inj hret)
    refine ⟨?_, rfl⟩
    cases code <;> first | rfl | exact absurd rfl hcode
  unfold doDisplayBlackboard at h
  split at h
  · exact Or.inl (hrefused (by decide) h)
  rename_i bb hbb
  obtain ⟨-, -, rfl⟩ := of_curBlackboard hbb
  split at h
  · exact Or.inl (hrefused (by decide) h)
  rename_i hlen
  split at h
  · exact Or.inl (hrefused (by decide) h)
  -- the message is stored before its readers wake up, and the wake-ups leave it alone
  right
  dsimp only at h
  cases hw : wakeupAll (.blackboard b)
      ((blackboardDisplay k b (loadBytes env.mem msgAddr length)).waitingProcs (.blackboard b))
      (blackboardDisplay k b (loadBytes env.mem msgAddr length)) with
  | error f => simp [hw, bind, Except.bind] at h
  | ok k₁ =>
      simp only [hw, bind, Except.bind, Except.ok.injEq, Prod.mk.injEq] at h
      obtain ⟨rfl, rfl⟩ := h
      obtain ⟨hface, hnil, -⟩ := wakeupAll_eq_ok rfl hw
      simp only [face, blackboardDisplay, Kernel.updBb, Function.update_self, Blackboard.mk.injEq] at hface
      obtain ⟨-, -, hind, hmax, hdata, hlen', -⟩ := hface
      rw [length_loadBytes] at hlen'
      refine ⟨rfl, ?_, fun _ => hnil, fun _ => ⟨_, rfl, ?_, ?_⟩⟩
      · rw [hlen', hmax]
        exact not_lt.mp hlen
      · rw [hlen', length_loadBytes]
      · have hself := loadBytes_storeBytes_self (k.bbs b).bbData 0 (loadBytes env.mem msgAddr length)
        rw [length_loadBytes] at hself
        rw [hlen', hdata, hself]

/-- A `CLEAR` is refused, or the blackboard is empty. -/
theorem doClearBlackboard_eq_ok {n : Next} (hi : b ∈ k.bbIds → BoardOk m k b)
    (h : doClearBlackboard k b = .ok (n, k')) :
    (n.noErrorOut = none ∧ k' = k) ∨ (n.noErrorOut.isSome = true ∧ BoardOk none k' b) := by
  unfold doClearBlackboard at h
  split at h
  · obtain ⟨rfl, rfl⟩ := Prod.mk.inj (Except.ok.inj h)
    exact Or.inl ⟨rfl, rfl⟩
  rename_i bb hbb
  obtain ⟨hb, -, -⟩ := of_curBlackboard hbb
  obtain ⟨rfl, rfl⟩ := Prod.mk.inj (Except.ok.inj h)
  have hempty : ∀ {P : Prop}, ((k.updBb b fun bb => { bb with bbEmptyInd := .empty }).bbs b).bbEmptyInd =
      .occupied → P := fun hocc => absurd hocc (by simp [Kernel.updBb])
  refine Or.inr ⟨rfl, ?_, hempty, hempty⟩
  simpa [Kernel.updBb] using (hi hb).fits

theorem tookEffect_of_segment {e : Event} {p : ProcId} {n : Next} (h : segment k e = some (p, .ok (n, k'))) :
    tookEffect (k, e) = n.noErrorOut.isSome := by
  unfold tookEffect
  rw [h]

/-- **Every step keeps the invariant.** -/
theorem BoardOk.step {tr : List (Kernel × Event)} {e : Event} (hr : Registered k)
    (hi : b ∈ k.bbIds → BoardOk (displayed b tr) k b) (h : step k e = .ok k') :
    b ∈ k'.bbIds → BoardOk (displayed b (tr ++ [(k, e)])) k' b := by
  rw [displayed_snoc]
  by_cases he : e.board = some b
  · -- the step ends with the segment of a `DISPLAY` or a `CLEAR` on the blackboard
    have hend : ∀ {p : ProcId} {n : Next} {k₁ : Kernel}, segment k e = some (p, .ok (n, k₁)) →
        settle p (n, k₁) = k' → n.noErrorOut = none ∧ k₁ = k ∨
          n.noErrorOut.isSome = true ∧ BoardOk (post b (displayed b tr) (k, e)) k₁ b →
        (n.noErrorOut.isSome = false → post b (displayed b tr) (k, e) = displayed b tr) →
        b ∈ k'.bbIds → BoardOk (post b (displayed b tr) (k, e)) k' b := by
      intro p n k₁ hseg hk hor hsame hb
      have hbbs : k'.bbs = k₁.bbs ∧ k'.bbIds = k₁.bbIds := by
        rw [← hk]
        cases n <;> exact ⟨rfl, rfl⟩
      rcases hor with ⟨hnone, rfl⟩ | ⟨-, hok⟩
      · rw [hsame (by rw [hnone]; rfl)]
        exact (hi (hbbs.2 ▸ hb)).of_bbs hbbs.1
      · exact hok.of_bbs hbbs.1
    rcases step_eq_ok h with ⟨p, rfl, -⟩ | ⟨clk, r, rfl, -⟩ | ⟨p, ⟨n, k₁⟩, hseg, hk⟩
    · exact absurd he (by simp [Event.board])
    · exact absurd he (by simp [Event.board])
    have heffect := tookEffect_of_segment hseg
    -- only a service call names a blackboard as the one that it writes
    obtain ⟨-, ⟨env, s, rfl, -, hout⟩ | ⟨env, c, rfl, -, -⟩⟩ := segment_eq_some hseg
    · cases s <;> simp only [Event.board, reduceCtorEq, Option.some.injEq] at he
      all_goals subst he
      case displayBlackboard b msgAddr length =>
        refine hend hseg hk ?_ ?_
        · rcases doDisplayBlackboard_eq_ok hout.symm with hno | ⟨hyes, hok⟩
          · exact Or.inl hno
          · refine Or.inr ⟨hyes, ?_⟩
            simpa [post, heffect, hyes] using hok
        · intro hno
          simp [post, heffect, hno]
      case clearBlackboard b =>
        refine hend hseg hk ?_ ?_
        · rcases doClearBlackboard_eq_ok hi hout.symm with hno | ⟨hyes, hok⟩
          · exact Or.inl hno
          · refine Or.inr ⟨hyes, ?_⟩
            simpa [post, heffect, hyes] using hok
        · intro hno
          simp [post, heffect, hno]
    · exact absurd he (by simp [Event.board])
  · rw [post_of_ne (x := (k, e)) he]
    -- no effect of the step writes the blackboard
    have hboth := (step_path hr h).preserves
      (I := fun k => Registered k ∧ (b ∈ k.bbIds → BoardOk (displayed b tr) k b)) ⟨hr, hi⟩ ?_
    · exact hboth.2
    · rintro k₁ a k₂ ⟨hr₁, hi₁⟩ ha heff
      exact ⟨(hr₁.eff heff).1, BoardOk.eff hi₁ hr₁ heff fun hb => he (ha.board b hb)⟩

/-! ## `READ` -/

/-- How a `READ` returns from its loop: the blackboard is as before, and with `NO_ERROR` it shows what is
returned. -/
theorem commFinish_read {env : Env} {t : Int} {addr : Nat} {code : RetCode} {out : Out}
    (hfull : mustWait k (.readBlackboard b t addr) = false)
    (h : commFinish k env (.readBlackboard b t addr) = .ok (.ret code out, k')) :
    k' = k ∧ (k.bbs b).bbEmptyInd = .occupied ∧
      out = .message (k.bbs b).bbLen (loadBytes (k.bbs b).bbData 0 (k.bbs b).bbLen) := by
  simp only [commFinish, Except.ok.injEq, Prod.mk.injEq, Next.ret.injEq] at h
  obtain ⟨⟨-, rfl⟩, rfl⟩ := h
  refine ⟨rfl, ?_, rfl⟩
  rw [mustWait, decide_eq_false_iff_not] at hfull
  cases hind : (k.bbs b).bbEmptyInd with
  | empty => exact absurd hind hfull
  | occupied => rfl

/-- A `READ` that is called and returns. -/
theorem doReadBlackboard_ret {env : Env} {p : ProcId} {t : Int} {addr : Nat} {code : RetCode} {out : Out}
    (h : doReadBlackboard k env p b t addr = .ok (.ret code out, k')) :
    k' = k ∧ (code = .noError → b ∈ k.bbIds ∧ (k.bbs b).bbEmptyInd = .occupied ∧
      out = .message (k.bbs b).bbLen (loadBytes (k.bbs b).bbData 0 (k.bbs b).bbLen)) := by
  unfold doReadBlackboard at h
  split at h
  · obtain ⟨hn, rfl⟩ := Prod.mk.inj (Except.ok.inj h)
    obtain ⟨rfl, -⟩ := Next.ret.inj hn
    exact ⟨rfl, fun hc => absurd hc (by decide)⟩
  rename_i bb hbb
  have hb := (of_curBlackboard hbb).1
  unfold commEnter at h
  split at h
  · split at h
    · obtain ⟨hn, rfl⟩ := Prod.mk.inj (Except.ok.inj h)
      obtain ⟨rfl, -⟩ := Next.ret.inj hn
      exact ⟨rfl, fun hc => absurd hc (by decide)⟩
    · rcases commBlock_eq_ok h with ⟨-, hn, rfl⟩ | ⟨-, hn, -⟩
      · obtain ⟨rfl, -⟩ := Next.ret.inj hn
        exact ⟨rfl, fun hc => absurd hc (by decide)⟩
      · exact absurd hn (by simp)
  · rename_i hfull
    obtain ⟨hk, hocc, hout⟩ := commFinish_read (by simpa using hfull) h
    exact ⟨hk, fun _ => ⟨hb, hocc, hout⟩⟩

/-- A `READ` that was blocked and returns. -/
theorem commResume_read_ret {env : Env} {p : ProcId} {t w a : Int} {addr : Nat} {code : RetCode} {out : Out}
    (h : commResume k env p (.readBlackboard b t addr) w a = .ok (.ret code out, k')) :
    k' = k ∧ (code = .noError → (k.bbs b).bbEmptyInd = .occupied ∧
      out = .message (k.bbs b).bbLen (loadBytes (k.bbs b).bbData 0 (k.bbs b).bbLen)) := by
  unfold commResume at h
  split at h
  · obtain ⟨hn, rfl⟩ := Prod.mk.inj (Except.ok.inj h)
    obtain ⟨rfl, -⟩ := Next.ret.inj hn
    exact ⟨rfl, fun hc => absurd hc (by decide)⟩
  split at h
  · rcases commBlock_eq_ok h with ⟨-, hn, rfl⟩ | ⟨-, hn, -⟩
    · obtain ⟨rfl, -⟩ := Next.ret.inj hn
      exact ⟨rfl, fun hc => absurd hc (by decide)⟩
    · exact absurd hn (by simp)
  · rename_i hfull
    obtain ⟨hk, hocc, hout⟩ := commFinish_read (by simpa using hfull) h
    exact ⟨hk, fun _ => ⟨hocc, hout⟩⟩

/-- **The law of `READ`** on the blackboard `b`, for the step `x` after the run `pre`: with `NO_ERROR` it
returns the latest message, and with `NOT_AVAILABLE` or `TIMED_OUT` it leaves the blackboards as they are
and is in no wait list of this one. -/
structure ReadsBoard (b : BbId) (pre : List (Kernel × Event)) (x : Kernel × Event) : Prop where
  read : ∀ p t addr out k', inCall x.1 x.2 = some (p, .readBlackboard b t addr) →
    segment x.1 x.2 = some (p, .ok (.ret .noError out, k')) →
    ∃ msg, displayed b pre = some msg ∧ out = .message msg.length msg
  refused : ∀ p t addr code out k', inCall x.1 x.2 = some (p, .readBlackboard b t addr) →
    segment x.1 x.2 = some (p, .ok (.ret code out, k')) → code = .notAvailable ∨ code = .timedOut →
    k'.bbs = x.1.bbs ∧ p ∉ k'.waitingProcs (.blackboard b)

/-- Nobody waits for a message that is there, and it is no longer than the blackboard admits. -/
structure BoardIdle (k : Kernel) (b : BbId) : Prop where
  fits : (k.bbs b).bbLen ≤ (k.bbs b).bbMaxMsgSize
  idle : (k.bbs b).bbEmptyInd = .occupied → k.waitingProcs (.blackboard b) = []

/-- How a segment of a `READ` returns, on entry or from its loop. -/
theorem read_ret {e : Event} {p : ProcId} {t : Int} {addr : Nat} {code : RetCode} {out : Out}
    (hr : Registered k) (hin : inCall k e = some (p, .readBlackboard b t addr))
    (hseg : segment k e = some (p, .ok (.ret code out, k'))) :
    live k = some p ∧ k'.bbs = k.bbs ∧
      (code = .noError → b ∈ k.bbIds ∧ (k.bbs b).bbEmptyInd = .occupied ∧
        out = .message (k.bbs b).bbLen (loadBytes (k.bbs b).bbData 0 (k.bbs b).bbLen)) := by
  obtain ⟨hl, ⟨env, s, rfl, hfree, hout⟩ | ⟨env, c, rfl, hc, hout⟩⟩ := segment_eq_some hseg
  · simp only [inCall, hl, hfree, if_true, Option.map_eq_some_iff, Prod.mk.injEq, true_and,
      exists_eq_right] at hin
    obtain rfl : s = .readBlackboard b t addr := by
      cases s <;> simp_all [Service.commCall]
    obtain ⟨rfl, hok⟩ := doReadBlackboard_ret hout.symm
    exact ⟨hl, rfl, hok⟩
  · simp only [inCall, hl, hc] at hin
    split at hin
    · rename_i c' w a hcomm
      obtain ⟨-, rfl⟩ := Prod.mk.inj (Option.some.inj hin)
      rw [Option.some.injEq] at hcomm
      subst hcomm
      obtain ⟨rfl, hok⟩ := commResume_read_ret hout.symm
      refine ⟨hl, rfl, fun hcode => ?_⟩
      -- the blackboard of a call in progress is registered
      exact ⟨(hr.calls p _ w a hc).2.1, hok hcode⟩
    · exact absurd hin (by simp)

/-- Two processes with a blackboard for four bytes. -/
def boardSystem : Kernel :=
  { smallSystem 1 .fifo [1, 2] with
    bbs := fun _ => { (smallSystem 1 .fifo []).bbs 1 with bbMaxMsgSize := 4 }
    bbIds := [1]
    nxtBbId := 2 }

theorem quiet_boardSystem : Quiet boardSystem :=
  have hq := quiet_smallSystem 1 .fifo [1, 2]
  { registered := { hq.registered with
      bbs_lt := by decide
      calls := by simp [boardSystem, smallSystem]
      fits := by simp [boardSystem, smallSystem] }
    lists := fun o => by cases o <;> rfl
    conts := hq.conts, woken := hq.woken, state := hq.state, timer := hq.timer
    events := hq.events, ids := hq.ids, fresh := hq.fresh }

/-- A reader blocks, is released by a `DISPLAY`, and reads the message. -/
def displayToReader : List Event :=
  [.call (.at 0) (.readBlackboard 1 10 0), .dispatch 2, .call (.at 3) (.displayBlackboard 1 0 2), .dispatch 1,
    .resume (.at 5)]

end Jrinx
