import Jrinx.Boot.Bootargs
import Jrinx.MajorFrame
import Mathlib.Data.List.Chain
import Mathlib.Order.Interval.Set.Basic
import Mathlib.Order.CompletePartialOrder
import Mathlib.Data.Int.ConditionallyCompleteOrder

/-! # The windows of a schedule

What `sched_module_add` and `sched_launch` check of a schedule, in the arithmetic of a `sys_time_t`: a window
is compared with the one before it, and its end with the major frame.

* **`schedModuleAdd64`**, **`launchAccepts`** — the two checks.
* **`WellFormed`** — the windows of a timetable: not empty, in order, apart, inside the frame.
* **`accepted_windows_iff`** — an accepted schedule is well formed iff its first offset is not negative, its
  durations are positive and its ends do not leave the 64 bits. -/

namespace Jrinx

/-! ## The checks -/

/-- Where a window ends, as the code computes it. -/
def SchedModule.end64 (m : SchedModule) : Int := signed 64 (m.smOffset + m.smDuration)

/-- `sched_module_add`, on the list of the modules so far. -/
def schedModuleAdd64 (partFromName : String → Option PartId) (conf : SchedConf) (mods : List SchedModule) :
    Option (List SchedModule) :=
  match partFromName conf.scPaName with
  | none => none
  | some part =>
      let mod : SchedModule :=
        { smPart := part, smOffset := conf.scOffset, smDuration := conf.scDuration, smPrevActTime := 0 }
      match mods.getLast? with
      | none => some (mods ++ [mod])
      | some last =>
          -- only the window before is looked at, and neither its duration nor the new one's
          if conf.scOffset < last.end64 then none else some (mods ++ [mod])

/-- The checks of `sched_launch`, for the periods of the partitions. -/
def launchAccepts (periods : List Int) (mods : List SchedModule) : Bool :=
  !periods.isEmpty && mods.all fun m => decide (m.end64 ≤ launchFrame periods)

/-- As long as the ends fit, this is the function in the model of the scheduler. -/
theorem schedModuleAdd64_eq {partFromName : String → Option PartId} {conf : SchedConf} {part : PartId}
    {k : Kernel} (hpart : partFromName conf.scPaName = some part)
    (hfits : ∀ m ∈ k.schedModules, FitsSigned 64 (m.smOffset + m.smDuration)) :
    schedModuleAdd64 partFromName conf k.schedModules =
      (schedModuleAdd k part conf.scOffset conf.scDuration).map (·.schedModules) := by
  unfold schedModuleAdd64 schedModuleAdd
  rw [hpart]
  cases hlast : k.schedModules.getLast? with
  | none => rfl
  | some last =>
      have hend : last.end64 = last.smOffset + last.smDuration :=
        signed_eq_self.mpr (hfits last (List.mem_of_getLast? hlast))
      simp only [hend]
      split <;> rfl

/-! ## Timetables -/

/-- The times of a window. -/
def SchedModule.window (m : SchedModule) : Set Int := Set.Ico m.smOffset (m.smOffset + m.smDuration)

/-- The windows of a timetable. -/
structure WellFormed (frame : Int) (mods : List SchedModule) : Prop where
  proper : ∀ m ∈ mods, 0 ≤ m.smOffset ∧ 0 < m.smDuration
  apart : mods.Pairwise fun m n => Disjoint m.window n.window
  increasing : mods.Pairwise fun m n => m.smOffset < n.smOffset
  inside : ∀ m ∈ mods, m.window ⊆ Set.Ico 0 frame

/-- A window that is not empty, and one that begins at its end or later. -/
def Before (m n : SchedModule) : Prop := 0 < m.smDuration ∧ m.smOffset + m.smDuration ≤ n.smOffset

theorem Before.trans {l m n : SchedModule} (hlm : Before l m) (hmn : Before m n) : Before l n :=
  ⟨hlm.1, by have := hlm.2; have := hmn.1; have := hmn.2; omega⟩

instance : Trans Before Before Before := ⟨Before.trans⟩

theorem Before.disjoint {m n : SchedModule} (h : Before m n) : Disjoint m.window n.window := by
  rw [Set.disjoint_left]
  intro t hm hn
  have hlt : t < m.smOffset + m.smDuration := hm.2
  have hle : n.smOffset ≤ t := hn.1
  have := h.2
  omega

/-! ## What the checks give -/

/-- The offset and the duration of a window. -/
def SchedModule.times (m : SchedModule) : Int × Int := (m.smOffset, m.smDuration)

/-- The offset and the duration of a record. -/
def SchedConf.times (sc : SchedConf) : Int × Int := (sc.scOffset, sc.scDuration)

/-- The list that the checks of `sched_module_add` let through. -/
def Checked (mods : List SchedModule) : Prop := mods.IsChain fun m n => m.end64 ≤ n.smOffset

/-- One call keeps the check, and adds a window at the end. -/
theorem Checked.schedModuleAdd64 {partFromName : String → Option PartId} {conf : SchedConf}
    {mods mods' : List SchedModule} (hadd : schedModuleAdd64 partFromName conf mods = some mods')
    (h : Checked mods) :
    Checked mods' ∧ ∃ mod, mods' = mods ++ [mod] ∧ mod.times = conf.times := by
  unfold Jrinx.schedModuleAdd64 at hadd
  cases hpart : partFromName conf.scPaName with
  | none => simp [hpart] at hadd
  | some part =>
      simp only [hpart] at hadd
      cases hlast : mods.getLast? with
      | none =>
          simp only [hlast, Option.some.injEq] at hadd
          -- the first window has no window before it
          have hnil : mods = [] := List.getLast?_eq_none_iff.mp hlast
          subst hnil
          exact ⟨hadd ▸ List.IsChain.singleton _, _, hadd.symm, rfl⟩
      | some last =>
          simp only [hlast] at hadd
          split at hadd
          · cases hadd
          · -- the window begins where the last one has ended
            rename_i hle
            obtain rfl := (Option.some.injEq _ _).mp hadd
            refine ⟨List.isChain_append.mpr ⟨h, List.IsChain.singleton _, ?_⟩, _, rfl, rfl⟩
            intro m hm n hn
            rw [hlast, Option.mem_some_iff] at hm
            rw [List.head?_cons, Option.mem_some_iff] at hn
            rw [← hm, ← hn]
            exact not_lt.mp hle

/-- The loop over the records keeps the check, and the windows are those of the records. -/
theorem Checked.createAll {partFromName : String → Option PartId} {scs : List SchedConf}
    {mods mods' : List SchedModule}
    (hadd : createAll (Jrinx.schedModuleAdd64 partFromName) scs mods = .ok mods') (h : Checked mods) :
    Checked mods' ∧ mods'.map (·.times) = mods.map (·.times) ++ scs.map (·.times) := by
  induction scs generalizing mods with
  | nil =>
      obtain rfl := (Except.ok.injEq _ _).mp hadd
      exact ⟨h, (List.append_nil _).symm⟩
  | cons sc scs ih =>
      rw [Jrinx.createAll] at hadd
      cases hone : Jrinx.schedModuleAdd64 partFromName sc mods with
      | none => simp [hone] at hadd
      | some mods₁ =>
          simp only [hone] at hadd
          obtain ⟨hchecked, mod, rfl, htimes⟩ := h.schedModuleAdd64 hone
          obtain ⟨hdone, hmap⟩ := ih hadd hchecked
          refine ⟨hdone, ?_⟩
          rw [hmap, List.map_append, List.map_singleton, htimes, List.append_assoc, List.map_cons,
            List.singleton_append]

/-! ## The law -/

/-- The offsets and durations that make up a timetable: no window ends before it begins or after the last
time there is, and the first does not begin before the frame does. -/
structure Proper (ws : List (Int × Int)) : Prop where
  first : ∀ w ∈ ws.head?, 0 ≤ w.1
  long : ∀ w ∈ ws, 0 < w.2
  fits : ∀ w ∈ ws, FitsSigned 64 (w.1 + w.2)

/-- Where no window is turned around, a window begins after all that stand before it. -/
theorem Checked.pairwise {mods : List SchedModule} (h : Checked mods) (hproper : Proper (mods.map (·.times))) :
    mods.Pairwise Before := by
  have hbefore : mods.IsChain Before := by
    refine h.imp_of_mem_imp fun m n hm hn hle => ?_
    have hmem : m.times ∈ mods.map (·.times) := List.mem_map_of_mem hm
    have hend : m.end64 = m.smOffset + m.smDuration := signed_eq_self.mpr (hproper.fits _ hmem)
    exact ⟨hproper.long _ hmem, hend ▸ hle⟩
  exact hbefore.pairwise

/-- No window of a timetable begins before the first. -/
theorem offset_nonneg {mods : List SchedModule} (hbefore : mods.Pairwise Before)
    (hproper : Proper (mods.map (·.times))) {m : SchedModule} (hm : m ∈ mods) : 0 ≤ m.smOffset := by
  cases mods with
  | nil => cases hm
  | cons m₀ ms =>
      have hfirst : 0 ≤ m₀.smOffset := hproper.first m₀.times rfl
      rcases List.mem_cons.mp hm with rfl | hm
      · exact hfirst
      · have hafter := (List.pairwise_cons.mp hbefore).1 m hm
        have := hafter.1
        have := hafter.2
        omega

/-- What `sched_launch` lets through of a checked list. -/
theorem Checked.wellFormed_iff {periods : List Int} {mods : List SchedModule} (h : Checked mods)
    (hlaunch : launchAccepts periods mods = true) :
    WellFormed (launchFrame periods) mods ↔ Proper (mods.map (·.times)) := by
  obtain ⟨-, hframe⟩ := (Bool.and_eq_true _ _).mp hlaunch
  have hends : ∀ m ∈ mods, m.end64 ≤ launchFrame periods := by simpa using hframe
  constructor
  · intro hwell
    refine ⟨?_, ?_, ?_⟩
    · intro w hw
      obtain ⟨m, hm, rfl⟩ : ∃ m ∈ mods, m.times = w := List.mem_map.mp (List.mem_of_mem_head? hw)
      exact (hwell.proper m hm).1
    · intro w hw
      obtain ⟨m, hm, rfl⟩ := List.mem_map.mp hw
      exact (hwell.proper m hm).2
    · intro w hw
      obtain ⟨m, hm, rfl⟩ := List.mem_map.mp hw
      obtain ⟨hoff, hdur⟩ := hwell.proper m hm
      -- the last time of the window lies before the end of the frame, which fits
      have hlast : m.smOffset + m.smDuration - 1 ∈ Set.Ico 0 (launchFrame periods) :=
        hwell.inside m hm ⟨by omega, by omega⟩
      have hlt := hlast.2
      have hfit := (fitsSigned_launchFrame periods).2
      show FitsSigned 64 (m.smOffset + m.smDuration)
      constructor <;> omega
  · intro hproper
    have hbefore := h.pairwise hproper
    have hfits : ∀ m ∈ mods, m.end64 = m.smOffset + m.smDuration := fun m hm =>
      signed_eq_self.mpr (hproper.fits _ (List.mem_map_of_mem hm))
    refine ⟨fun m hm => ?_, ?_, ?_, fun m hm t ht => ?_⟩
    · exact ⟨offset_nonneg hbefore hproper hm, hproper.long _ (List.mem_map_of_mem hm)⟩
    · exact hbefore.imp Before.disjoint
    · refine hbefore.imp fun hmn => ?_
      have := hmn.1
      have := hmn.2
      omega
    · have hend := hends m hm
      rw [hfits m hm] at hend
      have hlt : t < m.smOffset + m.smDuration := ht.2
      exact ⟨(offset_nonneg hbefore hproper hm).trans ht.1, by omega⟩

/-- **An accepted schedule is well formed iff its text is**: the two checks leave open what a window that ends
before it begins, a first window before the frame, or an end that wraps make of it. -/
theorem accepted_windows_iff {kalloc : Nat → Bool} {uninit : Nat → SchedConf}
    {partFromName : String → Option PartId} {conf : List Char} {periods : List Int} {mods : List SchedModule}
    (hadd : doSchedCreate kalloc uninit (schedModuleAdd64 partFromName) conf [] = .ok mods)
    (hlaunch : launchAccepts periods mods = true) :
    ∃ scs, confDecode (plainField schedField) 3 24 kalloc uninit conf = .ok scs ∧
      (WellFormed (launchFrame periods) mods ↔ Proper (scs.map (·.times))) := by
  unfold doSchedCreate at hadd
  cases hdecode : confDecode (plainField schedField) 3 24 kalloc uninit conf with
  | error e => rw [hdecode] at hadd; cases hadd
  | ok scs =>
      rw [hdecode] at hadd
      obtain ⟨hchecked, htimes⟩ := Checked.createAll hadd List.IsChain.nil
      refine ⟨scs, rfl, ?_⟩
      rw [hchecked.wellFormed_iff hlaunch, htimes, List.map_nil, List.nil_append]

/-- The windows `[0, 10)` and `[10, 20)` in a frame of 20. -/
theorem accepted_windows_two :
    ∃ scs, confDecode (plainField schedField) 3 24 (fun _ => true) (fun _ => ⟨"", 0, 0⟩)
        "part=a,offset=0,duration=10;part=b,offset=10,duration=10".toList = .ok scs ∧
      (WellFormed (launchFrame [20]) [⟨0, 0, 10, 0⟩, ⟨0, 10, 10, 0⟩] ↔ Proper (scs.map (·.times))) :=
  let find : String → Option PartId := fun _ => some 0
  have hadd : doSchedCreate (fun _ => true) (fun _ => ⟨"", 0, 0⟩) (schedModuleAdd64 find)
      "part=a,offset=0,duration=10;part=b,offset=10,duration=10".toList [] =
      .ok [⟨0, 0, 10, 0⟩, ⟨0, 10, 10, 0⟩] := by decide +kernel
  accepted_windows_iff hadd (by decide +kernel)

/-- After the windows `[0, 10)` and `[10, 10 - 8)` comes a window `[2, 7)`, inside the first one. -/
theorem accepted_windows_overlap :
    ¬ ∀ (conf : List Char) (periods : List Int) (mods : List SchedModule),
      doSchedCreate (fun _ => true) (fun _ => ⟨"", 0, 0⟩) (schedModuleAdd64 fun _ => some 0) conf [] =
        .ok mods →
      launchAccepts periods mods = true → WellFormed (launchFrame periods) mods := by
  intro hall
  have hwell := hall
    "part=a,offset=0,duration=10;part=a,offset=10,duration=-8;part=a,offset=2,duration=5".toList [20]
    [⟨0, 0, 10, 0⟩, ⟨0, 10, -8, 0⟩, ⟨0, 2, 5, 0⟩] (by decide +kernel) (by decide +kernel)
  have hlong := (hwell.proper ⟨0, 10, -8, 0⟩ (by simp)).2
  exact absurd hlong (by decide)

end Jrinx
