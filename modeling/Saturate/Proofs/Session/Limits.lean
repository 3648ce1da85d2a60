import Mathlib
import Saturate.Proofs.Session.Moves

/-!
# The limits of a schedule

A schedule stops on two limits of the options. An iteration that searched and applied its rules
and left more live rows than `nodeLimit` halts the whole schedule: its report carries
`nodeLimit` through every `repeat`, `saturate` and `seq` above it, and no iteration starts
after it. A `saturate` runs its body at most `iterationLimit` times, and when the limit is what
stopped it, its report says `exhausted`.

The iterations a schedule finishes are not visible in its report, so the statements are about
runs that keep a log beside the session (`Engine.Logged`): `runScheduleRecording` notes each
finished iteration with the rows it left, and it runs as `runSchedule` does
(`Logged.Erases`). The loops of a schedule are generic in their monad, so the recording run
reuses them and the proofs go through the loops once.

An iteration whose stopping condition holds returns before it checks the node limit, so the
limit does not halt it, whatever the database holds (`until_condition_outruns_node_limit`).
-/

open Std.Do

set_option mvcgen.warning false

namespace Saturate

namespace Engine

/-! ### Runs that keep a log -/

/-- Engine computations with a log beside the session; a failure keeps the log. -/
abbrev Logged (ω : Type) := ExceptT Failure (StateT ω (StateM Session))

namespace Logged

variable {ω α β : Type}

/-- An engine computation, with the log left alone. -/
def lift (x : Engine α) : Logged ω α := ExceptT.mk (StateT.lift x.run)

/-- Change the log. -/
def note (f : ω → ω) : Logged ω Unit := modifyThe ω f

/-- `y` runs as `x` does from every log: the same outcome and the same session. -/
def Erases (y : Logged ω α) (x : Engine α) : Prop :=
  ∀ w σ, (fun p => (p.1.1, p.2)) ((y.run.run w).run σ) = x.run.run σ

theorem run_bind (y : Logged ω α) (f : α → Logged ω β) (w : ω) (σ : Session) :
    ((y >>= f).run.run w).run σ = match (y.run.run w).run σ with
      | ((.ok a, w'), σ') => ((f a).run.run w').run σ'
      | ((.error e, w'), σ') => ((.error e, w'), σ') := by
  rcases h : (y.run.run w).run σ with ⟨⟨_ | a, w'⟩, σ'⟩
  all_goals
    simp only [ExceptT.run_bind, StateT.run_bind, h]
    rfl

theorem run_engine_bind (x : Engine α) (g : α → Engine β) (σ : Session) :
    (x >>= g).run.run σ = match x.run.run σ with
      | (.ok a, σ') => (g a).run.run σ'
      | (.error e, σ') => (.error e, σ') := by
  rcases h : x.run.run σ with ⟨_ | a, σ'⟩
  all_goals
    simp only [ExceptT.run_bind, StateT.run_bind, h]
    rfl

theorem run_lift (x : Engine α) (w : ω) (σ : Session) :
    (((lift x : Logged ω α).run.run w).run σ) = (((x.run.run σ).1, w), (x.run.run σ).2) := rfl

theorem run_note (f : ω → ω) (w : ω) (σ : Session) :
    (((note f).run.run w).run σ) = ((.ok (), f w), σ) := rfl

theorem erases_pure (a : α) : (pure a : Logged ω α).Erases (pure a) := fun _ _ => rfl

theorem erases_bind {y : Logged ω α} {x : Engine α} {f : α → Logged ω β} {g : α → Engine β}
    (hy : y.Erases x) (hf : ∀ a, (f a).Erases (g a)) : (y >>= f).Erases (x >>= g) := by
  intro w σ
  rw [run_bind, run_engine_bind, ← hy w σ]
  rcases (y.run.run w).run σ with ⟨⟨_ | a, w'⟩, σ'⟩
  · rfl
  · exact hf a w' σ'

theorem erases_ite (c : Prop) [Decidable c] {y₁ y₂ : Logged ω α} {x₁ x₂ : Engine α}
    (h₁ : y₁.Erases x₁) (h₂ : y₂.Erases x₂) :
    (if c then y₁ else y₂).Erases (if c then x₁ else x₂) := by
  split
  · exact h₁
  · exact h₂

theorem erases_lift (x : Engine α) : (lift x : Logged ω α).Erases x := fun _ _ => rfl

theorem erases_note_bind (f : ω → ω) {y : Logged ω α} {x : Engine α} (h : y.Erases x) :
    (note f >>= fun _ => y).Erases x := by
  intro w σ
  rw [run_bind, run_note]
  exact h (f w) σ

/-- A triple over logged computations holds when every run from its precondition meets its
postcondition. -/
theorem triple_of_run {y : Logged ω α} {P : ω → Session → Prop} {Q : α → ω → Session → Prop}
    {E : Failure → ω → Session → Prop}
    (h : ∀ w σ, P w σ → match (y.run.run w).run σ with
      | ((.ok a, w'), σ') => Q a w' σ'
      | ((.error e, w'), σ') => E e w' σ') :
    ⦃fun w s => ⌜P w s⌝⦄ y ⦃post⟨fun a w s => ⌜Q a w s⌝, fun e w s => ⌜E e w s⌝⟩⦄ := by
  intro w σ hP
  have outcome := h w σ hP
  simp only [wp, PredTrans.apply_pushExcept, PredTrans.apply_pushArg, ExceptT.run, StateT.run,
    Id.run] at outcome ⊢
  revert outcome
  rcases y w σ with ⟨⟨_ | _, w'⟩, σ'⟩ <;> exact id

/-- What a triple over logged computations says of one run from its precondition. -/
theorem run_of_triple {y : Logged ω α} {P : ω → Session → Prop} {Q : α → ω → Session → Prop}
    {E : Failure → ω → Session → Prop}
    (h : ⦃fun w s => ⌜P w s⌝⦄ y ⦃post⟨fun a w s => ⌜Q a w s⌝, fun e w s => ⌜E e w s⌝⟩⦄)
    {w : ω} {σ : Session} (pre : P w σ) :
    match (y.run.run w).run σ with
    | ((.ok a, w'), σ') => Q a w' σ'
    | ((.error e, w'), σ') => E e w' σ' := by
  have holds := h w σ pre
  simp only [wp, PredTrans.apply_pushExcept, PredTrans.apply_pushArg, ExceptT.run, StateT.run,
    Id.run] at holds ⊢
  revert holds
  rcases y w σ with ⟨⟨_ | _, w'⟩, σ'⟩ <;> exact id

/-- Reading the database first changes nothing a triple sees. -/
theorem triple_read {f : Database → Logged ω α} {P : ω → Session → Prop} {Q : α → ω → Session → Prop}
    {E : Failure → ω → Session → Prop}
    (h : ∀ d, ⦃fun w s => ⌜P w s⌝⦄ f d ⦃post⟨fun a w s => ⌜Q a w s⌝, fun e w s => ⌜E e w s⌝⟩⦄) :
    ⦃fun w s => ⌜P w s⌝⦄ (lift db >>= f) ⦃post⟨fun a w s => ⌜Q a w s⌝, fun e w s => ⌜E e w s⌝⟩⦄ := by
  apply triple_of_run
  intro w σ pre
  rw [run_bind, run_lift]
  exact run_of_triple (h σ.db) pre

end Logged

/-! ### The loops of a schedule keep to the run they log -/

section Loops

variable {ω : Type} {body : Logged ω RunReport} {b : Engine RunReport}

theorem erases_repeatRuns (h : body.Erases b) (n : Nat) (report : RunReport) :
    (repeatRuns body n report).Erases (repeatRuns b n report) := by
  induction n generalizing report with
  | zero => exact Logged.erases_pure report
  | succ n ih =>
    rw [repeatRuns, repeatRuns]
    exact Logged.erases_bind h fun r => Logged.erases_ite _ (Logged.erases_pure _) (ih _)

theorem erases_saturateRuns (h : body.Erases b) (limit fuel rounds : Nat) (report : RunReport) :
    (saturateRuns body limit fuel rounds report).Erases (saturateRuns b limit fuel rounds report) := by
  induction fuel generalizing rounds report with
  | zero => exact Logged.erases_pure _
  | succ fuel ih =>
    rw [saturateRuns, saturateRuns]
    exact Logged.erases_bind h fun r =>
      Logged.erases_ite _ (Logged.erases_pure _) (Logged.erases_ite _ (Logged.erases_pure _) (ih _ _))

theorem erases_seqRuns {bodies : List (Logged ω RunReport)} {bs : List (Engine RunReport)}
    (h : List.Forall₂ Logged.Erases bodies bs) (report : RunReport) :
    (seqRuns bodies report).Erases (seqRuns bs report) := by
  induction h generalizing report with
  | nil => exact Logged.erases_pure report
  | cons first _ ih =>
    rw [seqRuns, seqRuns]
    exact Logged.erases_bind first fun r => Logged.erases_ite _ (Logged.erases_pure _) (ih _)

end Loops

/-! ### Options stay -/

end Engine

theorem Database.Write.options_eq {d d' : Database} (w : d.Write d') : d'.options = d.options := by
  cases w <;> rfl

theorem Database.Writes.options_eq {d d' : Database} (w : d.Writes d') : d'.options = d.options := by
  induction w with
  | refl => rfl
  | tail _ step ih => exact step.options_eq.trans ih

theorem Database.RoundStep.options_eq {d d' : Database} (step : d.RoundStep d') :
    d'.options = d.options := by
  cases step with
  | write w => exact w.options_eq
  | stamp => rfl

theorem Database.Round.options_eq {d d' : Database} (round : d.Round d') : d'.options = d.options := by
  induction round with
  | refl => rfl
  | tail _ step ih => exact step.options_eq.trans ih

namespace Engine

variable (o : Options)

/-- A computation keeps the options when, from every session `S`, it reaches only sessions
related to `S` by a relation that keeps them. -/
theorem keeps_options_of {α : Type} {m : Engine α} {P : Session → Session → Prop}
    {Q : Session → α → Session → Prop} {E : Session → Failure → Session → Prop}
    (h : ∀ S, ⦃fun s => ⌜P S s⌝⦄ m ⦃post⟨fun a s => ⌜Q S a s⌝, fun e s => ⌜E S e s⌝⟩⦄)
    (start : ∀ S, P S S) (kept : ∀ S a T, Q S a T → T.db.options = S.db.options) :
    ⦃fun s => ⌜s.db.options = o⌝⦄ m ⦃post⟨fun _ s => ⌜s.db.options = o⌝, fun _ _ => ⌜True⌝⟩⦄ := by
  apply triple_of_run
  intro S same
  have outcome := run_of_triple (h S) (start S)
  revert outcome
  rcases m.run.run S with ⟨_ | _, T⟩
  · exact fun _ => trivial
  · exact fun reached => (kept S _ T reached).trans same

theorem rebuild_keeps_options :
    ⦃fun s => ⌜s.db.options = o⌝⦄ rebuild ⦃post⟨fun _ s => ⌜s.db.options = o⌝, fun _ _ => ⌜True⌝⟩⦄ :=
  keeps_options_of o rebuild_acts Session.Acts.refl fun _ _ _ acts => acts.writes.options_eq

theorem holds_keeps_options (facts : List Fact) :
    ⦃fun s => ⌜s.db.options = o⌝⦄ holds facts
    ⦃post⟨fun _ s => ⌜s.db.options = o⌝, fun _ _ => ⌜True⌝⟩⦄ :=
  keeps_options_of o (holds_reads · facts) (fun S => ⟨Session.Keeps.refl S, rfl⟩)
    fun _ _ _ reads => congrArg Database.options reads.db

theorem stepRules_keeps_options (ruleset : String) :
    ⦃fun s => ⌜s.db.options = o⌝⦄ stepRules ruleset
    ⦃post⟨fun _ s => ⌜s.db.options = o⌝, fun _ _ => ⌜True⌝⟩⦄ :=
  keeps_options_of o (stepRules_applies · ruleset) Session.Applies.refl
    fun _ _ _ applies => applies.round.options_eq

theorem runRules_stops_at_node_limit (config : RunConfig) :
    ⦃fun s => ⌜s.db.options = o⌝⦄ runRules config
    ⦃post⟨fun r s => ⌜s.db.options = o ∧ (o.nodeLimit < s.db.numTuples →
        r.stopReason ≠ some .condition → r.stopReason = some (.nodeLimit o.nodeLimit))⌝,
      fun _ _ => ⌜True⌝⟩⦄ := by
  mvcgen [runRules, rebuild_keeps_options, holds_keeps_options, stepRules_keeps_options,
    -runRules_keeps, -stepRules_keeps, -rebuild_spec, -rebuild_acts, -holds_keeps, -holds_reads]
  all_goals grind

end Engine

/-! ### The iterations a run finishes -/

/-- An iteration a run finished: its report and the live rows the database then held. -/
structure Finished where
  report : RunReport
  tuples : Nat

/-- The iteration went past the node limit `L` after applying its rules, that is, without
stopping on its condition. -/
def Finished.Over (L : Nat) (f : Finished) : Prop :=
  L < f.tuples ∧ f.report.stopReason ≠ some .condition

/-- No iteration ended past the node limit `L`. -/
def Finished.Under (L : Nat) (fs : List Finished) : Prop := ∀ f ∈ fs, ¬ f.Over L

/-- Once an iteration ends past the node limit `L`, no other iteration finishes after it and the
run returns a report stopped by the node limit. -/
def StopsAtLimit (L : Nat) (finished : List Finished) (res : Except Failure RunReport) : Prop :=
  ∀ i f, finished[i]? = some f → f.Over L →
    i + 1 = finished.length ∧ ∃ r, res = .ok r ∧ r.stopReason = some (.nodeLimit L)

/-- A report added after a halted one halts the union. -/
theorem RunReport.halted_union {r : RunReport} (a : RunReport) (h : r.halted = true) :
    (a.union r).halted = true := by
  cases hr : r.stopReason with
  | none => simp [RunReport.halted, hr] at h
  | some reason => simpa [RunReport.halted, RunReport.union, hr] using h

namespace StopsAtLimit

variable {L : Nat} {fs : List Finished}

theorem of_under (under : Finished.Under L fs) (res : Except Failure RunReport) :
    StopsAtLimit L fs res :=
  fun _ f found past => absurd past (under f (List.mem_of_getElem? found))

theorem under_of_error {e : Failure} (h : StopsAtLimit L fs (.error e)) : Finished.Under L fs := by
  intro f mem past
  obtain ⟨i, found⟩ := List.mem_iff_getElem?.mp mem
  obtain ⟨-, r, ok, -⟩ := h i f found past
  cases ok

/-- A run that did not halt finished no iteration past the limit. -/
theorem under_of_not_halted {r : RunReport} (h : StopsAtLimit L fs (.ok r)) (going : r.halted = false) :
    Finished.Under L fs := by
  intro f mem past
  obtain ⟨i, found⟩ := List.mem_iff_getElem?.mp mem
  obtain ⟨-, r', ok, stopped⟩ := h i f found past
  cases ok
  simp [RunReport.halted, stopped] at going

/-- Adding a report to an earlier one keeps its stop reason when it has one. -/
theorem union {r : RunReport} (h : StopsAtLimit L fs (.ok r)) (a : RunReport) :
    StopsAtLimit L fs (.ok (a.union r)) := by
  intro i f found past
  obtain ⟨last, r', ok, stopped⟩ := h i f found past
  cases ok
  exact ⟨last, _, rfl, by simp [RunReport.union, stopped]⟩

theorem append {fs' : List Finished} (under : Finished.Under L fs) {res : Except Failure RunReport}
    (h : StopsAtLimit L fs' res) : StopsAtLimit L (fs ++ fs') res := by
  intro i f found past
  rcases Nat.lt_or_ge i fs.length with early | late
  · rw [List.getElem?_append_left early] at found
    exact absurd past (under f (List.mem_of_getElem? found))
  · rw [List.getElem?_append_right late] at found
    obtain ⟨last, rest⟩ := h (i - fs.length) f found past
    exact ⟨by simp; omega, rest⟩

end StopsAtLimit

namespace Engine

/-- One iteration, noting its report and the rows it left when it finishes. -/
def recordIteration (config : RunConfig) : Logged (List Finished) RunReport := do
  let r ← Logged.lift (runRules config)
  let d ← Logged.lift db
  Logged.note (· ++ [⟨r, d.numTuples⟩])
  pure r

/-- A logging body that keeps the options `o` and stops at their node limit. -/
def BodyStops (o : Options) (body : Logged (List Finished) RunReport) : Prop :=
  ⦃fun w s => ⌜s.db.options = o ∧ Finished.Under o.nodeLimit w⌝⦄ body
  ⦃post⟨fun r w s => ⌜s.db.options = o ∧ StopsAtLimit o.nodeLimit w (.ok r)⌝,
    fun e w _ => ⌜StopsAtLimit o.nodeLimit w (.error e)⌝⟩⦄

theorem recordIteration_run (config : RunConfig) (w : List Finished) (σ : Session) :
    ((recordIteration config).run.run w).run σ = match (runRules config).run.run σ with
      | (.ok r, σ') => ((.ok r, w ++ [⟨r, σ'.db.numTuples⟩]), σ')
      | (.error e, σ') => ((.error e, w), σ') := by
  rw [recordIteration, Logged.run_bind, Logged.run_lift]
  rcases (runRules config).run.run σ with ⟨_ | r, σ'⟩
  · rfl
  · rfl

theorem recordIteration_stops (config : RunConfig) : BodyStops o (recordIteration config) := by
  apply Logged.triple_of_run
  rintro w σ ⟨same, under⟩
  have spec := run_of_triple (runRules_stops_at_node_limit o config) same
  rw [recordIteration_run]
  revert spec
  rcases (runRules config).run.run σ with ⟨_ | r, σ'⟩
  · exact fun _ => StopsAtLimit.of_under under _
  · rintro ⟨kept, stopped⟩
    refine ⟨kept, StopsAtLimit.append under ?_⟩
    intro i f found past
    cases i with
    | succ i => simp at found
    | zero =>
      simp only [List.getElem?_cons_zero, Option.some.injEq] at found
      subst found
      exact ⟨rfl, r, rfl, stopped past.1 past.2⟩

section Loops

variable {o : Options} {body : Logged (List Finished) RunReport}

theorem repeatRuns_stops (hbody : BodyStops o body) (n : Nat) (report : RunReport) :
    BodyStops o (repeatRuns body n report) := by
  unfold BodyStops at hbody ⊢
  induction n generalizing report with
  | zero =>
    mvcgen [repeatRuns]
    rename_i start
    exact ⟨start.1, .of_under start.2 _⟩
  | succ n ih =>
    mvcgen [repeatRuns, hbody, ih]
    · -- the run stops with this body's report added
      rename_i ran
      exact ⟨ran.1, ran.2.union report⟩
    · -- the next run starts where no iteration went past the limit
      rename_i going _ _ ran
      exact ⟨ran.1, ran.2.under_of_not_halted (by simp_all)⟩

theorem saturateRuns_stops (hbody : BodyStops o body) (limit fuel rounds : Nat) (report : RunReport) :
    BodyStops o (saturateRuns body limit fuel rounds report) := by
  unfold BodyStops at hbody ⊢
  induction fuel generalizing rounds report with
  | zero =>
    mvcgen [saturateRuns]
    rename_i start
    exact ⟨start.1, .of_under start.2 _⟩
  | succ fuel ih =>
    mvcgen [saturateRuns, hbody, ih]
    · rename_i ran
      exact ⟨ran.1, ran.2.union report⟩
    · rename_i going _ _ _ ran
      exact ⟨ran.1, .of_under (ran.2.under_of_not_halted (by simp_all)) _⟩
    · rename_i going _ _ ran
      exact ⟨ran.1, ran.2.under_of_not_halted (by simp_all)⟩

theorem seqRuns_stops {bodies : List (Logged (List Finished) RunReport)}
    (hbodies : ∀ b ∈ bodies, BodyStops o b) (report : RunReport) :
    BodyStops o (seqRuns bodies report) := by
  unfold BodyStops at hbodies ⊢
  induction bodies generalizing report with
  | nil =>
    mvcgen [seqRuns]
    rename_i start
    exact ⟨start.1, .of_under start.2 _⟩
  | cons body rest ih =>
    have first := hbodies body (by simp)
    have later := ih (fun b mem => hbodies b (List.mem_cons_of_mem body mem))
    mvcgen [seqRuns, first, later]
    · rename_i ran
      exact ⟨ran.1, ran.2.union report⟩
    · rename_i going _ _ ran
      exact ⟨ran.1, ran.2.under_of_not_halted
        (Bool.eq_false_iff.mpr fun halted => going (RunReport.halted_union report halted))⟩

end Loops

/-- A schedule run that notes every iteration it finishes, with the rows it left. -/
def runScheduleRecording : Schedule → Logged (List Finished) RunReport
  | .run config => recordIteration config
  | .repeat n s => repeatRuns (runScheduleRecording s) n .empty
  | .saturate s => do
    let d ← Logged.lift db
    saturateRuns (runScheduleRecording s) d.options.iterationLimit d.options.iterationLimit 0 .empty
  | .seq ss => seqRuns (ss.attach.map fun ⟨s, _⟩ => runScheduleRecording s) .empty

theorem recordIteration_erases (config : RunConfig) :
    (recordIteration config).Erases (runRules config) := by
  intro w σ
  rw [recordIteration_run]
  rcases (runRules config).run.run σ with ⟨_ | r, σ'⟩ <;> rfl

/-- The recording run is the run of the schedule. -/
theorem runScheduleRecording_erases : (s : Schedule) → (runScheduleRecording s).Erases (runSchedule s)
  | .run config => by
    rw [runScheduleRecording, runSchedule]
    exact recordIteration_erases config
  | .repeat n s => by
    rw [runScheduleRecording, runSchedule]
    exact erases_repeatRuns (runScheduleRecording_erases s) n _
  | .saturate s => by
    rw [runScheduleRecording, runSchedule]
    exact Logged.erases_bind (Logged.erases_lift db) fun d =>
      erases_saturateRuns (runScheduleRecording_erases s) _ _ _ _
  | .seq ss => by
    rw [runScheduleRecording, runSchedule]
    refine erases_seqRuns ?_ _
    rw [List.forall₂_map_left_iff, List.forall₂_map_right_iff]
    refine List.forall₂_same.mpr fun x _ => ?_
    obtain ⟨s, mem⟩ := x
    exact runScheduleRecording_erases s

/-- Every iteration of a schedule keeps the options, and once one ends over the node limit the
whole schedule stops with it. -/
theorem runScheduleRecording_stops (o : Options) : (s : Schedule) → BodyStops o (runScheduleRecording s)
  | .run config => by
    rw [runScheduleRecording]
    exact recordIteration_stops config
  | .repeat n s => by
    rw [runScheduleRecording]
    exact repeatRuns_stops (runScheduleRecording_stops o s) n _
  | .saturate s => by
    rw [runScheduleRecording]
    exact Logged.triple_read fun d => saturateRuns_stops (runScheduleRecording_stops o s) _ _ _ _
  | .seq ss => by
    rw [runScheduleRecording]
    refine seqRuns_stops (fun b mem => ?_) _
    obtain ⟨⟨s, mem⟩, -, rfl⟩ := List.mem_map.mp mem
    exact runScheduleRecording_stops o s

/-! ### The iteration limit -/

/-- The body of a saturation, noting the report of each of its runs. -/
def countedRun (s : Schedule) : Logged (List RunReport) RunReport := do
  let r ← Logged.lift (runSchedule s)
  Logged.note (· ++ [r])
  pure r

/-- A saturation of `s` that notes the report of every run of its body. -/
def saturateCounting (s : Schedule) : Logged (List RunReport) RunReport := do
  let d ← Logged.lift db
  saturateRuns (countedRun s) d.options.iterationLimit d.options.iterationLimit 0 .empty

theorem countedRun_run (s : Schedule) (w : List RunReport) (σ : Session) :
    ((countedRun s).run.run w).run σ = match (runSchedule s).run.run σ with
      | (.ok r, σ') => ((.ok r, w ++ [r]), σ')
      | (.error e, σ') => ((.error e, w), σ') := by
  rw [countedRun, Logged.run_bind, Logged.run_lift]
  rcases (runSchedule s).run.run σ with ⟨_ | r, σ'⟩ <;> rfl

theorem saturateCounting_erases (s : Schedule) :
    (saturateCounting s).Erases (runSchedule (.saturate s)) := by
  have counted : (countedRun s).Erases (runSchedule s) := by
    intro w σ
    rw [countedRun_run]
    rcases (runSchedule s).run.run σ with ⟨_ | r, σ'⟩ <;> rfl
  rw [saturateCounting, runSchedule]
  exact Logged.erases_bind (Logged.erases_lift db) fun d => erases_saturateRuns counted _ _ _ _

/-- A body that adds its report to the log of the runs so far. -/
def BodyNotes (body : Logged (List RunReport) RunReport) : Prop :=
  ∀ k, ⦃fun w _ => ⌜w.length = k⌝⦄ body
    ⦃post⟨fun r w _ => ⌜w.length = k + 1 ∧ w.getLast? = some r⌝, fun _ w _ => ⌜w.length ≤ k + 1⌝⟩⦄

theorem countedRun_notes (s : Schedule) : BodyNotes (countedRun s) := by
  intro k
  apply Logged.triple_of_run
  intro w σ same
  rw [countedRun_run]
  rcases (runSchedule s).run.run σ with ⟨_ | r, σ'⟩
  · exact Nat.le_succ_of_le (Nat.le_of_eq same)
  · simp [same]

/-- A saturation runs its body at most `fuel` more times, and when the last run it made still
updated the database and did not halt, it ran out of fuel and says so. -/
theorem saturateRuns_counts {body : Logged (List RunReport) RunReport} (hbody : BodyNotes body)
    (limit fuel rounds : Nat) (report : RunReport) :
    ⦃fun w _ => ⌜w.length = rounds⌝⦄ saturateRuns body limit fuel rounds report
    ⦃post⟨fun r w _ => ⌜w.length ≤ rounds + fuel ∧
        ((∀ last ∈ w.getLast?, last.updated = true ∧ last.halted = false) →
          w.length = rounds + fuel ∧ r.stopReason = some (.exhausted (rounds + fuel)))⌝,
      fun _ w _ => ⌜w.length ≤ rounds + fuel⌝⟩⦄ := by
  induction fuel generalizing rounds report with
  | zero =>
    mvcgen [saturateRuns]
    rename_i start
    simp [start]
  | succ fuel ih =>
    have once := hbody rounds
    -- the rounds after this one start from one more
    have later : rounds + 1 + fuel = rounds + (fuel + 1) := by omega
    mvcgen [saturateRuns, once, ih]
    · -- a run that halted is last, and the limit did not stop it
      rename_i r _ halted _ _ ran
      refine ⟨by omega, fun going => absurd halted ?_⟩
      simp [(going r ran.2).2]
    · -- so is a run that updated nothing
      rename_i r _ _ idle _ _ ran
      refine ⟨by omega, fun going => absurd idle ?_⟩
      simp [(going r ran.2).1]
    · rename_i ran
      exact ran.1
    · rw [later]
      exact And.intro
    · -- a failure leaves the runs it logged
      intro bound
      omega
    · intro bound
      omega

/-- The limits of a schedule run. Once an iteration ends over the node limit after applying
its rules, no other iteration of the schedule finishes after it, and the schedule returns a
report stopped by the node limit; a saturation runs its body at most `iterationLimit` times, and
when its last run still updated the database without halting, the limit stopped it and its report
says so. The logged runs are the runs of the schedule, with a record beside them. -/
theorem schedules_keep_their_limits :
    (∀ (s : Schedule) (σ : Session), ∃ finished : List Finished,
      ((runScheduleRecording s).run.run []).run σ =
        ((((runSchedule s).run.run σ).1, finished), ((runSchedule s).run.run σ).2) ∧
      StopsAtLimit σ.db.options.nodeLimit finished ((runSchedule s).run.run σ).1) ∧
    (∀ (s : Schedule) (σ : Session), ∃ runs : List RunReport,
      ((saturateCounting s).run.run []).run σ =
        ((((runSchedule (.saturate s)).run.run σ).1, runs), ((runSchedule (.saturate s)).run.run σ).2) ∧
      runs.length ≤ σ.db.options.iterationLimit ∧
      ∀ r, ((runSchedule (.saturate s)).run.run σ).1 = .ok r →
        (∀ last ∈ runs.getLast?, last.updated = true ∧ last.halted = false) →
        runs.length = σ.db.options.iterationLimit ∧
          r.stopReason = some (.exhausted σ.db.options.iterationLimit)) := by
  constructor
  · intro s σ
    have erased := runScheduleRecording_erases s [] σ
    have stops := Logged.run_of_triple (runScheduleRecording_stops σ.db.options s)
      (w := []) (σ := σ) ⟨rfl, fun _ mem => by cases mem⟩
    rcases ran : ((runScheduleRecording s).run.run []).run σ with ⟨⟨res, finished⟩, σ'⟩
    rw [ran] at erased stops
    rw [← erased]
    refine ⟨finished, rfl, ?_⟩
    cases res with
    | error e => exact stops
    | ok r => exact stops.2
  · intro s σ
    have erased := saturateCounting_erases s [] σ
    have counts := Logged.run_of_triple (saturateRuns_counts (countedRun_notes s)
      σ.db.options.iterationLimit σ.db.options.iterationLimit 0 .empty) (w := []) (σ := σ) rfl
    have read : db.run.run σ = (.ok σ.db, σ) := rfl
    rw [saturateCounting, Logged.run_bind, Logged.run_lift, read] at erased ⊢
    dsimp only at erased ⊢
    rcases ran : ((saturateRuns (countedRun s) σ.db.options.iterationLimit
      σ.db.options.iterationLimit 0 .empty).run.run []).run σ with ⟨⟨res, runs⟩, σ'⟩
    rw [ran] at erased counts
    rw [← erased]
    refine ⟨runs, rfl, ?_⟩
    cases res with
    | error e => exact ⟨by simpa using counts, fun r ok => by cases ok⟩
    | ok r =>
      refine ⟨by simpa using counts.1, fun r' ok last => ?_⟩
      cases ok
      simpa using counts.2 last

end Engine

/-! ### A condition stops before the node limit -/

/-- A session whose database holds one row of a relation, past a node limit of zero. -/
def oneRowPastLimit : Session :=
  { Session.initial with
    db := { Database.initial with
      funcs := #[{ (default : Func) with table := Table.empty.put [.ofInt 1] .unit 0 false }]
      options := { Options.initial with nodeLimit := 0 } } }

theorem oneRowPastLimit_numTuples : oneRowPastLimit.db.numTuples = 1 := by
  simp [oneRowPastLimit, Database.numTuples, Func.numLive, Table.numLive, Table.put, Table.offset?,
    Table.append, Table.empty, Std.HashMap.size_insert]

/-- An iteration whose condition holds stops on it even past the node limit: from one row over a
limit of zero, a run of the empty ruleset until nothing at all reports the condition. -/
theorem until_condition_outruns_node_limit :
    ∃ r σ, (Engine.runSchedule (.run ⟨"", some []⟩)).run.run oneRowPastLimit = (.ok r, σ) ∧
      σ.db.options.nodeLimit < σ.db.numTuples ∧ r.stopReason = some .condition := by
  rw [Engine.runSchedule]
  -- the empty condition holds at once, and the iteration returns before any row is written
  have stopped : ((Engine.runRules ⟨"", some []⟩).run.run oneRowPastLimit).1.map (·.stopReason) =
      .ok (some .condition) := by
    with_unfolding_all rfl
  have kept : ((Engine.runRules ⟨"", some []⟩).run.run oneRowPastLimit).2.db.funcs =
      oneRowPastLimit.db.funcs ∧
      ((Engine.runRules ⟨"", some []⟩).run.run oneRowPastLimit).2.db.options =
      oneRowPastLimit.db.options := by
    with_unfolding_all exact ⟨rfl, rfl⟩
  rcases ran : (Engine.runRules ⟨"", some []⟩).run.run oneRowPastLimit with ⟨_ | r, σ⟩
  · rw [ran] at stopped
    cases stopped
  · rw [ran] at stopped kept
    refine ⟨r, σ, rfl, ?_, by simpa [Except.map] using stopped⟩
    have rows : σ.db.numTuples = 1 := by
      rw [← oneRowPastLimit_numTuples, Database.numTuples, Database.numTuples, kept.1]
    rw [rows, kept.2]
    decide

end Saturate
