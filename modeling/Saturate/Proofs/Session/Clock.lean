import Mathlib
import Saturate.Proofs.Session.Writes

/-!
# The clock describes the past

A database's clock only moves forward and every table is written at the
clock's time. Two facts follow, in every session that commands and interface
calls reach:

* every table is dated by the clock (`Database.Dated`): its entries are in
  timestamp order, none later than its `maxTimestamp`, which is not later
  than the clock, so a write at the clock's time is never behind a table;
* the last-run time `L` of a rule says what its next search may skip: every
  row that is live now and was written before `L` was live, with the same
  output and subsumption, in the database the rule's last search saw.

The second fact is about the databases searches saw, which a session does
not keep. `Session.Reached s g gs` keeps them: `g r` is the database the last
search of a rule named `r` saw, and `gs` holds such a record for each saved
database, so that `pop` returns to a database together with its record.

Outside a search round a database changes by `Database.Step`: a write at the
clock's time, declaring a function with no row older than the clock, a change
of the types, the rulesets or the options, and a tick of the clock. A search
round (`Engine.stepRules`) only reads while it searches, and then writes and
records the searches at the clock's time (`Database.RoundStep`).

* `Session.Reached.timely` — the invariant, for a reached session and every
  database it saved.
-/

open Std.Do

set_option mvcgen.warning false

namespace Saturate

theorem List.Forall₂.head?_drop {α β : Type} {R : α → β → Prop} {l₁ : List α} {l₂ : List β}
    (h : List.Forall₂ R l₁ l₂) (k : Nat) {a : α} {b : β} (ha : (l₁.drop k).head? = some a)
    (hb : (l₂.drop k).head? = some b) : R a b := by
  have dropped := List.forall₂_drop k h
  generalize l₁.drop k = xs at ha dropped
  generalize l₂.drop k = ys at hb dropped
  cases dropped with
  | nil => cases ha
  | cons hr _ =>
    simp only [List.head?_cons, Option.some.injEq] at ha hb
    subst ha hb
    exact hr

namespace Database

/-! ### Rows against the clock -/

/-- Every table is dated by the database's clock. -/
def Dated (d : Database) : Prop := ∀ f ∈ d.funcs.toList, f.table.Dated d.timestamp

/-- The live rows of every function written before `L`, with the function's name. -/
def liveBefore (d : Database) (L : Nat) : List (String × Entry) :=
  d.funcs.toList.flatMap fun f => (f.table.liveBefore L).map (f.name, ·)

theorem mem_liveBefore {d : Database} {L : Nat} {n : String} {e : Entry} :
    (n, e) ∈ d.liveBefore L ↔ ∃ f ∈ d.funcs.toList, f.name = n ∧ e ∈ f.table.liveBefore L := by
  simp only [liveBefore, List.mem_flatMap, List.mem_map, Prod.mk.injEq]
  constructor
  · rintro ⟨f, mem, e', live, rfl, rfl⟩
    exact ⟨f, mem, rfl, live⟩
  · rintro ⟨f, mem, rfl, live⟩
    exact ⟨f, mem, e, live, rfl, rfl⟩

/-- Old rows of new functions that were old rows of namesakes are old rows of the database. -/
theorem liveBefore_subset_of {d d' : Database} {L : Nat}
    (h : ∀ f' ∈ d'.funcs.toList, ∀ e ∈ f'.table.liveBefore L,
      ∃ f ∈ d.funcs.toList, f.name = f'.name ∧ e ∈ f.table.liveBefore L) :
    d'.liveBefore L ⊆ d.liveBefore L := by
  rintro ⟨n, e⟩ mem
  obtain ⟨f', mem', rfl, live⟩ := mem_liveBefore.mp mem
  obtain ⟨f, mem, same, live⟩ := h f' mem' e live
  exact mem_liveBefore.mpr ⟨f, mem, same, live⟩

theorem addFunc_lastRun (d : Database) (f : Func) : (d.addFunc f).lastRun = d.lastRun := by
  unfold addFunc
  split <;> rfl

theorem addFunc_timestamp (d : Database) (f : Func) : (d.addFunc f).timestamp = d.timestamp := by
  unfold addFunc
  split <;> rfl

/-- A declared function replaces one of the old ones or is added to them. -/
theorem mem_addFunc {d : Database} {f f' : Func} (mem : f' ∈ (d.addFunc f).funcs.toList) :
    f' ∈ d.funcs.toList ∨ f' = f := by
  unfold addFunc at mem
  split at mem
  · rw [Array.set!_eq_setIfInBounds, Array.toList_setIfInBounds] at mem
    exact List.mem_or_eq_of_mem_set mem
  · simpa using mem

/-! ### Writes -/

namespace Write

variable {d d' : Database}

theorem timestamp_eq (w : d.Write d') : d'.timestamp = d.timestamp := by
  cases w <;> rfl

theorem lastRun_eq (w : d.Write d') : d'.lastRun = d.lastRun := by
  cases w <;> rfl

/-- Every function after a write has a namesake before it whose table
reached its own by steps at the clock's time. -/
theorem reaches (w : d.Write d') {f' : Func} (mem : f' ∈ d'.funcs.toList) :
    ∃ f ∈ d.funcs.toList, f.name = f'.name ∧ f.table.Reaches d.timestamp f'.table := by
  cases w with
  | table i φ frame moves =>
    rw [Array.toList_modify] at mem
    rcases List.mem_modify_cases mem with old | ⟨f, at_i, rfl⟩
    · exact ⟨f', old, rfl, .refl⟩
    · rw [Array.getElem?_toList] at at_i
      have mem : f ∈ d.funcs.toList := List.mem_of_getElem? (by rwa [Array.getElem?_toList])
      exact ⟨f, mem, (congrArg Func.name (frame f)).symm, moves f at_i⟩
  | unionFind uf => exact ⟨f', mem, rfl, .refl⟩

theorem dated (w : d.Write d') (h : d.Dated) : d'.Dated := by
  intro f' mem
  obtain ⟨f, mem, _, reach⟩ := w.reaches mem
  rw [w.timestamp_eq]
  exact reach.dated (h f mem)

theorem liveBefore_subset (w : d.Write d') {L : Nat} (le : L ≤ d.timestamp) :
    d'.liveBefore L ⊆ d.liveBefore L := by
  refine liveBefore_subset_of fun f' mem e live => ?_
  obtain ⟨f, mem, same, reach⟩ := w.reaches mem
  exact ⟨f, mem, same, reach.liveBefore_subset le live⟩

end Write

/-! ### Steps outside search rounds -/

/-- One change of a database outside a search round. A declared function has
no row written before the clock. -/
inductive Step : Database → Database → Prop
  | write {d d' : Database} (w : d.Write d') : Step d d'
  | declare (d : Database) (f : Func) (dated : f.table.Dated d.timestamp)
      (fresh : f.table.liveBefore d.timestamp = []) : Step d (d.addFunc f)
  | types (d : Database) (ti : TypeInfo) : Step d { d with types := ti }
  | rulesets (d : Database) (rs : List (String × Ruleset)) : Step d { d with rulesets := rs }
  | options (d : Database) (o : Options) : Step d { d with options := o }
  | tick (d : Database) : Step d { d with timestamp := d.timestamp + 1 }

/-- Changes outside search rounds, one after another. -/
abbrev Steps : Database → Database → Prop := Relation.ReflTransGen Step

namespace Step

variable {d d' : Database}

theorem lastRun_eq (step : d.Step d') : d'.lastRun = d.lastRun := by
  cases step with
  | write w => exact w.lastRun_eq
  | declare => exact addFunc_lastRun d _
  | _ => rfl

theorem timestamp_le (step : d.Step d') : d.timestamp ≤ d'.timestamp := by
  cases step with
  | write w => exact Nat.le_of_eq w.timestamp_eq.symm
  | declare => exact Nat.le_of_eq (addFunc_timestamp d _).symm
  | tick => exact Nat.le_succ _
  | _ => exact Nat.le_refl _

theorem dated (step : d.Step d') (h : d.Dated) : d'.Dated := by
  cases step with
  | write w => exact w.dated h
  | declare f dated =>
    intro f' mem
    rw [addFunc_timestamp]
    rcases mem_addFunc mem with old | rfl
    · exact h f' old
    · exact dated
  | tick => exact fun f mem => (h f mem).mono (Nat.le_succ _)
  | _ => exact h

theorem liveBefore_subset (step : d.Step d') {L : Nat} (le : L ≤ d.timestamp) :
    d'.liveBefore L ⊆ d.liveBefore L := by
  cases step with
  | write w => exact w.liveBefore_subset le
  | declare f _ fresh =>
    refine liveBefore_subset_of fun f' mem e live => ?_
    rcases mem_addFunc mem with old | rfl
    · exact ⟨f', old, rfl, live⟩
    · -- a declared function has no row older than the clock
      have older := f'.table.liveBefore_mono le live
      rw [fresh] at older
      cases older
  | _ => exact fun _ => id

end Step

namespace Steps

variable {d d' : Database}

theorem lastRun_eq (steps : d.Steps d') : d'.lastRun = d.lastRun := by
  induction steps with
  | refl => rfl
  | tail _ step ih => exact step.lastRun_eq.trans ih

theorem timestamp_le (steps : d.Steps d') : d.timestamp ≤ d'.timestamp := by
  induction steps with
  | refl => exact Nat.le_refl _
  | tail _ step ih => exact Nat.le_trans ih step.timestamp_le

theorem dated (steps : d.Steps d') (h : d.Dated) : d'.Dated := by
  induction steps with
  | refl => exact h
  | tail _ step ih => exact step.dated ih

theorem liveBefore_subset (steps : d.Steps d') {L : Nat} (le : L ≤ d.timestamp) :
    d'.liveBefore L ⊆ d.liveBefore L := by
  induction steps with
  | refl => exact fun _ => id
  | tail before step ih =>
    exact List.Subset.trans (step.liveBefore_subset (Nat.le_trans le (timestamp_le before))) ih

end Steps

/-! ### Search rounds -/

/-- One change of a database in a search round: a write, or the record that
a rule was searched at the clock's time. -/
inductive RoundStep : Database → Database → Prop
  | write {d d' : Database} (w : d.Write d') : RoundStep d d'
  | stamp (d : Database) (r : String) :
      RoundStep d { d with lastRun := d.lastRun.insert r d.timestamp }

/-- The changes of a search round, one after another. -/
abbrev Round : Database → Database → Prop := Relation.ReflTransGen RoundStep

namespace RoundStep

variable {d d' : Database}

theorem timestamp_eq (step : d.RoundStep d') : d'.timestamp = d.timestamp := by
  cases step with
  | write w => exact w.timestamp_eq
  | stamp => rfl

/-- A round step records the clock's time as a rule's last run, or none. -/
theorem lastRun (step : d.RoundStep d') (r : String) :
    d'.lastRun[r]? = d.lastRun[r]? ∨ d'.lastRun[r]? = some d.timestamp := by
  cases step with
  | write w => exact .inl (by rw [w.lastRun_eq])
  | stamp r' =>
    simp only [Std.HashMap.getElem?_insert]
    split
    · exact .inr rfl
    · exact .inl rfl

theorem dated (step : d.RoundStep d') (h : d.Dated) : d'.Dated := by
  cases step with
  | write w => exact w.dated h
  | stamp => exact h

theorem liveBefore_subset (step : d.RoundStep d') {L : Nat} (le : L ≤ d.timestamp) :
    d'.liveBefore L ⊆ d.liveBefore L := by
  cases step with
  | write w => exact w.liveBefore_subset le
  | stamp => exact fun _ => id

end RoundStep

namespace Round

variable {d d' : Database}

theorem timestamp_eq (round : d.Round d') : d'.timestamp = d.timestamp := by
  induction round with
  | refl => rfl
  | tail _ step ih => exact step.timestamp_eq.trans ih

theorem lastRun (round : d.Round d') (r : String) :
    d'.lastRun[r]? = d.lastRun[r]? ∨ d'.lastRun[r]? = some d.timestamp := by
  induction round with
  | refl => exact .inl rfl
  | tail before step ih =>
    rcases step.lastRun r with kept | stamped
    · exact kept ▸ ih
    · exact .inr (by rw [stamped, timestamp_eq before])

theorem dated (round : d.Round d') (h : d.Dated) : d'.Dated := by
  induction round with
  | refl => exact h
  | tail _ step ih => exact step.dated ih

theorem liveBefore_subset (round : d.Round d') {L : Nat} (le : L ≤ d.timestamp) :
    d'.liveBefore L ⊆ d.liveBefore L := by
  induction round with
  | refl => exact fun _ => id
  | tail before step ih =>
    exact List.Subset.trans (step.liveBefore_subset (timestamp_eq before ▸ le)) ih

end Round

end Database

/-! ### What a search round does to a session -/

/-- `t` came from `s` by the changes of a search round and kept the frame of `s`. -/
structure Session.Applies (s t : Session) : Prop where
  keeps : s.Keeps t
  round : s.db.Round t.db

namespace Session.Applies

variable {s₀ s t : Session}

@[grind .] theorem refl (s : Session) : s.Applies s := ⟨.refl s, .refl⟩

@[grind →] theorem acts (h : s₀.Applies s) (a : s.Acts t) : s₀.Applies t :=
  ⟨h.keeps.trans a.keeps, h.round.trans (Relation.ReflTransGen.mono (fun _ _ w => .write w) _ _ a.writes)⟩

@[grind →] theorem reads (h : s₀.Applies s) (r : s.Reads t) : s₀.Applies t :=
  h.acts (.of_reads r)

@[grind →] theorem trans {u : Session} (hst : s.Applies t) (htu : t.Applies u) : s.Applies u :=
  ⟨hst.keeps.trans htu.keeps, hst.round.trans htu.round⟩

@[grind! .] theorem stamp (s : Session) (r : String) :
    s.Applies { s with db := { s.db with lastRun := s.db.lastRun.insert r s.db.timestamp } } :=
  ⟨⟨rfl, .refl _⟩, .single (.stamp s.db r)⟩

end Session.Applies

/-- Success and every error leave a session that a search round reached from `s₀`. -/
abbrev Session.AppliesAfter {α : Type} (s₀ : Session) :
    PostCond α (.except Failure (.arg Session .pure)) :=
  post⟨fun _ s => ⌜s₀.Applies s⌝, fun e s => ⌜e.IsError → s₀.Applies s⌝⟩

namespace Engine

variable (s₀ : Session)

/-- Searching only reads the database. -/
theorem searchRules_reads (fuel : Nat) (name : String) (report : RunReport)
    (results : Array SearchResult) :
    ⦃fun s => ⌜s₀.Reads s⌝⦄ searchRules fuel name report results ⦃s₀.ReadsAfter⦄ := by
  induction fuel generalizing s₀ name report results with
  | zero => mvcgen [searchRules]
  | succ fuel ih =>
    mvcgen [searchRules, ih]
    case inv1 => exact s₀.ReadsAfter
    case inv2 => exact s₀.ReadsAfter
    all_goals grind

theorem applyRules_applies (report : RunReport) (results : Array SearchResult) :
    ⦃fun s => ⌜s₀.Applies s⌝⦄ applyRules report results ⦃s₀.AppliesAfter⦄ := by
  mvcgen [-applyRules_keeps, applyRules]
  case inv1 | inv2 | inv3 => exact s₀.AppliesAfter
  all_goals grind

theorem stepRules_applies (ruleset : String) :
    ⦃fun s => ⌜s₀.Applies s⌝⦄ stepRules ruleset ⦃s₀.AppliesAfter⦄ := by
  mvcgen [-stepRules_keeps, -applyRules_keeps, stepRules, searchRules_reads,
    applyRules_applies] <;> grind

/-- A search round that the pool lets finish applies. -/
theorem stepRules_run_applies {s t : Session} {ruleset : String} {r : Except Failure RunReport}
    (run : (stepRules ruleset).run.run s = (r, t)) (alive : ∀ e, r = .error e → e.IsError) :
    s.Applies t := by
  have outcome := run_of_triple (stepRules_applies s ruleset) (Session.Applies.refl s)
  rw [run] at outcome
  cases r with
  | ok => exact outcome
  | error e => exact outcome (alive e rfl)

end Engine

/-! ### Reached sessions -/

/-- The database the last search of each rule saw, by rule name. -/
abbrev History := String → Option Database

/-- The record after a search round from `d` to `d'`: a rule whose last-run
time the round moved was searched in it, on the database it started from. -/
def History.searched (g : History) (d d' : Database) : History :=
  fun r => if d'.lastRun[r]? = d.lastRun[r]? then g r else some d

/-- `t` came from `s` by changes outside search rounds and kept the frame of `s`. -/
structure Session.Moves (s t : Session) : Prop where
  keeps : s.Keeps t
  steps : s.db.Steps t.db

/-- The sessions commands and interface calls reach, with the databases the
last searches of their rules saw (`g`) and a record for each saved database
(`gs`). A search round that ends in a fault ends the session. -/
inductive Session.Reached : Session → History → List History → Prop
  | initial : Reached Session.initial (fun _ => none) []
  | moves {s t : Session} {g : History} {gs : List History} (reached : Reached s g gs)
      (m : s.Moves t) : Reached t g gs
  | search {s t : Session} {g : History} {gs : List History} (reached : Reached s g gs)
      (ruleset : String) {r : Except Failure RunReport}
      (run : (Engine.stepRules ruleset).run.run s = (r, t)) (alive : ∀ e, r = .error e → e.IsError) :
      Reached t (g.searched s.db t.db) gs
  | push {s : Session} {g : History} {gs : List History} (reached : Reached s g gs) :
      Reached { s with scopes := s.db :: s.scopes } g (g :: gs)
  | pop {s : Session} {g : History} {gs : List History} (reached : Reached s g gs) (k : Nat)
      {d : Database} {h : History} (top : (s.scopes.drop k).head? = some d)
      (ghost : (gs.drop k).head? = some h) :
      Reached { s with db := d, scopes := s.scopes.drop (k + 1) } h (gs.drop (k + 1))

/-- The clock discipline of a database, given the databases its rules' last
searches saw: its tables are dated by its clock, and a rule's last-run time
`L` is the time of its last search, not later than the clock, and every row
live now and written before `L` was live with the same output then. -/
structure Database.Timely (g : History) (d : Database) : Prop where
  dated : d.Dated
  searched : ∀ r L, d.lastRun[r]? = some L →
    ∃ M, g r = some M ∧ M.timestamp = L ∧ L ≤ d.timestamp ∧ d.liveBefore L ⊆ M.liveBefore L

namespace Database.Timely

variable {g : History} {d d' : Database}

theorem initial : Database.initial.Timely fun _ => none where
  dated := by simp [Database.Dated, Database.initial]
  searched := by simp [Database.initial]

theorem steps (h : d.Timely g) (steps : d.Steps d') : d'.Timely g where
  dated := steps.dated h.dated
  searched r L last := by
    rw [steps.lastRun_eq] at last
    obtain ⟨M, found, stamp, le, sub⟩ := h.searched r L last
    exact ⟨M, found, stamp, Nat.le_trans le steps.timestamp_le,
      List.Subset.trans (steps.liveBefore_subset le) sub⟩

theorem round (h : d.Timely g) (round : d.Round d') : d'.Timely (g.searched d d') where
  dated := round.dated h.dated
  searched r L last := by
    have clock := round.timestamp_eq
    by_cases same : d'.lastRun[r]? = d.lastRun[r]?
    · -- the rule was not searched in this round: its old record stands
      obtain ⟨M, found, stamp, le, sub⟩ := h.searched r L (same ▸ last)
      refine ⟨M, by simp [History.searched, same, found], stamp, by omega, ?_⟩
      exact List.Subset.trans (round.liveBefore_subset le) sub
    · -- the rule was searched in this round, at the clock's time
      have now : L = d.timestamp := by
        rcases round.lastRun r with kept | stamped
        · exact absurd kept same
        · rw [stamped, Option.some.injEq] at last
          exact last.symm
      subst now
      exact ⟨d, by simp [History.searched, same], rfl, by omega,
        round.liveBefore_subset (Nat.le_refl _)⟩

end Database.Timely

/-- Every reached session and every database it saved keep the clock
discipline, each with its own record of searches. -/
theorem Session.Reached.timely {s : Session} {g : History} {gs : List History}
    (reached : s.Reached g gs) :
    s.db.Timely g ∧ List.Forall₂ (fun d h => d.Timely h) s.scopes gs := by
  induction reached with
  | initial => exact ⟨.initial, .nil⟩
  | moves _ m ih => exact ⟨ih.1.steps m.steps, m.keeps.scopes ▸ ih.2⟩
  | search _ _ run alive ih =>
    have applies := Engine.stepRules_run_applies run alive
    exact ⟨ih.1.round applies.round, applies.keeps.scopes ▸ ih.2⟩
  | push _ ih => exact ⟨ih.1, .cons ih.1 ih.2⟩
  | pop _ k top ghost ih =>
    exact ⟨List.Forall₂.head?_drop ih.2 k top ghost, List.forall₂_drop (k + 1) ih.2⟩

end Saturate
