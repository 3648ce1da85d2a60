import Mathlib
import Saturate.Typing.Constraint

/-!
# Sort inference is sound and commits only what is forced

Read a total assignment (a sort at every term key) as a model of the constraints: equalities
and assignments compare sorts by name, a conjunction holds when all its members do, a choice
when some alternative does, and an impossibility never (`Constraint.Holds`). Both this reading
and the weaker one the solver guarantees for its answer (`Constraint.Consistent`: what is
assigned agrees) are instances of one definition, `Constraint.Meets`.

What one update does is said once (`Assignment.Grows`, `Constraint.update_grows`): it keeps
every sort, assigns only terms of the constraint, and reports growth exactly when it assigns a
term more. So each growing pass assigns one more of the finitely many terms of the problem, and
the fuel of `Problem.solve` is never what stops it (`Problem.fixpoint_stops`). Every total
assignment that satisfies the constraints and extends an assignment lets the update succeed and
extends its result (`Constraint.update_extendedBy`): a choice whose alternative holds always
survives, so a committed alternative is the one that holds. The main statement is
`Problem.solve_sound_and_forced`.
-/

namespace Saturate

namespace Constraint

/-- Induction over constraints with a hypothesis for every member of a conjunction or a
choice. -/
@[induction_eliminator]
theorem induction_on {P : Constraint → Prop}
    (eq : ∀ x y, P (.eq x y)) (assign : ∀ x s, P (.assign x s))
    (all : ∀ cs, (∀ c ∈ cs, P c) → P (.all cs)) (oneOf : ∀ cs, (∀ c ∈ cs, P c) → P (.oneOf cs))
    (impossible : ∀ why, P (.impossible why)) (c : Constraint) : P c :=
  @Constraint.rec P (fun cs => ∀ c ∈ cs, P c) eq assign all oneOf impossible
    (fun _ mem => by cases mem)
    (fun c cs first rest d mem => by
      rcases List.mem_cons.mp mem with rfl | later
      · exact first
      · exact rest d later)
    c

mutual

/-- The terms a constraint mentions, one entry per occurrence. -/
def terms : Constraint → List AtomTerm
  | .eq x y => [x, y]
  | .assign x _ => [x]
  | .all cs => termsOf cs
  | .oneOf cs => termsOf cs
  | .impossible _ => []

/-- The terms a list of constraints mentions. -/
def termsOf : List Constraint → List AtomTerm
  | [] => []
  | c :: cs => c.terms ++ termsOf cs

end

theorem termsOf_cons (c : Constraint) (cs : List Constraint) :
    termsOf (c :: cs) = c.terms ++ termsOf cs := by
  rw [termsOf]

theorem terms_subset_termsOf {c : Constraint} {cs : List Constraint} (mem : c ∈ cs) :
    c.terms ⊆ termsOf cs := by
  induction cs with
  | nil => cases mem
  | cons d cs ih =>
    rw [termsOf_cons]
    rcases List.mem_cons.mp mem with rfl | later
    · exact List.subset_append_left _ _
    · exact List.Subset.trans (ih later) (List.subset_append_right _ _)

mutual

/-- A constraint is met when its equalities and assignments are, as `same` and `has` read
them: every member of a conjunction, some alternative of a choice, and never an
impossibility. -/
def Meets (same : AtomTerm → AtomTerm → Prop) (has : AtomTerm → SortInfo → Prop) :
    Constraint → Prop
  | .eq x y => same x y
  | .assign x s => has x s
  | .all cs => MeetsAll same has cs
  | .oneOf cs => MeetsSome same has cs
  | .impossible _ => False

/-- Every constraint of a list is met. -/
def MeetsAll (same : AtomTerm → AtomTerm → Prop) (has : AtomTerm → SortInfo → Prop) :
    List Constraint → Prop
  | [] => True
  | c :: cs => Meets same has c ∧ MeetsAll same has cs

/-- Some constraint of a list is met. -/
def MeetsSome (same : AtomTerm → AtomTerm → Prop) (has : AtomTerm → SortInfo → Prop) :
    List Constraint → Prop
  | [] => False
  | c :: cs => Meets same has c ∨ MeetsSome same has cs

end

section Meets

variable {same same' : AtomTerm → AtomTerm → Prop} {has has' : AtomTerm → SortInfo → Prop}

@[simp] theorem meets_eq (x y : AtomTerm) : Meets same has (.eq x y) ↔ same x y := by
  rw [Meets]

@[simp] theorem meets_assign (x : AtomTerm) (s : SortInfo) : Meets same has (.assign x s) ↔ has x s := by
  rw [Meets]

@[simp] theorem meets_impossible (why : Impossible) : ¬ Meets same has (.impossible why) := by
  rw [Meets]
  exact id

theorem meetsAll_iff (cs : List Constraint) : MeetsAll same has cs ↔ ∀ c ∈ cs, Meets same has c := by
  induction cs with
  | nil => simp [MeetsAll]
  | cons c cs ih => simp [MeetsAll, ih]

theorem meetsSome_iff (cs : List Constraint) : MeetsSome same has cs ↔ ∃ c ∈ cs, Meets same has c := by
  induction cs with
  | nil => simp [MeetsSome]
  | cons c cs ih => simp [MeetsSome, ih]

@[simp] theorem meets_all (cs : List Constraint) :
    Meets same has (.all cs) ↔ ∀ c ∈ cs, Meets same has c := by
  rw [Meets, meetsAll_iff]

@[simp] theorem meets_oneOf (cs : List Constraint) :
    Meets same has (.oneOf cs) ↔ ∃ c ∈ cs, Meets same has c := by
  rw [Meets, meetsSome_iff]

/-- Weaker readings of equalities and assignments meet more. -/
theorem Meets.mono (hsame : ∀ x y, same x y → same' x y) (hhas : ∀ x s, has x s → has' x s)
    {c : Constraint} (h : Meets same has c) : Meets same' has' c := by
  induction c with
  | eq x y => simpa using hsame x y (by simpa using h)
  | assign x s => simpa using hhas x s (by simpa using h)
  | all cs ih =>
    simp only [meets_all] at h ⊢
    exact fun c mem => ih c mem (h c mem)
  | oneOf cs ih =>
    simp only [meets_oneOf] at h ⊢
    obtain ⟨c, mem, met⟩ := h
    exact ⟨c, mem, ih c mem met⟩
  | impossible why => simp at h

end Meets

/-- A total assignment, a sort at every term key, satisfies a constraint. Sorts compare by
name, and a choice holds when some alternative does. -/
def Holds (σ : AtomTerm → SortInfo) : Constraint → Prop :=
  Meets (fun x y => (σ x.key).name = (σ y.key).name) (fun x s => (σ x.key).name = s.name)

/-- A partial assignment is consistent with a constraint: every equality and assignment whose
terms it assigns holds, every member of a conjunction is consistent, and some alternative of
every choice. -/
def Consistent (a : Assignment) : Constraint → Prop :=
  Meets (fun x y => ∀ s₁ s₂, a.sortOf? x = some s₁ → a.sortOf? y = some s₂ → s₁.name = s₂.name)
    (fun x s => ∀ s', a.sortOf? x = some s' → s'.name = s.name)

theorem mem_tryEach {cs : List Constraint} {a : Assignment} {r : Assignment × Bool} :
    r ∈ (tryEach cs a).1 ↔ ∃ c ∈ cs, c.update a = .ok r := by
  induction cs with
  | nil => simp [tryEach]
  | cons c cs ih =>
    rw [tryEach]
    rcases h : update c a with e | r'
    · simp [ih, h]
    · simp [ih, h, eq_comm]

end Constraint

namespace Assignment

/-- What an update may do to an assignment: keep every sort it holds, add sorts only at the
keys of `terms`, and change nothing unless it reports growth, when it adds a key. -/
structure Grows (a a' : Assignment) (grew : Bool) (terms : List AtomTerm) : Prop where
  keeps : ∀ (k : AtomTerm) s, a[k]? = some s → a'[k]? = some s
  within : ∀ k ∈ a', k ∈ a ∨ k ∈ terms.map AtomTerm.key
  same : grew = false → a' = a
  adds : grew = true → ∃ k ∈ a', k ∉ a

namespace Grows

variable {a b c : Assignment} {g g' : Bool} {T T' : List AtomTerm}

theorem refl (a : Assignment) (T : List AtomTerm) : Grows a a false T :=
  ⟨fun _ _ => id, fun _ mem => .inl mem, fun _ => rfl, fun h => by cases h⟩

theorem mono (h : Grows a b g T) (sub : T ⊆ T') : Grows a b g T' :=
  ⟨h.keeps, fun k mem => (h.within k mem).imp_right fun m => List.map_subset _ sub m, h.same, h.adds⟩

theorem mem {k : AtomTerm} (h : Grows a b g T) (mem : k ∈ a) : k ∈ b := by
  obtain ⟨s, found⟩ := Option.isSome_iff_exists.mp (Std.HashMap.mem_iff_isSome_getElem?.mp mem)
  exact Std.HashMap.mem_iff_isSome_getElem?.mpr (by rw [h.keeps k s found]; rfl)

theorem trans (first : Grows a b g T) (second : Grows b c g' T') :
    Grows a c (g || g') (T ++ T') := by
  refine ⟨fun k s found => second.keeps k s (first.keeps k s found), ?_, ?_, ?_⟩
  · intro k mem
    rcases second.within k mem with early | added
    · rcases first.within k early with old | added
      · exact .inl old
      · exact .inr (by simp only [List.map_append, List.mem_append]; exact .inl added)
    · exact .inr (by simp only [List.map_append, List.mem_append]; exact .inr added)
  · intro none
    simp only [Bool.or_eq_false_iff] at none
    rw [second.same none.2, first.same none.1]
  · intro some
    cases g with
    | true =>
      obtain ⟨k, added, fresh⟩ := first.adds rfl
      exact ⟨k, second.mem added, fresh⟩
    | false =>
      obtain ⟨k, added, fresh⟩ := second.adds (by simpa using some)
      exact ⟨k, added, by rwa [first.same rfl] at fresh⟩

end Grows

theorem grows_assign {t : AtomTerm} (a : Assignment) (s : SortInfo) (fresh : a.sortOf? t = none) :
    Grows a (a.assign t s) true [t] := by
  have unassigned : t.key ∉ a := fun mem => by
    have found := Std.HashMap.mem_iff_isSome_getElem?.mp mem
    simp only [sortOf?, Std.HashMap.get?_eq_getElem?] at fresh
    simp [fresh] at found
  refine ⟨fun k s' found => ?_, fun k mem => ?_, fun h => (by cases h), fun _ => ?_⟩
  · rw [assign, Std.HashMap.getElem?_insert]
    split
    · rename_i same
      rw [eq_of_beq same] at unassigned
      exact absurd (Std.HashMap.mem_iff_isSome_getElem?.mpr (by rw [found]; rfl)) unassigned
    · exact found
  · rw [assign, Std.HashMap.mem_insert] at mem
    rcases mem with added | old
    · exact .inr (by simp [eq_of_beq added])
    · exact .inl old
  · exact ⟨t.key, by simp [assign], unassigned⟩

/-- A total assignment `σ` extends `a`: every term that `a` assigns has under `σ` a sort of the
same name. -/
def ExtendedBy (a : Assignment) (σ : AtomTerm → SortInfo) : Prop :=
  ∀ t s, a.sortOf? t = some s → (σ t.key).name = s.name

theorem extendedBy_empty (σ : AtomTerm → SortInfo) : ExtendedBy {} σ := by
  intro t s found
  simp [sortOf?] at found

theorem ExtendedBy.assign {a : Assignment} {σ : AtomTerm → SortInfo} (h : a.ExtendedBy σ)
    {t : AtomTerm} {s : SortInfo} (named : (σ t.key).name = s.name) :
    (a.assign t s).ExtendedBy σ := by
  intro t' s' found
  rw [sortOf?, Assignment.assign, Std.HashMap.get?_insert] at found
  split at found
  · rename_i same
    cases found
    rw [← eq_of_beq same]
    exact named
  · exact h t' s' found

end Assignment

namespace Constraint

open Assignment

theorem updateAll_grows {cs : List Constraint}
    (each : ∀ c ∈ cs, ∀ {a a' g}, c.update a = .ok (a', g) → a.Grows a' g c.terms)
    {a a' : Assignment} {g₀ g : Bool} (h : updateAll cs a g₀ = .ok (a', g)) :
    ∃ g', g = (g₀ || g') ∧ a.Grows a' g' (termsOf cs) := by
  induction cs generalizing a g₀ with
  | nil =>
    rw [updateAll] at h
    cases h
    exact ⟨false, by simp, Grows.refl _ _⟩
  | cons c cs ih =>
    rw [updateAll] at h
    rcases first : update c a with e | ⟨a₁, g₁⟩
    · rw [first] at h
      cases h
    · rw [first] at h
      obtain ⟨g', rfl, rest⟩ := ih (fun d mem => each d (List.mem_cons_of_mem c mem)) h
      refine ⟨g₁ || g', by simp [Bool.or_assoc], ?_⟩
      rw [termsOf_cons]
      exact (each c List.mem_cons_self first).trans rest

/-- An update keeps every sort already assigned, assigns only terms of the constraint, and
reports growth exactly when it assigns a term more. -/
theorem update_grows (c : Constraint) {a a' : Assignment} {g : Bool}
    (h : c.update a = .ok (a', g)) : a.Grows a' g c.terms := by
  induction c generalizing a a' g with
  | eq x y =>
    rw [update] at h
    split at h
    · cases h
      exact (grows_assign a _ ‹_›).mono (by simp [terms])
    · cases h
      exact (grows_assign a _ ‹_›).mono (by simp [terms])
    · split at h
      · cases h
        exact Grows.refl a _
      · cases h
    · cases h
      exact Grows.refl a _
  | assign x s =>
    rw [update] at h
    split at h
    · cases h
      exact grows_assign a s ‹_›
    · split at h
      · cases h
        exact Grows.refl a _
      · cases h
  | all cs ih =>
    rw [update] at h
    obtain ⟨g', rfl, grows⟩ := updateAll_grows ih h
    rw [terms]
    simpa using grows
  | oneOf cs ih =>
    rw [update] at h
    rcases tried : tryEach cs a with ⟨survivors, errors⟩
    rw [tried] at h
    dsimp only at h
    split at h
    · cases h
    · cases h
      have survived : (a', g) ∈ (tryEach cs a).1 := by simp [tried]
      obtain ⟨c, mem, updated⟩ := mem_tryEach.mp survived
      rw [terms]
      exact (ih c mem updated).mono (terms_subset_termsOf mem)
    · cases h
      exact Grows.refl a _
  | impossible why =>
    rw [update] at h
    cases h

theorem updateAll_extendedBy {σ : AtomTerm → SortInfo} {cs : List Constraint}
    (each : ∀ c ∈ cs, ∀ {a : Assignment}, a.ExtendedBy σ → c.Holds σ →
      ∃ a' g, c.update a = .ok (a', g) ∧ a'.ExtendedBy σ)
    (holds : ∀ c ∈ cs, c.Holds σ) {a : Assignment} (below : a.ExtendedBy σ) (g₀ : Bool) :
    ∃ a' g, updateAll cs a g₀ = .ok (a', g) ∧ a'.ExtendedBy σ := by
  induction cs generalizing a g₀ with
  | nil => exact ⟨a, g₀, by rw [updateAll], below⟩
  | cons c cs ih =>
    obtain ⟨a₁, g₁, first, below₁⟩ := each c List.mem_cons_self below (holds c List.mem_cons_self)
    obtain ⟨a', g, rest, below'⟩ := ih (fun d mem => each d (List.mem_cons_of_mem c mem))
      (fun d mem => holds d (List.mem_cons_of_mem c mem)) below₁ (g₀ || g₁)
    refine ⟨a', g, ?_, below'⟩
    rw [updateAll, first]
    exact rest

/-- Every total assignment that satisfies a constraint and extends an assignment lets the update
succeed and extends its result: the update assigns only what the constraint forces. -/
theorem update_extendedBy {σ : AtomTerm → SortInfo} (c : Constraint) {a : Assignment}
    (below : a.ExtendedBy σ) (holds : c.Holds σ) :
    ∃ a' g, c.update a = .ok (a', g) ∧ a'.ExtendedBy σ := by
  induction c generalizing a with
  | eq x y =>
    simp only [Holds, meets_eq] at holds
    rw [update]
    rcases hx : a.sortOf? x with _ | s₁ <;> rcases hy : a.sortOf? y with _ | s₂
    · exact ⟨a, false, rfl, below⟩
    · exact ⟨_, true, rfl, below.assign (holds.trans (below y s₂ hy))⟩
    · exact ⟨_, true, rfl, below.assign (holds.symm.trans (below x s₁ hx))⟩
    · have named : s₁.name = s₂.name := (below x s₁ hx).symm.trans (holds.trans (below y s₂ hy))
      exact ⟨a, false, by simp [named], below⟩
  | assign x s =>
    simp only [Holds, meets_assign] at holds
    rw [update]
    rcases hx : a.sortOf? x with _ | s'
    · exact ⟨_, true, rfl, below.assign holds⟩
    · have named : s'.name = s.name := (below x s' hx).symm.trans holds
      exact ⟨a, false, by simp [named], below⟩
  | all cs ih =>
    simp only [Holds, meets_all] at holds
    rw [update]
    exact updateAll_extendedBy ih holds below false
  | oneOf cs ih =>
    simp only [Holds, meets_oneOf] at holds
    obtain ⟨c, mem, met⟩ := holds
    obtain ⟨a₁, g₁, updated, below₁⟩ := ih c mem below met
    have survived : (a₁, g₁) ∈ (tryEach cs a).1 := mem_tryEach.mpr ⟨c, mem, updated⟩
    rw [update]
    rcases tried : tryEach cs a with ⟨survivors, errors⟩
    rw [tried] at survived
    dsimp only
    rcases survivors with _ | ⟨r, _ | ⟨r', rest⟩⟩
    · cases survived
    · rw [List.mem_singleton] at survived
      subst survived
      exact ⟨a₁, g₁, rfl, below₁⟩
    · exact ⟨a, false, rfl, below⟩
  | impossible why => simp [Holds] at holds

/-- An assignment consistent with a constraint stays so with fewer sorts. -/
theorem Consistent.of_keeps {a b : Assignment} {c : Constraint} (h : c.Consistent b)
    (keeps : ∀ (k : AtomTerm) s, a[k]? = some s → b[k]? = some s) : c.Consistent a := by
  have sorts : ∀ t s, a.sortOf? t = some s → b.sortOf? t = some s := by
    intro t s found
    simpa [Assignment.sortOf?] using keeps t.key s (by simpa [Assignment.sortOf?] using found)
  refine Meets.mono (fun x y same s₁ s₂ hx hy => same s₁ s₂ (sorts x s₁ hx) (sorts y s₂ hy))
    (fun x s has s' hx => has s' (sorts x s' hx)) h

theorem updateAll_consistent {cs : List Constraint}
    (each : ∀ c ∈ cs, ∀ {a a' : Assignment} {g : Bool}, c.update a = .ok (a', g) → c.Consistent a)
    {a a' : Assignment} {g₀ g : Bool} (h : updateAll cs a g₀ = .ok (a', g)) :
    ∀ c ∈ cs, c.Consistent a := by
  induction cs generalizing a g₀ with
  | nil => simp
  | cons c cs ih =>
    rw [updateAll] at h
    rcases first : update c a with e | ⟨a₁, g₁⟩
    · rw [first] at h
      cases h
    · rw [first] at h
      have kept := (update_grows c first).keeps
      intro d mem
      rcases List.mem_cons.mp mem with rfl | later
      · exact each d List.mem_cons_self first
      · exact (ih (fun d mem => each d (List.mem_cons_of_mem c mem)) h d later).of_keeps kept

/-- An assignment that a constraint updates without failing is consistent with it. -/
theorem update_consistent (c : Constraint) {a a' : Assignment} {g : Bool}
    (h : c.update a = .ok (a', g)) : c.Consistent a := by
  induction c generalizing a a' g with
  | eq x y =>
    simp only [Consistent, meets_eq]
    intro s₁ s₂ hx hy
    rw [update, hx, hy] at h
    dsimp only at h
    split at h
    · assumption
    · cases h
  | assign x s =>
    simp only [Consistent, meets_assign]
    intro s' hx
    rw [update, hx] at h
    dsimp only at h
    split at h
    · assumption
    · cases h
  | all cs ih =>
    rw [update] at h
    simp only [Consistent, meets_all]
    exact updateAll_consistent ih h
  | oneOf cs ih =>
    rw [update] at h
    simp only [Consistent, meets_oneOf]
    rcases tried : tryEach cs a with ⟨survivors, errors⟩
    rw [tried] at h
    dsimp only at h
    rcases survivors with _ | ⟨r, rest⟩
    · cases h
    · have survived : r ∈ (tryEach cs a).1 := by simp [tried]
      obtain ⟨c, mem, updated⟩ := mem_tryEach.mp survived
      exact ⟨c, mem, ih c mem updated⟩
  | impossible why =>
    rw [update] at h
    cases h

theorem foldl_sizes {cs : List Constraint} (each : ∀ c ∈ cs, c.size = c.terms.length) (n : Nat) :
    (cs.map size).foldl (· + ·) n = n + (termsOf cs).length := by
  induction cs generalizing n with
  | nil => simp [termsOf]
  | cons c cs ih =>
    rw [List.map_cons, List.foldl_cons, ih (fun d mem => each d (List.mem_cons_of_mem c mem)),
      each c List.mem_cons_self, termsOf_cons, List.length_append]
    omega

/-- The size of a constraint counts the occurrences of its terms. -/
theorem size_eq_length_terms (c : Constraint) : c.size = c.terms.length := by
  induction c with
  | eq x y => simp [size, terms]
  | assign x s => simp [size, terms]
  | all cs ih =>
    simp only [size, List.map_attach_eq_pmap, List.pmap_eq_map]
    rw [foldl_sizes ih, terms]
    simp
  | oneOf cs ih =>
    simp only [size, List.map_attach_eq_pmap, List.pmap_eq_map]
    rw [foldl_sizes ih, terms]
    simp
  | impossible why => simp [size, terms]

end Constraint

namespace Problem

open Constraint Assignment

variable {p : Problem}

/-- The keys of the terms of a problem that an assignment gives no sort. -/
def unassigned (p : Problem) (a : Assignment) : Finset AtomTerm :=
  ((termsOf p).map AtomTerm.key).toFinset.filter (· ∉ a)

theorem pass_grows {a a' : Assignment} {g : Bool} (h : p.pass a = .ok (a', g)) :
    a.Grows a' g (termsOf p) := by
  obtain ⟨g', rfl, grows⟩ := updateAll_grows (fun c _ => update_grows c) h
  simpa using grows

/-- A pass that grows the assignment leaves fewer terms of the problem without a sort. -/
theorem unassigned_lt {a a' : Assignment} (h : a.Grows a' true (termsOf p)) :
    (p.unassigned a').card < (p.unassigned a).card := by
  obtain ⟨k, added, fresh⟩ := h.adds rfl
  apply Finset.card_lt_card
  rw [Finset.ssubset_iff_of_subset]
  · refine ⟨k, ?_, ?_⟩
    · have mentioned := (h.within k added).resolve_left fresh
      simp only [unassigned, Finset.mem_filter, List.mem_toFinset]
      exact ⟨mentioned, fresh⟩
    · simp [unassigned, added]
  · intro j
    simp only [unassigned, Finset.mem_filter, List.mem_toFinset]
    rintro ⟨mentioned, missing⟩
    exact ⟨mentioned, fun old => missing (h.mem old)⟩

/-- With fuel above the number of unassigned terms, the passes stop because one changes
nothing, never because the fuel runs out. -/
theorem fixpoint_stops (fuel : Nat) {a a' : Assignment} (enough : (p.unassigned a).card < fuel)
    (h : p.fixpoint fuel a = .ok a') : p.pass a' = .ok (a', false) := by
  induction fuel generalizing a with
  | zero => omega
  | succ fuel ih =>
    rw [fixpoint] at h
    rcases passed : p.pass a with e | ⟨a₁, _ | _⟩
    · rw [passed] at h
      cases h
    · rw [passed] at h
      cases h
      have same := (pass_grows passed).same rfl
      subst same
      exact passed
    · rw [passed] at h
      exact ih (by have := unassigned_lt (pass_grows passed); omega) h

theorem pass_extendedBy {σ : AtomTerm → SortInfo} (holds : ∀ c ∈ p, c.Holds σ) {a : Assignment}
    (below : a.ExtendedBy σ) : ∃ a' g, p.pass a = .ok (a', g) ∧ a'.ExtendedBy σ :=
  updateAll_extendedBy (fun c _ => update_extendedBy c) holds below false

/-- From an assignment that a satisfying total assignment extends, the passes never fail and
every assignment they reach is extended by it too. -/
theorem fixpoint_extendedBy {σ : AtomTerm → SortInfo} (holds : ∀ c ∈ p, c.Holds σ) (fuel : Nat)
    {a : Assignment} (below : a.ExtendedBy σ) :
    ∃ a', p.fixpoint fuel a = .ok a' ∧ a'.ExtendedBy σ := by
  induction fuel generalizing a with
  | zero => exact ⟨a, rfl, below⟩
  | succ fuel ih =>
    obtain ⟨a₁, g, passed, below₁⟩ := pass_extendedBy holds below
    rw [fixpoint, passed]
    cases g with
    | true => exact ih below₁
    | false => exact ⟨a₁, rfl, below₁⟩

theorem pass_consistent {a a' : Assignment} {g : Bool} (h : p.pass a = .ok (a', g)) :
    ∀ c ∈ p, c.Consistent a :=
  updateAll_consistent (fun c _ => update_consistent c) h

/-- The fuel of `solve` is above the number of terms it can assign. -/
theorem unassigned_lt_fuel : (p.unassigned {}).card < (p.map size).foldl (· + ·) 0 + 1 := by
  rw [foldl_sizes (fun c _ => size_eq_length_terms c), Nat.zero_add, Nat.lt_succ_iff]
  calc (p.unassigned {}).card
      ≤ ((termsOf p).map AtomTerm.key).toFinset.card := Finset.card_filter_le _ _
    _ ≤ ((termsOf p).map AtomTerm.key).length := List.toFinset_card_le _
    _ = (termsOf p).length := List.length_map _

theorem solve_ok {range : List AtomTerm} {a : Assignment} (h : p.solve range = .ok a) :
    p.fixpoint ((p.map size).foldl (· + ·) 0 + 1) {} = .ok a ∧
      ∀ t ∈ range, (a.sortOf? t).isSome := by
  rw [solve] at h
  rcases fixed : p.fixpoint ((p.map size).foldl (· + ·) 0 + 1) {} with e | a₁
  · rw [fixed] at h
    cases h
  · rw [fixed] at h
    simp only [bind, Except.bind] at h
    rcases found : range.find? (fun t => (a₁.sortOf? t).isNone) with _ | t
    · rw [found] at h
      cases h
      refine ⟨rfl, fun t mem => ?_⟩
      exact Option.ne_none_iff_isSome.mp (by simpa using List.find?_eq_none.mp found t mem)
    · rw [found] at h
      dsimp only at h
      split at h <;> cases h

/-- A failure of `solve` is a failure of the passes, or names a term of the range. -/
theorem solve_error {range : List AtomTerm} {e : ConstraintError} (h : p.solve range = .error e) :
    p.fixpoint ((p.map size).foldl (· + ·) 0 + 1) {} = .error e ∨
      ∃ t ∈ range, e = .unconstrained t ∨ ∃ cands, e = .ambiguous t cands := by
  rw [solve] at h
  rcases fixed : p.fixpoint ((p.map size).foldl (· + ·) 0 + 1) {} with e' | a₁
  · rw [fixed] at h
    cases h
    exact .inl rfl
  · rw [fixed] at h
    simp only [bind, Except.bind] at h
    rcases found : range.find? (fun t => (a₁.sortOf? t).isNone) with _ | t
    · rw [found] at h
      cases h
    · rw [found] at h
      dsimp only at h
      have mem := List.mem_of_find?_eq_some found
      split at h
      · cases h
        exact .inr ⟨t, mem, .inr ⟨_, rfl⟩⟩
      · cases h
        exact .inr ⟨t, mem, .inl rfl⟩

/-- Sort inference is sound and commits only what is forced. A pass never changes a sort once
assigned. A failure of the constraints themselves (not of the range) means no total assignment
satisfies them, and the failure names a term of the range. A solution is a fixpoint of the passes, reached before the fuel runs out; it
assigns every term of the range, is consistent with every constraint, and every total
assignment that satisfies the constraints extends it. -/
theorem solve_sound_and_forced (p : Problem) (range : List AtomTerm) :
    (∀ a a' g, p.pass a = .ok (a', g) → ∀ t s, a.sortOf? t = some s → a'.sortOf? t = some s) ∧
    (∀ e, p.solve range = .error e → (∃ σ, ∀ c ∈ p, c.Holds σ) →
      ∃ t ∈ range, e = .unconstrained t ∨ ∃ cands, e = .ambiguous t cands) ∧
    (∀ a, p.solve range = .ok a →
      p.pass a = .ok (a, false) ∧ (∀ t ∈ range, (a.sortOf? t).isSome) ∧
      (∀ c ∈ p, c.Consistent a) ∧ ∀ σ, (∀ c ∈ p, c.Holds σ) → a.ExtendedBy σ) := by
  refine ⟨fun a a' g passed t s found => ?_, fun e failed satisfiable => ?_, fun a solved => ?_⟩
  · simpa [sortOf?] using (pass_grows passed).keeps t.key s (by simpa [sortOf?] using found)
  · obtain ⟨σ, holds⟩ := satisfiable
    rcases solve_error failed with fixed | fromRange
    · obtain ⟨a', ok, -⟩ := fixpoint_extendedBy holds _ (extendedBy_empty σ)
      rw [ok] at fixed
      cases fixed
    · exact fromRange
  · obtain ⟨fixed, assigned⟩ := solve_ok solved
    have stops := fixpoint_stops _ unassigned_lt_fuel fixed
    refine ⟨stops, assigned, pass_consistent stops, fun σ holds => ?_⟩
    obtain ⟨a', ok, below⟩ := fixpoint_extendedBy holds _ (extendedBy_empty σ)
    rw [fixed] at ok
    cases ok
    exact below

end Problem

end Saturate
