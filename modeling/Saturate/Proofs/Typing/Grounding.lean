import Mathlib
import Saturate.Typing.Resolve
import Saturate.Proofs.Query.Join
import Saturate.Proofs.Typing.Binding

/-!
# Resolved bodies are grounded

Resolution ends by checking that every variable of the body is grounded: the grounded
variables start as those of the table atoms and grow, pass by pass, by the output of each
primitive whose input variables are all grounded (`ResolvedRule.checkGrounded`). Each pass
only adds variables that `Grounds` derives, so the check is sound for it
(`ResolvedRule.grounds_of_checkGrounded`), whatever fuel the passes get.

A primitive is resolved only at a nonempty list of argument sorts, so each primitive atom of a
resolved body has an output. Together (`TypeInfo.grounded_of_resolve`): a body that resolves
with no variables bound by the caller is `Grounded`, which is what the scheduling of its
primitives needs.
-/

namespace Saturate

open CompiledQuery

/-- Every element a successful `filterMapM` keeps comes from an element of the list that the
function kept. -/
theorem mem_of_filterMapM_ok {ε α β : Type} {f : α → Except ε (Option β)} :
    ∀ {xs : List α} {ys : List β}, xs.filterMapM f = .ok ys → ∀ y ∈ ys, ∃ x ∈ xs, f x = .ok (some y) := by
  intro xs
  induction xs with
  | nil =>
    intro ys ran y mem
    cases ran
    cases mem
  | cons x xs ih =>
    intro ys ran y mem
    rw [List.filterMapM_cons] at ran
    obtain ⟨o, first, ran⟩ := Flatten.ok_of_bind ran
    cases o with
    | none =>
      obtain ⟨x', listed, kept⟩ := ih ran y mem
      exact ⟨x', List.mem_cons_of_mem _ listed, kept⟩
    | some b =>
      obtain ⟨bs, rest, ran⟩ := Flatten.ok_of_bind ran
      cases ran
      rcases List.mem_cons.mp mem with rfl | mem
      · exact ⟨x, List.mem_cons_self, first⟩
      · obtain ⟨x', listed, kept⟩ := ih rest y mem
        exact ⟨x', List.mem_cons_of_mem _ listed, kept⟩

namespace ResolvedRule

/-- Iterating `step` keeps every invariant of the grounded names that `step` keeps. -/
theorem mem_close {P : String → Prop} {step : List String → List String}
    (keeps : ∀ g, (∀ v ∈ g, P v) → ∀ v ∈ step g, P v) :
    ∀ fuel g, (∀ v ∈ g, P v) → ∀ v ∈ checkGrounded.close step fuel g, P v := by
  intro fuel
  induction fuel with
  | zero =>
    intro g inv
    rw [checkGrounded.close]
    exact inv
  | succ fuel ih =>
    intro g inv
    rw [checkGrounded.close]
    split
    · exact inv
    · exact ih (step g) (keeps g inv)

/-- **The grounding check is sound.** When it passes with no names bound by the caller, every
variable of the body is grounded by its table atoms and its primitives. -/
theorem grounds_of_checkGrounded {r : ResolvedRule} {bodyVars : List String}
    (checked : r.checkGrounded bodyVars [] = .ok ()) :
    ∀ v ∈ atomVars r.body, Grounds (tableVarsOf r.body) (primAtoms r.body) v := by
  unfold checkGrounded at checked
  dsimp only at checked
  split at checked
  · -- a variable left ungrounded is reported
    cases checked
  · rename_i missing
    intro v mem
    have found := List.find?_eq_none.mp (Option.eq_none_iff_forall_ne_some.mpr missing) v
      (List.mem_append_right _ mem)
    rw [Bool.not_eq_true', Bool.not_eq_false, List.contains_iff_mem] at found
    refine mem_close ?keeps _ _ ?start v found
    case start =>
      intro w hw
      rw [List.append_nil] at hw
      obtain ⟨atom, listed, hw⟩ := List.mem_flatMap.mp hw
      split at hw
      · rename_i f head
        exact .table (List.mem_flatMap.mpr ⟨⟨f.name, atom.args⟩,
          List.mem_filterMap.mpr ⟨atom, listed, by simp [head]⟩, hw⟩)
      · cases hw
    case keeps =>
      intro g inv
      -- one pass adds the output of a primitive whose inputs are grounded already
      refine List.foldlRecOn (motive := fun g => ∀ v ∈ g, Grounds (tableVarsOf r.body) (primAtoms r.body) v)
        _ _ inv fun g inv args listed w hw => ?_
      obtain ⟨atom, inBody, picked⟩ := List.mem_filterMap.mp listed
      split at picked
      · rename_i prim ins head
        cases picked
        have prim : (prim, atom.args) ∈ primAtoms r.body :=
          List.mem_filterMap.mpr ⟨atom, inBody, by simp [head]⟩
        split at hw
        · rename_i out last
          split at hw
          · rename_i v
            split at hw
            · rename_i ready
              rcases List.mem_append.mp hw with old | new
              · exact inv w old
              · rw [List.mem_singleton.mp new]
                rw [Bool.and_eq_true, List.all_eq_true] at ready
                refine .prim prim last fun u hu => inv u ?_
                simpa using ready.1 _ hu
            · exact inv w hw
          · exact inv w hw
        · exact inv w hw
      · cases picked

end ResolvedRule

namespace TypeInfo

/-- A primitive is resolved only at a nonempty list of sorts. -/
theorem sorts_ne_nil_of_resolveCall {ti : TypeInfo} {head : String} {sorts : List SortInfo}
    {prim : Prim} {ins : List SortInfo} (resolved : ti.resolveCall head sorts = .ok (.prim prim ins)) :
    sorts ≠ [] := by
  rintro rfl
  unfold resolveCall at resolved
  -- with no sorts there is neither a function nor a primitive overload to resolve to
  split at resolved <;> simp at resolved

/-- **A resolved body is grounded.** When a rule resolves with no variables bound by the
caller, each primitive atom of its body has an output, and the input variables of each are
grounded by the table atoms and the primitives. -/
theorem grounded_of_resolve {ti : TypeInfo} {rule : CoreRule} {r : ResolvedRule}
    (resolved : ti.resolve rule [] = .ok r) : Grounded (tableVarsOf r.body) (primAtoms r.body) := by
  unfold resolve at resolved
  dsimp only at resolved
  obtain ⟨bodyCs, -, resolved⟩ := Flatten.ok_of_bind resolved
  obtain ⟨headCs, -, resolved⟩ := Flatten.ok_of_bind resolved
  obtain ⟨assignment, -, resolved⟩ := Flatten.ok_of_bind resolved
  obtain ⟨⟨rule', subst, unsat⟩, canon⟩ : ∃ x, rule.canonicalize = x := ⟨_, rfl⟩
  rw [canon] at resolved
  dsimp only at resolved
  obtain ⟨atoms, atomsOk, resolved⟩ := Flatten.ok_of_bind resolved
  obtain ⟨head, -, resolved⟩ := Flatten.ok_of_bind resolved
  obtain ⟨varTypes, -, resolved⟩ := Flatten.ok_of_bind resolved
  obtain ⟨u, checked, resolved⟩ := Flatten.ok_of_bind resolved
  cases resolved
  rw [List.map_nil] at checked
  intro x mem
  obtain ⟨atom, listed, ins, isPrim, args⟩ := mem_primAtoms mem
  refine ⟨?nonempty, fun w hw => ResolvedRule.grounds_of_checkGrounded checked w ?body⟩
  case body =>
    rw [mem_atomVars]
    exact List.mem_flatMap.mpr ⟨atom, listed, List.mem_filterMap.mpr
      ⟨.var w, args ▸ List.mem_of_mem_dropLast hw, rfl⟩⟩
  case nonempty =>
    -- the atom is a symbol resolved to a primitive at the sorts of its arguments
    obtain ⟨a, -, made⟩ := mem_of_filterMapM_ok atomsOk atom listed
    split at made
    · cases made
    · rename_i h _
      obtain ⟨sorts, sortsOk, made⟩ := Flatten.ok_of_bind made
      obtain ⟨c, called, made⟩ := Flatten.ok_of_bind made
      cases made
      rw [← args]
      dsimp only at isPrim ⊢
      rw [isPrim] at called
      intro empty
      rw [empty, List.mapM_nil] at sortsOk
      cases sortsOk
      exact sorts_ne_nil_of_resolveCall called rfl

end TypeInfo

end Saturate
