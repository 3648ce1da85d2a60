import Mathlib.Data.List.Forall2
import Mathlib.Data.List.Perm.Basic
import Saturate.Proofs.Query.Search

/-!
What `CompiledQuery.compile` builds from a body.

* `occurs_occurrences`, `occurs_orderVars`: the table variables, once each,
  with the atoms that mention each (`Occurs`).
* `schedule_spec`: from a state with enough fuel, `schedule` binds the table
  slots in order and places every primitive of a grounded body (`Grounded`:
  each input variable is a table variable or the output of a primitive whose
  inputs are grounded). The program it builds has the shape `Scheduled`:
  intersections bind the table slots one after another, and each call reads
  bound slots and either binds the next slot past them or checks a bound slot
  or a constant. Its calls are exactly the primitive atoms, compiled
  (`CallOf`).
* `extra_nil_of_stuck` is the step that needs grounding: once every table
  slot is bound, a primitive that is not ready waits for an input no
  primitive can give.
* `compile_spec` puts these together for `compile`.
-/

namespace Saturate

namespace CompiledQuery

/-- `acc` lists once each variable that `seen` pairs with an atom, with the
atoms it pairs it with. -/
structure Occurs (seen : Nat → String → Prop) (acc : List (String × List Nat)) : Prop where
  nodup : (acc.map (·.1)).Nodup
  atoms : ∀ v is, (v, is) ∈ acc → ∀ j, j ∈ is ↔ seen j v
  vars : ∀ j v, seen j v → v ∈ acc.map (·.1)
  nonempty : ∀ v is, (v, is) ∈ acc → is ≠ []

theorem Occurs.congr {seen seen' : Nat → String → Prop} {acc : List (String × List Nat)}
    (h : Occurs seen acc) (same : ∀ j v, seen j v ↔ seen' j v) : Occurs seen' acc :=
  ⟨h.nodup, fun v is mem j => (h.atoms v is mem j).trans (same j v),
    fun j v hv => h.vars j v ((same j v).mpr hv), h.nonempty⟩

/-- Adding that atom `i` mentions `v`: a new variable goes at the end, a
known one gets `i` at the end of its atoms unless it is already there. -/
theorem Occurs.add {seen : Nat → String → Prop} {acc : List (String × List Nat)}
    (h : Occurs seen acc) (v : String) (i : Nat) :
    Occurs (fun j w => seen j w ∨ (j = i ∧ w = v))
      (if (acc.any fun x => x.fst == v) = true then
        acc.map fun x => if (x.fst == v) = true then
          (x.fst, if (x.snd.getLast? == some i) = true then x.snd else x.snd ++ [i]) else (x.fst, x.snd)
      else acc ++ [(v, [i])]) := by
  split
  · rename_i known
    obtain ⟨⟨w₀, is₀⟩, mem₀, same₀⟩ := List.any_eq_true.mp known
    have hv : v ∈ acc.map (·.1) := List.mem_map.mpr ⟨_, mem₀, by simpa using same₀⟩
    -- the update keeps every variable in its place
    have keys : (acc.map fun x => if (x.fst == v) = true then
        (x.fst, if (x.snd.getLast? == some i) = true then x.snd else x.snd ++ [i])
        else (x.fst, x.snd)).map (·.1) = acc.map (·.1) := by
      rw [List.map_map]
      apply List.map_congr_left
      intro x _
      dsimp only [Function.comp]
      split <;> rfl
    refine ⟨keys ▸ h.nodup, fun w is' mem' j => ?_, fun j w hw => keys ▸ ?_, fun w is' mem' => ?_⟩
    · obtain ⟨⟨w', is⟩, mem, hx⟩ := List.mem_map.mp mem'
      dsimp only at hx
      split at hx
      · rename_i same
        simp only [beq_iff_eq] at same
        subst same
        obtain ⟨rfl, rfl⟩ := Prod.mk.inj hx
        rw [← h.atoms w' is mem j]
        split
        · rename_i last
          have : i ∈ is := List.mem_of_getLast? (by simpa using last)
          constructor
          · exact fun hj => .inl hj
          · rintro (hj | ⟨rfl, -⟩) <;> assumption
        · simp [or_comm]
      · rename_i other
        simp only [beq_iff_eq] at other
        obtain ⟨rfl, rfl⟩ := Prod.mk.inj hx
        rw [h.atoms w' is mem j]
        simp [other]
    · rcases hw with hw | ⟨-, rfl⟩
      · exact h.vars j w hw
      · exact hv
    · obtain ⟨⟨w', is⟩, mem, hx⟩ := List.mem_map.mp mem'
      have := h.nonempty w' is mem
      dsimp only at hx
      split at hx <;> obtain ⟨rfl, rfl⟩ := Prod.mk.inj hx
      · split <;> simp [this]
      · exact this
  · rename_i fresh
    have absent : v ∉ acc.map (·.1) := by
      intro hv
      obtain ⟨x, mem, rfl⟩ := List.mem_map.mp hv
      exact fresh (List.any_eq_true.mpr ⟨x, mem, by simp⟩)
    have keys : (acc ++ [(v, [i])]).map (·.1) = acc.map (·.1) ++ [v] := by simp
    refine ⟨?_, fun w is mem j => ?_, fun j w hw => ?_, fun w is mem => ?_⟩
    · rw [keys]
      refine List.nodup_append.mpr ⟨h.nodup, by simp, fun a ha b hb => ?_⟩
      rw [List.mem_singleton.mp hb]
      rintro rfl
      exact absent ha
    · rcases List.mem_append.mp mem with mem | mem
      · have : w ≠ v := fun same => absent (List.mem_map.mpr ⟨_, mem, same⟩)
        rw [h.atoms w is mem j]
        simp [this]
      · obtain ⟨rfl, rfl⟩ := Prod.mk.inj (List.mem_singleton.mp mem)
        have : ¬ seen j w := fun hw => absent (h.vars j w hw)
        simp [this]
    · rw [keys]
      rcases hw with hw | ⟨-, rfl⟩
      · exact List.mem_append_left _ (h.vars j w hw)
      · simp
    · rcases List.mem_append.mp mem with mem | mem
      · exact h.nonempty w is mem
      · obtain ⟨-, rfl⟩ := Prod.mk.inj (List.mem_singleton.mp mem)
        simp

/-- The variables of the atoms read, with the atoms that mention each. -/
theorem occurs_occurrences (atoms : List TableAtom) :
    Occurs (fun j v => ∃ a, atoms[j]? = some a ∧ v ∈ a.vars) (occurrences atoms) := by
  unfold occurrences
  dsimp only
  refine Occurs.congr (foldl_induction_on
    (fun pre acc => Occurs (fun j v => ∃ a, (a, j) ∈ pre ∧ v ∈ a.vars) acc) ?step _
    ⟨by simp, by simp, by simp, by simp⟩) fun j v => ?same
  case same =>
    constructor
    · rintro ⟨a, mem, hv⟩
      exact ⟨a, List.mem_zipIdx_iff_getElem?.mp mem, hv⟩
    · rintro ⟨a, found, hv⟩
      exact ⟨a, List.mem_zipIdx_iff_getElem?.mpr found, hv⟩
  case step =>
    rintro pre ⟨a, i⟩ acc h
    refine Occurs.congr (foldl_induction_on
      (fun pre' acc => Occurs (fun j v => (∃ a', (a', j) ∈ pre ∧ v ∈ a'.vars) ∨ (j = i ∧ v ∈ pre'))
        acc) ?add _ (h.congr (by simp))) fun j v => ?same
    case same =>
      simp only [List.mem_append, List.mem_singleton, Prod.mk.injEq]
      constructor
      · rintro (⟨a', mem, hv⟩ | ⟨rfl, hv⟩)
        · exact ⟨a', .inl mem, hv⟩
        · exact ⟨a, .inr ⟨rfl, rfl⟩, hv⟩
      · rintro ⟨a', mem | ⟨rfl, rfl⟩, hv⟩
        · exact .inl ⟨a', mem, hv⟩
        · exact .inr ⟨rfl, hv⟩
    case add =>
      intro pre' v acc h
      refine (h.add v i).congr fun j w => ?_
      simp only [List.mem_append, List.mem_singleton, and_or_left, or_assoc]

/-- The order of the table variables keeps what `occurrences` found. -/
theorem occurs_orderVars (size : String → Nat) (atoms : List TableAtom) :
    Occurs (fun j v => ∃ a, atoms[j]? = some a ∧ v ∈ a.vars)
      (orderVars size atoms (occurrences atoms)) := by
  have h := occurs_occurrences atoms
  have perm : (orderVars size atoms (occurrences atoms)).Perm (occurrences atoms) :=
    List.mergeSort_perm _ _
  refine ⟨(perm.map _).nodup_iff.mpr h.nodup, fun v is mem j => h.atoms v is (perm.mem_iff.mp mem) j,
    fun j v hv => (perm.map _).mem_iff.mpr (h.vars j v hv),
    fun v is mem => h.nonempty v is (perm.mem_iff.mp mem)⟩

end CompiledQuery

/-! ### Computations that leave the containers alone -/

namespace PoolM

variable {α β : Type}

theorem run_bind_ok {m : PoolM α} {f : α → PoolM β} {p p' : Pool} {b : β}
    (ran : (m >>= f).run p = .ok (b, p')) : ∃ a q, m.run p = .ok (a, q) ∧ (f a).run q = .ok (b, p') := by
  rw [run_bind] at ran
  rcases first : m.run p with e | ⟨a, q⟩
  · simp [first] at ran
  · rw [first] at ran
    exact ⟨a, q, rfl, ran⟩

/-- A `mapM` that succeeds has a result for each argument. -/
theorem length_of_mapM {f : α → PoolM β} {xs : List α} {ys : List β} {p q : Pool}
    (ran : (xs.mapM f).run p = .ok (ys, q)) : ys.length = xs.length := by
  induction xs generalizing ys p with
  | nil =>
    obtain ⟨rfl, rfl⟩ := run_pure_inv ran
    rfl
  | cons x xs ih =>
    rw [List.mapM_cons] at ran
    obtain ⟨y, p₁, -, rest⟩ := run_bind_ok ran
    obtain ⟨ys', p₂, mapped, done⟩ := run_bind_ok rest
    obtain ⟨rfl, rfl⟩ := run_pure_inv done
    simp [ih mapped]

/-- A computation that leaves the container tables as they were. -/
def KeepsTables (m : PoolM α) : Prop := ∀ p a p', m.run p = .ok (a, p') → p'.tables = p.tables

theorem keepsTables_pure (a : α) : (pure a : PoolM α).KeepsTables := by
  intro p b p' ran
  rw [(run_pure_inv ran).2]

theorem KeepsTables.bind {m : PoolM α} {f : α → PoolM β} (hm : m.KeepsTables)
    (hf : ∀ a, (f a).KeepsTables) : (m >>= f).KeepsTables := by
  intro p b p' ran
  obtain ⟨a, q, first, second⟩ := run_bind_ok ran
  rw [hf a q b p' second, hm p a q first]

theorem KeepsTables.map {m : PoolM α} (hm : m.KeepsTables) (f : α → β) : (f <$> m).KeepsTables := by
  rw [map_eq_pure_bind]
  exact hm.bind fun a => keepsTables_pure (f a)

theorem keepsTables_mapM {f : α → PoolM β} (hf : ∀ a, (f a).KeepsTables) :
    ∀ xs : List α, (xs.mapM f).KeepsTables
  | [] => keepsTables_pure []
  | x :: xs => by
    rw [List.mapM_cons]
    exact (hf x).bind fun b => (keepsTables_mapM hf xs).bind fun bs => keepsTables_pure (b :: bs)

end PoolM

theorem Literal.toValue_keepsTables (l : Literal) : l.toValue.KeepsTables :=
  fun _ _ _ ran => (Literal.toValue_result ran).1

theorem List.idxOf?_append_of_mem {l : List String} {v : String} (mem : v ∈ l) (m : List String) :
    (l ++ m).idxOf? v = l.idxOf? v := by
  induction l with
  | nil => simp at mem
  | cons w l ih =>
    simp only [List.cons_append, List.idxOf?_cons]
    split
    · rfl
    · rename_i other
      have : v ∈ l := by
        rcases List.mem_cons.mp mem with rfl | mem
        · simp at other
        · exact mem
      rw [ih this]

/-! ### The shape of a scheduled program -/

/-- Slot `i` is bound once the first `k` table slots are, and the slots from
`nTable` to below `m`. -/
def SlotBound (nTable k m i : Nat) : Prop := i < k ∨ (nTable ≤ i ∧ i < m)

/-- An argument that reads a slot reads a bound one. -/
def Arg.Bound (nTable k m : Nat) : Arg → Prop
  | .slot i => SlotBound nTable k m i
  | .const _ => True

/-- The shape of the programs `schedule` builds, over a tuple of `n` slots of
which the first `nTable` belong to table variables: the intersections bind
the table slots in order, the one of slot `k` over the atoms `occ k`; each
call reads bound slots and binds the next free slot past the table ones, or
checks a bound slot or a constant. `k` table slots and the slots below `m`
are bound so far. -/
inductive Scheduled (nTable n : Nat) (occ : Nat → List Nat) : Nat → Nat → List JoinStep → Prop
  | done {m} (all : m = n) : Scheduled nTable n occ nTable m []
  | intersect {k m rest} (lt : k < nTable) (next : Scheduled nTable n occ (k + 1) m rest) :
      Scheduled nTable n occ k m (.intersect k (occ k) :: rest)
  | bind {k m prim args rest} (reads : ∀ a ∈ args, a.Bound nTable k m) (lt : m < n)
      (next : Scheduled nTable n occ k (m + 1) rest) :
      Scheduled nTable n occ k m (.call prim args (.slot m) false :: rest)
  | check {k m prim args i rest} (reads : ∀ a ∈ args, a.Bound nTable k m)
      (bound : SlotBound nTable k m i) (next : Scheduled nTable n occ k m rest) :
      Scheduled nTable n occ k m (.call prim args (.slot i) true :: rest)
  | test {k m prim args v check rest} (reads : ∀ a ∈ args, a.Bound nTable k m)
      (next : Scheduled nTable n occ k m rest) :
      Scheduled nTable n occ k m (.call prim args (.const v) check :: rest)

/-- A call argument that compiles an atom term: the slot of a variable, or the
value of a literal at pool `P`. -/
def ArgOf (P : Pool) (vars : List String) : Arg → AtomTerm → Prop
  | .slot i, .var v => vars.idxOf? v = some i
  | .const x, .lit l => l.toValue.run P = .ok (x, P)
  | _, _ => False

/-- Whether a step calls a primitive. -/
def JoinStep.isCall : JoinStep → Bool
  | .call .. => true
  | .intersect .. => false

/-- A step that calls a primitive atom: its inputs and output compiled. -/
def CallOf (P : Pool) (vars : List String) : JoinStep → Prim × List AtomTerm → Prop
  | .call prim args out _, (p, terms) =>
    prim = p ∧ List.Forall₂ (ArgOf P vars) args terms.dropLast ∧
      ∃ o, terms.getLast? = some o ∧ ArgOf P vars out o
  | .intersect _ _, _ => False

theorem List.Forall₂.exists_of_mem {α β : Type} {R : α → β → Prop} {l₁ : List α} {l₂ : List β}
    (h : List.Forall₂ R l₁ l₂) {a : α} (mem : a ∈ l₁) : ∃ b ∈ l₂, R a b := by
  induction h with
  | nil => cases mem
  | cons head _ ih =>
    rcases List.mem_cons.mp mem with rfl | mem
    · exact ⟨_, List.mem_cons_self, head⟩
    · obtain ⟨b, hb, r⟩ := ih mem
      exact ⟨b, List.mem_cons_of_mem _ hb, r⟩

namespace CompiledQuery

/-- The argument `argOf` gives a term whose variable is known compiles it, at
every pool grown from the one it reached and for every longer list of
variables. -/
theorem argOf_spec {vars : List String} {t : AtomTerm} {arg : Arg} {p p' : Pool}
    (ran : (argOf vars t).run p = .ok (arg, p')) (known : ∀ v, t = .var v → v ∈ vars)
    (more : List String) : ∀ Q, p'.Grows Q → ArgOf Q (vars ++ more) arg t := by
  intro Q grown
  cases t with
  | var v =>
    simp only [argOf] at ran
    obtain ⟨rfl, rfl⟩ := PoolM.run_pure_inv ran
    obtain ⟨i, hi⟩ := Option.isSome_iff_exists.mp (List.isSome_idxOf?.mpr (known v rfl))
    simp only [ArgOf, List.idxOf?_append_of_mem (known v rfl), hi, Option.getD_some]
  | lit l =>
    simp only [argOf, map_eq_pure_bind] at ran
    obtain ⟨x, q, first, second⟩ := PoolM.run_bind_ok ran
    obtain ⟨rfl, rfl⟩ := PoolM.run_pure_inv second
    exact Literal.toValue_settled l p x _ first Q grown

theorem argOf_mapM_spec {vars : List String} :
    ∀ {ts : List AtomTerm} {args : List Arg} {p p' : Pool},
      (ts.mapM (argOf vars)).run p = .ok (args, p') → (∀ v, .var v ∈ ts → v ∈ vars) →
      ∀ (more : List String) Q, p'.Grows Q → List.Forall₂ (ArgOf Q (vars ++ more)) args ts
  | [], args, p, p', ran, _, more, Q, _ => by
    obtain ⟨rfl, rfl⟩ := PoolM.run_pure_inv ran
    exact .nil
  | t :: ts, args, p, p', ran, known, more, Q, grown => by
    rw [List.mapM_cons] at ran
    obtain ⟨arg, q, first, ran⟩ := PoolM.run_bind_ok ran
    obtain ⟨args', q', second, ran⟩ := PoolM.run_bind_ok ran
    obtain ⟨rfl, rfl⟩ := PoolM.run_pure_inv ran
    have later := (PoolM.run_grows second).trans grown
    refine .cons (argOf_spec first (fun v hv => known v (by simp [hv])) more Q later) ?_
    exact argOf_mapM_spec second (fun v hv => known v (List.mem_cons_of_mem _ hv)) more Q grown

/-! ### Scheduling every primitive -/

theorem isBound_iff {vars : List String} {nTable nBound : Nat} {v : String} :
    isBound vars nTable nBound v = true ↔
      ∃ i, vars.idxOf? v = some i ∧ (nTable ≤ i ∨ i < nBound) := by
  unfold isBound
  split
  · rename_i i found
    simp [found]
  · rename_i absent
    simp [absent]

/-- A ready primitive has an output; its input variables are bound, and so is
its output variable when it is one of the variables. -/
theorem ready_spec {vars : List String} {nTable nBound : Nat} {args : List AtomTerm}
    (h : ready vars nTable nBound args = true) :
    ∃ out, args.getLast? = some out ∧
      (∀ w, .var w ∈ args.dropLast → isBound vars nTable nBound w = true) ∧
      (∀ w, out = .var w → w ∈ vars → isBound vars nTable nBound w = true) := by
  unfold ready at h
  split at h
  · cases h
  · rename_i out last
    simp only [Bool.and_eq_true, List.all_eq_true] at h
    obtain ⟨inputs, output⟩ := h
    refine ⟨out, last, fun w hw => by simpa using inputs _ hw, fun w hw mem => ?_⟩
    subst hw
    simpa [List.contains_iff_mem, mem] using output

/-- Once every table variable is bound, a primitive is ready as soon as its
input variables are known. -/
theorem ready_of_known {vars : List String} {nTable : Nat} {args : List AtomTerm}
    (nonempty : args ≠ []) (known : ∀ w, .var w ∈ args.dropLast → w ∈ vars) :
    ready vars nTable nTable args = true := by
  have bound : ∀ w, w ∈ vars → isBound vars nTable nTable w = true := by
    intro w mem
    obtain ⟨i, hi⟩ := Option.isSome_iff_exists.mp (List.isSome_idxOf?.mpr mem)
    exact isBound_iff.mpr ⟨i, hi, by omega⟩
  unfold ready
  obtain ⟨out, last⟩ : ∃ out, args.getLast? = some out := ⟨_, List.getLast?_eq_some_getLast nonempty⟩
  simp only [last, Bool.and_eq_true, List.all_eq_true]
  refine ⟨fun t ht => ?_, ?_⟩
  · cases t with
    | var w => exact bound w (known w ht)
    | lit _ => rfl
  · cases out with
    | var w =>
      dsimp only
      split
      · rename_i mem
        exact bound w (List.contains_iff_mem.mp mem)
      · rfl
    | lit _ => rfl

/-- The variables a body grounds: those of its table atoms, and the output of
a primitive whose input variables are grounded. -/
inductive Grounds (tableVars : List String) (prims : List (Prim × List AtomTerm)) : String → Prop
  | table {v} (mem : v ∈ tableVars) : Grounds tableVars prims v
  | prim {v a} (mem : a ∈ prims) (out : a.2.getLast? = some (.var v))
      (inputs : ∀ w, .var w ∈ a.2.dropLast → Grounds tableVars prims w) : Grounds tableVars prims v

/-- Every primitive has an output, and its input variables are grounded. -/
def Grounded (tableVars : List String) (prims : List (Prim × List AtomTerm)) : Prop :=
  ∀ a ∈ prims, a.2 ≠ [] ∧ ∀ w, .var w ∈ a.2.dropLast → Grounds tableVars prims w

/-- What scheduling keeps: the variables are the table variables followed by
outputs, none twice, and each primitive is still to schedule or has its
output variable among the variables. -/
structure SchedState (nTable : Nat) (tableVars : List String) (prims : List (Prim × List AtomTerm))
    (vars : List String) (extra : List (Prim × List AtomTerm)) (nBound : Nat) : Prop where
  layout : ∃ outs, vars = tableVars ++ outs
  table : tableVars.length = nTable
  nodup : vars.Nodup
  bound : nBound ≤ nTable
  waiting : ∀ a ∈ extra, a ∈ prims
  outs : ∀ a ∈ prims, a ∈ extra ∨ ∀ v, a.2.getLast? = some (.var v) → v ∈ vars

/-- **Grounding leaves no primitive behind**: once every table variable is
bound and no primitive is ready, every primitive has been scheduled. -/
theorem extra_nil_of_stuck {nTable : Nat} {tableVars vars : List String}
    {prims extra : List (Prim × List AtomTerm)} (grounded : Grounded tableVars prims)
    (state : SchedState nTable tableVars prims vars extra nTable)
    (stuck : ∀ a ∈ extra, ready vars nTable nTable a.2 = false) : extra = [] := by
  -- every grounded variable is known: its primitive cannot still be waiting
  have known : ∀ v, Grounds tableVars prims v → v ∈ vars := by
    intro v grounds
    induction grounds with
    | table mem =>
      obtain ⟨outs, rfl⟩ := state.layout
      exact List.mem_append_left _ mem
    | @prim v a mem out inputs ih =>
      rcases state.outs a mem with waiting | done
      · have := stuck a waiting
        rw [ready_of_known (grounded a mem).1 ih] at this
        cases this
      · exact done v out
  cases extra with
  | nil => rfl
  | cons a rest =>
    have ready : ready vars nTable nTable a.2 = true :=
      ready_of_known (grounded a (state.waiting a List.mem_cons_self)).1
      fun w hw => known w ((grounded a (state.waiting a List.mem_cons_self)).2 w hw)
    rw [stuck a List.mem_cons_self] at ready
    cases ready

theorem mem_eraseIdx_or {α : Type} {l : List α} {i : Nat} {a b : α} (found : l[i]? = some a)
    (mem : b ∈ l) : b = a ∨ b ∈ l.eraseIdx i := by
  obtain ⟨j, hj⟩ := List.mem_iff_getElem?.mp mem
  by_cases same : j = i
  · subst same
    rw [found] at hj
    exact .inl (Option.some.inj hj).symm
  · exact .inr (List.mem_eraseIdx_iff_getElem?.mpr ⟨j, same, hj⟩)

/-- Scheduling the primitive at `i` keeps the state, once its output
variable is among the new variables. -/
theorem SchedState.schedule {nTable nBound : Nat} {tableVars vars vars₁ : List String}
    {prims extra : List (Prim × List AtomTerm)} {i : Nat} {a : Prim × List AtomTerm}
    (state : SchedState nTable tableVars prims vars extra nBound) (found : extra[i]? = some a)
    (grown : ∃ new, vars₁ = vars ++ new) (nodup : vars₁.Nodup)
    (outIn : ∀ v, a.2.getLast? = some (.var v) → v ∈ vars₁) :
    SchedState nTable tableVars prims vars₁ (extra.eraseIdx i) nBound := by
  obtain ⟨new, rfl⟩ := grown
  obtain ⟨outs, rfl⟩ := state.layout
  refine ⟨⟨outs ++ new, by simp⟩, state.table, nodup, state.bound,
    fun b hb => state.waiting b (List.mem_of_mem_eraseIdx hb), fun b hb => ?_⟩
  rcases state.outs b hb with waiting | done
  · rcases mem_eraseIdx_or found waiting with rfl | still
    · exact .inr outIn
    · exact .inl still
  · exact .inr fun v hv => List.mem_append_left _ (done v hv)

/-- The arguments of a ready call read bound slots. -/
theorem reads_bound {Q : Pool} {vars : List String} {nTable nBound : Nat} :
    ∀ {ins : List Arg} {terms : List AtomTerm}, List.Forall₂ (ArgOf Q vars) ins terms →
      (∀ w, .var w ∈ terms → isBound vars nTable nBound w = true) →
      ∀ a ∈ ins, a.Bound nTable nBound vars.length
  | [], [], .nil, _ => by simp
  | arg :: ins, t :: terms, .cons head tail, bound => by
    intro a ha
    rcases List.mem_cons.mp ha with rfl | ha
    · cases a with
      | slot i =>
        cases t with
        | var w =>
          obtain ⟨i', hi', side⟩ := isBound_iff.mp (bound w List.mem_cons_self)
          have same : i = i' := Option.some.inj (head.symm.trans hi')
          subst same
          have : i < vars.length := (List.idxOf?_eq_some_iff.mp hi').1
          unfold Arg.Bound SlotBound
          omega
        | lit l => exact absurd head id
      | const v => trivial
    · exact reads_bound tail (fun w hw => bound w (List.mem_cons_of_mem _ hw)) a ha

/-- Where a run of `schedule` from a state ends: every primitive scheduled,
the variables extended, and the program extended by a suffix of the
scheduled shape whose calls compile the primitives that were waiting, one
call for each, in the order they were picked. -/
def Schedules (nTable : Nat) (occ : List (List Nat)) (tableVars : List String)
    (prims : List (Prim × List AtomTerm)) (vars : List String) (extra : List (Prim × List AtomTerm))
    (nBound : Nat) (prog : Array JoinStep) (vars' : List String) (prog' : Array JoinStep)
    (p' : Pool) : Prop :=
  SchedState nTable tableVars prims vars' [] nTable ∧ (∃ more, vars' = vars ++ more) ∧
    ∃ suffix, prog'.toList = prog.toList ++ suffix ∧
      Scheduled nTable vars'.length (fun k => occ[k]?.getD []) nBound vars.length suffix ∧
      ∃ picked, picked.Perm extra ∧
        ∀ Q, p'.Grows Q → List.Forall₂ (CallOf Q vars') (suffix.filter JoinStep.isCall) picked

section Schedules

variable {nTable : Nat} {occ : List (List Nat)} {tableVars : List String}
  {prims : List (Prim × List AtomTerm)} {vars vars' : List String}
  {extra : List (Prim × List AtomTerm)} {nBound : Nat} {prog prog' : Array JoinStep} {p' : Pool}

theorem Schedules.done (state : SchedState nTable tableVars prims vars [] nTable) :
    Schedules nTable occ tableVars prims vars [] nTable prog vars prog p' :=
  ⟨state, ⟨[], by simp⟩, [], by simp, .done rfl, [], .nil, fun _ _ => .nil⟩

/-- Binding the next table slot before the rest. -/
theorem Schedules.intersect (lt : nBound < nTable)
    (next : Schedules nTable occ tableVars prims vars extra (nBound + 1)
      (prog.push (.intersect nBound (occ[nBound]?.getD []))) vars' prog' p') :
    Schedules nTable occ tableVars prims vars extra nBound prog vars' prog' p' := by
  obtain ⟨state', grown, suffix, hprog, scheduled, picked, perm, calls⟩ := next
  refine ⟨state', grown, _ :: suffix, by simp [hprog], .intersect lt scheduled, picked, perm,
    fun Q later => ?_⟩
  rw [List.filter_cons_of_neg (by simp [JoinStep.isCall])]
  exact calls Q later

/-- Scheduling the primitive at `i` as the call `step` before the rest. -/
theorem Schedules.call {vars₁ : List String} {i : Nat} {a : Prim × List AtomTerm} {step : JoinStep}
    (found : extra[i]? = some a) (grown : ∃ new, vars₁ = vars ++ new)
    (shape : ∀ suffix, Scheduled nTable vars'.length (fun k => occ[k]?.getD []) nBound vars₁.length suffix →
      Scheduled nTable vars'.length (fun k => occ[k]?.getD []) nBound vars.length (step :: suffix))
    (callOf : ∀ Q, p'.Grows Q → CallOf Q vars' step a)
    (next : Schedules nTable occ tableVars prims vars₁ (extra.eraseIdx i) nBound (prog.push step)
      vars' prog' p') :
    Schedules nTable occ tableVars prims vars extra nBound prog vars' prog' p' := by
  obtain ⟨state', ⟨more, hmore⟩, suffix, hprog, scheduled, picked, perm, calls⟩ := next
  obtain ⟨new, rfl⟩ := grown
  -- the step is a call, and the primitive it calls is the one taken out of `extra`
  have isCall : step.isCall = true := by
    cases step with
    | call => rfl
    | intersect => exact (callOf p' (.refl p')).elim
  obtain ⟨lt, rfl⟩ := List.getElem?_eq_some_iff.mp found
  refine ⟨state', ⟨new ++ more, by simp [hmore]⟩, step :: suffix, by simp [hprog],
    shape suffix scheduled, extra[i] :: picked,
    (perm.cons _).trans (List.getElem_cons_eraseIdx_perm lt), fun Q later => ?_⟩
  rw [List.filter_cons_of_pos isCall]
  exact .cons (callOf Q later) (calls Q later)

end Schedules

theorem idxOf?_append_new {vars : List String} {v : String} (fresh : v ∉ vars) :
    (vars ++ [v]).idxOf? v = some vars.length := by
  induction vars with
  | nil => simp
  | cons w vars ih =>
    have : w ≠ v := fun same => fresh (same ▸ List.mem_cons_self)
    simp only [List.cons_append, List.idxOf?_cons, beq_iff_eq, this, if_false,
      ih (fun mem => fresh (List.mem_cons_of_mem _ mem)), Option.map_some, List.length_cons]

/-- **Scheduling places every primitive.** From a state with enough fuel,
`schedule` binds the table slots in order and schedules every waiting
primitive of a grounded body, each as a call that compiles it. -/
theorem schedule_spec {nTable : Nat} {occ : List (List Nat)} {tableVars : List String}
    {prims : List (Prim × List AtomTerm)} (grounded : Grounded tableVars prims) :
    ∀ (fuel : Nat) (vars : List String) (extra : List (Prim × List AtomTerm)) (nBound : Nat)
      (prog : Array JoinStep) (p : Pool) (vars' : List String) (prog' : Array JoinStep) (p' : Pool),
      SchedState nTable tableVars prims vars extra nBound →
      extra.length + (nTable - nBound) < fuel →
      (schedule nTable occ fuel vars extra nBound prog).run p = .ok ((vars', prog'), p') →
      Schedules nTable occ tableVars prims vars extra nBound prog vars' prog' p'
  | 0, _, _, _, _, _, _, _, _, _, measure, _ => absurd measure (Nat.not_lt_zero _)
  | fuel + 1, vars, extra, nBound, prog, p, vars', prog', p', state, measure, ran => by
    simp only [schedule] at ran
    split at ran
    · -- the first ready primitive becomes a call
      rename_i i found
      obtain ⟨lt, isReady, -⟩ := List.findIdx?_eq_some_iff_getElem.mp found
      have hi : extra[i]? = some extra[i] := List.getElem?_eq_getElem lt
      generalize extra[i] = a at hi isReady
      obtain ⟨prim, args⟩ := a
      rw [hi, Option.getD_some] at ran
      dsimp only at ran isReady
      obtain ⟨out, last, inputsBound, outBound⟩ := ready_spec isReady
      rw [last, Option.getD_some] at ran
      obtain ⟨ins, p₁, insRan, ran⟩ := PoolM.run_bind_ok ran
      obtain ⟨outArg, p₂, outRan, ran⟩ := PoolM.run_bind_ok ran
      have known : ∀ w, .var w ∈ args.dropLast → w ∈ vars := by
        intro w hw
        obtain ⟨j, hj, -⟩ := isBound_iff.mp (inputsBound w hw)
        exact List.isSome_idxOf?.mp (by simp [hj])
      have measure₁ : (extra.eraseIdx i).length + (nTable - nBound) < fuel := by
        rw [List.length_eraseIdx, if_pos lt]
        omega
      have reads : ∀ a ∈ ins, a.Bound nTable nBound vars.length := by
        have := argOf_mapM_spec insRan known [] p₁ (.refl _)
        rw [List.append_nil] at this
        exact reads_bound this inputsBound
      -- the call compiles the primitive over the final variables
      have compiles : ∀ {vars₁ more : List String}, vars' = vars₁ ++ more → (∃ new, vars₁ = vars ++ new) →
          (∀ w, out = .var w → w ∈ vars₁) → (argOf vars₁ out).run p₁ = .ok (outArg, p₂) →
          ∀ check Q, p'.Grows Q → CallOf Q vars' (.call prim ins outArg check) (prim, args) := by
        intro vars₁ more hmore grown outKnown outRan check Q later
        obtain ⟨new, rfl⟩ := grown
        have at₂ := (PoolM.run_grows ran).trans later
        refine ⟨rfl, ?_, out, last, ?_⟩
        · rw [hmore, List.append_assoc]
          exact argOf_mapM_spec insRan known _ Q ((PoolM.run_grows outRan).trans at₂)
        · rw [hmore]
          exact argOf_spec outRan (fun w hw => outKnown w hw) more Q at₂
      cases out with
      | var v =>
        by_cases held : vars.contains v = true
        · -- a variable already bound: the call checks it
          have mem := List.contains_iff_mem.mp held
          simp only [held, if_true] at ran outRan
          have next := schedule_spec grounded fuel vars _ nBound _ p₂ vars' prog' p'
            (state.schedule hi ⟨[], by simp⟩ state.nodup fun w hw => by simp_all) measure₁ ran
          obtain ⟨more, hmore⟩ := next.2.1
          have call := compiles hmore ⟨[], by simp⟩ (fun w hw => by cases hw; exact mem) outRan true
          simp only [argOf] at outRan
          obtain ⟨rfl, -⟩ := PoolM.run_pure_inv outRan
          obtain ⟨j, hj, side⟩ := isBound_iff.mp (outBound v rfl mem)
          have bound : SlotBound nTable nBound vars.length ((vars.idxOf? v).getD 0) := by
            have : j < vars.length := (List.idxOf?_eq_some_iff.mp hj).1
            simp only [hj, Option.getD_some, SlotBound]
            omega
          exact Schedules.call hi ⟨[], by simp⟩ (fun suffix sch => .check reads bound sch) call next
        · -- a new variable: the call binds the next slot
          have fresh : v ∉ vars := fun mem => held (List.contains_iff_mem.mpr mem)
          simp only [held, if_false, Bool.false_eq_true] at ran outRan
          have next := schedule_spec grounded fuel (vars ++ [v]) _ nBound _ p₂ vars' prog' p'
            (state.schedule hi ⟨[v], rfl⟩ (List.nodup_append.mpr ⟨state.nodup, by simp,
              fun a ha b hb => by rw [List.mem_singleton.mp hb]; rintro rfl; exact fresh ha⟩)
              fun w hw => by simp_all) measure₁ ran
          obtain ⟨more, hmore⟩ := next.2.1
          have call := compiles hmore ⟨[v], rfl⟩ (fun w hw => by cases hw; simp) outRan false
          simp only [argOf, idxOf?_append_new fresh, Option.getD_some] at outRan
          obtain ⟨rfl, -⟩ := PoolM.run_pure_inv outRan
          have longer : vars.length < vars'.length := by
            rw [hmore]
            simp
          exact Schedules.call hi ⟨[v], rfl⟩
            (fun suffix sch => .bind reads longer (by simpa using sch)) call next
      | lit l =>
        -- a literal output: the call compares with its value
        dsimp only at ran outRan
        have next := schedule_spec grounded fuel vars _ nBound _ p₂ vars' prog' p'
          (state.schedule hi ⟨[], by simp⟩ state.nodup fun w hw => by simp_all) measure₁ ran
        obtain ⟨more, hmore⟩ := next.2.1
        have call := compiles hmore ⟨[], by simp⟩ (fun w hw => by cases hw) outRan true
        simp only [argOf, map_eq_pure_bind] at outRan
        obtain ⟨x, q, -, outRan⟩ := PoolM.run_bind_ok outRan
        obtain ⟨rfl, -⟩ := PoolM.run_pure_inv outRan
        exact Schedules.call hi ⟨[], by simp⟩ (fun suffix sch => .test reads sch) call next
    · rename_i nothing
      split at ran
      · -- every table slot is bound and nothing is ready: everything is scheduled
        rename_i full
        subst full
        simp only [PoolM.run_pure, Except.ok.injEq, Prod.mk.injEq] at ran
        obtain ⟨⟨rfl, rfl⟩, rfl⟩ := ran
        have := extra_nil_of_stuck grounded state (List.findIdx?_eq_none_iff.mp nothing)
        subst this
        exact Schedules.done state
      · -- bind the next table slot
        rename_i short
        have lt : nBound < nTable := Nat.lt_of_le_of_ne state.bound short
        exact Schedules.intersect lt (schedule_spec grounded fuel vars extra (nBound + 1) _ p vars'
          prog' p' { state with bound := lt } (by omega) ran)

/-- The table variables of a body, each with the atoms that mention it, in
the order `compile` gives their slots. -/
abbrev ordered (size : String → Nat) (body : List (Atom Call)) : List (String × List Nat) :=
  orderVars size (tableAtoms body) (occurrences (tableAtoms body))

/-- The variables a body's table atoms mention. -/
def tableVarsOf (body : List (Atom Call)) : List String := (tableAtoms body).flatMap TableAtom.vars

theorem mem_ordered_iff {size : String → Nat} {body : List (Atom Call)} {v : String} :
    v ∈ (ordered size body).map (·.1) ↔ v ∈ tableVarsOf body := by
  have occ := occurs_orderVars size (tableAtoms body)
  constructor
  · intro mem
    obtain ⟨⟨w, is⟩, hw, rfl⟩ := List.mem_map.mp mem
    obtain ⟨j, hj⟩ := List.exists_mem_of_ne_nil is (occ.nonempty w is hw)
    obtain ⟨a, ha, hv⟩ := (occ.atoms w is hw j).mp hj
    exact List.mem_flatMap.mpr ⟨a, List.mem_of_getElem? ha, hv⟩
  · intro mem
    obtain ⟨a, ha, hv⟩ := List.mem_flatMap.mp mem
    obtain ⟨j, hj⟩ := List.mem_iff_getElem?.mp ha
    exact occ.vars j v ⟨a, hj, hv⟩

theorem Grounds.of_vars {tableVars tableVars' : List String} {prims : List (Prim × List AtomTerm)}
    (sub : ∀ w ∈ tableVars, w ∈ tableVars') {v : String} (grounds : Grounds tableVars prims v) :
    Grounds tableVars' prims v := by
  induction grounds with
  | table mem => exact .table (sub _ mem)
  | prim mem out _ ih => exact .prim mem out ih

theorem argOf_keepsTables (vars : List String) (t : AtomTerm) : (argOf vars t).KeepsTables := by
  cases t with
  | var v => exact PoolM.keepsTables_pure _
  | lit l => exact (Literal.toValue_keepsTables l).map _

theorem schedule_keepsTables (nTable : Nat) (occ : List (List Nat)) :
    ∀ fuel vars extra nBound prog, (schedule nTable occ fuel vars extra nBound prog).KeepsTables
  | 0, _, _, _, _ => PoolM.keepsTables_pure _
  | fuel + 1, vars, extra, nBound, prog => by
    simp only [schedule]
    split
    · exact (PoolM.keepsTables_mapM (argOf_keepsTables vars) _).bind fun _ =>
        (argOf_keepsTables _ _).bind fun _ => schedule_keepsTables nTable occ fuel _ _ _ _
    · split
      · exact PoolM.keepsTables_pure _
      · exact schedule_keepsTables nTable occ fuel _ _ _ _

/-- A compiled query is where `schedule` ends from the start: no table
variable bound, every primitive waiting, and an empty program. -/
theorem compile_schedules {size : String → Nat} {body : List (Atom Call)} {p₀ p₁ : Pool}
    {q : CompiledQuery} (grounded : Grounded (tableVarsOf body) (primAtoms body))
    (compiled : (compile size body).run p₀ = .ok (q, p₁)) :
    q.atoms = tableAtoms body ∧ p₁.tables = p₀.tables ∧
      Schedules (ordered size body).length ((ordered size body).map (·.2))
        ((ordered size body).map (·.1)) (primAtoms body) ((ordered size body).map (·.1))
        (primAtoms body) 0 #[] q.vars q.program.toArray p₁ := by
  unfold compile at compiled
  obtain ⟨⟨vars, prog⟩, p', sched, ran⟩ := PoolM.run_bind_ok compiled
  obtain ⟨rfl, rfl⟩ := PoolM.run_pure_inv ran
  have occ := occurs_orderVars size (tableAtoms body)
  have start : SchedState (ordered size body).length ((ordered size body).map (·.1)) (primAtoms body)
      ((ordered size body).map (·.1)) (primAtoms body) 0 :=
    ⟨⟨[], by simp⟩, by simp, occ.nodup, Nat.zero_le _, fun _ h => h, fun _ h => .inl h⟩
  have fuel : (primAtoms body).length + ((ordered size body).length - 0) <
      ((ordered size body).length + 1) * ((primAtoms body).length + 1) + 1 := by
    simp only [Nat.add_mul, Nat.mul_add, Nat.one_mul, Nat.mul_one, Nat.sub_zero]
    omega
  have grounded' : Grounded ((ordered size body).map (·.1)) (primAtoms body) := fun a ha =>
    ⟨(grounded a ha).1, fun w hw => ((grounded a ha).2 w hw).of_vars fun _ => mem_ordered_iff.mpr⟩
  refine ⟨rfl, schedule_keepsTables _ _ _ _ _ _ _ _ _ _ sched, ?_⟩
  rw [Array.toArray_toList]
  exact schedule_spec grounded' _ _ _ _ _ _ _ _ _ start fuel sched

/-- **What `compile` builds.** The query keeps the table atoms of the body;
its variables are the table variables in the order `orderVars` gives them,
followed by the outputs of primitives, none twice; its program has the
scheduled shape, and its calls are exactly the primitive atoms of the body,
compiled. Only names are added to the pool. -/
theorem compile_spec {size : String → Nat} {body : List (Atom Call)} {p₀ p₁ : Pool}
    {q : CompiledQuery} (grounded : Grounded (tableVarsOf body) (primAtoms body))
    (compiled : (compile size body).run p₀ = .ok (q, p₁)) :
    q.atoms = tableAtoms body ∧ p₁.tables = p₀.tables ∧
      ∃ more, q.vars = (ordered size body).map (·.1) ++ more ∧ q.vars.Nodup ∧
        Scheduled (ordered size body).length q.vars.length
          (fun k => ((ordered size body).map (·.2))[k]?.getD []) 0 (ordered size body).length
          q.program ∧
        ∀ Q, p₁.Grows Q →
          (∀ prim args out check, JoinStep.call prim args out check ∈ q.program →
            ∃ a ∈ primAtoms body, CallOf Q q.vars (.call prim args out check) a) ∧
          (∀ a ∈ primAtoms body, ∃ s ∈ q.program, CallOf Q q.vars s a) := by
  obtain ⟨atoms, tables, state, ⟨more, hmore⟩, suffix, hprog, scheduled, picked, perm, calls⟩ :=
    compile_schedules grounded compiled
  simp only [List.nil_append] at hprog
  subst hprog
  refine ⟨atoms, tables, more, hmore, state.nodup, by simpa using scheduled, fun Q later => ?_⟩
  have calls := calls Q later
  refine ⟨fun prim args out check mem => ?_, fun a mem => ?_⟩
  · obtain ⟨a, listed, call⟩ := List.Forall₂.exists_of_mem calls (List.mem_filter.mpr ⟨mem, rfl⟩)
    exact ⟨a, perm.subset listed, call⟩
  · obtain ⟨s, listed, call⟩ := List.Forall₂.exists_of_mem calls.flip (perm.symm.subset mem)
    exact ⟨s, (List.mem_filter.mp listed).1, call⟩

/-- The calls of a compiled query compile the primitive atoms of its body, one
call for each atom. -/
theorem compile_picks {size : String → Nat} {body : List (Atom Call)} {p₀ p₁ : Pool}
    {q : CompiledQuery} (grounded : Grounded (tableVarsOf body) (primAtoms body))
    (compiled : (compile size body).run p₀ = .ok (q, p₁)) :
    ∃ picked, picked.Perm (primAtoms body) ∧
      ∀ Q, p₁.Grows Q → List.Forall₂ (CallOf Q q.vars) (q.program.filter JoinStep.isCall) picked := by
  obtain ⟨-, -, -, -, suffix, hprog, -, picked, perm, calls⟩ := compile_schedules grounded compiled
  simp only [List.nil_append] at hprog
  subst hprog
  exact ⟨picked, perm, calls⟩

end CompiledQuery

end Saturate
