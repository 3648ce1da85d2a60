import Mathlib
import Saturate.Proofs.Typing.Grounding

/-!
# The plan of a compiled query

What the program of a compiled query does, step by step, for a body that resolves with no
variables bound by the caller.

* Every primitive atom of the body is scheduled: the calls of the program compile the primitive
  atoms, one call for each (`compile_picks`).
* Every slot a call reads, an argument or an output it checks, is bound by an earlier step: an
  intersection or a call that binds its output (`BindsBeforeReads`).
* The intersections bind the table variables, each once, in the order of the tuple, and each
  intersects exactly the atoms that mention its variable, in order and without repeats
  (`mentioning`).
* So an atom's trie, whose levels follow the atom's variables in the order of the tuple
  (`TableAtom.projection`), is read level by level by the intersections that visit the atom
  (`visiting`), in program order.
* Compiling only interns the string literals of the primitives' arguments, so it returns
  unless the pool overflows.

`compile_plans_resolved_bodies` puts these together.
-/

namespace Saturate

open PoolM CompiledQuery

namespace JoinStep

/-- The slot a step binds: an intersection binds its slot, and a call that does not check its
output binds the output's slot. -/
def Binds : JoinStep → Nat → Prop
  | .intersect idx _, i => idx = i
  | .call _ _ out check, i => check = false ∧ out = .slot i

/-- The slots a step reads: a call reads the slots among its arguments, and the slot of its
output when it checks it. -/
def Reads : JoinStep → Nat → Prop
  | .intersect _ _, _ => False
  | .call _ args out check, i => Arg.slot i ∈ args ∨ (check = true ∧ out = .slot i)

/-- The slot an intersection binds and the atoms it intersects. -/
def intersection? : JoinStep → Option (Nat × List Nat)
  | .intersect idx atoms => some (idx, atoms)
  | .call .. => none

@[simp] theorem binds_intersect {idx i : Nat} {atoms : List Nat} :
    (intersect idx atoms).Binds i ↔ idx = i := Iff.rfl

@[simp] theorem binds_call {p : Prim} {args : List Arg} {out : Arg} {check : Bool} {i : Nat} :
    (call p args out check).Binds i ↔ check = false ∧ out = .slot i := Iff.rfl

@[simp] theorem not_reads_intersect {idx i : Nat} {atoms : List Nat} :
    ¬ (intersect idx atoms).Reads i := id

@[simp] theorem reads_call {p : Prim} {args : List Arg} {out : Arg} {check : Bool} {i : Nat} :
    (call p args out check).Reads i ↔ Arg.slot i ∈ args ∨ (check = true ∧ out = .slot i) := Iff.rfl

end JoinStep

/-- Every slot a step of `prog` reads is bound by a step of `done`, run before, or by a step of
`prog` before it. -/
def BindsBeforeReads (done prog : List JoinStep) : Prop :=
  ∀ pre step post i, prog = pre ++ step :: post → step.Reads i → ∃ b ∈ done ++ pre, b.Binds i

namespace CompiledQuery

/-- The slots of the intersections of a program that visit atom `j`, in program order. -/
def visiting (j : Nat) (prog : List JoinStep) : List Nat :=
  (prog.filterMap JoinStep.intersection?).filterMap fun x => if j ∈ x.2 then some x.1 else none

/-- The positions of the atoms that mention a variable, in order. -/
def mentioning (atoms : List TableAtom) (v : String) : List Nat :=
  (List.range atoms.length).filter fun j => atoms[j]?.any (·.vars.contains v)

end CompiledQuery

/-! ### Reading only bound slots -/

section Reads

variable {done : List JoinStep}

theorem bindsBeforeReads_nil : BindsBeforeReads done [] := by
  intro pre step post i split
  simp at split

/-- A program reads only bound slots when its first step does, and the rest does once the
first step has run. -/
theorem BindsBeforeReads.cons {s : JoinStep} {rest : List JoinStep}
    (first : ∀ i, s.Reads i → ∃ b ∈ done, b.Binds i) (later : BindsBeforeReads (done ++ [s]) rest) :
    BindsBeforeReads done (s :: rest) := by
  intro pre step post i split reads
  cases pre with
  | nil =>
    obtain ⟨rfl, -⟩ := List.cons_eq_cons.mp split
    simpa using first i reads
  | cons b pre =>
    rw [List.cons_append, List.cons_eq_cons] at split
    obtain ⟨rfl, split⟩ := split
    simpa using later pre step post i split reads

/-- A slot bound by the steps run stays bound once one more has run. -/
theorem bound_append {i : Nat} (s : JoinStep) (bound : ∃ b ∈ done, b.Binds i) :
    ∃ b ∈ done ++ [s], b.Binds i :=
  bound.imp fun _ held => ⟨List.mem_append_left _ held.1, held.2⟩

/-- **A scheduled program reads only bound slots**: each slot it reads is bound by an earlier
step, once the slots counted bound at its start are bound by `done`. -/
theorem Scheduled.bindsBeforeReads {nTable n : Nat} {occ : Nat → List Nat} {k m : Nat}
    {prog : List JoinStep} (sch : Scheduled nTable n occ k m prog)
    (bound : ∀ i, SlotBound nTable k m i → ∃ b ∈ done, b.Binds i) : BindsBeforeReads done prog := by
  induction sch generalizing done with
  | done => exact bindsBeforeReads_nil
  | @intersect k m rest lt next ih =>
    refine .cons (fun i reads => (JoinStep.not_reads_intersect reads).elim) (ih fun i slot => ?_)
    -- the intersection binds slot `k`
    by_cases same : i = k
    · exact ⟨.intersect k (occ k), by simp, JoinStep.binds_intersect.mpr same.symm⟩
    · exact bound_append _ (bound i (by unfold SlotBound at slot ⊢; omega))
  | @bind k m prim args rest reads lt next ih =>
    refine .cons (fun i read => ?_) (ih fun i slot => ?_)
    · rcases JoinStep.reads_call.mp read with mem | ⟨no, -⟩
      · exact bound _ (reads _ mem)
      · cases no
    -- the call binds slot `m`
    · by_cases same : i = m
      · exact ⟨.call prim args (.slot m) false, by simp, JoinStep.binds_call.mpr ⟨rfl, same ▸ rfl⟩⟩
      · exact bound_append _ (bound i (by unfold SlotBound at slot ⊢; omega))
  | @check k m prim args i rest reads slotBound next ih =>
    refine .cons (fun j read => ?_) (ih fun j slot => ?_)
    · rcases JoinStep.reads_call.mp read with mem | ⟨-, same⟩
      · exact bound _ (reads _ mem)
      · cases same
        exact bound i slotBound
    · exact bound_append _ (bound j slot)
  | @test k m prim args v check rest reads next ih =>
    refine .cons (fun j read => ?_) (ih fun j slot => ?_)
    · rcases JoinStep.reads_call.mp read with mem | ⟨-, no⟩
      · exact bound _ (reads _ mem)
      · cases no
    · exact bound_append _ (bound j slot)

end Reads

/-! ### The intersections -/

/-- The intersections of a scheduled program bind the table slots from `k` on, in order, the one
of slot `i` over the atoms `occ i`. -/
theorem Scheduled.intersections {nTable n : Nat} {occ : Nat → List Nat} {k m : Nat}
    {prog : List JoinStep} (sch : Scheduled nTable n occ k m prog) :
    prog.filterMap JoinStep.intersection? = (List.range' k (nTable - k)).map fun i => (i, occ i) := by
  induction sch with
  | done => simp
  | @intersect k m rest lt next ih =>
    have more : nTable - k = nTable - (k + 1) + 1 := by omega
    rw [List.filterMap_cons_some (f := JoinStep.intersection?) rfl, ih, more, List.range'_succ,
      List.map_cons]
  | bind _ _ _ ih | check _ _ _ ih | test _ _ ih =>
    rw [List.filterMap_cons_none (f := JoinStep.intersection?) rfl, ih]

namespace CompiledQuery

theorem mem_mentioning {atoms : List TableAtom} {v : String} {j : Nat} :
    j ∈ mentioning atoms v ↔ ∃ a, atoms[j]? = some a ∧ v ∈ a.vars := by
  unfold mentioning
  rw [List.mem_filter, List.mem_range]
  constructor
  · rintro ⟨lt, mentions⟩
    rw [List.getElem?_eq_getElem lt, Option.any_some, List.contains_iff_mem] at mentions
    exact ⟨_, List.getElem?_eq_getElem lt, mentions⟩
  · rintro ⟨a, found, mentions⟩
    obtain ⟨lt, -⟩ := List.getElem?_eq_some_iff.mp found
    rw [found, Option.any_some, List.contains_iff_mem]
    exact ⟨lt, mentions⟩

theorem pairwise_mentioning (atoms : List TableAtom) (v : String) :
    (mentioning atoms v).Pairwise (· < ·) :=
  List.pairwise_lt_range.filter _

/-- A list of increasing positions, none past `n`, whose last one is not `n`, stays below `n`. -/
theorem lt_of_getLast?_ne {is : List Nat} {n : Nat} (sorted : is.Pairwise (· < ·))
    (le : ∀ x ∈ is, x ≤ n) (last : is.getLast? ≠ some n) : ∀ x ∈ is, x < n := by
  rcases List.eq_nil_or_concat is with rfl | ⟨init, y, rfl⟩
  · simp
  · rw [List.concat_eq_append] at sorted le last ⊢
    rw [List.getLast?_concat] at last
    have top : y < n := Nat.lt_of_le_of_ne (le y (by simp)) fun same => last (same ▸ rfl)
    intro x mem
    rcases List.mem_append.mp mem with mem | mem
    · exact Nat.lt_trans (List.pairwise_append.mp sorted |>.2.2 x mem y (by simp)) top
    · rw [List.mem_singleton.mp mem]
      exact top

/-- The atom lists a fold over atoms keeps stay increasing when each step adds only its own
position, past all those added before. -/
theorem pairwise_foldl_zipIdx {F : List (String × List Nat) → TableAtom × Nat → List (String × List Nat)}
    (step : ∀ acc a n, (∀ e ∈ acc, e.2.Pairwise (· < ·) ∧ ∀ x ∈ e.2, x ≤ n) →
      ∀ e ∈ F acc (a, n), e.2.Pairwise (· < ·) ∧ ∀ x ∈ e.2, x ≤ n) (atoms : List TableAtom) :
    ∀ e ∈ atoms.zipIdx.foldl F [], e.2.Pairwise (· < ·) ∧ ∀ x ∈ e.2, x < atoms.length := by
  induction atoms using List.reverseRecOn with
  | nil => simp
  | append_singleton atoms a ih =>
    rw [List.zipIdx_append, List.foldl_append, List.length_append, List.length_singleton]
    simp only [List.zipIdx_cons, List.zipIdx_nil, List.foldl_cons, List.foldl_nil, Nat.zero_add]
    intro e mem
    have ⟨sorted, le⟩ := step _ a _ (fun e mem => ⟨(ih e mem).1, fun x hx => Nat.le_of_lt ((ih e mem).2 x hx)⟩) e mem
    exact ⟨sorted, fun x hx => Nat.lt_succ_of_le (le x hx)⟩

/-- Each variable's atoms, as `occurrences` lists them, are increasing. -/
theorem pairwise_occurrences (atoms : List TableAtom) :
    ∀ e ∈ occurrences atoms, e.2.Pairwise (· < ·) := by
  unfold occurrences
  dsimp only
  refine fun e mem => (pairwise_foldl_zipIdx ?_ atoms e mem).1
  intro acc a n inv
  -- the atom at `n` adds `n` to the lists of its variables, after everything there
  refine List.foldlRecOn (motive := fun (acc : List (String × List Nat)) =>
    ∀ e ∈ acc, e.2.Pairwise (· < ·) ∧ ∀ x ∈ e.2, x ≤ n) _ _ inv ?_
  intro acc inv v _ e mem
  split at mem
  · obtain ⟨⟨w, is⟩, listed, rfl⟩ := List.mem_map.mp mem
    have ⟨sorted, le⟩ := inv _ listed
    dsimp only
    split
    · split
      · exact ⟨sorted, le⟩
      · rename_i last
        have below := lt_of_getLast?_ne sorted le (by simpa using last)
        refine ⟨List.pairwise_append.mpr ⟨sorted, by simp, fun x hx y hy => ?_⟩, fun x hx => ?_⟩
        · rw [List.mem_singleton.mp hy]
          exact below x hx
        · rcases List.mem_append.mp hx with hx | hx
          · exact le x hx
          · rw [List.mem_singleton.mp hx]
    · exact ⟨sorted, le⟩
  · rcases List.mem_append.mp mem with mem | mem
    · exact inv e mem
    · rw [List.mem_singleton.mp mem]
      simp

/-- The atoms `orderVars` lists for a variable are exactly the atoms mentioning it, in order. -/
theorem eq_mentioning_of_mem {size : String → Nat} {atoms : List TableAtom} {v : String}
    {is : List Nat} (mem : (v, is) ∈ orderVars size atoms (occurrences atoms)) :
    is = mentioning atoms v := by
  have occ := occurs_orderVars size atoms
  have perm : (orderVars size atoms (occurrences atoms)).Perm (occurrences atoms) :=
    List.mergeSort_perm _ _
  refine List.Pairwise.eq_of_mem_iff (pairwise_occurrences atoms _ (perm.subset mem))
    (pairwise_mentioning atoms v) fun j => ?_
  rw [occ.atoms v is mem j, mem_mentioning]

/-- Along a list of variables, the slots that visit atom `j`, the position of each variable the
atom mentions, pair up in order with the positions of those variables among the atom's terms. -/
theorem forall₂_visits {atoms : List TableAtom} {j : Nat} {a : TableAtom} (found : atoms[j]? = some a) :
    ∀ (vars : List String) (n : Nat),
      List.Forall₂ (fun k pos => ∃ v, (v, k) ∈ vars.zipIdx n ∧ a.args[pos]? = some (.var v))
        ((vars.zipIdx n).filterMap fun x => if j ∈ mentioning atoms x.1 then some x.2 else none)
        (vars.filterMap fun v => a.args.idxOf? (.var v)) := by
  intro vars
  induction vars with
  | nil => exact fun n => .nil
  | cons v vars ih =>
    intro n
    rw [List.zipIdx_cons]
    by_cases mentions : v ∈ a.vars
    · obtain ⟨pos, position⟩ := Option.isSome_iff_exists.mp
        (List.isSome_idxOf?.mpr (TableAtom.mem_vars_iff.mp mentions))
      obtain ⟨lt, term, -⟩ := List.idxOf?_eq_some_iff.mp position
      rw [List.filterMap_cons_some (f := fun (x : String × Nat) => if j ∈ mentioning atoms x.1 then some x.2 else none)
          (if_pos (mem_mentioning.mpr ⟨a, found, mentions⟩)),
        List.filterMap_cons_some (f := fun v => a.args.idxOf? (.var v)) position]
      exact .cons ⟨v, List.mem_cons_self, by rw [List.getElem?_eq_getElem lt, term]⟩
        ((ih (n + 1)).imp fun k pos paired => paired.imp fun w held =>
          ⟨List.mem_cons_of_mem _ held.1, held.2⟩)
    · have other : j ∉ mentioning atoms v := fun mem => by
        obtain ⟨a', found', mentions'⟩ := mem_mentioning.mp mem
        rw [found] at found'
        cases found'
        exact mentions mentions'
      rw [List.filterMap_cons_none (f := fun (x : String × Nat) => if j ∈ mentioning atoms x.1 then some x.2 else none)
          (if_neg other),
        List.filterMap_cons_none (f := fun v => a.args.idxOf? (.var v))
          (List.idxOf?_eq_none_iff.mpr (mentions ∘ TableAtom.mem_vars_iff.mpr))]
      exact (ih (n + 1)).imp fun k pos paired => paired.imp fun w held =>
        ⟨List.mem_cons_of_mem _ held.1, held.2⟩

variable {size : String → Nat} {body : List (Atom Call)} {p₀ p₁ : Pool} {q : CompiledQuery}

/-- The first variables of a compiled query are those its table atoms mention. -/
theorem mem_take_of_compile (grounded : Grounded (tableVarsOf body) (primAtoms body))
    (compiled : (compile size body).run p₀ = .ok (q, p₁)) (v : String) :
    v ∈ q.vars.take (ordered size body).length ↔ ∃ a ∈ q.atoms, v ∈ a.vars := by
  obtain ⟨atoms, -, more, vars, -⟩ := compile_spec grounded compiled
  rw [vars, List.take_left' (List.length_map _), mem_ordered_iff, tableVarsOf, List.mem_flatMap, atoms]

/-- **The intersections of a compiled query** bind its first slots in order, each over exactly
the atoms that mention the slot's variable, in order. -/
theorem intersections_of_compile (grounded : Grounded (tableVarsOf body) (primAtoms body))
    (compiled : (compile size body).run p₀ = .ok (q, p₁)) :
    q.program.filterMap JoinStep.intersection? =
      (q.vars.take (ordered size body).length).zipIdx.map fun x => (x.2, mentioning q.atoms x.1) := by
  obtain ⟨atoms, -, more, vars, -, sched, -⟩ := compile_spec grounded compiled
  rw [sched.intersections, Nat.sub_zero, ← List.range_eq_range', vars,
    List.take_left' (List.length_map _), atoms]
  refine List.ext_getElem (by simp) fun i lt lt' => ?_
  simp only [List.length_map, List.length_range] at lt
  -- the `i`-th entry of the ordered variables lists the atoms mentioning its variable
  have entry : (ordered size body)[i].2 = mentioning (tableAtoms body) (ordered size body)[i].1 :=
    eq_mentioning_of_mem (List.getElem_mem lt)
  simpa [List.getElem_zipIdx, List.getElem?_eq_getElem lt] using entry

/-- **An atom's trie is read level by level.** The intersections of a compiled query that
visit a table atom, in program order, bind the variables at the positions the atom's
projection lists, in order. -/
theorem levels_of_compile (grounded : Grounded (tableVarsOf body) (primAtoms body))
    (compiled : (compile size body).run p₀ = .ok (q, p₁)) {j : Nat} {a : TableAtom}
    (found : q.atoms[j]? = some a) :
    List.Forall₂ (fun k pos => ∃ v, q.vars[k]? = some v ∧ a.args[pos]? = some (.var v))
      (visiting j q.program) (a.projection q.vars) := by
  obtain ⟨-, -, -, -, nodup, -⟩ := compile_spec grounded compiled
  have table := mentions_of_compile grounded compiled (List.mem_of_getElem? found)
  -- past the table variables no variable is one of the atom's
  have outside : (q.vars.drop (ordered size body).length).filterMap (fun v => a.args.idxOf? (.var v)) = [] := by
    refine List.filterMap_eq_nil_iff.mpr fun v later => List.idxOf?_eq_none_iff.mpr fun mem =>
      List.disjoint_take_drop nodup le_rfl (table v (TableAtom.mem_vars_iff.mpr mem)) later
  rw [visiting, intersections_of_compile grounded compiled, List.filterMap_map, TableAtom.projection,
    ← List.take_append_drop (ordered size body).length q.vars, List.filterMap_append, outside,
    List.append_nil, List.take_append_drop]
  refine (forall₂_visits found _ 0).imp fun k pos paired => paired.imp fun v held => ⟨?_, held.2⟩
  have taken := List.mem_zipIdx_iff_getElem?.mp held.1
  obtain ⟨lt, -⟩ := List.getElem?_eq_some_iff.mp taken
  rw [List.getElem?_take_of_lt (Nat.lt_of_lt_of_le lt (by simp))] at taken
  exact taken

end CompiledQuery

/-! ### Compiling returns -/

namespace PoolM

/-- A `mapM` whose every step is safe from every sound pool is safe. -/
theorem safe_mapM {α β : Type} {f : α → PoolM β} (hf : ∀ x q, q.Sound → (f x).Safe q) :
    ∀ (xs : List α) {p : Pool}, p.Sound → (xs.mapM f).Safe p := by
  intro xs
  induction xs with
  | nil => exact fun sound => safe_pure [] sound
  | cons x xs ih =>
    intro p sound
    rw [List.mapM_cons]
    exact (hf x p sound).bind fun b q _ sound' =>
      (ih sound').bind fun bs r _ sound'' => safe_pure _ sound''

end PoolM

namespace CompiledQuery

theorem argOf_safe (vars : List String) (t : AtomTerm) {p : Pool} (sound : p.Sound) :
    (argOf vars t).Safe p := by
  cases t with
  | var v => exact safe_pure _ sound
  | lit l => exact (Literal.toValue_safe l sound).map _

/-- Scheduling interns only the literals of the calls it adds, so it returns unless the pool
overflows. -/
theorem schedule_safe (nTable : Nat) (occ : List (List Nat)) :
    ∀ fuel vars extra nBound prog {p : Pool}, p.Sound →
      (schedule nTable occ fuel vars extra nBound prog).Safe p := by
  intro fuel
  induction fuel with
  | zero => exact fun vars extra nBound prog p sound => safe_pure _ sound
  | succ fuel ih =>
    intro vars extra nBound prog p sound
    simp only [schedule]
    split
    · exact (safe_mapM (fun t _ sound => argOf_safe vars t sound) _ sound).bind fun _ _ _ sound' =>
        (argOf_safe _ _ sound').bind fun _ _ _ sound'' => ih _ _ _ _ sound''
    · split
      · exact safe_pure _ sound
      · exact ih _ _ _ _ sound

/-- Compiling a body returns unless the pool overflows. -/
theorem compile_safe (size : String → Nat) (body : List (Atom Call)) {p : Pool} (sound : p.Sound) :
    (compile size body).Safe p := by
  unfold compile
  refine (schedule_safe _ _ _ _ _ _ _ sound).bind fun built _ _ sound' => ?_
  cases built
  exact safe_pure _ sound'

/-- **The plan of a compiled query.** Let a rule resolve with no variables bound by the caller,
and compile its body at a sound pool. Compiling returns unless the pool overflows, and the
query it returns
* calls every primitive atom of the body, once each: its calls compile a permutation of them;
* reads in each call only slots that an earlier step binds;
* binds its first `nTable` variables, the table variables, none twice, each by one
  intersection, in the order of the tuple, over exactly the atoms that mention it, in order;
* reads the trie of each table atom level by level: the intersections that visit the atom, in
  program order, bind the variables at the positions its projection lists, in order. -/
theorem compile_plans_resolved_bodies {ti : TypeInfo} {rule : CoreRule} {r : ResolvedRule}
    (resolved : ti.resolve rule [] = .ok r) (size : String → Nat) {p₀ : Pool} (sound : p₀.Sound) :
    (compile size r.body).Safe p₀ ∧
      ∀ q p₁, (compile size r.body).run p₀ = .ok (q, p₁) →
        (∃ picked, picked.Perm (primAtoms r.body) ∧
          List.Forall₂ (CallOf p₁ q.vars) (q.program.filter JoinStep.isCall) picked) ∧
        BindsBeforeReads [] q.program ∧
        (∃ nTable, q.vars.Nodup ∧ (∀ v, v ∈ q.vars.take nTable ↔ ∃ a ∈ q.atoms, v ∈ a.vars) ∧
          q.program.filterMap JoinStep.intersection? =
            (q.vars.take nTable).zipIdx.map fun x => (x.2, mentioning q.atoms x.1)) ∧
        ∀ j a, q.atoms[j]? = some a →
          List.Forall₂ (fun k pos => ∃ v, q.vars[k]? = some v ∧ a.args[pos]? = some (.var v))
            (visiting j q.program) (a.projection q.vars) := by
  have grounded := TypeInfo.grounded_of_resolve resolved
  refine ⟨compile_safe size r.body sound, fun q p₁ compiled => ⟨?calls, ?reads, ?tables, ?levels⟩⟩
  case calls =>
    obtain ⟨picked, perm, calls⟩ := compile_picks grounded compiled
    exact ⟨picked, perm, calls p₁ (.refl p₁)⟩
  case reads =>
    obtain ⟨-, -, -, -, -, sched, -⟩ := compile_spec grounded compiled
    -- at the start no slot counts as bound
    exact sched.bindsBeforeReads fun i slot => absurd slot (by unfold SlotBound; omega)
  case tables =>
    obtain ⟨-, -, -, -, nodup, -⟩ := compile_spec grounded compiled
    exact ⟨_, nodup, mem_take_of_compile grounded compiled, intersections_of_compile grounded compiled⟩
  case levels => exact fun j a found => levels_of_compile grounded compiled found

/-- The rule `R(x, y), (+ z y w), (+ x 1 z)` at the pool a session starts with: the first
primitive waits for `z`, the output of the second. -/
theorem compile_plans_chained_primitives :
    (⟨{}, ({} : Std.HashMap String (Array Prim)).insert "+" #[.int .add],
        ({} : Std.HashMap String FuncType).insert "R" ⟨"R", [.i64], .i64⟩, {}⟩ : TypeInfo).resolve
      ⟨[⟨.sym "R", [.var "x", .var "y"]⟩, ⟨.sym "+", [.var "z", .var "y", .var "w"]⟩,
        ⟨.sym "+", [.var "x", .lit (.int 1), .var "z"]⟩], []⟩ [] =
      .ok ⟨[⟨.func ⟨"R", [.i64], .i64⟩, [.var "x", .var "y"]⟩,
        ⟨.prim (.int .add) [.i64, .i64], [.var "z", .var "y", .var "w"]⟩,
        ⟨.prim (.int .add) [.i64, .i64], [.var "x", .lit (.int 1), .var "z"]⟩], [],
        [("x", .i64), ("y", .i64), ("z", .i64), ("w", .i64)], false⟩ ∧
    ({} : Pool).Sound ∧
    (compile (fun _ => 1) [⟨.func ⟨"R", [.i64], .i64⟩, [.var "x", .var "y"]⟩,
        ⟨.prim (.int .add) [.i64, .i64], [.var "z", .var "y", .var "w"]⟩,
        ⟨.prim (.int .add) [.i64, .i64], [.var "x", .lit (.int 1), .var "z"]⟩]).Safe {} ∧
      ∀ q p₁, (compile (fun _ => 1) [⟨.func ⟨"R", [.i64], .i64⟩, [.var "x", .var "y"]⟩,
          ⟨.prim (.int .add) [.i64, .i64], [.var "z", .var "y", .var "w"]⟩,
          ⟨.prim (.int .add) [.i64, .i64], [.var "x", .lit (.int 1), .var "z"]⟩]).run {} = .ok (q, p₁) →
        (∃ picked, picked.Perm (primAtoms [⟨.func ⟨"R", [.i64], .i64⟩, [.var "x", .var "y"]⟩,
            ⟨.prim (.int .add) [.i64, .i64], [.var "z", .var "y", .var "w"]⟩,
            ⟨.prim (.int .add) [.i64, .i64], [.var "x", .lit (.int 1), .var "z"]⟩]) ∧
          List.Forall₂ (CallOf p₁ q.vars) (q.program.filter JoinStep.isCall) picked) ∧
        BindsBeforeReads [] q.program ∧
        (∃ nTable, q.vars.Nodup ∧ (∀ v, v ∈ q.vars.take nTable ↔ ∃ a ∈ q.atoms, v ∈ a.vars) ∧
          q.program.filterMap JoinStep.intersection? =
            (q.vars.take nTable).zipIdx.map fun x => (x.2, mentioning q.atoms x.1)) ∧
        ∀ j a, q.atoms[j]? = some a →
          List.Forall₂ (fun k pos => ∃ v, q.vars[k]? = some v ∧ a.args[pos]? = some (.var v))
            (visiting j q.program) (a.projection q.vars) := by
  refine ⟨?resolved, Pool.sound_initial,
    compile_plans_resolved_bodies ?resolved (fun _ => 1) Pool.sound_initial⟩
  case resolved => cbv

end CompiledQuery

end Saturate
