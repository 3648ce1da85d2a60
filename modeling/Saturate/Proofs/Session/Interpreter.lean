import Saturate.Session.Actions

/-!
The action machine runs what an interpreter of the core actions runs.

`Program.compile` turns the core actions of a rule head, or of a top-level
command, into code for a stack machine: every binding pushes one value, and a
variable is read from the stack slot of its binding or from its position in
the match. Against it stands `interp`, which runs the actions themselves, in an
environment of the values bound so far (the latest binding of a name first)
over the match.

For actions as typechecking leaves them (`ActionsScoped`: every variable read
is bound, every binding names a fresh variable, every call gets one argument
per input), the compiled code is the same program as the interpreter, effect
for effect, failures included; it reads the stack and the match only in range
(`Instr.InRange`), since any machine that agrees with it there runs the same
(`Engine.AgreesInRange`); and the code of `compileExpr` ends with the value of
its target on top of the stack.

* `run_loads`: the loads of some terms push their values in order.
* `run_action`: the code of one action does what the interpreter does.
* `runWithin_compile_eq_interp`: the whole program, and `compileExpr`.
-/

namespace Saturate

open Program

/-! ### Reads in range -/

/-- What an instruction reads is there: a load reads an existing stack slot or
position of the match, and a pop finds its values on the stack. -/
def Instr.InRange (stack subst : Array Value) : Instr → Prop
  | .lit _ | .abort _ => True
  | .load (.stack i) => i < stack.size
  | .load (.subst i) => i < subst.size
  | .callFunction _ n | .callPrim _ n | .change _ _ n => n ≤ stack.size
  | .set _ n => n + 1 ≤ stack.size
  | .union _ => 2 ≤ stack.size

instance (stack subst : Array Value) (i : Instr) : Decidable (i.InRange stack subst) := by
  cases i with
  | load src => cases src <;> unfold Instr.InRange <;> infer_instance
  | _ => unfold Instr.InRange; infer_instance

/-! ### The interpreter -/

namespace Engine

/-- The value of a term: for a variable, its latest binding among the values
bound so far, else its value in the match; for a literal, the value it
denotes. -/
def evalTerm (subst locals : List (String × Value)) : AtomTerm → Engine Value
  | .var v => pure (((locals.reverse ++ subst).lookup v).getD .placeholder)
  | .lit l => pool l.toValue

/-- Apply a primitive in an action, failing where it is undefined. -/
def applyPrimOrFail (run : Runner) (p : Prim) (args : List Value) : Engine Value := do
  match ← applyPrimWith run p args with
  | some v => pure v
  | none => fail (.primitiveFailed p.name args)

/-- Run one core action in the environment of the values `locals` bound so
far over the match `subst`, giving the values bound after it. -/
def interpAction (run : Runner) (types : List (String × SortInfo)) (subst : List (String × Value))
    (locals : List (String × Value)) : CoreAction Call → Engine (List (String × Value))
  | .bindCall v f args => do
    let vals ← args.mapM (evalTerm subst locals)
    let r ← match f with
      | .func ft => callFunctionWith run ft.name vals
      | .prim p _ => applyPrimOrFail run p vals
    pure (locals ++ [(v, r)])
  | .bindTerm v t => do
    let r ← evalTerm subst locals t
    pure (locals ++ [(v, r)])
  | .set f args rhs => do
    let vals ← args.mapM (evalTerm subst locals)
    let new ← evalTerm subst locals rhs
    performSetWith run (compileAction.funcOf f).name vals new
    pure locals
  | .change c f args => do
    let vals ← args.mapM (evalTerm subst locals)
    performChangeWith run c (compileAction.funcOf f).name vals
    pure locals
  | .union a b => do
    let x ← evalTerm subst locals a
    let y ← evalTerm subst locals b
    let _ ← unionValues x y (sortName types a)
    pure locals
  | .abort msg => fail (.aborted msg)

/-- Run core actions in order on the match `subst`, giving the values they bound. -/
def interp (run : Runner) (types : List (String × SortInfo)) (subst : List (String × Value))
    (actions : List (CoreAction Call)) : Engine (List (String × Value)) :=
  actions.foldlM (interpAction run types subst) []

/-- A step of a machine that does what `stepWith run` does on every
instruction whose reads are in range, whatever it does on the others. -/
def AgreesInRange (run : Runner) (subst : Array Value) (step : Array Value → Instr → Engine (Array Value)) :
    Prop :=
  ∀ stack i, i.InRange stack subst → step stack i = stepWith run subst stack i

end Engine

/-! ### What typechecking leaves -/

/-- A term reads only the variables `names`. -/
def AtomTerm.BoundIn (names : List String) : AtomTerm → Prop
  | .var v => v ∈ names
  | .lit _ => True

instance (names : List String) (t : AtomTerm) : Decidable (t.BoundIn names) := by
  cases t <;> unfold AtomTerm.BoundIn <;> infer_instance

/-- The number of inputs a call takes. -/
def Call.arity : Call → Nat
  | .func ft => ft.inputs.length
  | .prim _ ins => ins.length

/-- A core action as typechecking leaves it, after the variables `locals` were
bound, in a program run on a match of `subst`: it reads only bound variables,
a call or write gets one argument per input, and a binding is fresh. -/
def CoreAction.Scoped (subst locals : List String) : CoreAction Call → Prop
  | .bindCall v f args => (∀ t ∈ args, t.BoundIn (locals ++ subst)) ∧ args.length = f.arity ∧ v ∉ locals
  | .bindTerm v t => t.BoundIn (locals ++ subst) ∧ v ∉ locals
  | .set f args rhs => (∀ t ∈ args ++ [rhs], t.BoundIn (locals ++ subst)) ∧
      args.length = (compileAction.funcOf f).inputs.length
  | .change _ f args => (∀ t ∈ args, t.BoundIn (locals ++ subst)) ∧
      args.length = (compileAction.funcOf f).inputs.length
  | .union a b => a.BoundIn (locals ++ subst) ∧ b.BoundIn (locals ++ subst)
  | .abort _ => True

instance (subst locals : List String) (a : CoreAction Call) : Decidable (a.Scoped subst locals) := by
  cases a <;> unfold CoreAction.Scoped <;> infer_instance

/-- Core actions each scoped after the bindings of those before them. -/
def ActionsScoped (subst : List String) : List String → List (CoreAction Call) → Prop
  | _, [] => True
  | locals, a :: rest => a.Scoped subst locals ∧ ActionsScoped subst (locals ++ a.boundVar?.toList) rest

instance (subst : List String) : ∀ (locals : List String) (actions : List (CoreAction Call)),
    Decidable (ActionsScoped subst locals actions)
  | _, [] => isTrue trivial
  | locals, a :: rest =>
    have : Decidable (ActionsScoped subst (locals ++ a.boundVar?.toList) rest) :=
      instDecidableActionsScoped subst (locals ++ a.boundVar?.toList) rest
    inferInstanceAs (Decidable (_ ∧ _))

/-! ### Environments and slots -/

/-- The first binding of a name found at index `i` of the names is the one
at `i`. -/
theorem lookup_of_idxOf?_eq_some {L : List (String × Value)} {v : String} {i : Nat}
    (h : (L.map (·.1)).idxOf? v = some i) : L.lookup v = (L[i]?).map (·.2) := by
  induction L generalizing i with
  | nil => simp at h
  | cons p L ih =>
    obtain ⟨k, x⟩ := p
    by_cases same : k = v
    · subst same
      simp [List.idxOf?_cons] at h
      subst h
      simp
    · simp [List.idxOf?_cons, same] at h
      obtain ⟨j, found, rfl⟩ := h
      have differ : (v == k) = false := beq_eq_false_iff_ne.mpr (Ne.symm same)
      simp [List.lookup_cons, differ, ih found]

theorem lookup_eq_none_of_not_mem {L : List (String × Value)} {v : String}
    (h : v ∉ L.map (·.1)) : L.lookup v = none := by
  simp only [List.lookup_eq_none_iff, bne_iff_ne, ne_eq]
  intro p mem same
  exact h (List.mem_map.mpr ⟨p, mem, same.symm⟩)

/-- Where every name is bound once, the latest binding is the first. -/
theorem lookup_reverse {L : List (String × Value)} (nodup : (L.map (·.1)).Nodup) (v : String) :
    L.reverse.lookup v = L.lookup v := by
  induction L with
  | nil => rfl
  | cons p L ih =>
    obtain ⟨k, x⟩ := p
    simp only [List.map_cons, List.nodup_cons] at nodup
    rw [List.reverse_cons, List.lookup_append, ih nodup.2]
    by_cases same : v = k
    · subst same
      simp [lookup_eq_none_of_not_mem nodup.1]
    · have differ : (v == k) = false := beq_eq_false_iff_ne.mpr same
      simp [List.lookup_cons, differ]

/-- A variable of the match is found at its position. -/
theorem lookup_zip {names : List String} {sigma : List Value} (len : sigma.length = names.length)
    {v : String} {j : Nat} (h : names.idxOf? v = some j) : (names.zip sigma).lookup v = sigma[j]? := by
  induction names generalizing sigma j with
  | nil => simp at h
  | cons k names ih =>
    cases sigma with
    | nil => simp at len
    | cons x sigma =>
      by_cases same : k = v
      · subst same
        simp [List.idxOf?_cons] at h
        subst h
        simp
      · simp [List.idxOf?_cons, same] at h
        obtain ⟨i, found, rfl⟩ := h
        have differ : (v == k) = false := beq_eq_false_iff_ne.mpr (Ne.symm same)
        simp [List.lookup_cons, differ, ih (by simpa using len) found]

/-- A bind after `mapM` only sees lists as long as its input. -/
theorem mapM_bind_congr {α β γ : Type} {f : α → Engine β} (ts : List α) {k k' : List β → Engine γ}
    (same : ∀ vals : List β, vals.length = ts.length → k vals = k' vals) :
    ts.mapM f >>= k = ts.mapM f >>= k' := by
  induction ts generalizing k k' with
  | nil => simp [same [] rfl]
  | cons t ts ih =>
    simp only [List.mapM_cons, bind_assoc, pure_bind]
    congr 1
    funext x
    exact ih fun vals len => same (x :: vals) (by simp [len])

/-- A failure ends the rest of the run. -/
theorem Engine.fail_bind {α β : Type} (e : Error) (k : α → Engine β) :
    (Engine.fail e : Engine α) >>= k = Engine.fail e := rfl

theorem Engine.map_fail {α β : Type} (f : α → β) (e : Error) :
    f <$> (Engine.fail e : Engine α) = Engine.fail e := rfl

/-- Popping as many values as were pushed last gives them back. -/
theorem Engine.popN_append (xs vals : List Value) :
    Engine.popN (xs ++ vals).toArray vals.length = (vals, xs.toArray) := by
  simp [Engine.popN]

/-! ### The compiler's bookkeeping -/

section Compiler

variable {names : List String} {types : List (String × SortInfo)}

theorem compileAction_locals (c : Compiler) (a : CoreAction Call) :
    (compileAction names types c a).locals = c.locals ++ a.boundVar?.toList := by
  cases a <;> simp [compileAction, CoreAction.boundVar?]

/-- An action appends its code to what was compiled before it. -/
theorem compileAction_code (c : Compiler) (a : CoreAction Call) :
    (compileAction names types c a).code = c.code ++ (compileAction names types ⟨c.locals, #[]⟩ a).code := by
  cases a <;> simp [compileAction]

theorem foldl_compileAction_locals (actions : List (CoreAction Call)) (c : Compiler) :
    (actions.foldl (compileAction names types) c).locals = c.locals ++ actions.filterMap CoreAction.boundVar? := by
  induction actions generalizing c with
  | nil => simp
  | cons a rest ih =>
    rw [List.foldl_cons, ih, compileAction_locals]
    cases bound : a.boundVar? <;> simp [bound]

theorem foldl_compileAction_code (actions : List (CoreAction Call)) (c : Compiler) :
    (actions.foldl (compileAction names types) c).code =
      c.code ++ (actions.foldl (compileAction names types) ⟨c.locals, #[]⟩).code := by
  induction actions generalizing c with
  | nil => simp
  | cons a rest ih =>
    rw [List.foldl_cons, List.foldl_cons, ih, ih (compileAction names types ⟨c.locals, #[]⟩ a),
      compileAction_code, compileAction_locals, compileAction_locals, Array.append_assoc]

end Compiler

theorem nodup_append_fresh {l : List String} {v : String} (nodup : l.Nodup) (fresh : v ∉ l) :
    (l ++ [v]).Nodup := by
  refine List.nodup_append.mpr ⟨nodup, by simp, fun x mem y named same => ?_⟩
  rw [List.mem_singleton] at named
  subst named same
  exact fresh mem

/-- A scoped action binds a name not bound before. -/
theorem CoreAction.Scoped.nodup {subst locals : List String} {a : CoreAction Call}
    (h : a.Scoped subst locals) (nodup : locals.Nodup) : (locals ++ a.boundVar?.toList).Nodup := by
  cases a with
  | bindCall v f args => exact nodup_append_fresh nodup h.2.2
  | bindTerm v t => exact nodup_append_fresh nodup h.2
  | _ => simpa [CoreAction.boundVar?] using nodup

/-- Scoped actions bind each name once. -/
theorem ActionsScoped.nodup {subst : List String} {actions : List (CoreAction Call)} :
    ∀ {locals : List String}, ActionsScoped subst locals actions →
      locals.Nodup → (locals ++ actions.filterMap CoreAction.boundVar?).Nodup := by
  induction actions with
  | nil => intro locals _ nodup; simpa using nodup
  | cons a rest ih =>
    intro locals inScope nodup
    obtain ⟨first, later⟩ := inScope
    have := ih later (first.nodup nodup)
    cases bound : a.boundVar? <;> simp_all

/-! ### The values an interpreter binds -/

section Bound

open Engine

variable {run : Runner} {types : List (String × SortInfo)} {subst : List (String × Value)}
  {γ : Type}

/-- What follows an action only sees the values bound so far, each under the
name the action binds. -/
theorem interpAction_bind_congr {L : List (String × Value)} (a : CoreAction Call)
    {k k' : List (String × Value) → Engine γ}
    (same : ∀ L', L'.map (·.1) = L.map (·.1) ++ a.boundVar?.toList → k L' = k' L') :
    interpAction run types subst L a >>= k = interpAction run types subst L a >>= k' := by
  cases a with
  | bindCall v f args =>
    -- the call of a function or a primitive, then the binding
    cases f <;>
    · simp only [interpAction, bind_assoc, pure_bind]
      congr 1
      funext vals
      congr 1
      funext r
      exact same _ (by simp [CoreAction.boundVar?])
  | bindTerm v t =>
    simp only [interpAction, bind_assoc, pure_bind]
    congr 1
    funext r
    exact same _ (by simp [CoreAction.boundVar?])
  | set f args rhs =>
    simp only [interpAction, bind_assoc, pure_bind]
    congr 1
    funext vals
    congr 1
    funext new
    congr 1
    funext u
    exact same _ (by simp [CoreAction.boundVar?])
  | change c f args =>
    simp only [interpAction, bind_assoc, pure_bind]
    congr 1
    funext vals
    congr 1
    funext u
    exact same _ (by simp [CoreAction.boundVar?])
  | union x y =>
    simp only [interpAction, bind_assoc, pure_bind]
    congr 1
    funext a
    congr 1
    funext b
    congr 1
    funext u
    exact same _ (by simp [CoreAction.boundVar?])
  | abort msg => simp [interpAction, Engine.fail_bind]

/-- What follows some actions only sees the values bound so far, under the
names the actions bind. -/
theorem interp_bind_congr (actions : List (CoreAction Call)) {L : List (String × Value)}
    {k k' : List (String × Value) → Engine γ}
    (same : ∀ L', L'.map (·.1) = L.map (·.1) ++ actions.filterMap CoreAction.boundVar? → k L' = k' L') :
    actions.foldlM (interpAction run types subst) L >>= k =
      actions.foldlM (interpAction run types subst) L >>= k' := by
  induction actions generalizing L with
  | nil => simpa using same L (by simp)
  | cons a rest ih =>
    simp only [List.foldlM_cons, bind_assoc]
    refine interpAction_bind_congr a fun L' bound => ih fun L'' later => same L'' ?_
    rw [later, bound]
    cases named : a.boundVar? <;> simp [named]

end Bound

/-! ### The code of one action -/

section Machine

open Engine

variable {run : Runner} {types : List (String × SortInfo)} {names : List String} {sigma : Array Value}
  {step : Array Value → Instr → Engine (Array Value)}

/-- **A load pushes the value of its term**, on a stack that holds the values
bound so far and then anything. -/
theorem step_load (agrees : AgreesInRange run sigma step)
    (len : sigma.size = names.length) {L : List (String × Value)} (nodup : (L.map (·.1)).Nodup)
    (extra : Array Value) {t : AtomTerm} (bound : t.BoundIn (L.map (·.1) ++ names)) :
    step ((L.map (·.2)).toArray ++ extra) (loadTerm names (L.map (·.1)) t) =
      (((L.map (·.2)).toArray ++ extra).push ·) <$> evalTerm (names.zip sigma.toList) L t := by
  cases t with
  | lit l =>
    rw [loadTerm, agrees _ (.lit l) trivial]
    simp [stepWith, evalTerm]
  | var v =>
    rcases slot : (L.map (·.1)).idxOf? v with _ | i
    · -- not bound by an action: a variable of the match
      have notLocal : v ∉ L.map (·.1) := List.idxOf?_eq_none_iff.mp slot
      have inNames : v ∈ names := (List.mem_append.mp bound).resolve_left notLocal
      obtain ⟨j, at_j⟩ := Option.isSome_iff_exists.mp (List.isSome_idxOf?.mpr inNames)
      have lt : j < sigma.size := len ▸ (List.idxOf?_eq_some_iff.mp at_j).1
      have notReversed : v ∉ L.reverse.map (·.1) := by simpa using notLocal
      have zipped : (names.zip sigma.toList).lookup v = sigma.toList[j]? :=
        lookup_zip (by simp [len]) at_j
      rw [loadTerm, slot, at_j, Option.getD_some, agrees _ (.load (.subst j)) lt]
      simp [stepWith, evalTerm, List.lookup_append, lookup_eq_none_of_not_mem notReversed, zipped]
    · -- bound by an action: its slot on the stack
      have lt : i < L.length := by simpa using (List.idxOf?_eq_some_iff.mp slot).1
      have below : i < ((L.map (·.2)).toArray ++ extra).size := by simp; omega
      have at_i : ((L.map (·.2)).toArray ++ extra)[i]? = some L[i].2 := by
        rw [Array.getElem?_append_left (by simp; omega)]
        simp [lt]
      rw [loadTerm, slot, agrees _ (.load (.stack i)) below]
      simp [stepWith, evalTerm, List.lookup_append, lookup_reverse nodup,
        lookup_of_idxOf?_eq_some slot, at_i, lt]

/-- **The loads of some terms push their values in order.** -/
theorem run_loads (agrees : AgreesInRange run sigma step)
    (len : sigma.size = names.length) {L : List (String × Value)} (nodup : (L.map (·.1)).Nodup)
    (ts : List AtomTerm) (bound : ∀ t ∈ ts, t.BoundIn (L.map (·.1) ++ names)) (extra : Array Value) :
    (ts.map (loadTerm names (L.map (·.1)))).foldlM step ((L.map (·.2)).toArray ++ extra) =
      (fun vals => (L.map (·.2)).toArray ++ extra ++ vals.toArray) <$>
        ts.mapM (evalTerm (names.zip sigma.toList) L) := by
  -- the induction moves each pushed value from the loads into `extra`
  induction ts generalizing extra with
  | nil => simp
  | cons t ts ih =>
    rw [List.map_cons, List.foldlM_cons, step_load agrees len nodup extra (bound t List.mem_cons_self)]
    simp only [map_eq_pure_bind, bind_assoc, pure_bind, List.mapM_cons]
    congr 1
    funext x
    have rest := ih (fun t mem => bound t (List.mem_cons_of_mem _ mem)) (extra.push x)
    rw [← Array.append_push, rest, map_eq_pure_bind]
    congr 1
    funext vals
    simp

/-- **The code of one action does what the interpreter does**, from a stack
that holds the values bound so far: the binding actions push the value they
bind, the others leave the stack as they found it. -/
theorem run_action (agrees : AgreesInRange run sigma step)
    (len : sigma.size = names.length) {L : List (String × Value)} (nodup : (L.map (·.1)).Nodup)
    {a : CoreAction Call} (inScope : a.Scoped names (L.map (·.1))) :
    ((compileAction names types ⟨L.map (·.1), #[]⟩ a).code.toList).foldlM step (L.map (·.2)).toArray =
      (fun L' => (L'.map (·.2)).toArray) <$> interpAction run types (names.zip sigma.toList) L a := by
  have loads : ∀ ts : List AtomTerm, (∀ t ∈ ts, t.BoundIn (L.map (·.1) ++ names)) →
      (ts.map (loadTerm names (L.map (·.1)))).foldlM step (L.map (·.2)).toArray =
        (fun vals => (L.map (·.2)).toArray ++ vals.toArray) <$> ts.mapM (evalTerm (names.zip sigma.toList) L) :=
    fun ts bound => by simpa using run_loads agrees len nodup ts bound #[]
  cases a with
  | bindCall v f args =>
    obtain ⟨bound, arity, -⟩ := inScope
    cases f with
    | func ft =>
      rw [show (compileAction names types ⟨L.map (·.1), #[]⟩ (.bindCall v (.func ft) args)).code.toList =
          args.map (loadTerm names (L.map (·.1))) ++ [.callFunction ft.name ft.inputs.length] by
        simp [compileAction], List.foldlM_append, loads args bound]
      simp only [List.foldlM_cons, List.foldlM_nil, interpAction, map_eq_pure_bind, bind_assoc, pure_bind,
        bind_pure]
      refine mapM_bind_congr args fun vals count => ?_
      have n : ft.inputs.length = vals.length := by
        simp only [Call.arity] at arity
        omega
      rw [n, agrees _ (.callFunction ft.name vals.length) (by simp [Instr.InRange])]
      simp [stepWith, Engine.popN_append]
    | prim p ins =>
      rw [show (compileAction names types ⟨L.map (·.1), #[]⟩ (.bindCall v (.prim p ins) args)).code.toList =
          args.map (loadTerm names (L.map (·.1))) ++ [.callPrim p ins.length] by
        simp [compileAction], List.foldlM_append, loads args bound]
      simp only [List.foldlM_cons, List.foldlM_nil, interpAction, map_eq_pure_bind, bind_assoc, pure_bind,
        bind_pure]
      refine mapM_bind_congr args fun vals count => ?_
      have n : ins.length = vals.length := by
        simp only [Call.arity] at arity
        omega
      rw [n, agrees _ (.callPrim p vals.length) (by simp [Instr.InRange])]
      simp only [stepWith, List.append_toArray, Engine.popN_append, applyPrimOrFail, bind_assoc]
      congr 1
      funext result
      cases result <;> simp [Engine.map_fail]
  | bindTerm v t =>
    obtain ⟨bound, -⟩ := inScope
    rw [show (compileAction names types ⟨L.map (·.1), #[]⟩ (.bindTerm v t)).code.toList =
        [t].map (loadTerm names (L.map (·.1))) by simp [compileAction], loads [t] (by simpa using bound)]
    simp [interpAction]
  | set f args rhs =>
    obtain ⟨bound, arity⟩ := inScope
    rw [show (compileAction names types ⟨L.map (·.1), #[]⟩ (.set f args rhs)).code.toList =
        (args ++ [rhs]).map (loadTerm names (L.map (·.1))) ++
          [.set (compileAction.funcOf f).name (compileAction.funcOf f).inputs.length] by
      simp [compileAction], List.foldlM_append, loads _ bound]
    simp only [List.mapM_append, List.foldlM_cons, List.foldlM_nil, interpAction, map_eq_pure_bind,
      bind_assoc, pure_bind, bind_pure]
    refine mapM_bind_congr args fun vals count => ?_
    have n : (compileAction.funcOf f).inputs.length = vals.length := by omega
    simp only [List.mapM_cons, List.mapM_nil, bind_assoc, pure_bind]
    congr 1
    funext new
    rw [n, agrees _ (.set _ vals.length) (by simp [Instr.InRange])]
    simp [stepWith, Engine.popN_append]
  | change c f args =>
    obtain ⟨bound, arity⟩ := inScope
    rw [show (compileAction names types ⟨L.map (·.1), #[]⟩ (.change c f args)).code.toList =
        args.map (loadTerm names (L.map (·.1))) ++
          [.change c (compileAction.funcOf f).name (compileAction.funcOf f).inputs.length] by
      simp [compileAction], List.foldlM_append, loads args bound]
    simp only [List.foldlM_cons, List.foldlM_nil, interpAction, map_eq_pure_bind, bind_assoc, pure_bind,
      bind_pure]
    refine mapM_bind_congr args fun vals count => ?_
    rw [show (compileAction.funcOf f).inputs.length = vals.length by omega,
      agrees _ (.change c _ vals.length) (by simp [Instr.InRange])]
    simp [stepWith, Engine.popN_append]
  | union x y =>
    obtain ⟨boundX, boundY⟩ := inScope
    rw [show (compileAction names types ⟨L.map (·.1), #[]⟩ (.union x y)).code.toList =
        [x, y].map (loadTerm names (L.map (·.1))) ++ [.union (sortName types x)] by
      simp [compileAction], List.foldlM_append, loads [x, y] (by simp [boundX, boundY])]
    simp only [List.mapM_cons, List.mapM_nil, List.foldlM_cons, List.foldlM_nil, interpAction,
      map_eq_pure_bind, bind_assoc, pure_bind, bind_pure]
    congr 1
    funext a
    congr 1
    funext b
    rw [agrees _ (.union _) (by simp [Instr.InRange])]
    simp [stepWith, Engine.popN]
  | abort msg =>
    rw [show (compileAction names types ⟨L.map (·.1), #[]⟩ (.abort msg)).code.toList = [.abort msg] by
      simp [compileAction], List.foldlM_cons, agrees _ (.abort msg) trivial]
    simp [stepWith, interpAction, Engine.map_fail]

variable (types) in
/-- **The code of some actions does what the interpreter does**, action by
action, from a stack that holds the values bound before them. -/
theorem run_actions (agrees : AgreesInRange run sigma step)
    (len : sigma.size = names.length) {actions : List (CoreAction Call)} :
    ∀ {L : List (String × Value)}, (L.map (·.1)).Nodup → ActionsScoped names (L.map (·.1)) actions →
      ((actions.foldl (compileAction names types) ⟨L.map (·.1), #[]⟩).code.toList).foldlM step
          (L.map (·.2)).toArray =
        (fun L' => (L'.map (·.2)).toArray) <$> actions.foldlM (interpAction run types (names.zip sigma.toList)) L := by
  induction actions with
  | nil => intro L _ _; simp
  | cons a rest ih =>
    intro L nodup inScope
    obtain ⟨first, later⟩ := inScope
    rw [List.foldl_cons, foldl_compileAction_code, compileAction_locals, Array.toList_append,
      List.foldlM_append, run_action agrees len nodup first, List.foldlM_cons, map_bind,
      map_eq_pure_bind, bind_assoc]
    simp only [pure_bind]
    -- the rest runs on the bindings of `a`, whatever values they hold
    refine interpAction_bind_congr a fun L' bound => ?_
    rw [← bound] at later ⊢
    exact ih (bound ▸ first.nodup nodup) later

/-- **The code of `compileExpr` leaves the value of its target on top** of
the values the actions bound. -/
theorem run_target (agrees : AgreesInRange run sigma step)
    (len : sigma.size = names.length) {actions : List (CoreAction Call)} (inScope : ActionsScoped names [] actions)
    {target : AtomTerm} (bound : target.BoundIn (actions.filterMap CoreAction.boundVar? ++ names)) :
    (compileExpr names types actions target).instrs.foldlM step #[] =
      (do
        let L ← interp run types (names.zip sigma.toList) actions
        let x ← evalTerm (names.zip sigma.toList) L target
        pure ((L.map (·.2)).toArray.push x)) := by
  have whole := run_actions types agrees len (L := []) List.nodup_nil inScope
  simp only [List.map_nil] at whole
  simp only [compileExpr, compileAll, Array.toList_push, List.foldlM_append, whole, map_eq_pure_bind,
    bind_assoc, pure_bind, List.foldlM_cons, List.foldlM_nil, bind_pure, interp]
  -- the target is loaded by the slots of the bindings, which name the values bound
  refine interp_bind_congr actions fun L named => ?_
  simp only [List.map_nil, List.nil_append] at named
  have nodup : (L.map (·.1)).Nodup := by simpa [named] using inScope.nodup List.nodup_nil
  simp only [foldl_compileAction_locals, List.nil_append, ← named]
  simpa using step_load agrees len nodup #[] (by rw [named]; exact bound)

end Machine

/-! ### The machine and the interpreter -/

open Engine in
/-- **The action machine runs what the interpreter runs.** For actions as
typechecking leaves them, on a match `sigma` of the variables `names`, the
compiled program has the effects of the interpreter, in order, and fails where
it fails with the same error. It reads only in range: a machine that agrees
with it on every read in range, whatever it does out of range, runs the same.
The code of `compileExpr` ends with the value of its target on top of the
values the actions bound. -/
theorem runWithin_compile_eq_interp (fuel : Nat) (types : List (String × SortInfo)) (names : List String)
    (sigma : Array Value) (len : sigma.size = names.length) {actions : List (CoreAction Call)}
    (inScope : ActionsScoped names [] actions) :
    runWithin (fuel + 1) (compile names types actions) sigma =
        (fun L => (L.map (·.2)).toArray) <$> interp (runWithin fuel) types (names.zip sigma.toList) actions ∧
    (∀ step, AgreesInRange (runWithin fuel) sigma step →
      (compile names types actions).instrs.foldlM step #[] =
        (fun L => (L.map (·.2)).toArray) <$> interp (runWithin fuel) types (names.zip sigma.toList) actions) ∧
    ∀ target : AtomTerm, target.BoundIn (actions.filterMap CoreAction.boundVar? ++ names) →
      ∀ step, AgreesInRange (runWithin fuel) sigma step →
        (compileExpr names types actions target).instrs.foldlM step #[] =
          (do
            let L ← interp (runWithin fuel) types (names.zip sigma.toList) actions
            let x ← evalTerm (names.zip sigma.toList) L target
            pure ((L.map (·.2)).toArray.push x)) := by
  have program : ∀ step, AgreesInRange (runWithin fuel) sigma step →
      (compile names types actions).instrs.foldlM step #[] =
        (fun L => (L.map (·.2)).toArray) <$> interp (runWithin fuel) types (names.zip sigma.toList) actions :=
    fun step agrees => by
      have run := run_actions types agrees len (L := []) List.nodup_nil inScope
      simp only [List.map_nil] at run
      exact run
  -- the machine itself agrees with itself everywhere
  exact ⟨program _ fun _ _ _ => rfl, program,
    fun target bound step agrees => run_target agrees len inScope bound⟩

/-- A binding that copies a variable of the match, then a union of the two:
the machine runs the union on the value of the match twice over. -/
theorem compile_eq_interp_of_copy_and_union :
    (#[Value.ofInt 3].size = ["x"].length ∧
      ActionsScoped ["x"] [] [.bindTerm "y" (.var "x"), .union (.var "x") (.var "y")]) ∧
    Engine.runWithin 1 (compile ["x"] [] [.bindTerm "y" (.var "x"), .union (.var "x") (.var "y")])
        #[Value.ofInt 3] =
      (fun L => (L.map (·.2)).toArray) <$>
        Engine.interp (Engine.runWithin 0) [] (["x"].zip [Value.ofInt 3])
          [.bindTerm "y" (.var "x"), .union (.var "x") (.var "y")] :=
  ⟨⟨rfl, by decide⟩, (runWithin_compile_eq_interp 0 [] ["x"] #[Value.ofInt 3] rfl (by decide)).1⟩

end Saturate
