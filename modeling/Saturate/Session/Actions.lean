import Saturate.Session.Basic

/-!
The action machine: running a program on a substitution, with the effects
of its instructions on the session.

* Calling a function gives the output of its row for the canonical inputs.
  Without a row, one is added when an output can be made up: a fresh
  e-class for an eq sort, `()` for a relation, or the function's default;
  otherwise the call fails with `notFound`.
* Setting a row merges the new output into the old one by the function's
  merge policy; an unchanged output writes nothing.
* Deleting removes the row; subsuming first calls the function, so that a
  missing row is made, and then marks the row subsumed. A function with a
  merge expression cannot be subsumed.
* Applying a function value calls the function on the captured arguments
  followed by the given ones; an error of that call makes the application
  undefined.

Programs nest: a default or merge expression runs inside the instruction
that needs it. Every nesting spends one unit of a depth budget, and a run
out of budget fails with `overflow`, which is how a default that calls its
own function ends.
-/

namespace Saturate

namespace Engine

/-- How nested programs are run: a program and a substitution give the final stack. -/
abbrev Runner := Program → Array Value → Engine (Array Value)

/-- The canonical inputs of a call of `f`. -/
def canonicalInputs (f : Func) (args : List Value) : Engine (List Value) :=
  (args.zip f.inputs).mapM fun (v, s) => canonical s v

/-- Call a function as an action does. -/
def callFunctionWith (run : Runner) (name : String) (args : List Value) : Engine Value := do
  let f ← func name
  let args ← canonicalInputs f args
  match f.get? args with
  | some out => pure out.value
  | none =>
    let v ← if f.output.isEq then makeClass f.output.name
      else if f.output.name == unitSortName then pure .unit
      else match f.default with
        | some p =>
          match (← run p #[]).back? with
          | some v => pure v
          | none => fail (.notFound ("default of " ++ name ++ " produced no value"))
        | none =>
          fail (.notFound ("No value found for (" ++ name ++ " " ++
            joinWith " " (args.map Value.debugText) ++ ")"))
    let ts := (← db).timestamp
    modifyFunc name (·.put args v ts)
    pure v

/-- Merge an output into the row of a function for some inputs. -/
def performSetWith (run : Runner) (name : String) (args : List Value) (new : Value) : Engine Unit := do
  let f ← func name
  let args ← canonicalInputs f args
  let new ← canonical f.output new
  let merged ← match f.get? args with
    | none => pure (some new)
    | some old =>
      if old.value = new then pure none
      else match f.merge with
        | .assertEq => fail (.mergeConflict name old.value new)
        | .union => some <$> unionValues old.value new f.output.name
        | .program p => do
          let stack ← run p #[old.value, new]
          pure (some (stack.back?.getD old.value))
  match merged with
  | some v =>
    let ts := (← db).timestamp
    modifyFunc name (·.put args v ts)
  | none => pure ()

/-- Delete or subsume the row of a function for some inputs. -/
def performChangeWith (run : Runner) (c : Change) (name : String) (args : List Value) : Engine Unit := do
  match c with
  | .delete =>
    let f ← func name
    let args ← canonicalInputs f args
    let ts := (← db).timestamp
    modifyFunc name (·.remove args ts)
  | .subsume =>
    let f ← func name
    match f.merge with
    | .program _ => fail (.subsumeWithMerge name)
    | _ =>
      let _ ← callFunctionWith run name args
      let f ← func name
      let args ← canonicalInputs f args
      let ts := (← db).timestamp
      modifyFunc name (·.subsume args ts)

/-- Apply a primitive in an action; `none` when it is undefined there. -/
def applyPrimWith (run : Runner) (p : Prim) (args : List Value) : Engine (Option Value) := do
  match p with
  | .fn s .build =>
    match args with
    | [] => pure none
    | nameValue :: captured =>
      let fname ← pool (PoolM.loadString nameValue)
      match (← db).func? fname with
      | none => pure none
      | some f =>
        let n := min f.inputs.length captured.length
        some <$> pool (PoolM.store s s.table (.partialApp fname (captured.take n)) (f.inputs.take n))
  | .fn s .apply =>
    match args with
    | [] => pure none
    | fv :: rest =>
      match ← pool (PoolM.load s.table fv) with
      | .partialApp fname captured =>
        try some <$> callFunctionWith run fname (captured ++ rest)
        catch e =>
          match e with
          | .error _ => pure none
          | other => throw other
      | _ => throw (.fault PoolM.missing)
  | _ => pool (p.applyPure args)

/-- The top `n` values of a stack and the stack below them. -/
def popN (stack : Array Value) (n : Nat) : List Value × Array Value :=
  let k := stack.size - n
  ((stack.extract k stack.size).toList, stack.shrink k)

/-- Run one instruction on a stack. -/
def stepWith (run : Runner) (subst : Array Value) (stack : Array Value) : Instr → Engine (Array Value)
  | .lit l => do pure (stack.push (← pool l.toValue))
  | .load (.stack i) => pure (stack.push (stack[i]?.getD .placeholder))
  | .load (.subst i) => pure (stack.push (subst[i]?.getD .placeholder))
  | .callFunction f n => do
    let (args, stack) := popN stack n
    pure (stack.push (← callFunctionWith run f args))
  | .callPrim p n => do
    let (args, stack) := popN stack n
    match ← applyPrimWith run p args with
    | some v => pure (stack.push v)
    | none => fail (.primitiveFailed p.name args)
  | .set f n => do
    let new := stack.back?.getD .placeholder
    let (args, stack) := popN stack.pop n
    performSetWith run f args new
    pure stack
  | .change c f n => do
    let (args, stack) := popN stack n
    performChangeWith run c f args
    pure stack
  | .union sort => do
    let (vals, stack) := popN stack 2
    match vals with
    | [a, b] => let _ ← unionValues a b sort
    | _ => pure ()
    pure stack
  | .abort msg => fail (.aborted msg)

/-- Run a program with a depth budget for the programs it nests. -/
def runWithin : Nat → Runner
  | 0 => fun _ _ => throw .overflow
  | fuel + 1 => fun prog subst => prog.instrs.foldlM (stepWith (runWithin fuel) subst) #[]

/-- The depth budget of nested programs. -/
def depthLimit : Nat := 1000

/-- Run a program on a substitution; the values it leaves stay on the stack. -/
def runProgram (prog : Program) (subst : Array Value) : Engine (Array Value) :=
  runWithin depthLimit prog subst

/-- Call a function as an action does. -/
def callFunction (name : String) (args : List Value) : Engine Value :=
  callFunctionWith (runWithin depthLimit) name args

/-- Merge an output into the row of a function as `set` does. -/
def performSet (name : String) (args : List Value) (new : Value) : Engine Unit :=
  performSetWith (runWithin depthLimit) name args new

end Engine

end Saturate
