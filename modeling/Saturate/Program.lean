import Saturate.Typing.Resolve

/-!
Action programs: straight-line code for a stack machine, compiled from the
core actions of a rule head, from top-level actions, and from merge and
default expressions.

Every binding action pushes exactly one value and every other action leaves
the stack as it found it, so the `i`-th variable a program binds is at
position `i` of the stack. Variables of the match a program runs on are read
from the substitution by their position there.
-/

namespace Saturate

/-- Where a load reads from. -/
inductive Load where
  | stack (i : Nat)
  | subst (i : Nat)
  deriving Repr, Inhabited

/-- The instructions of the action machine. -/
inductive Instr where
  /-- Push the value of a literal. -/
  | lit (l : Literal)
  /-- Push a bound variable. -/
  | load (src : Load)
  /-- Pop the inputs of a function and push its output, adding a row if there is none. -/
  | callFunction (name : String) (arity : Nat)
  /-- Pop the inputs of a primitive and push its result. -/
  | callPrim (p : Prim) (arity : Nat)
  /-- Pop the inputs of a function and delete or subsume its row. -/
  | change (c : Change) (name : String) (arity : Nat)
  /-- Pop an output and the inputs of a function and merge the output into its row. -/
  | set (name : String) (arity : Nat)
  /-- Pop two e-classes of a sort and union them. -/
  | union (sort : String)
  /-- Stop with an error. -/
  | abort (msg : String)
  deriving Repr, Inhabited

/-- A compiled action program. -/
structure Program where
  instrs : List Instr
  deriving Repr, Inhabited

namespace Program

/-- The state of compilation: the variables bound so far and the code. -/
structure Compiler where
  locals : List String
  code : Array Instr

/-- The load of a term: a local, then a variable of the substitution, then a literal. -/
def loadTerm (subst : List String) (locals : List String) : AtomTerm → Instr
  | .var v =>
    match locals.idxOf? v with
    | some i => .load (.stack i)
    | none => .load (.subst ((subst.idxOf? v).getD 0))
  | .lit l => .lit l

/-- The sort name of a term, for the union of two terms. -/
def sortName (types : List (String × SortInfo)) : AtomTerm → String
  | .var v => ((types.lookup v).map SortInfo.name).getD ""
  | .lit l => (TypeInfo.literalSort l).name

/-- The code of one core action. -/
def compileAction (subst : List String) (types : List (String × SortInfo)) (c : Compiler) :
    CoreAction Call → Compiler
  | .bindCall v f args =>
    let loads := args.map (loadTerm subst c.locals)
    let call := match f with
      | .func ft => Instr.callFunction ft.name ft.inputs.length
      | .prim p ins => Instr.callPrim p ins.length
    ⟨c.locals ++ [v], c.code ++ loads.toArray |>.push call⟩
  | .bindTerm v t => ⟨c.locals ++ [v], c.code.push (loadTerm subst c.locals t)⟩
  | .set f args rhs =>
    let loads := (args ++ [rhs]).map (loadTerm subst c.locals)
    let ft := funcOf f
    ⟨c.locals, c.code ++ loads.toArray |>.push (.set ft.name ft.inputs.length)⟩
  | .change ch f args =>
    let loads := args.map (loadTerm subst c.locals)
    let ft := funcOf f
    ⟨c.locals, c.code ++ loads.toArray |>.push (.change ch ft.name ft.inputs.length)⟩
  | .union a b =>
    let loads := [a, b].map (loadTerm subst c.locals)
    ⟨c.locals, c.code ++ loads.toArray |>.push (.union (sortName types a))⟩
  | .abort msg => ⟨c.locals, c.code.push (.abort msg)⟩
where
  /-- The function a resolved write targets. -/
  funcOf : Call → FuncType
    | .func ft => ft
    | .prim p _ => ⟨p.name, [], .unit⟩

/-- The compiler after a list of actions. -/
def compileAll (subst : List String) (types : List (String × SortInfo)) (actions : List (CoreAction Call)) :
    Compiler :=
  actions.foldl (compileAction subst types) ⟨[], #[]⟩

/-- Compile actions that run on a substitution of the variables `subst`, in order. -/
def compile (subst : List String) (types : List (String × SortInfo)) (actions : List (CoreAction Call)) :
    Program :=
  ⟨(compileAll subst types actions).code.toList⟩

/-- Compile actions and then load `target`, which is left on top of the stack. -/
def compileExpr (subst : List String) (types : List (String × SortInfo))
    (actions : List (CoreAction Call)) (target : AtomTerm) : Program :=
  let c := compileAll subst types actions
  ⟨(c.code.push (loadTerm subst c.locals target)).toList⟩

end Program

end Saturate
