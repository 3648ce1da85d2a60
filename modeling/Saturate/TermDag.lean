import Std.Data.HashMap
import Saturate.Syntax.Expr

/-!
Hash-consed terms. A term dag stores every distinct term once and names it
by its position; an application refers to its children by their ids, which
are always smaller than its own, since children are added first. Two
literal terms are the same when their literals are (`Literal.key`), so the
dag keeps the first of `0.0` and `-0.0` that it sees.

An expression is read back from a term by recursion. The tree size and the
text of a term are read by a walk with an explicit stack and a memo table
(`TermDag.walk`), so deep terms need no deep recursion.
-/

namespace Saturate

/-- A node of a term dag. -/
inductive Term where
  | lit (l : Literal)
  | var (name : String)
  | app (head : String) (children : List Nat)
  deriving DecidableEq, Hashable, Repr, Inhabited

/-- The form under which terms are compared. -/
def Term.key : Term → Term
  | .lit l => .lit l.key
  | t => t

/-- The ids a node refers to. -/
def Term.children : Term → List Nat
  | .app _ cs => cs
  | _ => []

/-- A store of distinct terms in order of first insertion. -/
structure TermDag where
  nodes : Array Term
  index : Std.HashMap Term Nat

namespace TermDag

instance : Inhabited TermDag := ⟨⟨#[], {}⟩⟩

/-- The dag without terms. -/
def empty : TermDag := ⟨#[], {}⟩

/-- The number of distinct terms. -/
def size (d : TermDag) : Nat := d.nodes.size

/-- The id of a term, adding it when it is new. -/
def add (d : TermDag) (t : Term) : TermDag × Nat :=
  match d.index.get? t.key with
  | some i => (d, i)
  | none =>
    let n := d.nodes.size
    (⟨d.nodes.push t, d.index.insert t.key n⟩, n)

/-- The id of a literal term. -/
def lit (d : TermDag) (l : Literal) : TermDag × Nat := d.add (.lit l)

/-- The id of a variable term. -/
def var (d : TermDag) (v : String) : TermDag × Nat := d.add (.var v)

/-- The id of an application to terms already in the dag. -/
def app (d : TermDag) (head : String) (children : List Nat) : TermDag × Nat := d.add (.app head children)

mutual

/-- The id of the term of an expression. -/
def ofExpr (d : TermDag) : Expr → TermDag × Nat
  | .lit l => d.lit l
  | .var v => d.var v
  | .call h args =>
    let (d, ids) := ofExprs d args
    d.app h ids

/-- The ids of the terms of expressions, added from left to right. -/
def ofExprs (d : TermDag) : List Expr → TermDag × List Nat
  | [] => (d, [])
  | e :: es =>
    let (d, i) := ofExpr d e
    let (d, is) := ofExprs d es
    (d, i :: is)

end

/-- The expression of a term, following at most `fuel` nodes down. -/
def toExprWithin (d : TermDag) : Nat → Nat → Expr
  | 0, _ => .lit .unit
  | fuel + 1, id =>
    match d.nodes[id]? with
    | some (.lit l) => .lit l
    | some (.var v) => .var v
    | some (.app h cs) => .call h (cs.map (d.toExprWithin fuel))
    | none => .lit .unit

/-- The expression of a term. -/
def toExpr (d : TermDag) (id : Nat) : Expr := d.toExprWithin (id + 1) id

/-! ### Readings by an explicit stack

The tree size and the text of a term are computed without recursion: a stack of ids to visit,
the top first, and a memo of the ids done. A step pops an id; one already done is skipped, a
literal or a variable is valued at once, and an application is valued from its children's values
once they are all done, or else pushed back below those of its children still to do. -/

/-- What a reading gives each node: a value for a literal and one for a variable, and for an
application a value made from its head and its children's values, in order. -/
structure Fold (α : Type) where
  lit : Literal → α
  var : String → α
  app : String → List α → α

/-- A reading computed by a walk: `above` gives the children that an application whose children
are not all done pushes above itself, the first to visit on top. -/
structure Traversal (α : Type) extends Fold α where
  above : List Nat → Std.HashMap Nat α → List Nat

/-- The memo a walk from `stack` reaches in at most `fuel` steps; `none` when the steps run out
or an id names no node. -/
def walk {α : Type} (d : TermDag) (t : Traversal α) :
    Nat → List Nat → Std.HashMap Nat α → Option (Std.HashMap Nat α)
  | 0, _, _ => none
  | _ + 1, [], memo => some memo
  | fuel + 1, next :: stack, memo =>
    if memo.contains next then d.walk t fuel stack memo
    else
      match d.nodes[next]? with
      | none => none
      | some (.lit l) => d.walk t fuel stack (memo.insert next (t.lit l))
      | some (.var v) => d.walk t fuel stack (memo.insert next (t.var v))
      | some (.app h cs) =>
        match cs.mapM (memo[·]?) with
        | some vs => d.walk t fuel stack (memo.insert next (t.app h vs))
        | none => d.walk t fuel (t.above cs memo ++ next :: stack) memo

/-- The number of references from applications to their children. -/
def edges (d : TermDag) : Nat := (d.nodes.toList.map (·.children.length)).foldl (· + ·) 0

/-- Steps enough for a walk from one id when applications refer to earlier nodes: each node is
pushed back at most once, below at most `edges` children. -/
def walkFuel (d : TermDag) : Nat := (d.edges + 2) * d.size + 2

/-- The value a walk from `id` leaves for `id`, or `default` when it leaves none. -/
def valueOf {α : Type} (d : TermDag) (t : Traversal α) (default : α) (id : Nat) : α :=
  ((d.walk t d.walkFuel [id] {}).bind (·[id]?)).getD default

/-- The number of nodes of a term as a tree: one for a literal or a variable, one more than its
children's counts for an application, shared subterms counted once per occurrence. -/
def sizeFold : Fold Nat where
  lit _ := 1
  var _ := 1
  app _ ns := 1 + ns.foldl (· + ·) 0

/-- The s-expression text of a term. -/
def textFold : Fold String where
  lit l := l.text
  var v := v
  app h ss := "(" ++ h ++ String.join (ss.map fun s => " " ++ s) ++ ")"

/-- The tree size walks the children not yet done, the last on top. -/
def sizeTraversal : Traversal Nat :=
  { sizeFold with above := fun cs memo => (cs.filter fun c => !memo.contains c).reverse }

/-- The text walks all children, the first on top. -/
def textTraversal : Traversal String := { textFold with above := fun cs _ => cs }

/-- The number of nodes of a term as a tree. -/
def treeSize (d : TermDag) (id : Nat) : Nat := d.valueOf sizeTraversal 0 id

/-- The s-expression text of a term. -/
def text (d : TermDag) (id : Nat) : String := d.valueOf textTraversal "" id

end TermDag

end Saturate
