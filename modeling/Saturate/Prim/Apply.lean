import Saturate.Prim.Basic
import Saturate.Pool
import Saturate.Binary64.Arith
import Saturate.Binary64.Text
import Saturate.Syntax.Expr

/-!
Evaluation of primitives on values. A primitive is partial: `none` means it
is undefined on its arguments, which fails a match in a query and is an error
in an action. Arithmetic on `i64` never wraps: a result outside the 64-bit
range is `none`, as are division and remainder by zero and `MIN / -1`.

Reading a string, rational or container that a value's bits do not name is
an internal fault, the `Except String` layer of `PoolM`.

The two operations of function sorts are evaluated by the session, since
applying a function value calls a table.
-/

namespace Saturate

/-- Computations that read and extend the intern pool and may fault. Nothing
is ever taken out of the pool: a computation hands back, with its result, the
pool it reached and the proof that this pool grew from the one it started
from (`Pool.Grows`). -/
def PoolM (α : Type) : Type := (p : Pool) → Except String (α × {q : Pool // p.Grows q})

namespace PoolM

instance : Monad PoolM where
  pure a p := .ok (a, ⟨p, .refl p⟩)
  bind m f p :=
    match m p with
    | .error e => .error e
    | .ok (a, ⟨q, hpq⟩) =>
      match f a q with
      | .error e => .error e
      | .ok (b, ⟨r, hqr⟩) => .ok (b, ⟨r, hpq.trans hqr⟩)

instance : MonadExceptOf String PoolM where
  throw e _ := .error e
  tryCatch m h p :=
    match m p with
    | .error e => h e p
    | .ok r => .ok r

instance : MonadReaderOf Pool PoolM where
  read p := .ok (p, ⟨p, .refl p⟩)

/-- Add to the pool by a change that grows it. -/
def grow {α : Type} (f : (p : Pool) → α × {q : Pool // p.Grows q}) : PoolM α :=
  fun p => .ok (f p)

/-- The result of a computation and the pool it reached. -/
def run {α : Type} (m : PoolM α) (p : Pool) : Except String (α × Pool) :=
  (m p).map fun (a, q) => (a, q.1)

/-- A computation that succeeds leaves a pool grown from the one it started from. -/
theorem run_grows {α : Type} {m : PoolM α} {p q : Pool} {a : α} (h : m.run p = .ok (a, q)) :
    p.Grows q := by
  unfold run at h
  cases hm : m p with
  | error e => simp [hm, Except.map] at h
  | ok r =>
    obtain ⟨b, q', grown⟩ := r
    simp only [hm, Except.map, Except.ok.injEq, Prod.mk.injEq] at h
    rw [← h.2]
    exact grown

@[simp] theorem run_pure {α : Type} (a : α) (p : Pool) : (pure a : PoolM α).run p = .ok (a, p) :=
  rfl

/-- A bind runs its first computation, then the rest from the pool it reached. -/
theorem run_bind {α β : Type} (m : PoolM α) (f : α → PoolM β) (p : Pool) :
    (m >>= f).run p = match m.run p with
      | .ok (a, q) => (f a).run q
      | .error e => .error e := by
  unfold run
  rcases hm : m p with e | ⟨a, q, hpq⟩
  · simp only [bind, hm, Except.map]
  · simp only [bind, hm, Except.map]
    rcases f a q with e | ⟨b, r, hqr⟩ <;> rfl

@[simp] theorem run_read (p : Pool) : (read : PoolM Pool).run p = .ok (p, p) := rfl

@[simp] theorem run_throw {α : Type} (e : String) (p : Pool) :
    (throw e : PoolM α).run p = .error e :=
  rfl

@[simp] theorem run_grow {α : Type} (f : (p : Pool) → α × {q : Pool // p.Grows q}) (p : Pool) :
    (grow f).run p = .ok ((f p).1, (f p).2.1) :=
  rfl

/-- Two computations that run alike are equal: the growth proofs they carry are proofs. -/
theorem ext {α : Type} {m m' : PoolM α} (h : ∀ p, m.run p = m'.run p) : m = m' := by
  funext p
  have same := h p
  unfold run at same
  rcases hm : m p with e | ⟨a, q, hq⟩ <;> rcases hm' : m' p with e' | ⟨a', q', hq'⟩ <;>
    simp [hm, hm', Except.map] at same ⊢
  · exact same
  · obtain ⟨rfl, rfl⟩ := same
    exact ⟨rfl, rfl⟩

instance : LawfulMonad PoolM := LawfulMonad.mk' PoolM
  (fun m => ext fun p => by
    show (m >>= fun a => pure (id a)).run p = m.run p
    rw [run_bind]
    rcases m.run p with e | ⟨a, q⟩ <;> rfl)
  (fun a f => ext fun p => by rw [run_bind]; rfl)
  (fun m f g => ext fun p => by
    rw [run_bind, run_bind, run_bind]
    rcases m.run p with e | ⟨a, q⟩
    · rfl
    · show _ = (f a >>= g).run q
      rw [run_bind])

/-- The message of a read past the end of an intern table. -/
def missing : String := "called `Option::unwrap()` on a `None` value"

/-- Enter names in order. -/
def enterNames (xs : List String) : PoolM Unit :=
  grow fun p => ((), ⟨p.internNames xs, p.internNames_grows xs⟩)

/-- The value of a string. -/
def string (s : String) : PoolM Value :=
  grow fun p => ((p.internString s).2, ⟨_, p.internString_grows s⟩)

/-- The text of a string value. -/
def loadString (v : Value) : PoolM String := do
  match (← read).string? v.bits with
  | some s => pure s
  | none =>
    if v.bits.toUInt32 == 0 then throw ("invalid string value " ++ v.debugText) else throw missing

/-- The value of a rational. -/
def rat (r : Rat) : PoolM Value :=
  grow fun p => ((p.internRat r).2, ⟨_, p.internRat_grows r⟩)

/-- The rational of a value. -/
def loadRat (v : Value) : PoolM Rat := do
  match (← read).rat? v.bits with
  | some r => pure r
  | none => throw missing

/-- Store the contents of a container of a sort. -/
def store (sort : SortInfo) (table : Nat) (c : Contents) (sorts : List SortInfo) :
    PoolM Value :=
  grow fun p => ((p.store table sort.name c sorts).2, ⟨_, p.store_grows table sort.name c sorts⟩)

/-- The contents of a container value. -/
def load (table : Nat) (v : Value) : PoolM Contents := do
  match (← read).load? table v.bits with
  | some c => pure c
  | none => throw missing

end PoolM

/-- The value of a literal; a string literal is interned. -/
def Literal.toValue : Literal → PoolM Value
  | .int i => pure (.ofInt i)
  | .float bits => pure (.ofFloatBits bits)
  | .string s => PoolM.string s
  | .bool b => pure (.ofBool b)
  | .unit => pure .unit

/-- Whether an integer fits in 64 signed bits. -/
def fitsInt64 (i : Int) : Bool := -(Nat.pow 2 63 : Int) ≤ i && i < (Nat.pow 2 63 : Int)

/-- An `i64` result, or `none` outside the range. -/
def checkedInt (i : Int) : Option Value := if fitsInt64 i then some (Value.ofInt i) else none

/-- Unit when the condition holds. -/
def unitIf (b : Bool) : Option Value := if b then some .unit else none

/-- Whether `pre` starts `s`. -/
def startsWith (pre s : List Char) : Bool := s.take pre.length == pre

/-- The number of occurrences of a non-empty needle, scanning left to right
and skipping each occurrence found. Fuel is the length of the haystack. -/
def countOccurrences (needle : List Char) : Nat → List Char → Nat
  | 0, _ => 0
  | _, [] => 0
  | fuel + 1, s@(_ :: rest) =>
    if startsWith needle s then 1 + countOccurrences needle fuel (s.drop needle.length)
    else countOccurrences needle fuel rest

/-- Replace the occurrences of a non-empty pattern, left to right. -/
def replaceNonEmpty (pat rep : List Char) : Nat → List Char → List Char
  | 0, s => s
  | _, [] => []
  | fuel + 1, s@(c :: rest) =>
    if startsWith pat s then rep ++ replaceNonEmpty pat rep fuel (s.drop pat.length)
    else c :: replaceNonEmpty pat rep fuel rest

/-- Replace every occurrence of `pat` by `rep`; an empty pattern matches before
every character and at the end. -/
def replaceAll (s pat rep : List Char) : List Char :=
  if pat.isEmpty then rep ++ s.flatMap (fun c => c :: rep)
  else replaceNonEmpty pat rep s.length s

/-- Insert into an ascending list without repeats; `key` places sort names. -/
def insertSorted (key : String → Nat) (x : Value) : List Value → List Value
  | [] => [x]
  | y :: ys =>
    match Value.compare key x y with
    | .lt => x :: y :: ys
    | .eq => y :: ys
    | .gt => y :: insertSorted key x ys

/-- An ascending list without repeats of the given values. -/
def sortedSet (key : String → Nat) (xs : List Value) : List Value :=
  xs.foldl (fun acc x => insertSorted key x acc) []

/-- Bind a key in a list of bindings by ascending key, replacing its value. -/
def insertBinding (key : String → Nat) (k v : Value) : List (Value × Value) → List (Value × Value)
  | [] => [(k, v)]
  | (k', v') :: rest =>
    match Value.compare key k k' with
    | .lt => (k, v) :: (k', v') :: rest
    | .eq => (k', v) :: rest
    | .gt => (k', v') :: insertBinding key k v rest

/-- Where sort names sort in the pool's table of names. -/
def PoolM.nameKey : PoolM (String → Nat) := do
  let t := (← read).names
  pure t.key

/-- The value of an `i64` operation. -/
def IntOp.apply (op : IntOp) (args : List Value) : PoolM (Option Value) := do
  match op, args with
  | .add, [a, b] => pure (checkedInt (a.toInt + b.toInt))
  | .sub, [a, b] => pure (checkedInt (a.toInt - b.toInt))
  | .mul, [a, b] => pure (checkedInt (a.toInt * b.toInt))
  | .div, [a, b] => pure (if b.toInt = 0 then none else checkedInt (a.toInt.tdiv b.toInt))
  | .rem, [a, b] =>
    pure (if b.toInt = 0 || !fitsInt64 (a.toInt.tdiv b.toInt) then none
      else checkedInt (a.toInt.tmod b.toInt))
  | .band, [a, b] => pure (some (.ofBits64 (a.bits &&& b.bits)))
  | .bor, [a, b] => pure (some (.ofBits64 (a.bits ||| b.bits)))
  | .bxor, [a, b] => pure (some (.ofBits64 (a.bits ^^^ b.bits)))
  | .shl, [a, b] =>
    pure (if 0 ≤ b.toInt && b.toInt < 64 then some (.ofBits64 (a.bits <<< b.bits)) else none)
  | .shr, [a, b] =>
    pure (if 0 ≤ b.toInt && b.toInt < 64 then some (.ofInt (a.toInt.fdiv (Nat.pow 2 b.toInt.toNat : Int)))
      else none)
  | .bnot, [a] => pure (some (.ofBits64 (~~~a.bits)))
  | .log2, [a] => pure (if a.toInt > 0 then some (.ofInt (Nat.log2 a.toInt.toNat)) else none)
  | .lt, [a, b] => pure (unitIf (a.toInt < b.toInt))
  | .gt, [a, b] => pure (unitIf (a.toInt > b.toInt))
  | .le, [a, b] => pure (unitIf (a.toInt ≤ b.toInt))
  | .ge, [a, b] => pure (unitIf (a.toInt ≥ b.toInt))
  | .eqB, [a, b] => pure (some (.ofBool (a.toInt == b.toInt)))
  | .ltB, [a, b] => pure (some (.ofBool (a.toInt < b.toInt)))
  | .gtB, [a, b] => pure (some (.ofBool (a.toInt > b.toInt)))
  | .leB, [a, b] => pure (some (.ofBool (a.toInt ≤ b.toInt)))
  | .geB, [a, b] => pure (some (.ofBool (a.toInt ≥ b.toInt)))
  | .min, [a, b] => pure (some (if a.toInt ≤ b.toInt then a else b))
  | .max, [a, b] => pure (some (if a.toInt ≤ b.toInt then b else a))
  | .toString, [a] => some <$> PoolM.string (ToString.toString a.toInt)
  | .countMatches, [h, n] => do
    let hay := (← PoolM.loadString h).toList
    let needle := (← PoolM.loadString n).toList
    if needle.isEmpty then pure none
    else pure (some (.ofInt (countOccurrences needle hay.length hay)))
  | _, _ => pure none

/-- The value of an `f64` operation. -/
def FloatOp.apply (op : FloatOp) (args : List Value) : PoolM (Option Value) := do
  let cmp (a b : Value) := Binary64.compareTotal a.bits b.bits
  match op, args with
  | .add, [a, b] => pure (some (.ofFloatBits (Binary64.add a.bits b.bits)))
  | .sub, [a, b] => pure (some (.ofFloatBits (Binary64.sub a.bits b.bits)))
  | .mul, [a, b] => pure (some (.ofFloatBits (Binary64.mul a.bits b.bits)))
  | .div, [a, b] =>
    pure (if Binary64.isZero b.bits then none else some (.ofFloatBits (Binary64.div a.bits b.bits)))
  | .rem, [a, b] =>
    pure (if Binary64.isZero b.bits then none else some (.ofFloatBits (Binary64.rem a.bits b.bits)))
  | .pow, [a, b] => pure (some (.ofFloatBits (Binary64.pow a.bits b.bits)))
  | .neg, [a] => pure (some (.ofFloatBits (Binary64.neg a.bits)))
  | .lt, [a, b] => pure (unitIf (cmp a b == .lt))
  | .gt, [a, b] => pure (unitIf (cmp a b == .gt))
  | .le, [a, b] => pure (unitIf (cmp a b != .gt))
  | .ge, [a, b] => pure (unitIf (cmp a b != .lt))
  | .min, [a, b] => pure (some (if cmp a b != .gt then a else b))
  | .max, [a, b] => pure (some (if cmp a b != .gt then b else a))
  | .abs, [a] => pure (some (.ofFloatBits (Binary64.abs a.bits)))
  | .ofInt, [a] => pure (some (.ofFloatBits (Binary64.ofInt a.toInt)))
  | .toInt, [a] => pure (some (.ofInt (Binary64.truncToInt a.bits)))
  | .toString, [a] => some <$> PoolM.string (Binary64.debugText a.bits)
  | _, _ => pure none

/-- The value of a rational operation. -/
def RatOp.apply (op : RatOp) (args : List Value) : PoolM (Option Value) := do
  let two (f : Rat → Rat → PoolM (Option Value)) : PoolM (Option Value) := do
    match args with
    | [a, b] => f (← PoolM.loadRat a) (← PoolM.loadRat b)
    | _ => pure none
  let one (f : Rat → PoolM (Option Value)) : PoolM (Option Value) := do
    match args with
    | [a] => f (← PoolM.loadRat a)
    | _ => pure none
  let out (r : Rat) : PoolM (Option Value) := some <$> PoolM.rat r
  match op with
  | .add => two fun a b => out (a + b)
  | .sub => two fun a b => out (a - b)
  | .mul => two fun a b => out (a * b)
  | .div => two fun a b => if b = 0 then pure none else out (a / b)
  | .neg => one fun a => out (-a)
  | .abs => one fun a => out (if a < 0 then -a else a)
  | .min => two fun a b => out (if a ≤ b then a else b)
  | .max => two fun a b => out (if a ≤ b then b else a)
  | .lt => two fun a b => pure (unitIf (decide (a < b)))
  | .gt => two fun a b => pure (unitIf (decide (a > b)))
  | .le => two fun a b => pure (unitIf (decide (a ≤ b)))
  | .ge => two fun a b => pure (unitIf (decide (a ≥ b)))
  | .make =>
    match args with
    | [a, b] => if b.toInt = 0 then pure none else out (Rat.divInt a.toInt b.toInt)
    | _ => pure none
  | .numer => one fun a => pure (checkedInt a.num)
  | .denom => one fun a => pure (checkedInt a.den)
  | .toFloat => one fun a => pure (some (.ofFloatBits (Binary64.ofRat a)))

/-- The value of a boolean operation. -/
def BoolOp.apply (op : BoolOp) (args : List Value) : Option Value :=
  let t (v : Value) := v.bits != 0
  match op, args with
  | .not, [a] => some (.ofBool !(t a))
  | .and, [a, b] => some (.ofBool (t a && t b))
  | .or, [a, b] => some (.ofBool (t a || t b))
  | .xor, [a, b] => some (.ofBool (t a ^^ t b))
  | .implies, [a, b] => some (.ofBool (!(t a) || t b))
  | _, _ => none

/-- The value of a string operation. -/
def StrOp.apply (op : StrOp) (args : List Value) : PoolM (Option Value) := do
  match op with
  | .concat => do
    let parts ← args.mapM PoolM.loadString
    some <$> PoolM.string (String.join parts)
  | .replace =>
    match args with
    | [s, pat, rep] => do
      let s ← PoolM.loadString s
      let pat ← PoolM.loadString pat
      let rep ← PoolM.loadString rep
      some <$> PoolM.string (String.ofList (replaceAll s.toList pat.toList rep.toList))
    | _ => pure none

/-- The table of a container sort. -/
def SortInfo.table : SortInfo → Nat
  | .set _ t _ | .vec _ t _ | .map _ t _ _ | .func _ t _ _ => t
  | _ => 0

/-- The elements of a set value. -/
def loadSet (s : SortInfo) (v : Value) : PoolM (List Value) := do
  match ← PoolM.load s.table v with
  | .set xs => pure xs
  | _ => throw PoolM.missing

/-- The elements of a vector value. -/
def loadVec (s : SortInfo) (v : Value) : PoolM (List Value) := do
  match ← PoolM.load s.table v with
  | .vec xs => pure xs
  | _ => throw PoolM.missing

/-- The bindings of a map value. -/
def loadMap (s : SortInfo) (v : Value) : PoolM (List (Value × Value)) := do
  match ← PoolM.load s.table v with
  | .map xs => pure xs
  | _ => throw PoolM.missing

/-- The value of a set operation. -/
def SetOp.apply (s : SortInfo) (op : SetOp) (args : List Value) : PoolM (Option Value) := do
  let mk (xs : List Value) : PoolM (Option Value) := some <$> PoolM.store s s.table (.set xs) []
  let key ← PoolM.nameKey
  match op, args with
  | .empty, _ => mk []
  | .of, xs => mk (sortedSet key xs)
  | .insert, [a, x] => do mk (insertSorted key x (← loadSet s a))
  | .remove, [a, x] => do mk ((← loadSet s a).filter (· != x))
  | .union, [a, b] => do
    let ys ← loadSet s b
    mk (ys.foldl (fun acc y => insertSorted key y acc) (← loadSet s a))
  | .contains, [a, x] => do pure (unitIf ((← loadSet s a).contains x))
  | .notContains, [a, x] => do pure (unitIf !((← loadSet s a).contains x))
  | .length, [a] => do pure (some (.ofInt (← loadSet s a).length))
  | _, _ => pure none

/-- The value of a vector operation. -/
def VecOp.apply (s : SortInfo) (op : VecOp) (args : List Value) : PoolM (Option Value) := do
  let mk (xs : List Value) : PoolM (Option Value) := some <$> PoolM.store s s.table (.vec xs) []
  match op, args with
  | .empty, _ => mk []
  | .of, xs => mk xs
  | .push, [a, x] => do mk ((← loadVec s a) ++ [x])
  | .get, [a, i] => do
    let xs ← loadVec s a
    pure (if 0 ≤ i.toInt then xs[i.toInt.toNat]? else none)
  | .length, [a] => do pure (some (.ofInt (← loadVec s a).length))
  | _, _ => pure none

/-- The value of a map operation. -/
def MapOp.apply (s : SortInfo) (op : MapOp) (args : List Value) : PoolM (Option Value) := do
  let mk (xs : List (Value × Value)) : PoolM (Option Value) := some <$> PoolM.store s s.table (.map xs) []
  let lookup (xs : List (Value × Value)) (k : Value) : Option Value :=
    (xs.find? (·.1 == k)).map (·.2)
  let key ← PoolM.nameKey
  match op, args with
  | .empty, _ => mk []
  | .insert, [m, k, v] => do mk (insertBinding key k v (← loadMap s m))
  | .get, [m, k] => do pure (lookup (← loadMap s m) k)
  | .contains, [m, k] => do pure (unitIf (lookup (← loadMap s m) k).isSome)
  | .notContains, [m, k] => do pure (unitIf (lookup (← loadMap s m) k).isNone)
  | .remove, [m, k] => do mk ((← loadMap s m).filter (·.1 != k))
  | .length, [m] => do pure (some (.ofInt (← loadMap s m).length))
  | _, _ => pure none

/-- The value of a primitive that needs nothing but the pool; function-sort
operations give `none` here. -/
def Prim.applyPure (p : Prim) (args : List Value) : PoolM (Option Value) :=
  match p with
  | .notEqual =>
    match args with
    | [a, b] => pure (unitIf (a != b))
    | _ => pure none
  | .str op => op.apply args
  | .bool op => pure (op.apply args)
  | .int op => op.apply args
  | .float op => op.apply args
  | .rat op => op.apply args
  | .set s op => op.apply s args
  | .vec s op => op.apply s args
  | .map s op => op.apply s args
  | .fn _ _ => pure none

end Saturate
