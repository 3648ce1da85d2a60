import Std.Data.HashMap
import Saturate.Text.Hash

/-!
The names of a session. Every name the engine reads or makes — a sort, a
function, a variable, a primitive, the text of a string value — is entered
once in one table, which belongs to the whole session and is never rolled
back. A string value's bits are its name's number.

The table has sixteen shards. A name goes to the shard given by the low four
bits of its hash (`Saturate.Text.hash`), after the names already there. Its
number is `shard · 2^28 + position + 1`, so numbers order names first by
shard and then by when they were first entered. That order is the order of
strings in sets and maps, and of sort names when values of different sorts
meet in one container.

A fresh session already holds the names the engine declares when it starts
(`NameTable.builtins`), in the order it declares them.
-/

namespace Saturate

/-- The shard of a name: the low four bits of its hash. -/
def shardOf (s : String) : Nat := (Text.hash s % 16).toNat

/-- How far apart the numbers of two shards start. -/
def shardSpan : Nat := Nat.pow 2 28

/-- The table of names: the names of each shard in the order they were
entered, and the number of every name. -/
structure NameTable where
  shards : Array (Array String)
  numbers : Std.HashMap String UInt64

namespace NameTable

/-- The table with no names. -/
def empty : NameTable := ⟨Array.replicate 16 #[], {}⟩

instance : Inhabited NameTable := ⟨empty⟩

/-- The number of the name at a position of a shard. -/
def number (shard pos : Nat) : UInt64 := (shard * shardSpan + pos + 1).toUInt64

/-- The number of a name, entering it at the end of its shard when new. -/
def intern (t : NameTable) (s : String) : NameTable × UInt64 :=
  match t.numbers.get? s with
  | some n => (t, n)
  | none =>
    let k := shardOf s
    let ⟨shards, numbers⟩ := t
    let n := number k (shards[k]?.getD #[]).size
    (⟨shards.modify k (·.push s), numbers.insert s n⟩, n)

/-- Enter names in order. -/
def internAll (t : NameTable) (xs : List String) : NameTable :=
  xs.foldl (fun t s => (t.intern s).1) t

/-- The name a number stands for; only the low 32 bits of the number count. -/
def name? (t : NameTable) (bits : UInt64) : Option String :=
  let n := bits.toUInt32.toNat
  if n = 0 then none
  else (t.shards[(n - 1) / shardSpan]?).bind fun sh => sh[(n - 1) % shardSpan]?

/-- Where a name sorts: its number, or for a name never entered, after every
name of its shard. -/
def key (t : NameTable) (s : String) : Nat :=
  match t.numbers.get? s with
  | some n => n.toNat
  | none => (shardOf s + 1) * shardSpan

/-- The names the engine declares when it starts, in order: each base sort
followed by the primitives it brings, the container sorts with the names
they reserve, the disequality primitive and the default ruleset. -/
def builtins : List String :=
  ["Unit",
   "String", "+", "replace",
   "bool", "not", "and", "or", "xor", "=>",
   "i64", "-", "*", "/", "%", "&", "|", "^", "<<", ">>", "not-i64", "log2",
   "<", ">", "<=", ">=", "bool-=", "bool-<", "bool->", "bool-<=", "bool->=",
   "min", "max", "to-string", "count-matches",
   "f64", "neg", "abs", "to-f64", "to-i64",
   "Rational", "rational", "numer", "denom",
   "Map", "map-empty", "map-insert", "map-get", "map-not-contains", "map-contains",
   "map-remove", "map-length",
   "Set", "set-of", "set-empty", "set-insert", "set-not-contains", "set-contains",
   "set-remove", "set-union", "set-length",
   "Vec", "vec-of", "vec-empty", "vec-push", "vec-get", "vec-length",
   "UnstableFn", "unstable-fn", "unstable-app",
   "!=", ""]

/-- The table of a fresh session. -/
def initial : NameTable := empty.internAll builtins

end NameTable

/-! ### Tables that only gain entries

The tables of names, rationals and contents belong to the whole session and
are only ever added to. `LookupExtends f g` says that a lookup `g` answers
every key `f` answers, with the same answer. -/

/-- `g` answers every lookup that `f` answers, with the same answer. -/
def LookupExtends {κ ν : Type} (f g : κ → Option ν) : Prop :=
  ∀ k v, f k = some v → g k = some v

namespace LookupExtends

variable {κ ν : Type} {f g h : κ → Option ν}

theorem refl (f : κ → Option ν) : LookupExtends f f := fun _ _ hk => hk

theorem trans (hfg : LookupExtends f g) (hgh : LookupExtends g h) : LookupExtends f h :=
  fun k v hk => hgh k v (hfg k v hk)

end LookupExtends

/-- Pushing onto an array keeps the answer at every position it had. -/
theorem Array.lookupExtends_push {α : Type} (xs : Array α) (x : α) :
    LookupExtends (fun i : Nat => xs[i]?) (fun i : Nat => (xs.push x)[i]?) := by
  intro i v hi
  dsimp only at hi ⊢
  obtain ⟨hlt, hv⟩ := Array.getElem?_eq_some_iff.mp hi
  simp [Array.getElem?_push_lt hlt, hv]

/-- Inserting a key a map does not hold keeps every answer it gave. -/
theorem Std.HashMap.lookupExtends_insert {κ ν : Type} [BEq κ] [Hashable κ] [LawfulBEq κ]
    (m : Std.HashMap κ ν) (k : κ) (v : ν) (fresh : m[k]? = none) :
    LookupExtends (fun a : κ => m[a]?) (fun a : κ => (m.insert k v)[a]?) := by
  intro a w ha
  dsimp only at ha ⊢
  rw [Std.HashMap.getElem?_insert]
  by_cases hka : k = a
  · subst hka
    rw [fresh] at ha
    cases ha
  · simp [hka, ha]

namespace NameTable

/-- `u` keeps every name of `t` with its number. -/
structure Grows (t u : NameTable) : Prop where
  numbers : LookupExtends (fun s : String => t.numbers[s]?) (fun s => u.numbers[s]?)
  names : LookupExtends t.name? u.name?

theorem Grows.refl (t : NameTable) : t.Grows t := ⟨.refl _, .refl _⟩

theorem Grows.trans {t u w : NameTable} (htu : t.Grows u) (huw : u.Grows w) : t.Grows w :=
  ⟨htu.numbers.trans huw.numbers, htu.names.trans huw.names⟩

/-- Pushing a name onto one shard keeps the name of every number. -/
theorem name?_extends_push (shards : Array (Array String)) (numbers : Std.HashMap String UInt64)
    (k : Nat) (s : String) :
    LookupExtends (NameTable.mk shards numbers).name?
      (NameTable.mk (shards.modify k (·.push s)) numbers).name? := by
  intro bits name found
  simp only [name?] at found ⊢
  split at found
  · cases found
  · rename_i nonzero
    rw [if_neg nonzero, Array.getElem?_modify]
    obtain ⟨shard, hshard, hname⟩ := Option.bind_eq_some_iff.mp found
    split
    · rw [hshard]
      exact Array.lookupExtends_push shard s _ name hname
    · rw [hshard]
      exact hname

/-- Entering a name keeps every name already there. -/
theorem intern_grows (t : NameTable) (s : String) : t.Grows (t.intern s).1 := by
  unfold intern
  split
  · exact .refl t
  · rename_i absent
    obtain ⟨shards, numbers⟩ := t
    refine ⟨?_, name?_extends_push shards numbers _ s⟩
    exact Std.HashMap.lookupExtends_insert numbers s _ (by simpa using absent)

theorem internAll_grows (t : NameTable) (xs : List String) : t.Grows (t.internAll xs) := by
  induction xs generalizing t with
  | nil => exact .refl t
  | cons x xs ih => exact (intern_grows t x).trans (ih _)

end NameTable

end Saturate
