import Std.Data.HashMap
import Saturate.SortInfo
import Saturate.NameTable

/-!
Interning. Names, rationals and the contents of containers are stored once
and named by their number or index. The pool belongs to the session, not to a
state of the database: a command that fails and is rolled back keeps what it
interned, so numbers never repeat.

* A string's value has the bits of its name's number (`Saturate.NameTable`).
* A rational's value has bits `index`, in the one rational table.
* A container's value has bits `index` in the table of its sort.
-/

namespace Saturate

/-- The contents of a container value: a set's elements in ascending order
without repeats, a vector's elements, a map's bindings by ascending key, or
a function name with the arguments captured so far. -/
inductive Contents where
  | set (elems : List Value)
  | vec (elems : List Value)
  | map (entries : List (Value × Value))
  | partialApp (name : String) (args : List Value)
  deriving BEq, Hashable, Repr, Inhabited

/-- Contents compare structurally, so a table indexes equal contents once. -/
instance : LawfulBEq Contents where
  rfl {a} := by
    cases a with
    | set xs | vec xs => exact ReflBEq.rfl (a := xs)
    | map xs => exact ReflBEq.rfl (a := xs)
    | partialApp name xs =>
      simp only [BEq.beq, instBEqContents.beq, decide_true, Bool.true_and]
      exact ReflBEq.rfl (a := xs)
  eq_of_beq {a b} h := by
    cases a <;> cases b <;> simp only [BEq.beq, instBEqContents.beq, reduceCtorEq] at h ⊢
    case set.set | vec.vec | map.map => exact congrArg _ (LawfulBEq.eq_of_beq h)
    case partialApp.partialApp =>
      obtain ⟨same, args⟩ := Bool.and_eq_true_iff.mp h
      rw [of_decide_eq_true same, LawfulBEq.eq_of_beq (α := List Value) args]

/-- The contents interned by one container sort. For a partial application
`argSorts` keeps the sorts of the captured arguments, which do not take part
in equality. -/
structure InternTable where
  items : Array Contents
  argSorts : Array (List SortInfo)
  index : Std.HashMap Contents Nat

namespace InternTable

/-- The table with nothing in it. -/
def empty : InternTable := ⟨#[], #[], {}⟩

instance : Inhabited InternTable := ⟨empty⟩

/-- The index of some contents, adding them at the end when new. -/
def store (t : InternTable) (c : Contents) (sorts : List SortInfo) : InternTable × Nat :=
  match t.index.get? c with
  | some i => (t, i)
  | none =>
    let i := t.items.size
    ({ items := t.items.push c, argSorts := t.argSorts.push sorts, index := t.index.insert c i }, i)

/-- The contents at an index. -/
def load? (t : InternTable) (i : Nat) : Option Contents := t.items[i]?

/-- `b` keeps every content of `a` at its position, with its captured sorts. -/
structure Grows (a b : InternTable) : Prop where
  items : LookupExtends (fun i : Nat => a.items[i]?) (fun i => b.items[i]?)
  argSorts : LookupExtends (fun i : Nat => a.argSorts[i]?) (fun i => b.argSorts[i]?)
  index : LookupExtends (fun c : Contents => a.index[c]?) (fun c => b.index[c]?)

theorem Grows.refl (a : InternTable) : a.Grows a := ⟨.refl _, .refl _, .refl _⟩

theorem Grows.trans {a b c : InternTable} (hab : a.Grows b) (hbc : b.Grows c) : a.Grows c :=
  ⟨hab.items.trans hbc.items, hab.argSorts.trans hbc.argSorts, hab.index.trans hbc.index⟩

theorem store_grows (a : InternTable) (c : Contents) (sorts : List SortInfo) :
    a.Grows (a.store c sorts).1 := by
  unfold store
  split
  · exact .refl a
  · rename_i absent
    exact ⟨Array.lookupExtends_push _ _, Array.lookupExtends_push _ _,
      Std.HashMap.lookupExtends_insert _ _ _ (by simpa using absent)⟩

end InternTable

/-- Names, rationals and container tables of a session. -/
structure Pool where
  names : NameTable := .initial
  rationals : Array Rat := #[]
  rationalIndex : Std.HashMap (Int × Nat) Nat := {}
  tables : Array InternTable := #[]
  deriving Inhabited

namespace Pool

/-- The value of a string. -/
def internString (p : Pool) (s : String) : Pool × Value :=
  let names := p.names
  let p := { p with names := .empty }
  let (t, n) := names.intern s
  ({ p with names := t }, ⟨"String", n⟩)

/-- Enter names in order. -/
def internNames (p : Pool) (xs : List String) : Pool :=
  let names := p.names
  let p := { p with names := .empty }
  { p with names := names.internAll xs }

/-- The string a value's bits name, if they name one. -/
def string? (p : Pool) (bits : UInt64) : Option String := p.names.name? bits

/-- The value of a rational. -/
def internRat (p : Pool) (r : Rat) : Pool × Value :=
  match p.rationalIndex.get? (r.num, r.den) with
  | some i => (p, ⟨"Rational", i.toUInt64⟩)
  | none =>
    let i := p.rationals.size
    ({ p with rationals := p.rationals.push r, rationalIndex := p.rationalIndex.insert (r.num, r.den) i },
      ⟨"Rational", i.toUInt64⟩)

/-- The rational at an index. -/
def rat? (p : Pool) (bits : UInt64) : Option Rat := p.rationals[bits.toNat]?

/-- A new, empty container table. -/
def newTable (p : Pool) : Pool × Nat :=
  let n := p.tables.size
  ({ p with tables := p.tables.push .empty }, n)

/-- Store contents in a table, giving the value of the given sort name. -/
def store (p : Pool) (table : Nat) (sort : String) (c : Contents) (sorts : List SortInfo) :
    Pool × Value :=
  let t := p.tables[table]?.getD .empty
  match t.index.get? c with
  | some i => (p, ⟨sort, i.toUInt64⟩)
  | none =>
    let i := t.items.size
    ({ p with tables := p.tables.modify table fun t => (t.store c sorts).1 }, ⟨sort, i.toUInt64⟩)

/-- The contents of a container value. -/
def load? (p : Pool) (table : Nat) (bits : UInt64) : Option Contents :=
  (p.tables[table]?).bind fun t => t.load? bits.toNat

/-- The sorts of the arguments a partial application captured. -/
def argSorts (p : Pool) (table : Nat) (bits : UInt64) : List SortInfo :=
  ((p.tables[table]?).bind fun t => t.argSorts[bits.toNat]?).getD []

/-! ### The pool only grows -/

/-- `q` keeps everything `p` interned: names, rationals and container
contents, each at its number or index, and the tables themselves. -/
structure Grows (p q : Pool) : Prop where
  names : p.names.Grows q.names
  rationals : LookupExtends (fun i : Nat => p.rationals[i]?) (fun i => q.rationals[i]?)
  rationalIndex :
    LookupExtends (fun k : Int × Nat => p.rationalIndex[k]?) (fun k => q.rationalIndex[k]?)
  tables : ∀ (t : Nat) (a : InternTable), p.tables[t]? = some a →
    ∃ b, q.tables[t]? = some b ∧ a.Grows b

theorem Grows.refl (p : Pool) : p.Grows p :=
  ⟨.refl _, .refl _, .refl _, fun _ a ha => ⟨a, ha, .refl a⟩⟩

theorem Grows.trans {p q r : Pool} (hpq : p.Grows q) (hqr : q.Grows r) : p.Grows r := by
  refine ⟨hpq.names.trans hqr.names, hpq.rationals.trans hqr.rationals,
    hpq.rationalIndex.trans hqr.rationalIndex, fun t a ha => ?_⟩
  obtain ⟨b, hb, hab⟩ := hpq.tables t a ha
  obtain ⟨c, hc, hbc⟩ := hqr.tables t b hb
  exact ⟨c, hc, hab.trans hbc⟩

/-- A pool whose names grow and which is otherwise the same grows. -/
theorem grows_of_names {p : Pool} {t : NameTable} (h : p.names.Grows t) :
    p.Grows { p with names := t } :=
  ⟨h, .refl _, .refl _, fun _ a ha => ⟨a, ha, .refl a⟩⟩

theorem internString_grows (p : Pool) (s : String) : p.Grows (p.internString s).1 :=
  grows_of_names (p.names.intern_grows s)

theorem internNames_grows (p : Pool) (xs : List String) : p.Grows (p.internNames xs) :=
  grows_of_names (p.names.internAll_grows xs)

theorem internRat_grows (p : Pool) (r : Rat) : p.Grows (p.internRat r).1 := by
  unfold internRat
  split
  · exact .refl p
  · rename_i absent
    exact ⟨.refl _, Array.lookupExtends_push _ _,
      Std.HashMap.lookupExtends_insert _ _ _ (by simpa using absent),
      fun _ a ha => ⟨a, ha, .refl a⟩⟩

theorem newTable_grows (p : Pool) : p.Grows p.newTable.1 := by
  refine ⟨.refl _, .refl _, .refl _, fun t a ha => ⟨a, ?_, .refl a⟩⟩
  exact Array.lookupExtends_push p.tables _ t a ha

/-- Changing one table in a way that grows it grows the pool. -/
theorem grows_of_modify (p : Pool) (i : Nat) (f : InternTable → InternTable)
    (hf : ∀ a : InternTable, a.Grows (f a)) : p.Grows { p with tables := p.tables.modify i f } := by
  refine ⟨.refl _, .refl _, .refl _, fun t a ha => ?_⟩
  simp only [Array.getElem?_modify, ha]
  split
  · exact ⟨f a, rfl, hf a⟩
  · exact ⟨a, rfl, .refl a⟩

theorem store_grows (p : Pool) (table : Nat) (sort : String) (c : Contents)
    (sorts : List SortInfo) : p.Grows (p.store table sort c sorts).1 := by
  unfold store
  dsimp only
  split
  · exact .refl p
  · exact grows_of_modify p table _ fun a => a.store_grows c sorts

end Pool

end Saturate
