import Saturate.Proofs.Container.Interning
import Saturate.Proofs.Query.Join
import Saturate.Proofs.UnionFind.Forest

/-!
Canonical forms of values. A value is canonical when every e-class id reachable from it, through
the elements of containers and the arguments partial applications capture, is a root. Main
statements:

* `SortInfo.canonicalizes_of_wellStored`: canonicalising a value that is well stored (its
  containers load, its ids are known, no container lies below itself) succeeds, reports a
  change exactly when the value was not canonical, and gives a canonical value.
* `SortInfo.canonicalizeWithin_of_canonical`: a canonical value comes back unchanged, and the pool
  with it.
* `SortInfo.canonicalize_reports_changes_and_settles`: the two together for `canonicalize`, whose
  fuel is the number of stored contents.

The elements of a container are read as canonicalising reads them (`SortInfo.elementsIn`), so a
set whose table holds a vector is no container of its sort. Canonical forms are stated where the
pool reached has room in every table (`Pool.Addressable`): past that, a new position would wrap
around in 64 bits.
-/

namespace Saturate

/-- The union-find answers a root with itself, and every root fits the 32 bits of an id. -/
structure UnionFind.Rooted (uf : UnionFind) : Prop where
  find_root : ∀ x r, uf.find? x = some r → uf.find? r = some r
  root_lt : ∀ x r, uf.find? x = some r → r < 2 ^ 32

/-- A union-find that stores a partition of fewer ids than 32 bits count is rooted. -/
theorem UnionFind.Stores.rooted {uf : UnionFind} {P : Partition} {rank : Nat → Nat}
    (h : UnionFind.Stores uf P rank) (small : P.size ≤ 2 ^ 32) : uf.Rooted := by
  have known : ∀ x r, uf.find? x = some r → x < P.size ∧ r = P.root x := fun x r found => by
    by_cases hx : x < P.size
    · rw [h.find?_eq hx, Option.some.injEq] at found
      exact ⟨hx, found.symm⟩
    · rw [h.find?_of_le (by omega)] at found
      cases found
  refine ⟨fun x r found => ?_, fun x r found => ?_⟩
  · obtain ⟨hx, rfl⟩ := known x r found
    rw [h.find?_eq (P.root_lt x hx), P.root_root x hx]
  · obtain ⟨hx, rfl⟩ := known x r found
    exact lt_of_lt_of_le (P.root_lt x hx) small

namespace SortInfo

/-- The table of a container sort. -/
def table? : SortInfo → Option Nat
  | .set _ t _ | .vec _ t _ | .map _ t _ _ | .func _ t _ _ => some t
  | _ => none

/-- The elements one level down in a container value, with their sorts, as canonicalising reads
them: the contents must be of the container's kind. -/
def elementsIn (p : Pool) : SortInfo → Value → Option (List (SortInfo × Value))
  | .set _ t e, v =>
    match p.load? t v.bits with
    | some (.set xs) => some (xs.map (e, ·))
    | _ => none
  | .vec _ t e, v =>
    match p.load? t v.bits with
    | some (.vec xs) => some (xs.map (e, ·))
    | _ => none
  | .map _ t k w, v =>
    match p.load? t v.bits with
    | some (.map xs) => some (xs.flatMap fun b => [(k, b.1), (w, b.2)])
    | _ => none
  | .func _ t _ _, v =>
    match p.load? t v.bits with
    | some (.partialApp _ args) => some ((p.argSorts t v.bits).zip args)
    | _ => none
  | _, _ => none

variable {p q : Pool} {uf : UnionFind}

theorem table?_of_elementsIn {s : SortInfo} {v : Value} {l : List (SortInfo × Value)}
    (found : s.elementsIn p v = some l) : ∃ t, s.table? = some t := by
  cases s <;> simp [elementsIn, table?] at found ⊢

/-- A container's contents load from its table. -/
theorem load?_of_elementsIn {s : SortInfo} {v : Value} {l : List (SortInfo × Value)} {t : Nat}
    (table : s.table? = some t) (found : s.elementsIn p v = some l) :
    ∃ c, p.load? t v.bits = some c := by
  cases s with
  | set _ t' e | vec _ t' e | map _ t' k w | func _ t' ins out =>
    simp only [table?, Option.some.injEq] at table
    subst table
    simp only [elementsIn] at found
    split at found
    · rename_i loaded
      exact ⟨_, loaded⟩
    · cases found
  | _ => simp [table?] at table

/-- The elements of a container stay as the pool grows. -/
theorem elementsIn_grow (interned : p.Interned) (grows : p.Grows q) {s : SortInfo} {v : Value}
    {l : List (SortInfo × Value)} (found : s.elementsIn p v = some l) : s.elementsIn q v = some l := by
  cases s with
  | set _ t e | vec _ t e | map _ t k w | func _ t ins out =>
    simp only [elementsIn] at found ⊢
    split at found
    · rename_i loaded
      cases found
      simp [PoolM.Pool.load?_grow loaded grows, Pool.argSorts_grow interned grows loaded]
    · cases found
  | _ => simp [elementsIn] at found

theorem mem_positions_of_elementsIn {s : SortInfo} {v : Value} {l : List (SortInfo × Value)}
    {t : Nat} (table : s.table? = some t) (found : s.elementsIn p v = some l) :
    (t, v.bits.toNat) ∈ p.positions := by
  obtain ⟨c, loaded⟩ := load?_of_elementsIn table found
  exact Pool.load?_mem_positions loaded

/-! ### Values that canonicalising can walk, and canonical values -/

/-- A value of a sort that canonicalising can walk: its containers load with contents of their
kind, its e-class ids are known, and no container lies below itself. `seen` holds the positions
of the containers above. -/
inductive WellStored (p : Pool) (uf : UnionFind) : List (Nat × Nat) → SortInfo → Value → Prop
  | eq {seen : List (Nat × Nat)} {name : String} {v : Value} {r : Nat} :
      uf.find? v.id = some r → WellStored p uf seen (.eq name) v
  | container {seen : List (Nat × Nat)} {s : SortInfo} {v : Value} {t : Nat}
      {l : List (SortInfo × Value)} :
      s.table? = some t → s.elementsIn p v = some l → (t, v.bits.toNat) ∉ seen →
      (∀ a ∈ l, WellStored p uf ((t, v.bits.toNat) :: seen) a.1 a.2) → WellStored p uf seen s v
  | base {seen : List (Nat × Nat)} {s : SortInfo} {v : Value} :
      s.table? = none → s.isEq = false → WellStored p uf seen s v

/-- A value whose e-class ids are roots, down to container depth `n`: an id has the bits of its
root, and a container's elements are canonical one level less deep. -/
inductive Canonical (p : Pool) (uf : UnionFind) : Nat → SortInfo → Value → Prop
  | eq {n : Nat} {name : String} {v : Value} {r : Nat} :
      uf.find? v.id = some r → r.toUInt64 = v.bits → Canonical p uf n (.eq name) v
  | container {n : Nat} {s : SortInfo} {v : Value} {l : List (SortInfo × Value)} :
      s.elementsIn p v = some l → (∀ a ∈ l, Canonical p uf n a.1 a.2) →
      Canonical p uf (n + 1) s v
  | base {n : Nat} {s : SortInfo} {v : Value} :
      s.table? = none → s.isEq = false → Canonical p uf n s v

theorem Canonical.grow (interned : p.Interned) (grows : p.Grows q) {n : Nat} {s : SortInfo}
    {v : Value} (canon : Canonical p uf n s v) : Canonical q uf n s v := by
  induction canon with
  | eq found root => exact .eq found root
  | container found _ ih => exact .container (elementsIn_grow interned grows found) ih
  | base container notEq => exact .base container notEq

/-- An id is canonical exactly when its bits are those of its root. -/
theorem Canonical.eq_root {m : Nat} {name : String} {v : Value}
    (canon : Canonical p uf m (.eq name) v) : ∃ r, uf.find? v.id = some r ∧ r.toUInt64 = v.bits := by
  cases canon with
  | eq found root => exact ⟨_, found, root⟩
  | container found _ => simp [elementsIn] at found
  | base _ notEq => simp [isEq] at notEq

/-- The elements of a canonical container are canonical one level less deep. -/
theorem Canonical.elements {m : Nat} {s : SortInfo} {v : Value} {l : List (SortInfo × Value)}
    (canon : Canonical p uf m s v) (found : s.elementsIn p v = some l) :
    ∃ n, m = n + 1 ∧ ∀ a ∈ l, Canonical p uf n a.1 a.2 := by
  cases canon with
  | eq _ _ => simp [elementsIn] at found
  | container found' elems =>
    rw [found', Option.some.injEq] at found
    subst found
    exact ⟨_, rfl, elems⟩
  | base container _ =>
    obtain ⟨t, table⟩ := table?_of_elementsIn found
    simp [container] at table

/-- A well-stored value that is canonical in a grown pool was canonical before. -/
theorem Canonical.of_grow (interned : p.Interned) (grows : p.Grows q) {seen : List (Nat × Nat)}
    {s : SortInfo} {v : Value} (stored : WellStored p uf seen s v) :
    ∀ {n : Nat}, Canonical q uf n s v → Canonical p uf n s v := by
  induction stored with
  | eq _ =>
    intro n canon
    obtain ⟨r, found, root⟩ := canon.eq_root
    exact .eq found root
  | container _ found _ _ ih =>
    intro n canon
    obtain ⟨n', rfl, elems⟩ := canon.elements (elementsIn_grow interned grows found)
    exact .container found fun a mem => ih a mem (elems a mem)
  | base container notEq => exact fun _ => .base container notEq

/-! ### One step of canonicalising -/

theorem run_canonicalizeWithin_eq {fuel : Nat} {name : String} {v : Value} {r : Nat}
    (found : uf.find? v.id = some r) (q : Pool) :
    (canonicalizeWithin uf (fuel + 1) (.eq name) v).run q =
      .ok (if r.toUInt64 = v.bits then (v, false) else ({ v with bits := r.toUInt64 }, true), q) := by
  rw [canonicalizeWithin.eq_2]
  simp only [findRoot, found, PoolM.run_bind, PoolM.run_pure]
  split <;> rfl

theorem run_canonicalizeWithin_base {fuel : Nat} {s : SortInfo} {v : Value}
    (container : s.table? = none) (notEq : s.isEq = false) (q : Pool) :
    (canonicalizeWithin uf fuel s v).run q = .ok ((v, false), q) := by
  cases fuel with
  | zero => rfl
  | succ fuel =>
    cases s with
    | eq _ => simp [isEq] at notEq
    | set _ _ _ | vec _ _ _ | map _ _ _ _ | func _ _ _ _ => simp [table?] at container
    | _ => rfl

/-- Canonicalising walks with more fuel than the pool holds contents. -/
theorem run_canonicalize (s : SortInfo) (v : Value) (q : Pool) :
    (canonicalize uf s v).run q = (canonicalizeWithin uf (q.itemCount + 2) s v).run q := by
  simp only [canonicalize, PoolM.run_bind, PoolM.run_read]

/-! ### What canonicalising gives -/

/-- What canonicalising `v` of sort `s` gave when run from `q`, a pool grown from `p`: the result
`r` and the pool `q'` it reached. The pool stays interned; when nothing changed the result is `v`
and nothing was stored; a change means `v` was not canonical in `p`; and where `q'` has room,
the result is canonical to depth `n`. -/
structure Outcome (p : Pool) (uf : UnionFind) (n : Nat) (s : SortInfo) (v : Value) (q q' : Pool)
    (r : Value × Bool) : Prop where
  interned : q'.Interned
  kept : r.2 = false → r.1 = v ∧ q' = q
  changed : r.2 = true → ∀ m, ¬ Canonical p uf m s v
  canonical : q'.Addressable → Canonical q' uf n s r.1

/-- Canonicalising `v` of sort `s` with `fuel` succeeds from every interned pool grown from `p`,
with an outcome. -/
def Canonicalizes (p : Pool) (uf : UnionFind) (fuel n : Nat) (s : SortInfo) (v : Value) : Prop :=
  ∀ q, p.Grows q → q.Interned →
    ∃ r q', (canonicalizeWithin uf fuel s v).run q = .ok (r, q') ∧ Outcome p uf n s v q q' r

/-- An id becomes its root, which the union-find answers with itself. -/
theorem canonicalizes_eq (rooted : uf.Rooted) {fuel n : Nat} {name : String} {v : Value} {r : Nat}
    (found : uf.find? v.id = some r) : Canonicalizes p uf (fuel + 1) n (.eq name) v := by
  intro q _ interned
  by_cases root : r.toUInt64 = v.bits
  · refine ⟨(v, false), q, by rw [run_canonicalizeWithin_eq found, if_pos root], interned,
      fun _ => ⟨rfl, rfl⟩, by simp, fun _ => .eq found root⟩
  · refine ⟨({ v with bits := r.toUInt64 }, true), q,
      by rw [run_canonicalizeWithin_eq found, if_neg root], interned, by simp,
      fun _ m canon => ?_, fun _ => .eq (r := r) ?_ rfl⟩
    · obtain ⟨r', found', root'⟩ := canon.eq_root
      rw [found, Option.some.injEq] at found'
      subst found'
      exact root root'
    · -- the root fits in 32 bits, so the new bits name it as an id
      have small := rooted.root_lt _ _ found
      have named : ({ v with bits := r.toUInt64 } : Value).id = r := by
        simp only [Value.id, Nat.toUInt64_eq, UInt64.toUInt32_ofNat', UInt32.toNat_ofNat']
        omega
      rw [named]
      exact rooted.find_root _ _ found

theorem canonicalizes_base {fuel n : Nat} {s : SortInfo} {v : Value} (container : s.table? = none)
    (notEq : s.isEq = false) : Canonicalizes p uf fuel n s v := fun q _ interned =>
  ⟨(v, false), q, run_canonicalizeWithin_base container notEq q, interned, fun _ => ⟨rfl, rfl⟩,
    by simp, fun _ => .base container notEq⟩

/-- Canonicalising the elements of a container one after another, each of which canonicalises:
the pool grows and stays interned, and is the same when no element changed; an element that did
not change came back as itself, one that changed was not canonical, and each result is
canonical in the pool reached. -/
theorem canonicalizes_mapM {f n : Nat} {l : List (SortInfo × Value)}
    (each : ∀ a ∈ l, Canonicalizes p uf f n a.1 a.2) (q : Pool) (grows : p.Grows q)
    (interned : q.Interned) :
    ∃ rs q', (l.mapM fun a => canonicalizeWithin uf f a.1 a.2).run q = .ok (rs, q') ∧
      q.Grows q' ∧ q'.Interned ∧ (rs.any (·.2) = false → q' = q) ∧
      List.Forall₂ (fun a r => (r.2 = false → r.1 = a.2) ∧
        (r.2 = true → ∀ m, ¬ Canonical p uf m a.1 a.2) ∧
        (q'.Addressable → Canonical q' uf n a.1 r.1)) l rs := by
  induction l generalizing q with
  | nil => exact ⟨[], q, rfl, .refl q, interned, fun _ => rfl, .nil⟩
  | cons a l ih =>
    obtain ⟨r, q₁, ran, outcome⟩ := each a (List.mem_cons_self ..) q grows interned
    have grows₁ := PoolM.run_grows ran
    obtain ⟨rs, q₂, rest, grows₂, interned₂, kept, related⟩ :=
      ih (fun b mem => each b (List.mem_cons_of_mem a mem)) q₁ (grows.trans grows₁) outcome.interned
    refine ⟨r :: rs, q₂, ?_, grows₁.trans grows₂, interned₂, fun unchanged => ?_,
      .cons ⟨fun same => (outcome.kept same).1, outcome.changed, fun room => ?_⟩ related⟩
    · simp [List.mapM_cons, PoolM.run_bind, ran, PoolM.run_map, rest, Except.map]
    · simp only [List.any_cons, Bool.or_eq_false_iff] at unchanged
      rw [kept unchanged.2, (outcome.kept unchanged.1).2]
    · exact (outcome.canonical (room.of_grows grows₂)).grow outcome.interned grows₂

/-! ### Storing a container again -/

/-- How canonicalising stores a container again from its canonical elements `ys`, from any
interned pool grown from `q₀`, where the container has the elements `l`: the value it gives has at
each position the sort of the element there and the canonical element. -/
def Rebuilds (q₀ : Pool) (s : SortInfo) (l : List (SortInfo × Value))
    (m : List Value → PoolM Value) : Prop :=
  ∀ (ys : List Value) (q : Pool), q₀.Grows q → q.Interned → ys.length = l.length →
    ∃ v' q', (m ys).run q = .ok (v', q') ∧ q'.Interned ∧
      (q'.Addressable → ∃ l', s.elementsIn q' v' = some l' ∧ ∀ a ∈ l', a ∈ (l.map Prod.fst).zip ys)

theorem run_store (s : SortInfo) (t : Nat) (c : Contents) (sorts : List SortInfo) (q : Pool) :
    (PoolM.store s t c sorts).run q =
      .ok ((q.store t s.name c sorts).2, (q.store t s.name c sorts).1) := rfl

/-- Contents other than a partial application fit any sorts. -/
theorem sortsFit_of_ne {a : InternTable} {c : Contents}
    (notApp : ∀ name xs, c ≠ .partialApp name xs) (sorts : List SortInfo) : a.SortsFit c sorts :=
  fun name xs same => absurd same (notApp name xs)

/-- An element of one sort, among elements of that sort, stands at its position. -/
theorem mem_zip_of_sort (e : SortInfo) {y : Value} {xs ys : List Value}
    (same : ys.length = xs.length) (mem : y ∈ ys) :
    (e, y) ∈ ((xs.map (e, ·)).map Prod.fst).zip ys := by
  induction xs generalizing ys with
  | nil => simp_all
  | cons x xs ih =>
    rcases ys with _ | ⟨y', ys⟩
    · cases mem
    · rcases List.mem_cons.mp mem with rfl | mem
      · simp
      · exact List.mem_cons_of_mem _ (ih (by simpa using same) mem)

theorem rebuilds_set {name : String} {t : Nat} {e : SortInfo} {v : Value} {xs : List Value}
    (loaded : q.load? t v.bits = some (.set xs)) :
    Rebuilds q (.set name t e) (xs.map (e, ·))
      (fun ys => do PoolM.store (.set name t e) t (.set (sortedSet (← PoolM.nameKey) ys)) []) := by
  intro ys q' grows interned same
  obtain ⟨a, table, -⟩ := Option.bind_eq_some_iff.mp (PoolM.Pool.load?_grow loaded grows)
  let stored := q'.store t name (.set (sortedSet q'.names.key ys)) []
  refine ⟨stored.2, stored.1,
    by simp [stored, PoolM.run_bind, PoolM.run_nameKey, run_store, SortInfo.name],
    interned.store fun _ _ => sortsFit_of_ne (fun _ _ => by simp) _,
    fun room => ⟨(sortedSet q'.names.key ys).map (e, ·), ?_, fun a mem => ?_⟩⟩
  · simp [stored, elementsIn, Pool.load?_store_of_addressable interned table room]
  · obtain ⟨y, inside, rfl⟩ := List.mem_map.mp mem
    exact mem_zip_of_sort e (by simpa using same) (mem_sortedSet inside)

theorem rebuilds_vec {name : String} {t : Nat} {e : SortInfo} {v : Value} {xs : List Value}
    (loaded : q.load? t v.bits = some (.vec xs)) :
    Rebuilds q (.vec name t e) (xs.map (e, ·))
      (fun ys => PoolM.store (.vec name t e) t (.vec ys) []) := by
  intro ys q' grows interned same
  obtain ⟨a, table, -⟩ := Option.bind_eq_some_iff.mp (PoolM.Pool.load?_grow loaded grows)
  let stored := q'.store t name (.vec ys) []
  refine ⟨stored.2, stored.1, run_store .., interned.store
    fun _ _ => sortsFit_of_ne (fun _ _ => by simp) _, fun room => ⟨ys.map (e, ·), ?_, fun a mem => ?_⟩⟩
  · simp [stored, elementsIn, Pool.load?_store_of_addressable interned table room]
  · obtain ⟨y, inside, rfl⟩ := List.mem_map.mp mem
    exact mem_zip_of_sort e (by simpa using same) inside

/-- A map built binding by binding, from bindings and onto a map whose keys and values have some
properties, has them. -/
theorem forall_foldl_insertBinding {key : String → Nat} {K V : Value → Prop}
    {ps acc : List (Value × Value)} (hps : ∀ b ∈ ps, K b.1 ∧ V b.2)
    (hacc : ∀ b ∈ acc, K b.1 ∧ V b.2) :
    ∀ b ∈ ps.foldl (fun acc p => insertBinding key p.1 p.2 acc) acc, K b.1 ∧ V b.2 := by
  induction ps generalizing acc with
  | nil => exact hacc
  | cons p ps ih =>
    have head := hps p (List.mem_cons_self ..)
    exact ih (fun b mem => hps b (List.mem_cons_of_mem p mem))
      (forall_insertBinding head.1 head.2 hacc)

/-- Pairing up the canonical elements of a map's bindings: each key stands at a key's position,
each value at a value's. -/
theorem mem_pairUp {k w : SortInfo} {xs : List (Value × Value)} {ys : List Value}
    (same : ys.length = 2 * xs.length) {pr : Value × Value}
    (mem : pr ∈ canonicalizeWithin.pairUp ys) :
    (k, pr.1) ∈ ((xs.flatMap fun b => [(k, b.1), (w, b.2)]).map Prod.fst).zip ys ∧
      (w, pr.2) ∈ ((xs.flatMap fun b => [(k, b.1), (w, b.2)]).map Prod.fst).zip ys := by
  induction xs generalizing ys with
  | nil =>
    have empty : ys = [] := List.length_eq_zero_iff.mp (by simpa using same)
    subst empty
    simp [canonicalizeWithin.pairUp] at mem
  | cons x xs ih =>
    rcases ys with _ | ⟨y₀, _ | ⟨y₁, ys⟩⟩
    · simp at same
    · simp at same
      omega
    · simp only [canonicalizeWithin.pairUp, List.mem_cons] at mem
      rcases mem with rfl | mem
      · simp
      · have rest := ih (by simp at same; omega) mem
        simp only [List.flatMap_cons, List.map_cons, List.cons_append, List.nil_append,
          List.zip_cons_cons, List.mem_cons]
        exact ⟨.inr (.inr rest.1), .inr (.inr rest.2)⟩

theorem rebuilds_map {name : String} {t : Nat} {k w : SortInfo} {v : Value}
    {xs : List (Value × Value)} (loaded : q.load? t v.bits = some (.map xs)) :
    Rebuilds q (.map name t k w) (xs.flatMap fun b => [(k, b.1), (w, b.2)])
      (fun ys => do
        let key ← PoolM.nameKey
        PoolM.store (.map name t k w) t
          (.map ((canonicalizeWithin.pairUp ys).foldl (fun acc b => insertBinding key b.1 b.2 acc) []))
          []) := by
  intro ys q' grows interned same
  obtain ⟨a, table, -⟩ := Option.bind_eq_some_iff.mp (PoolM.Pool.load?_grow loaded grows)
  let bindings :=
    (canonicalizeWithin.pairUp ys).foldl (fun acc b => insertBinding q'.names.key b.1 b.2 acc) []
  let stored := q'.store t name (.map bindings) []
  have pairs : ys.length = 2 * xs.length := by
    rw [same, List.length_flatMap]
    simp [Nat.mul_comm]
  refine ⟨stored.2, stored.1,
    by simp [stored, bindings, PoolM.run_bind, PoolM.run_nameKey, run_store, SortInfo.name],
    interned.store fun _ _ => sortsFit_of_ne (fun _ _ => by simp) _,
    fun room => ⟨bindings.flatMap fun b => [(k, b.1), (w, b.2)], ?_, fun a mem => ?_⟩⟩
  · simp [stored, elementsIn, Pool.load?_store_of_addressable interned table room]
  · -- a key or a value of the new map was a key or a value of a pair of canonical elements
    let slots := ((xs.flatMap fun b => [(k, b.1), (w, b.2)]).map Prod.fst).zip ys
    have placed : ∀ b ∈ bindings, (k, b.1) ∈ slots ∧ (w, b.2) ∈ slots :=
      forall_foldl_insertBinding (K := fun y => (k, y) ∈ slots) (V := fun y => (w, y) ∈ slots)
        (fun _ paired => mem_pairUp pairs paired) (by simp)
    obtain ⟨b, inside, mem⟩ := List.mem_flatMap.mp mem
    simp only [List.mem_cons, List.not_mem_nil, or_false] at mem
    rcases mem with rfl | rfl
    · exact (placed b inside).1
    · exact (placed b inside).2

theorem rebuilds_func {name : String} {t : Nat} {ins : List SortInfo} {out : SortInfo} {v : Value}
    {f : String} {args : List Value} (interned₀ : q.Interned)
    (loaded : q.load? t v.bits = some (.partialApp f args)) :
    Rebuilds q (.func name t ins out) ((q.argSorts t v.bits).zip args)
      (fun ys => PoolM.store (.func name t ins out) t (.partialApp f ys) (q.argSorts t v.bits)) := by
  intro ys q' grows interned same
  have loaded' := PoolM.Pool.load?_grow loaded grows
  obtain ⟨a, table, at_v⟩ := Option.bind_eq_some_iff.mp loaded'
  have at_v : a.items[v.bits.toNat]? = some (.partialApp f args) := at_v
  obtain ⟨S, kept, length⟩ := (interned t a table).argSorts_length _ _ _ at_v
  have sorts : q.argSorts t v.bits = S := by
    rw [← Pool.argSorts_grow interned₀ grows loaded]
    simp [Pool.argSorts, table, kept]
  rw [sorts] at same ⊢
  have ys_length : ys.length = args.length := by simp [same, length]
  -- the new application keeps the sorts of the one it replaces, as one function fixes them
  have fits : a.SortsFit (.partialApp f ys) S := by
    intro name' xs h
    simp only [Contents.partialApp.injEq] at h
    obtain ⟨rfl, rfl⟩ := h
    refine ⟨by omega, fun j ys' at_j len => ?_⟩
    rw [(interned t a table).argSorts_agree j _ f ys' args at_j at_v (by omega), kept]
  let stored := q'.store t name (.partialApp f ys) S
  refine ⟨stored.2, stored.1, run_store .., interned.store fun b hb => ?_,
    fun room => ⟨S.zip ys, ?_, fun a mem => ?_⟩⟩
  · rw [table, Option.some.injEq] at hb
    exact hb ▸ fits
  · have room_a : a.items.size < 2 ^ 64 :=
      room.of_grows (q'.store_grows t name _ S) t a table
    simp [stored, elementsIn, Pool.load?_store interned table room_a,
      Pool.argSorts_store interned table room_a fits]
  · rwa [List.map_fst_zip (by omega)]

/-! ### One step of canonicalising a container

Each kind of container canonicalises its elements one after another and, if one changed, stores
the container again: a set ascending anew, a map binding by binding. -/

section Steps

variable {fuel : Nat} {name : String} {t : Nat} {v : Value}

theorem run_canonicalizeWithin_set {e : SortInfo} {xs : List Value}
    (loaded : q.load? t v.bits = some (.set xs)) :
    (canonicalizeWithin uf (fuel + 1) (.set name t e) v).run q =
      (((xs.map (e, ·)).mapM fun a => canonicalizeWithin uf fuel a.1 a.2) >>= fun rs =>
        if rs.any (·.2) = true then (fun v' => (v', true)) <$>
          (do PoolM.store (.set name t e) t (.set (sortedSet (← PoolM.nameKey) (rs.map (·.1)))) [])
        else pure (v, false)).run q := by
  simp only [canonicalizeWithin]
  rw [PoolM.run_bind, PoolM.run_load_of loaded]
  simp only [bind_assoc, pure_bind, map_eq_pure_bind]

theorem run_canonicalizeWithin_vec {e : SortInfo} {xs : List Value}
    (loaded : q.load? t v.bits = some (.vec xs)) :
    (canonicalizeWithin uf (fuel + 1) (.vec name t e) v).run q =
      (((xs.map (e, ·)).mapM fun a => canonicalizeWithin uf fuel a.1 a.2) >>= fun rs =>
        if rs.any (·.2) = true then (fun v' => (v', true)) <$>
          PoolM.store (.vec name t e) t (.vec (rs.map (·.1))) []
        else pure (v, false)).run q := by
  simp only [canonicalizeWithin]
  rw [PoolM.run_bind, PoolM.run_load_of loaded]
  simp only [bind_assoc, pure_bind, map_eq_pure_bind]

theorem run_canonicalizeWithin_map {k w : SortInfo} {xs : List (Value × Value)}
    (loaded : q.load? t v.bits = some (.map xs)) :
    (canonicalizeWithin uf (fuel + 1) (.map name t k w) v).run q =
      (((xs.flatMap fun b => [(k, b.1), (w, b.2)]).mapM fun a => canonicalizeWithin uf fuel a.1 a.2)
        >>= fun rs =>
        if rs.any (·.2) = true then (fun v' => (v', true)) <$> (do
          let key ← PoolM.nameKey
          PoolM.store (.map name t k w) t
            (.map ((canonicalizeWithin.pairUp (rs.map (·.1))).foldl
              (fun acc b => insertBinding key b.1 b.2 acc) [])) [])
        else pure (v, false)).run q := by
  simp only [canonicalizeWithin]
  rw [PoolM.run_bind, PoolM.run_load_of loaded]
  simp only [bind_assoc, pure_bind, map_eq_pure_bind]

theorem run_canonicalizeWithin_func {ins : List SortInfo} {out : SortInfo} {f : String}
    {args : List Value} (loaded : q.load? t v.bits = some (.partialApp f args)) :
    (canonicalizeWithin uf (fuel + 1) (.func name t ins out) v).run q =
      ((((q.argSorts t v.bits).zip args).mapM fun a => canonicalizeWithin uf fuel a.1 a.2) >>= fun rs =>
        if rs.any (·.2) = true then (fun v' => (v', true)) <$>
          PoolM.store (.func name t ins out) t (.partialApp f (rs.map (·.1))) (q.argSorts t v.bits)
        else pure (v, false)).run q := by
  simp only [canonicalizeWithin]
  rw [PoolM.run_bind, PoolM.run_load_of loaded]
  simp only [bind_assoc, pure_bind, map_eq_pure_bind]
  rw [PoolM.run_bind, PoolM.run_read]

end Steps

/-- One step of canonicalising a container, whatever its kind: its elements one after another,
then, if one changed, a store that rebuilds it. -/
theorem canonicalizeWithin_container (interned : q.Interned) {s : SortInfo} {v : Value}
    {l : List (SortInfo × Value)} (found : s.elementsIn q v = some l) (fuel : Nat) :
    ∃ m, Rebuilds q s l m ∧ (canonicalizeWithin uf (fuel + 1) s v).run q =
      ((l.mapM fun a => canonicalizeWithin uf fuel a.1 a.2) >>= fun rs =>
        if rs.any (·.2) = true then (fun v' => (v', true)) <$> m (rs.map (·.1))
        else pure (v, false)).run q := by
  cases s with
  | set name t e =>
    simp only [elementsIn] at found
    split at found
    · rename_i loaded
      cases found
      exact ⟨_, rebuilds_set loaded, run_canonicalizeWithin_set loaded⟩
    · cases found
  | vec name t e =>
    simp only [elementsIn] at found
    split at found
    · rename_i loaded
      cases found
      exact ⟨_, rebuilds_vec loaded, run_canonicalizeWithin_vec loaded⟩
    · cases found
  | map name t k w =>
    simp only [elementsIn] at found
    split at found
    · rename_i loaded
      cases found
      exact ⟨_, rebuilds_map loaded, run_canonicalizeWithin_map loaded⟩
    · cases found
  | func name t ins out =>
    simp only [elementsIn] at found
    split at found
    · rename_i loaded
      cases found
      exact ⟨_, rebuilds_func interned loaded, run_canonicalizeWithin_func loaded⟩
    · cases found
  | _ => simp [elementsIn] at found

/-- A container canonicalises once its elements do: it changes when an element changes, and a
new container holds the canonical elements. -/
theorem canonicalizes_container (interned : p.Interned) {f n : Nat} {s : SortInfo} {v : Value}
    {l : List (SortInfo × Value)} (found : s.elementsIn p v = some l)
    (each : ∀ a ∈ l, Canonicalizes p uf f n a.1 a.2) : Canonicalizes p uf (f + 1) (n + 1) s v := by
  intro q grows interned_q
  have found_q := elementsIn_grow interned grows found
  obtain ⟨m, rebuilds, unfolds⟩ := canonicalizeWithin_container interned_q found_q f
  obtain ⟨rs, q₁, ran, grows₁, interned₁, kept, related⟩ :=
    canonicalizes_mapM each q grows interned_q
  rw [unfolds, PoolM.run_bind, ran]
  by_cases changed : rs.any (·.2) = true
  · obtain ⟨v', q₂, stored, interned₂, rebuilt⟩ :=
      rebuilds (rs.map (·.1)) q₁ grows₁ interned₁ (by simp [related.length_eq])
    have grows₂ := PoolM.run_grows stored
    refine ⟨(v', true), q₂, by simp [changed, PoolM.run_map, stored, Except.map], interned₂,
      by simp, fun _ m canon => ?_, fun room => ?_⟩
    · -- the element that changed was not canonical, so neither was the container
      obtain ⟨r, inside, hr⟩ := List.any_eq_true.mp changed
      obtain ⟨a, mem, -, not_canon, -⟩ := List.Forall₂.exists_of_mem related.flip inside
      obtain ⟨n', rfl, elems⟩ := canon.elements found
      exact not_canon hr n' (elems a mem)
    · obtain ⟨l', found', within⟩ := rebuilt room
      refine .container found' fun a mem => ?_
      rw [List.zip_map] at within
      obtain ⟨⟨b, r⟩, paired, rfl⟩ := List.mem_map.mp (within a mem)
      have canon := (List.forall₂_zip related paired).2.2 (room.of_grows grows₂)
      exact canon.grow interned₁ grows₂
  · have unchanged : rs.any (·.2) = false := by simpa using changed
    obtain rfl := kept unchanged
    refine ⟨(v, false), q₁, by simp [unchanged], interned₁, fun _ => ⟨rfl, rfl⟩, by simp,
      fun room => .container found_q fun a mem => ?_⟩
    -- every element came back as itself
    obtain ⟨r, inside, same, -, canon⟩ := List.Forall₂.exists_of_mem related mem
    have unmoved : r.2 = false := by
      simpa using List.any_eq_false.mp unchanged r inside
    exact same unmoved ▸ canon room

/-! ### Canonicalising a whole value -/

/-- Canonicalising a well-stored value gives an outcome one level less deep than its fuel, once the
fuel and the containers above it outnumber the stored contents. -/
theorem canonicalizes_of_wellStored (interned : p.Interned) (rooted : uf.Rooted)
    {seen : List (Nat × Nat)} {s : SortInfo} {v : Value} (stored : WellStored p uf seen s v) :
    ∀ fuel, p.itemCount < fuel + seen.length → seen.Nodup → (∀ x ∈ seen, x ∈ p.positions) →
      Canonicalizes p uf fuel (fuel - 1) s v := by
  induction stored with
  | eq found =>
    intro fuel bound nodup inside
    -- the containers above sit at distinct positions, so some fuel is left
    have above := Pool.length_le_itemCount nodup inside
    obtain ⟨f, rfl⟩ : ∃ f, fuel = f + 1 := ⟨fuel - 1, by omega⟩
    exact canonicalizes_eq rooted found
  | @container seen s v t l table found fresh _ ih =>
    intro fuel bound nodup inside
    have nodup' : ((t, v.bits.toNat) :: seen).Nodup := List.nodup_cons.mpr ⟨fresh, nodup⟩
    have inside' : ∀ x ∈ (t, v.bits.toNat) :: seen, x ∈ p.positions := by
      intro x mem
      rcases List.mem_cons.mp mem with rfl | mem
      · exact mem_positions_of_elementsIn table found
      · exact inside x mem
    -- with this container too the positions are distinct, so the elements still have fuel
    have above := Pool.length_le_itemCount nodup' inside'
    simp only [List.length_cons] at above
    obtain ⟨f, rfl⟩ : ∃ f, fuel = f + 2 := ⟨fuel - 2, by omega⟩
    exact canonicalizes_container interned found fun a mem =>
      ih a mem (f + 1) (by simp only [List.length_cons]; omega) nodup' inside'
  | base container notEq => exact fun _ _ _ _ => canonicalizes_base container notEq

/-- Elements that each come back at once, with the pool as it was, come back together. -/
theorem run_mapM_of_each {f : Nat} {l : List (SortInfo × Value)} {g : SortInfo × Value → Value × Bool}
    (each : ∀ a ∈ l, (canonicalizeWithin uf f a.1 a.2).run q = .ok (g a, q)) :
    (l.mapM fun a => canonicalizeWithin uf f a.1 a.2).run q = .ok (l.map g, q) := by
  induction l with
  | nil => rfl
  | cons a l ih =>
    simp [List.mapM_cons, PoolM.run_bind, PoolM.run_map, Except.map,
      each a (List.mem_cons_self ..), ih fun b mem => each b (List.mem_cons_of_mem a mem)]

/-- A canonical value comes back unchanged, and nothing is stored, given more fuel than its
depth. -/
theorem canonicalizeWithin_of_canonical (interned : q.Interned) {n : Nat} {s : SortInfo} {v : Value}
    (canon : Canonical q uf n s v) :
    ∀ fuel, n < fuel → (canonicalizeWithin uf fuel s v).run q = .ok ((v, false), q) := by
  induction canon with
  | eq found root =>
    intro fuel bound
    obtain ⟨f, rfl⟩ : ∃ f, fuel = f + 1 := ⟨fuel - 1, by omega⟩
    rw [run_canonicalizeWithin_eq found, if_pos root]
  | container found _ ih =>
    intro fuel bound
    obtain ⟨f, rfl⟩ : ∃ f, fuel = f + 1 := ⟨fuel - 1, by omega⟩
    obtain ⟨m, -, unfolds⟩ := canonicalizeWithin_container interned found f
    rw [unfolds, PoolM.run_bind, run_mapM_of_each fun a mem => ih a mem f (by omega)]
    simp
  | base container notEq => exact fun _ _ => run_canonicalizeWithin_base container notEq q

/-- Canonicalising a well-stored value of an interned pool under a rooted union-find succeeds and
reports a change exactly when the value changed. Where the pool it reaches has room, the result is
canonical, and canonicalising it again changes nothing and stores nothing. -/
theorem canonicalize_reports_changes_and_settles (interned : p.Interned) (rooted : uf.Rooted)
    {s : SortInfo} {v : Value} (stored : WellStored p uf [] s v) :
    ∃ v' changed q, (canonicalize uf s v).run p = .ok ((v', changed), q) ∧
      (q.Addressable → (changed = true ↔ v' ≠ v) ∧ (∃ n, Canonical q uf n s v') ∧
        (canonicalize uf s v').run q = .ok ((v', false), q)) := by
  obtain ⟨⟨v', changed⟩, q, ran, outcome⟩ :=
    canonicalizes_of_wellStored interned rooted stored (p.itemCount + 2) (by simp) List.nodup_nil
      (by simp) p (.refl p) interned
  have grows := PoolM.run_grows ran
  refine ⟨v', changed, q, by rw [run_canonicalize]; exact ran, fun room =>
    ⟨⟨fun moved same => ?_, fun moved => ?_⟩, ⟨_, outcome.canonical room⟩, ?_⟩⟩
  · -- were the result `v`, then `v` would have been canonical already
    have canon := outcome.canonical room
    rw [show (v', changed).1 = v from same] at canon
    exact outcome.changed moved _ (Canonical.of_grow interned grows stored canon)
  · cases changed
    · exact absurd (outcome.kept rfl).1 moved
    · rfl
  · rw [run_canonicalize]
    have more := Pool.itemCount_le grows
    exact canonicalizeWithin_of_canonical outcome.interned (outcome.canonical room) _ (by omega)

end SortInfo

end Saturate
