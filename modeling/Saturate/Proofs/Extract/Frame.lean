import Mathlib
import Saturate.Proofs.Container.Replay
import Saturate.Proofs.Table.Rebuild
import Saturate.Extract

/-!
What extraction does to the pool. Extraction canonicalises the values it reads, and
canonicalising may store containers; but it enters no name, and the tables keep interning
exactly. Main statements:

* `PoolM.Conserves`, with its closure under `pure`, `bind`, `mapM` and `foldlM`;
* `Extractor.build_conserves`: finding the best rows of a database conserves the pool;
* `Extractor.term?_conserves`: building the term of a value does too.

A triple per function carries the frame, so each proof is the verification conditions of the
function's body closed by its callees' triples.
-/

open Std.Do

set_option mvcgen.warning false

namespace Saturate

namespace PoolM

variable {α β : Type}

theorem read_spec (Q : PostCond Pool (.arg Pool (.except String .pure))) :
    ⦃fun p => Q.1 p p⦄ (MonadReaderOf.read : PoolM Pool) ⦃Q⦄ := by
  intro p hp
  rw [wp_apply]
  exact hp

theorem throw_spec (e : String) (Q : PostCond α (.arg Pool (.except String .pure))) :
    ⦃fun _ => Q.2.1 e⦄ (throw e : PoolM α) ⦃Q⦄ := by
  intro p hp
  rw [wp_apply]
  exact hp

/-- Run from an interned pool, `m` reaches an interned pool with the same names. -/
def Conserves (m : PoolM α) : Prop :=
  ∀ n : NameTable, ⦃fun p => ⌜p.Interned ∧ p.names = n⌝⦄ m
    ⦃post⟨fun _ p => ⌜p.Interned ∧ p.names = n⌝, fun _ => ⌜True⌝⟩⦄

theorem Conserves.run {m : PoolM α} (h : m.Conserves) {p q : Pool} {a : α} (interned : p.Interned)
    (ran : m.run p = .ok (a, q)) : q.Interned ∧ q.names = p.names := by
  have holds := h p.names p ⟨interned, rfl⟩
  rw [wp_apply, ran] at holds
  exact holds

theorem conserves_of_run {m : PoolM α}
    (h : ∀ p a q, p.Interned → m.run p = .ok (a, q) → q.Interned ∧ q.names = p.names) :
    m.Conserves := by
  intro n p hp
  rw [wp_apply]
  split
  · rename_i a q ran
    obtain ⟨interned, names⟩ := h p a q hp.1 ran
    exact ⟨interned, names.trans hp.2⟩
  · trivial

theorem conserves_pure (a : α) : (pure a : PoolM α).Conserves :=
  conserves_of_run fun _ _ _ interned ran => by
    obtain ⟨-, rfl⟩ := run_pure_inv ran
    exact ⟨interned, rfl⟩

theorem Conserves.bind {m : PoolM α} {f : α → PoolM β} (hm : m.Conserves)
    (hf : ∀ a, (f a).Conserves) : (m >>= f).Conserves :=
  conserves_of_run fun _ _ _ interned ran => by
    obtain ⟨a, p₁, first, rest⟩ := run_bind_ok ran
    obtain ⟨interned₁, names₁⟩ := hm.run interned first
    obtain ⟨interned₂, names₂⟩ := (hf a).run interned₁ rest
    exact ⟨interned₂, names₂.trans names₁⟩

theorem mapM_conserves {f : α → PoolM β} (h : ∀ a, (f a).Conserves) :
    ∀ xs : List α, (xs.mapM f).Conserves
  | [] => conserves_pure []
  | x :: xs => by
    rw [List.mapM_cons]
    exact (h x).bind fun _ => (mapM_conserves h xs).bind fun _ => conserves_pure _

theorem foldlM_conserves {f : β → α → PoolM β} (h : ∀ b a, (f b a).Conserves) :
    ∀ (xs : List α) (b : β), (xs.foldlM f b).Conserves
  | [], b => conserves_pure b
  | x :: xs, b => by
    rw [List.foldlM_cons]
    exact (h b x).bind fun b' => foldlM_conserves h xs b'

end PoolM

open PoolM

theorem SortInfo.canonicalize_conserves (uf : UnionFind) (s : SortInfo) (v : Value) :
    (s.canonicalize uf v).Conserves := by
  refine conserves_of_run fun p a q interned ran => ?_
  rw [SortInfo.run_canonicalize] at ran
  exact SortInfo.canonicalizeWithin_conserves _ s v interned ran

theorem SortInfo.innerValues_conserves (s : SortInfo) (v : Value) : (s.innerValues v).Conserves :=
  fun n => by mvcgen [SortInfo.innerValues, read_spec, throw_spec, PoolM.load]

namespace Extractor

theorem findIn_conserves (d : Database) (v : Value) : (findIn d v).Conserves := fun n => by
  have canon := fun s => SortInfo.canonicalize_conserves d.unionFind s v n
  mvcgen [findIn, canon]

theorem valueCostWithin_conserves (d : Database) (costs : Std.HashMap Value Best) :
    ∀ fuel s v, (valueCostWithin d costs fuel s v).Conserves
  | 0, s, v => fun n => by mvcgen [valueCostWithin]
  | fuel + 1, s, v => fun n => by
    have ih := fun s v => valueCostWithin_conserves d costs fuel s v
    have find := findIn_conserves d v n
    have inner := SortInfo.innerValues_conserves s v n
    have each := fun xs => mapM_conserves (fun a : SortInfo × Value => ih a.1 a.2) xs n
    mvcgen [valueCostWithin, find, inner, each]

theorem valueCost_conserves (d : Database) (costs : Std.HashMap Value Best) (s : SortInfo)
    (v : Value) : (valueCost d costs s v).Conserves := fun n => by
  have within := fun fuel => valueCostWithin_conserves d costs fuel s v n
  mvcgen [valueCost, read_spec, within]

theorem rowCost_conserves (d : Database) (costs : Std.HashMap Value Best) (f : Func)
    (inputs : List Value) : (rowCost d costs f inputs).Conserves := fun n => by
  have each := fun xs =>
    mapM_conserves (fun a : Value × SortInfo => valueCost_conserves d costs a.2 a.1) xs n
  mvcgen [rowCost, each]

theorem improve_conserves (d : Database) (ctors : List Func) (costs : Std.HashMap Value Best) :
    (improve d ctors costs).Conserves := by
  refine foldlM_conserves (fun acc f => foldlM_conserves (fun acc r n => ?_) _ acc) ctors _
  have cost := rowCost_conserves d acc.1 f r.2.inputs n
  have find := findIn_conserves d r.2.output.value n
  mvcgen [cost, find]
  -- the verification conditions stop at the `if` on a `let`, which splits by hand
  all_goals
    intro p interned names
    split
  · exact ((mapM_conserves (findIn_conserves d) _).bind fun _ => conserves_pure _) n p
      ⟨interned, names⟩
  · exact ⟨interned, names⟩

theorem settle_conserves (d : Database) (ctors : List Func) :
    ∀ fuel costs, (settle d ctors fuel costs).Conserves
  | 0, costs => fun n => by mvcgen [settle]
  | fuel + 1, costs => fun n => by
    have step := improve_conserves d ctors costs n
    have rest := fun costs => settle_conserves d ctors fuel costs n
    mvcgen [settle, step, rest]

theorem build_conserves (d : Database) : (build d).Conserves := fun n => by
  have settled := fun fuel costs => settle_conserves d (d.funcs.toList.filter fun f =>
    !f.decl.unextractable && f.output.isEq) fuel costs n
  mvcgen [build, settled]

theorem termWithin_conserves (x : Extractor) (d : Database) :
    ∀ fuel s v dag, (x.termWithin d fuel s v dag).Conserves
  | 0, s, v, dag => fun n => by mvcgen [termWithin]
  | fuel + 1, s, v, dag => fun n => by
    have ih := fun s v dag => termWithin_conserves x d fuel s v dag n
    have find := findIn_conserves d v n
    mvcgen -trivial [termWithin, ih, find, read_spec, throw_spec, PoolM.load, PoolM.loadString,
      PoolM.loadRat]
    -- the loops over children and map bindings keep the frame as their invariant
    all_goals first
      | exact post⟨fun _ p => ⌜p.Interned ∧ p.names = n⌝, fun _ => ⌜True⌝⟩
      | skip
    all_goals first | assumption | trivial | exact id

theorem term?_conserves (x : Extractor) (d : Database) (s : SortInfo) (v : Value) (dag : TermDag) :
    (x.term? d s v dag).Conserves := fun n => by
  have within := fun fuel => termWithin_conserves x d fuel s v dag n
  mvcgen [term?, fuelFor, read_spec, within]

end Extractor

end Saturate
