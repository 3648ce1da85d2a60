import Mathlib
import Saturate.TermDag

/-!
# Readings of a term dag by an explicit stack

`TermDag.walk` computes a reading of a term (`Fold`) with a stack of ids and a memo of the ids
done; the tree size and the text of a term are two such readings. The recursive reading is the
relation `Folds`: a literal and a variable have their value, and an application the value of its
head and of its children's values, each child read the same way.

In a dag whose applications refer to earlier nodes only (`ChildrenFirst`), as every dag built by
adding terms is, the walk from an id ends within `walkFuel` steps and leaves for the id its
recursive value. The argument is a strong induction on ids (`visits`): a walk that starts with
an id on top of the stack comes back to the rest of the stack with the id done (`Visits`). It is
paid for by the ids it newly did, each at most `edges + 2` steps: one to find it waiting, one
for each child it pushes above it, and one to value it.

* `TermDag.walk_values`: the walk from an id ends with the recursive value of the id.
* `TermDag.traversals_agree_with_their_recursions`: the tree size and the text are the recursive
  count and printing, and reading an expression back is a finished recursion.
-/

namespace Saturate

namespace TermDag

variable {α : Type}

/-! ### Dags whose applications refer to earlier nodes -/

/-- Each application refers to nodes added before it. -/
def ChildrenFirst (d : TermDag) : Prop :=
  ∀ i (lt : i < d.nodes.size), ∀ c ∈ d.nodes[i].children, c < i

instance (d : TermDag) : Decidable d.ChildrenFirst :=
  inferInstanceAs (Decidable (∀ i (lt : i < d.nodes.size), ∀ c ∈ d.nodes[i].children, c < i))

theorem ChildrenFirst.child_lt {d : TermDag} (first : d.ChildrenFirst) {i c : Nat} {h : String}
    {cs : List Nat} (node : d.nodes[i]? = some (.app h cs)) (mem : c ∈ cs) : c < i := by
  obtain ⟨lt, found⟩ := Array.getElem?_eq_some_iff.mp node
  exact first i lt c (by rw [found]; exact mem)

theorem lt_size {d : TermDag} {i : Nat} {t : Term} (found : d.nodes[i]? = some t) : i < d.size :=
  (Array.getElem?_eq_some_iff.mp found).1

theorem node_of_lt {d : TermDag} {i : Nat} (lt : i < d.size) : ∃ t, d.nodes[i]? = some t :=
  ⟨_, Array.getElem?_eq_getElem lt⟩

theorem ChildrenFirst.child_lt_size {d : TermDag} (first : d.ChildrenFirst) {i c : Nat} {h : String}
    {cs : List Nat} (node : d.nodes[i]? = some (.app h cs)) (mem : c ∈ cs) : c < d.size :=
  Nat.lt_trans (first.child_lt node mem) (lt_size node)

/-- A node has no more children than the dag has references. -/
theorem length_children_le_edges {d : TermDag} {i : Nat} {t : Term} (node : d.nodes[i]? = some t) :
    t.children.length ≤ d.edges := by
  rw [edges, ← List.sum_eq_foldl]
  exact List.le_sum_of_mem (List.mem_map_of_mem (Array.mem_toList_iff.mpr (Array.mem_of_getElem? node)))

/-! ### The recursive reading -/

/-- The value the recursive reading `f` gives node `i`. A derivation is a finished recursion:
a literal and a variable have their value, and an application the value of its head and of
its children's values, each child read the same way. -/
inductive Folds (d : TermDag) (f : Fold α) : Nat → α → Prop
  | lit {i : Nat} {l : Literal} (node : d.nodes[i]? = some (.lit l)) : Folds d f i (f.lit l)
  | var {i : Nat} {v : String} (node : d.nodes[i]? = some (.var v)) : Folds d f i (f.var v)
  | app {i : Nat} {h : String} {cs : List Nat} {vs : List α}
      (node : d.nodes[i]? = some (.app h cs)) (same : vs.length = cs.length)
      (each : ∀ c v, (c, v) ∈ cs.zip vs → Folds d f c v) : Folds d f i (f.app h vs)

theorem mem_zip_getElem {β γ : Type} {xs : List β} {ys : List γ} {k : Nat} (hx : k < xs.length)
    (hy : k < ys.length) : (xs[k], ys[k]) ∈ xs.zip ys :=
  List.mem_iff_getElem.mpr ⟨k, by simp [hx, hy], List.getElem_zip⟩

/-- Two lists paired with the same children agree when the values paired with one child do. -/
theorem eq_of_zip {cs : List Nat} {vs ws : List α} (hv : vs.length = cs.length)
    (hw : ws.length = cs.length) (same : ∀ c v w, (c, v) ∈ cs.zip vs → (c, w) ∈ cs.zip ws → v = w) :
    vs = ws := by
  refine List.ext_getElem (by omega) fun k kv kw => ?_
  exact same cs[k] vs[k] ws[k] (mem_zip_getElem (by omega) kv) (mem_zip_getElem (by omega) kw)

theorem mem_zip_map {g : Nat → α} {c : Nat} {w : α} {cs : List Nat} (mem : (c, w) ∈ cs.zip (cs.map g)) :
    c ∈ cs ∧ w = g c := by
  induction cs with
  | nil => simp at mem
  | cons c' cs ih =>
    simp only [List.map_cons, List.zip_cons_cons, List.mem_cons, Prod.mk.injEq] at mem
    rcases mem with ⟨rfl, rfl⟩ | later
    · exact ⟨List.mem_cons_self, rfl⟩
    · obtain ⟨mem, rfl⟩ := ih later
      exact ⟨List.mem_cons_of_mem c' mem, rfl⟩

section Folds

variable {d : TermDag} {f : Fold α}

/-- The recursive reading gives each node one value. -/
theorem Folds.unique {i : Nat} {v w : α} (hv : d.Folds f i v) (hw : d.Folds f i w) : v = w := by
  induction hv generalizing w with
  | lit node =>
    cases hw with
    | lit node' => rw [node] at node'; cases node'; rfl
    | var node' => rw [node] at node'; cases node'
    | app node' => rw [node] at node'; cases node'
  | var node =>
    cases hw with
    | lit node' => rw [node] at node'; cases node'
    | var node' => rw [node] at node'; cases node'; rfl
    | app node' => rw [node] at node'; cases node'
  | app node same each ih =>
    cases hw with
    | lit node' => rw [node] at node'; cases node'
    | var node' => rw [node] at node'; cases node'
    | app node' same' each' =>
      rw [node] at node'
      cases node'
      rw [eq_of_zip same same' fun c v w mv mw => ih c v mv (each' c w mw)]

/-- A node with a recursive value has no other. -/
theorem Folds.iff_eq {i : Nat} {v : α} (hv : d.Folds f i v) (w : α) : d.Folds f i w ↔ w = v :=
  ⟨fun hw => hw.unique hv, fun same => same ▸ hv⟩

theorem Folds.eq_lit {i : Nat} {v : α} {l : Literal} (hv : d.Folds f i v)
    (node : d.nodes[i]? = some (.lit l)) : v = f.lit l :=
  hv.unique (.lit node)

theorem Folds.eq_var {i : Nat} {v : α} {x : String} (hv : d.Folds f i v)
    (node : d.nodes[i]? = some (.var x)) : v = f.var x :=
  hv.unique (.var node)

/-- The recursive value of an application, given the values of its children. -/
theorem Folds.eq_app {i : Nat} {v : α} {h : String} {cs : List Nat} {g : Nat → α}
    (hv : d.Folds f i v) (node : d.nodes[i]? = some (.app h cs))
    (each : ∀ c ∈ cs, d.Folds f c (g c)) : v = f.app h (cs.map g) := by
  refine hv.unique (.app node (by simp) fun c w mem => ?_)
  obtain ⟨child, rfl⟩ := mem_zip_map mem
  exact each c child

end Folds

/-! ### Memos and the steps of a walk -/

/-- Every value the memo holds is the recursive value of its id. -/
def Sound (d : TermDag) (f : Fold α) (memo : Std.HashMap Nat α) : Prop :=
  ∀ i v, memo[i]? = some v → d.Folds f i v

/-- The ids of the dag the memo does not hold yet. -/
def unvisited (d : TermDag) (memo : Std.HashMap Nat α) : Nat :=
  ((Finset.range d.size).filter fun i => memo.contains i = false).card

section Memo

variable {d : TermDag} {f : Fold α} {memo : Std.HashMap Nat α}

theorem sound_empty (d : TermDag) (f : Fold α) : Sound d f {} := by
  intro i v found
  simp at found

theorem Sound.insert (h : Sound d f memo) {i : Nat} {v : α} (fold : d.Folds f i v) :
    Sound d f (memo.insert i v) := by
  intro j w found
  rw [Std.HashMap.getElem?_insert] at found
  split at found
  · rename_i same
    cases found
    rw [← eq_of_beq same]
    exact fold
  · exact h j w found

theorem unvisited_empty (d : TermDag) : unvisited d ({} : Std.HashMap Nat α) = d.size := by
  simp [unvisited]

/-- Doing an id not done before leaves one id fewer to do. -/
theorem unvisited_insert {i : Nat} (lt : i < d.size) (fresh : memo.contains i = false) (v : α) :
    unvisited d (memo.insert i v) + 1 = unvisited d memo := by
  have erased : (Finset.range d.size).filter (fun j => (memo.insert i v).contains j = false) =
      ((Finset.range d.size).filter fun j => memo.contains j = false).erase i := by
    ext j
    by_cases same : j = i
    · simp [same]
    · simp [Std.HashMap.contains_insert, same, Ne.symm same]
  have mem : i ∈ (Finset.range d.size).filter fun j => memo.contains j = false :=
    Finset.mem_filter.mpr ⟨Finset.mem_range.mpr lt, fresh⟩
  unfold unvisited
  rw [erased, Finset.card_erase_of_mem mem]
  have := Finset.card_pos.mpr ⟨i, mem⟩
  omega

end Memo

theorem mapM_some {g : Nat → Option α} {cs : List Nat} {vs : List α} (ran : cs.mapM g = some vs) :
    vs.length = cs.length ∧ ∀ c v, (c, v) ∈ cs.zip vs → g c = some v := by
  induction cs generalizing vs with
  | nil =>
    cases ran
    simp
  | cons c cs ih =>
    rw [List.mapM_cons] at ran
    rcases first : g c with _ | v
    · simp [first] at ran
    · rcases rest : cs.mapM g with _ | ws
      · simp [first, rest] at ran
      · simp only [first, rest, Option.bind_eq_bind, Option.bind_some, Option.pure_def,
          Option.some.injEq] at ran
        subst ran
        obtain ⟨length, each⟩ := ih rest
        refine ⟨by simp [length], fun c' v' mem => ?_⟩
        rcases List.mem_cons.mp mem with same | later
        · cases same
          exact first
        · exact each c' v' later

theorem mapM_of_isSome {g : Nat → Option α} {cs : List Nat} (all : ∀ c ∈ cs, (g c).isSome) :
    ∃ vs, cs.mapM g = some vs := by
  induction cs with
  | nil => exact ⟨[], rfl⟩
  | cons c cs ih =>
    obtain ⟨v, first⟩ := Option.isSome_iff_exists.mp (all c List.mem_cons_self)
    obtain ⟨ws, rest⟩ := ih fun c' mem => all c' (List.mem_cons_of_mem c mem)
    exact ⟨v :: ws, by simp [List.mapM_cons, first, rest]⟩

section Steps

variable {d : TermDag} {t : Traversal α} {fuel x : Nat} {rest : List Nat} {memo : Std.HashMap Nat α}

theorem walk_nil : d.walk t (fuel + 1) [] memo = some memo := by
  rw [walk]

theorem walk_done (done : memo.contains x = true) :
    d.walk t (fuel + 1) (x :: rest) memo = d.walk t fuel rest memo := by
  rw [walk, if_pos done]

theorem walk_lit (fresh : memo.contains x = false) {l : Literal} (node : d.nodes[x]? = some (.lit l)) :
    d.walk t (fuel + 1) (x :: rest) memo = d.walk t fuel rest (memo.insert x (t.lit l)) := by
  rw [walk, if_neg (by simp [fresh]), node]

theorem walk_var (fresh : memo.contains x = false) {v : String} (node : d.nodes[x]? = some (.var v)) :
    d.walk t (fuel + 1) (x :: rest) memo = d.walk t fuel rest (memo.insert x (t.var v)) := by
  rw [walk, if_neg (by simp [fresh]), node]

/-- An application whose children are all done is valued from their values. -/
theorem walk_ready (fresh : memo.contains x = false) {h : String} {cs : List Nat} {vs : List α}
    (node : d.nodes[x]? = some (.app h cs)) (ready : cs.mapM (memo[·]?) = some vs) :
    d.walk t (fuel + 1) (x :: rest) memo = d.walk t fuel rest (memo.insert x (t.app h vs)) := by
  rw [walk, if_neg (by simp [fresh]), node]
  simp only [ready]

/-- An application with a child still to do goes back on the stack, below the children that
`above` names. -/
theorem walk_expand (fresh : memo.contains x = false) {h : String} {cs : List Nat}
    (node : d.nodes[x]? = some (.app h cs)) (waiting : cs.mapM (memo[·]?) = none) :
    d.walk t (fuel + 1) (x :: rest) memo = d.walk t fuel (t.above cs memo ++ x :: rest) memo := by
  rw [walk, if_neg (by simp [fresh]), node]
  simp only [waiting]

end Steps

/-! ### A walk visits each id it is given -/

/-- What a walk needs of the children an application pushes above itself: children only,
every child not done yet, and no more of them than the application has children. -/
structure Traversal.Lawful (t : Traversal α) : Prop where
  children : ∀ cs memo, ∀ c ∈ t.above cs memo, c ∈ cs
  waiting : ∀ cs memo, ∀ c ∈ cs, memo.contains c = false → c ∈ t.above cs memo
  length_le : ∀ cs memo, (t.above cs memo).length ≤ cs.length

/-- A walk that starts with `todo` on top of the stack and with `memo` comes back, `k` steps
later, to the rest of the stack with `memo'`: the ids of `todo` done, the memo still sound,
what was done still done, and the ids newly done below `bound`. The steps are paid for by the
ids newly done, at `edges + 2` each, and by one step for each id of `todo`. -/
structure Visits (d : TermDag) (t : Traversal α) (todo : List Nat) (bound : Nat)
    (memo memo' : Std.HashMap Nat α) (k : Nat) : Prop where
  run : ∀ fuel rest, d.walk t (fuel + k) (todo ++ rest) memo = d.walk t fuel rest memo'
  sound : Sound d t.toFold memo'
  done : ∀ i ∈ todo, memo'.contains i = true
  kept : ∀ i, memo.contains i = true → memo'.contains i = true
  below : ∀ i, memo'.contains i = true → memo.contains i = true ∨ i < bound
  cost : k + (d.edges + 2) * unvisited d memo' ≤ (d.edges + 2) * unvisited d memo + todo.length

section Visits

variable {d : TermDag} {t : Traversal α} {bound : Nat}

theorem Visits.nil {memo : Std.HashMap Nat α} (sound : Sound d t.toFold memo) :
    Visits d t [] bound memo memo 0 :=
  ⟨fun _ _ => rfl, sound, by simp, fun _ h => h, fun _ h => .inl h, by simp⟩

theorem Visits.mono {todo : List Nat} {memo memo' : Std.HashMap Nat α} {k bound' : Nat}
    (h : Visits d t todo bound memo memo' k) (le : bound ≤ bound') : Visits d t todo bound' memo memo' k :=
  { h with below := fun i done => (h.below i done).imp id fun lt => by omega }

/-- Visiting one id and then the others visits them all. -/
theorem Visits.cons {y : Nat} {todo : List Nat} {memo memo₁ memo₂ : Std.HashMap Nat α} {k₁ k₂ : Nat}
    (first : Visits d t [y] bound memo memo₁ k₁) (others : Visits d t todo bound memo₁ memo₂ k₂) :
    Visits d t (y :: todo) bound memo memo₂ (k₁ + k₂) := by
  refine ⟨fun fuel rest => ?_, others.sound, fun i mem => ?_, fun i done => others.kept i (first.kept i done),
    fun i done => ?_, ?_⟩
  · rw [show fuel + (k₁ + k₂) = fuel + k₂ + k₁ by omega, show (y :: todo) ++ rest = [y] ++ (todo ++ rest) from rfl,
      first.run, others.run]
  · rcases List.mem_cons.mp mem with rfl | later
    · exact others.kept i (first.done i List.mem_cons_self)
    · exact others.done i later
  · rcases others.below i done with old | lt
    · exact first.below i old
    · exact .inr lt
  · have := first.cost
    have := others.cost
    simp only [List.length_cons, List.length_nil] at *
    omega

/-- Ids each of which a walk visits from every sound memo are visited in turn. -/
theorem visits_all {todo : List Nat}
    (each : ∀ y ∈ todo, ∀ memo, Sound d t.toFold memo → ∃ memo' k, Visits d t [y] bound memo memo' k) :
    ∀ memo, Sound d t.toFold memo → ∃ memo' k, Visits d t todo bound memo memo' k := by
  induction todo with
  | nil => exact fun memo sound => ⟨memo, 0, .nil sound⟩
  | cons y todo ih =>
    intro memo sound
    obtain ⟨memo₁, k₁, first⟩ := each y List.mem_cons_self memo sound
    obtain ⟨memo₂, k₂, others⟩ := ih (fun z mem => each z (List.mem_cons_of_mem y mem)) memo₁ first.sound
    exact ⟨memo₂, k₁ + k₂, first.cons others⟩

/-- One step that does `x`, a leaf or an application whose children are done, with value `v`. -/
theorem Visits.single {x : Nat} {memo : Std.HashMap Nat α} {v : α} (lt : x < d.size)
    (fresh : memo.contains x = false) (sound : Sound d t.toFold memo) (fold : d.Folds t.toFold x v)
    (step : ∀ fuel rest, d.walk t (fuel + 1) (x :: rest) memo = d.walk t fuel rest (memo.insert x v)) :
    Visits d t [x] (x + 1) memo (memo.insert x v) 1 := by
  have fewer := unvisited_insert lt fresh v (d := d)
  refine ⟨fun fuel rest => step fuel rest, sound.insert fold, by simp, fun i done => ?_, fun i done => ?_, ?_⟩
  · simp [Std.HashMap.contains_insert, done]
  · rw [Std.HashMap.contains_insert] at done
    rcases Bool.or_eq_true_iff.mp done with same | old
    · exact .inr (by rw [← eq_of_beq same]; omega)
    · exact .inl old
  · rw [← fewer, Nat.mul_add]
    simp only [List.length_singleton]
    omega

/-- **A walk visits every id.** In a dag whose applications refer to earlier nodes, a walk that
starts with `x` on top of the stack, from a sound memo, comes back to the rest of the stack with
`x` done, doing only ids up to `x`. -/
theorem visits (first : d.ChildrenFirst) (lawful : t.Lawful) :
    ∀ x, x < d.size → ∀ memo, Sound d t.toFold memo → ∃ memo' k, Visits d t [x] (x + 1) memo memo' k := by
  intro x
  induction x using Nat.strong_induction_on with
  | _ x ih =>
  intro lt memo sound
  by_cases done : memo.contains x = true
  · -- a done id is skipped in one step
    refine ⟨memo, 1, fun fuel rest => walk_done done, sound, fun i mem => ?_, fun _ h => h,
      fun _ h => .inl h, le_of_eq (Nat.add_comm _ _)⟩
    rw [List.mem_singleton.mp mem]
    exact done
  have fresh : memo.contains x = false := by simpa using done
  obtain ⟨node, found⟩ := node_of_lt lt
  rcases node with l | v | ⟨h, cs⟩
  · exact ⟨_, 1, .single lt fresh sound (.lit found) fun _ _ => walk_lit fresh found⟩
  · exact ⟨_, 1, .single lt fresh sound (.var found) fun _ _ => walk_var fresh found⟩
  rcases ready : cs.mapM (memo[·]?) with _ | vs
  case some =>
    obtain ⟨same, each⟩ := mapM_some ready
    exact ⟨_, 1, .single lt fresh sound (.app found same fun c v mem => sound c v (each c v mem))
      fun _ _ => walk_ready fresh found ready⟩
  -- the children still to do are visited first, each below `x`
  have below : ∀ y ∈ t.above cs memo, ∀ memo', Sound d t.toFold memo' →
      ∃ memo'' k, Visits d t [y] x memo' memo'' k := by
    intro y mem memo' sound'
    have small : y < x := first.child_lt found (lawful.children cs memo y mem)
    obtain ⟨memo'', k, visit⟩ := ih y small (by omega) memo' sound'
    exact ⟨memo'', k, visit.mono (by omega)⟩
  obtain ⟨memo₁, k₁, visited⟩ := visits_all below memo sound
  have fresh₁ : memo₁.contains x = false := by
    rcases Bool.eq_false_or_eq_true (memo₁.contains x) with now | now
    · rcases visited.below x now with old | lt'
      · rw [fresh] at old
        cases old
      · omega
    · exact now
  -- then every child is done
  have childrenDone : ∀ c ∈ cs, memo₁.contains c = true := by
    intro c mem
    rcases Bool.eq_false_or_eq_true (memo.contains c) with old | waiting
    · exact visited.kept c old
    · exact visited.done c (lawful.waiting cs memo c mem waiting)
  obtain ⟨vs, ready₁⟩ := mapM_of_isSome (g := (memo₁[·]?)) fun c mem => by
    rw [← Std.HashMap.contains_eq_isSome_getElem?]
    exact childrenDone c mem
  obtain ⟨same, each⟩ := mapM_some ready₁
  have fold : d.Folds t.toFold x (t.app h vs) :=
    .app found same fun c v mem => visited.sound c v (each c v mem)
  have last := Visits.single lt fresh₁ visited.sound fold fun _ _ => walk_ready fresh₁ found ready₁
  refine ⟨_, k₁ + 2, fun fuel rest => ?_, last.sound, last.done, fun i old => last.kept i (visited.kept i old),
    fun i now => ?_, ?_⟩
  · rw [show fuel + (k₁ + 2) = fuel + 1 + k₁ + 1 by omega, show [x] ++ rest = x :: rest from rfl,
      walk_expand fresh found ready, visited.run, ← last.run]
    rfl
  · rcases last.below i now with mid | lt'
    · exact (visited.below i mid).imp id fun small => by omega
    · exact .inr lt'
  · -- the pushes are paid for by the ids done under `x`, and `x` by its own share
    have pushed := lawful.length_le cs memo
    have wide : cs.length ≤ d.edges := length_children_le_edges found
    have paid := visited.cost
    have share : (d.edges + 2) * unvisited d memo₁ =
        (d.edges + 2) * unvisited d (memo₁.insert x (t.app h vs)) + (d.edges + 2) := by
      rw [← unvisited_insert lt fresh₁ (t.app h vs), Nat.mul_add, Nat.mul_one]
    simp only [List.length_singleton]
    omega

/-- **The walk from an id ends with its recursive value.** In a dag whose applications refer
to earlier nodes, the walk from an id of the dag ends within `walkFuel` steps, and its memo
holds for the id the value of the recursive reading. -/
theorem walk_values (first : d.ChildrenFirst) (lawful : t.Lawful) {i : Nat} (lt : i < d.size) :
    ∃ memo v, d.walk t d.walkFuel [i] {} = some memo ∧ memo[i]? = some v ∧ d.Folds t.toFold i v := by
  obtain ⟨memo, k, visit⟩ := visits first lawful i lt {} (sound_empty d _)
  have cost := visit.cost
  rw [unvisited_empty] at cost
  have done := visit.done i List.mem_cons_self
  rw [Std.HashMap.contains_eq_isSome_getElem?] at done
  obtain ⟨v, found⟩ := Option.isSome_iff_exists.mp done
  refine ⟨memo, v, ?_, found, visit.sound i v found⟩
  -- the steps the visit takes leave at least one for the empty stack
  have enough : d.walkFuel = d.walkFuel - k - 1 + 1 + k := by
    unfold walkFuel
    simp only [List.length_singleton] at cost
    omega
  rw [enough, show [i] = [i] ++ [] from rfl, visit.run, walk_nil]

theorem valueOf_folds (first : d.ChildrenFirst) (lawful : t.Lawful) {i : Nat} (lt : i < d.size)
    (default : α) : d.Folds t.toFold i (d.valueOf t default i) := by
  obtain ⟨memo, v, ran, found, fold⟩ := walk_values first lawful lt
  simpa [valueOf, ran, found] using fold

end Visits

/-! ### Tree size, text and expressions -/

theorem sizeTraversal_lawful : sizeTraversal.Lawful where
  children cs memo c mem := by
    simp only [sizeTraversal, List.mem_reverse, List.mem_filter] at mem
    exact mem.1
  waiting cs memo c mem fresh := by simp [sizeTraversal, mem, fresh]
  length_le cs memo := by simpa [sizeTraversal] using List.length_filter_le _ cs

theorem textTraversal_lawful : textTraversal.Lawful where
  children _ _ _ mem := mem
  waiting _ _ _ mem _ := mem
  length_le _ _ := le_rfl

/-- Reading back an expression, as a reading of the dag. -/
def exprFold : Fold Expr := ⟨.lit, .var, .call⟩

section Readings

variable {d : TermDag}

theorem treeSize_folds (first : d.ChildrenFirst) {i : Nat} (lt : i < d.size) :
    d.Folds sizeFold i (d.treeSize i) :=
  valueOf_folds first sizeTraversal_lawful lt 0

theorem text_folds (first : d.ChildrenFirst) {i : Nat} (lt : i < d.size) :
    d.Folds textFold i (d.text i) :=
  valueOf_folds first textTraversal_lawful lt ""

/-- Reading an expression back with fuel above the id is a finished recursion. -/
theorem toExprWithin_folds (first : d.ChildrenFirst) :
    ∀ i, i < d.size → ∀ fuel, i < fuel → d.Folds exprFold i (d.toExprWithin fuel i) := by
  intro i
  induction i using Nat.strong_induction_on with
  | _ i ih =>
  intro lt fuel enough
  obtain ⟨f, rfl⟩ : ∃ f, fuel = f + 1 := ⟨fuel - 1, by omega⟩
  obtain ⟨node, found⟩ := node_of_lt lt
  rw [toExprWithin, found]
  rcases node with l | v | ⟨h, cs⟩
  · exact .lit found
  · exact .var found
  · refine .app (f := exprFold) found (by simp) fun c e mem => ?_
    obtain ⟨child, rfl⟩ := mem_zip_map mem
    have small := first.child_lt found child
    exact ih c small (by omega) f (by omega)

theorem toExpr_folds (first : d.ChildrenFirst) {i : Nat} (lt : i < d.size) :
    d.Folds exprFold i (d.toExpr i) :=
  toExprWithin_folds first i lt (i + 1) (by omega)

/-- **The stack readings are their recursions.** In a dag whose applications refer to earlier
nodes, for every id of the dag: the walk for the tree size ends within its bound and leaves the
tree size for the id, which is the recursive count (one for a literal or a variable, one more
than the sum of the children's counts for an application, a shared child counted each time it
occurs); the walk for the text ends likewise, and the text is the recursive printing; and
reading the expression back is a finished recursion, whose value is the expression. -/
theorem traversals_agree_with_their_recursions (first : d.ChildrenFirst) {i : Nat} (lt : i < d.size) :
    (∃ sizes, d.walk sizeTraversal d.walkFuel [i] {} = some sizes ∧ sizes[i]? = some (d.treeSize i)) ∧
      (∀ n, d.Folds sizeFold i n ↔ n = d.treeSize i) ∧
    (∃ texts, d.walk textTraversal d.walkFuel [i] {} = some texts ∧ texts[i]? = some (d.text i)) ∧
      (∀ s, d.Folds textFold i s ↔ s = d.text i) ∧
    (∀ e, d.Folds exprFold i e ↔ e = d.toExpr i) := by
  obtain ⟨sizes, n, sized, found, -⟩ := walk_values first sizeTraversal_lawful lt
  obtain ⟨texts, s, printed, found', -⟩ := walk_values first textTraversal_lawful lt
  exact ⟨⟨sizes, sized, by simp [treeSize, valueOf, sized, found]⟩, (treeSize_folds first lt).iff_eq,
    ⟨texts, printed, by simp [text, valueOf, printed, found']⟩, (text_folds first lt).iff_eq,
    (toExpr_folds first lt).iff_eq⟩

/-- The dag of `(Add (Num 1) (Num 1))`, which shares the node of `(Num 1)`: its tree size
counts that node twice. -/
theorem traversals_of_a_shared_child :
    let d : TermDag := ⟨#[.lit (.int 1), .app "Num" [0], .app "Add" [1, 1]], {}⟩
    d.ChildrenFirst ∧ 2 < d.size ∧
      ((∃ sizes, d.walk sizeTraversal d.walkFuel [2] {} = some sizes ∧ sizes[2]? = some (d.treeSize 2)) ∧
        (∀ n, d.Folds sizeFold 2 n ↔ n = d.treeSize 2) ∧
      (∃ texts, d.walk textTraversal d.walkFuel [2] {} = some texts ∧ texts[2]? = some (d.text 2)) ∧
        (∀ s, d.Folds textFold 2 s ↔ s = d.text 2) ∧
      (∀ e, d.Folds exprFold 2 e ↔ e = d.toExpr 2)) :=
  ⟨by decide, by decide, traversals_agree_with_their_recursions (by decide) (by decide)⟩

end Readings

end TermDag

end Saturate
