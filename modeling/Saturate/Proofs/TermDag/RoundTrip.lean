import Mathlib
import Saturate.Proofs.TermDag.Walk

/-!
# Adding expressions to a term dag and reading them back

A term dag stores each term once, under the key of its literals (`Term.key`), so the engine's
literal comparison decides which expressions share a node: `0.0` and `-0.0`, or two NaNs, are
one term. The dag keeps the first literal of each key that it sees.

`TermDag.WellFormed` is the invariant of every dag built from the empty one: the index files each
node under its key at its own id, and an application refers to earlier nodes only. Adding an
expression keeps it and names a node that reads back as the expression with every literal
replaced by its key (`Expr.keyed`); reading, printing and counting a node agree with the
expression it reads back as. Reading back takes fuel, and `fuel_irrelevant` says once that the
fuel it is given is enough; printing and counting are the walks of `Saturate.Proofs.TermDag.Walk`,
whose values are their recursive readings.

The main statement is `TermDag.ofExpr_round_trip_up_to_literal_keys`. The round trip is exact
when the literals are their own keys; `signed_zeros_share_a_term` shows that it is not when an
expression holds both zeros.
-/

namespace Saturate

namespace Expr

/-- Induction over expressions with a hypothesis for every argument of a call. -/
@[induction_eliminator]
theorem induction_on {P : Expr → Prop} (lit : ∀ l, P (.lit l)) (var : ∀ v, P (.var v))
    (call : ∀ h args, (∀ a ∈ args, P a) → P (.call h args)) (e : Expr) : P e :=
  @Expr.rec P (fun args => ∀ a ∈ args, P a) lit var call
    (fun _ mem => by cases mem)
    (fun a args first rest b mem => by
      rcases List.mem_cons.mp mem with rfl | later
      · exact first
      · exact rest b later)
    e

/-- The expression with every literal replaced by its key: the form under which the engine's
term tables compare expressions. -/
def keyed : Expr → Expr
  | .lit l => .lit l.key
  | .var v => .var v
  | .call h args => .call h (args.attach.map fun ⟨a, _⟩ => a.keyed)

@[simp] theorem keyed_lit (l : Literal) : (Expr.lit l).keyed = .lit l.key := by
  rw [keyed]

@[simp] theorem keyed_var (v : String) : (Expr.var v).keyed = .var v := by
  rw [keyed]

@[simp] theorem keyed_call (h : String) (args : List Expr) :
    (Expr.call h args).keyed = .call h (args.map keyed) := by
  rw [keyed]
  simp

/-- The number of nodes of an expression as a tree. -/
def nodeCount : Expr → Nat
  | .lit _ => 1
  | .var _ => 1
  | .call _ args => 1 + (args.attach.map fun ⟨a, _⟩ => a.nodeCount).sum

@[simp] theorem nodeCount_call (h : String) (args : List Expr) :
    (Expr.call h args).nodeCount = 1 + (args.map nodeCount).sum := by
  rw [nodeCount]
  simp

theorem text_call (h : String) (args : List Expr) :
    (Expr.call h args).text = "(" ++ h ++ String.join (args.map fun a => " " ++ a.text) ++ ")" := by
  rw [text]
  simp

theorem nodeCount_keyed (e : Expr) : e.keyed.nodeCount = e.nodeCount := by
  induction e with
  | lit l => simp [nodeCount]
  | var v => simp [nodeCount]
  | call h args ih =>
    simp only [keyed_call, nodeCount_call, List.map_map]
    congr 2
    exact List.map_congr_left fun a mem => ih a mem

end Expr

namespace Term

theorem key_eq_lit {t : Term} {l : Literal} : t.key = .lit l ↔ ∃ l', t = .lit l' ∧ l'.key = l := by
  cases t <;> simp [key]

theorem key_eq_var {t : Term} {v : String} : t.key = .var v ↔ t = .var v := by
  cases t <;> simp [key]

theorem key_eq_app {t : Term} {h : String} {cs : List Nat} : t.key = .app h cs ↔ t = .app h cs := by
  cases t <;> simp [key]

/-- The expression of a node, given the expressions of the nodes it refers to. -/
def expr (f : Nat → Expr) : Term → Expr
  | .lit l => .lit l
  | .var v => .var v
  | .app h cs => .call h (cs.map f)

end Term

theorem List.eq_of_map_eq_map_of_mem {α β : Type} {f : α → β} {xs ys : List α}
    (inj : ∀ x ∈ xs, ∀ y ∈ ys, f x = f y → x = y) (h : xs.map f = ys.map f) : xs = ys := by
  induction xs generalizing ys with
  | nil => simpa using h.symm
  | cons x xs ih =>
    cases ys with
    | nil => simp at h
    | cons y ys =>
      simp only [List.map_cons, List.cons.injEq] at h
      rw [inj x List.mem_cons_self y List.mem_cons_self h.1,
        ih (fun a mem b mem' => inj a (List.mem_cons_of_mem x mem) b (List.mem_cons_of_mem y mem')) h.2]

namespace TermDag

/-- A dag whose index files every node under its key at its own id and nothing else, and whose
applications refer to earlier nodes only. -/
structure WellFormed (d : TermDag) : Prop where
  index_node : ∀ (i : Nat) (t : Term), d.nodes[i]? = some t → d.index[t.key]? = some i
  node_index : ∀ (k : Term) (i : Nat), d.index[k]? = some i → ∃ t, d.nodes[i]? = some t ∧ t.key = k
  children_lt : ∀ (i : Nat) h cs, d.nodes[i]? = some (Term.app h cs) → ∀ c ∈ cs, c < i

/-- Every node of `d` stays at its id in `d'`. -/
def Extends (d d' : TermDag) : Prop :=
  ∀ (i : Nat) (t : Term), d.nodes[i]? = some t → d'.nodes[i]? = some t

theorem Extends.refl (d : TermDag) : d.Extends d := fun _ _ => id

theorem Extends.trans {d₁ d₂ d₃ : TermDag} (h₁ : d₁.Extends d₂) (h₂ : d₂.Extends d₃) :
    d₁.Extends d₃ := fun i t found => h₂ i t (h₁ i t found)

theorem WellFormed.childrenFirst {d : TermDag} (wf : d.WellFormed) : d.ChildrenFirst := by
  intro i lt c mem
  rcases node : d.nodes[i] with l | v | ⟨h, cs⟩
  · rw [node] at mem
    cases mem
  · rw [node] at mem
    cases mem
  · rw [node] at mem
    exact wf.children_lt i h cs (by rw [Array.getElem?_eq_getElem lt, node]) c mem

theorem Extends.size_le {d d' : TermDag} (h : d.Extends d') : d.size ≤ d'.size := by
  rcases Nat.eq_zero_or_pos d.size with empty | nonempty
  · omega
  · have last := h (d.size - 1) _ (Array.getElem?_eq_getElem (by unfold size at nonempty ⊢; omega))
    have := lt_size last
    omega

theorem empty_wellFormed : empty.WellFormed :=
  ⟨fun _ _ found => by simp [empty] at found, fun _ _ found => by simp [empty] at found,
    fun _ _ _ found => by simp [empty] at found⟩

/-- Adding a term whose children are in the dag keeps it well formed, extends it, and names a
node with the term's key. -/
theorem add_spec {d : TermDag} (wf : d.WellFormed) (t : Term)
    (children : ∀ h cs, t = .app h cs → ∀ c ∈ cs, c < d.size) :
    (d.add t).1.WellFormed ∧ d.Extends (d.add t).1 ∧
      ∃ t', (d.add t).1.nodes[(d.add t).2]? = some t' ∧ t'.key = t.key := by
  rw [add]
  rcases known : d.index.get? t.key with _ | i
  · simp only [Std.HashMap.get?_eq_getElem?] at known
    refine ⟨⟨?_, ?_, ?_⟩, ?_, t, by simp, rfl⟩
    · intro i t' found
      rw [Array.getElem?_push] at found
      rw [Std.HashMap.getElem?_insert]
      split at found
      · cases found
        simp_all
      · have old := wf.index_node i t' found
        have other : (t.key == t'.key) = false := by
          rw [beq_eq_false_iff_ne]
          intro same
          rw [← same, known] at old
          cases old
        simp [other, old]
    · intro k i found
      rw [Std.HashMap.getElem?_insert] at found
      split at found
      · cases found
        rename_i same
        exact ⟨t, by simp, eq_of_beq same⟩
      · obtain ⟨t', node, keyed⟩ := wf.node_index k i found
        exact ⟨t', by rw [Array.getElem?_push, if_neg (by have := lt_size node; unfold size at this; omega)]; exact node, keyed⟩
    · intro i h cs found c mem
      rw [Array.getElem?_push] at found
      split at found
      · cases found
        rename_i last
        exact last ▸ children h cs rfl c mem
      · exact wf.children_lt i h cs found c mem
    · intro i t' found
      rw [Array.getElem?_push, if_neg (by have := lt_size found; unfold size at this; omega)]
      exact found
  · simp only [Std.HashMap.get?_eq_getElem?] at known
    obtain ⟨t', node, keyed⟩ := wf.node_index _ i known
    exact ⟨wf, Extends.refl d, t', node, keyed⟩

/-- `c` is a child of the application at `i`. -/
def ChildOf (d : TermDag) (c i : Nat) : Prop := ∃ h cs, d.nodes[i]? = some (.app h cs) ∧ c ∈ cs

theorem WellFormed.lt_of_childOf {d : TermDag} (wf : d.WellFormed) {c i : Nat} (child : d.ChildOf c i) :
    c < i := by
  obtain ⟨h, cs, node, mem⟩ := child
  exact wf.children_lt i h cs node c mem

/-- A reading of a well-formed dag by fuel, each step of which looks at the children of the node
only, reads every node the same with any fuel above its id. -/
theorem fuel_irrelevant {α : Type} {d : TermDag} (wf : d.WellFormed) {F : Nat → Nat → α}
    (step : ∀ f f' i, (∀ c, d.ChildOf c i → F f c = F f' c) → F (f + 1) i = F (f' + 1) i) :
    ∀ i fuel, i < fuel → F fuel i = F (i + 1) i := by
  intro i
  induction i using Nat.strong_induction_on with
  | _ i ih =>
    intro fuel enough
    obtain ⟨f, rfl⟩ : ∃ f, fuel = f + 1 := ⟨fuel - 1, by omega⟩
    apply step
    intro c child
    have small := wf.lt_of_childOf child
    rw [ih c small f (by omega), ih c small i small]

section Reading

variable {d : TermDag}

theorem toExprWithin_step (f f' i : Nat) (same : ∀ c, d.ChildOf c i → d.toExprWithin f c = d.toExprWithin f' c) :
    d.toExprWithin (f + 1) i = d.toExprWithin (f' + 1) i := by
  rw [toExprWithin, toExprWithin]
  rcases node : d.nodes[i]? with _ | (l | v | ⟨h, cs⟩)
  · rfl
  · rfl
  · rfl
  · simp only
    rw [List.map_congr_left fun c mem => same c ⟨h, cs, node, mem⟩]

theorem toExpr_lit {i : Nat} {l : Literal} (node : d.nodes[i]? = some (.lit l)) : d.toExpr i = .lit l := by
  rw [toExpr, toExprWithin, node]

theorem toExpr_var {i : Nat} {v : String} (node : d.nodes[i]? = some (.var v)) : d.toExpr i = .var v := by
  rw [toExpr, toExprWithin, node]

theorem toExpr_app (wf : d.WellFormed) {i : Nat} {h : String} {cs : List Nat}
    (node : d.nodes[i]? = some (.app h cs)) : d.toExpr i = .call h (cs.map d.toExpr) := by
  rw [toExpr, toExprWithin, node]
  simp only [Expr.call.injEq, true_and]
  exact List.map_congr_left fun c mem =>
    fuel_irrelevant wf toExprWithin_step c i (wf.children_lt i h cs node c mem)

theorem text_app (wf : d.WellFormed) {i : Nat} {h : String} {cs : List Nat}
    (node : d.nodes[i]? = some (.app h cs)) :
    d.text i = "(" ++ h ++ String.join (cs.map fun c => " " ++ d.text c) ++ ")" := by
  have first := wf.childrenFirst
  rw [(text_folds first (lt_size node)).eq_app node fun c mem =>
    text_folds first (first.child_lt_size node mem)]
  simp only [textFold, List.map_map]
  rfl

theorem treeSize_app (wf : d.WellFormed) {i : Nat} {h : String} {cs : List Nat}
    (node : d.nodes[i]? = some (.app h cs)) :
    d.treeSize i = 1 + (cs.map d.treeSize).foldl (· + ·) 0 := by
  have first := wf.childrenFirst
  rw [(treeSize_folds first (lt_size node)).eq_app node fun c mem =>
    treeSize_folds first (first.child_lt_size node mem)]
  rfl

theorem toExpr_extends (wf : d.WellFormed) {d' : TermDag} (wf' : d'.WellFormed) (grows : d.Extends d') :
    ∀ i, i < d.size → d'.toExpr i = d.toExpr i := by
  intro i
  induction i using Nat.strong_induction_on with
  | _ i ih =>
    intro lt
    obtain ⟨t, node⟩ := node_of_lt lt
    have node' := grows i t node
    rcases t with l | v | ⟨h, cs⟩
    · rw [toExpr_lit node, toExpr_lit node']
    · rw [toExpr_var node, toExpr_var node']
    · rw [toExpr_app wf node, toExpr_app wf' node']
      simp only [Expr.call.injEq, true_and]
      exact List.map_congr_left fun c mem =>
        have small := wf.children_lt i h cs node c mem
        ih c small (by omega)

/-- The text of a node is the text of its expression. -/
theorem text_eq (wf : d.WellFormed) : ∀ i, i < d.size → d.text i = (d.toExpr i).text := by
  intro i
  induction i using Nat.strong_induction_on with
  | _ i ih =>
    intro lt
    obtain ⟨t, node⟩ := node_of_lt lt
    rcases t with l | v | ⟨h, cs⟩
    · rw [toExpr_lit node, (text_folds wf.childrenFirst lt).eq_lit node, Expr.text]
      rfl
    · rw [toExpr_var node, (text_folds wf.childrenFirst lt).eq_var node, Expr.text]
      rfl
    · rw [text_app wf node, toExpr_app wf node, Expr.text_call, List.map_map]
      congr 3
      exact List.map_congr_left fun c mem => by
        have small := wf.children_lt i h cs node c mem
        simp [ih c small (by omega)]

/-- The tree size of a node counts the nodes of its expression. -/
theorem treeSize_eq (wf : d.WellFormed) : ∀ i, i < d.size → d.treeSize i = (d.toExpr i).nodeCount := by
  intro i
  induction i using Nat.strong_induction_on with
  | _ i ih =>
    intro lt
    obtain ⟨t, node⟩ := node_of_lt lt
    rcases t with l | v | ⟨h, cs⟩
    · rw [toExpr_lit node, (treeSize_folds wf.childrenFirst lt).eq_lit node, Expr.nodeCount]
      rfl
    · rw [toExpr_var node, (treeSize_folds wf.childrenFirst lt).eq_var node, Expr.nodeCount]
      rfl
    · rw [treeSize_app wf node, toExpr_app wf node, Expr.nodeCount_call, List.map_map,
        ← List.sum_eq_foldl]
      congr 2
      exact List.map_congr_left fun c mem =>
        ih c (wf.children_lt i h cs node c mem) (by have := wf.children_lt i h cs node c mem; omega)

end Reading

/-! ### Adding expressions -/

/-- `d'` holds the terms of `e` added to `d`, and `t` names the term of `e` up to the keys of
its literals. -/
structure Adds (d d' : TermDag) (e : Expr) (t : Nat) : Prop where
  wellFormed : d'.WellFormed
  grows : d.Extends d'
  lt_size : t < d'.size
  keyed : (d'.toExpr t).keyed = e.keyed

/-- `d'` holds the terms of `es` added to `d`, and `ts` names them in order. -/
structure AddsAll (d d' : TermDag) (es : List Expr) (ts : List Nat) : Prop where
  wellFormed : d'.WellFormed
  grows : d.Extends d'
  lt_size : ∀ t ∈ ts, t < d'.size
  keyed : ts.map (fun t => (d'.toExpr t).keyed) = es.map Expr.keyed

theorem ofExprs_addsAll {es : List Expr}
    (each : ∀ e ∈ es, ∀ {d : TermDag}, d.WellFormed → Adds d (d.ofExpr e).1 e (d.ofExpr e).2)
    {d : TermDag} (wf : d.WellFormed) : AddsAll d (d.ofExprs es).1 es (d.ofExprs es).2 := by
  induction es generalizing d with
  | nil =>
    rw [ofExprs]
    exact ⟨wf, Extends.refl d, by simp, by simp⟩
  | cons e es ih =>
    have first := each e List.mem_cons_self wf
    rw [ofExprs]
    rcases added : d.ofExpr e with ⟨d₁, t⟩
    rw [added] at first
    dsimp only
    have rest := ih (fun a mem => each a (List.mem_cons_of_mem e mem)) first.wellFormed
    rcases addedAll : d₁.ofExprs es with ⟨d₂, ts⟩
    rw [addedAll] at rest
    dsimp only
    refine ⟨rest.wellFormed, first.grows.trans rest.grows, ?_, ?_⟩
    · intro t' mem
      rcases List.mem_cons.mp mem with rfl | later
      · exact Nat.lt_of_lt_of_le first.lt_size rest.grows.size_le
      · exact rest.lt_size t' later
    · simp only [List.map_cons, rest.keyed, List.cons.injEq, and_true]
      rw [toExpr_extends first.wellFormed rest.wellFormed rest.grows t first.lt_size]
      exact first.keyed

/-- Adding an expression keeps the dag well formed and names a term whose expression is the
added one, up to the keys of its literals. -/
theorem ofExpr_adds (e : Expr) {d : TermDag} (wf : d.WellFormed) :
    Adds d (d.ofExpr e).1 e (d.ofExpr e).2 := by
  induction e generalizing d with
  | lit l =>
    rw [ofExpr, TermDag.lit]
    obtain ⟨wf', grows, t', node, keyed⟩ := add_spec wf (.lit l) (fun _ _ same => by cases same)
    obtain ⟨l', rfl, same⟩ := Term.key_eq_lit.mp keyed
    exact ⟨wf', grows, lt_size node, by rw [toExpr_lit node, Expr.keyed_lit, Expr.keyed_lit, same]⟩
  | var v =>
    rw [ofExpr, TermDag.var]
    obtain ⟨wf', grows, t', node, keyed⟩ := add_spec wf (.var v) (fun _ _ same => by cases same)
    rw [Term.key_eq_var.mp keyed] at node
    exact ⟨wf', grows, lt_size node, by rw [toExpr_var node]⟩
  | call h args ih =>
    have first := ofExprs_addsAll ih wf
    rw [ofExpr]
    rcases addedAll : d.ofExprs args with ⟨d₁, ids⟩
    rw [addedAll] at first
    dsimp only
    rw [TermDag.app]
    obtain ⟨wf', grows, t', node, keyed⟩ := add_spec first.wellFormed (.app h ids)
      (fun _ _ same c mem => by cases same; exact first.lt_size c mem)
    rw [Term.key_eq_app.mp keyed] at node
    refine ⟨wf', first.grows.trans grows, lt_size node, ?_⟩
    rw [toExpr_app wf' node, Expr.keyed_call, Expr.keyed_call, List.map_map, ← first.keyed]
    congr 1
    exact List.map_congr_left fun t mem => by
      simp only [Function.comp_apply,
        toExpr_extends first.wellFormed wf' grows t (first.lt_size t mem)]

/-! ### One term per key -/

theorem toExpr_node {d : TermDag} (wf : d.WellFormed) {i : Nat} {t : Term} (node : d.nodes[i]? = some t) :
    d.toExpr i = t.expr d.toExpr := by
  rcases t with l | v | ⟨h, cs⟩
  · exact toExpr_lit node
  · exact toExpr_var node
  · exact toExpr_app wf node

/-- Distinct nodes of a well-formed dag read as expressions that differ beyond the keys of their
literals. -/
theorem toExpr_keyed_injective {d : TermDag} (wf : d.WellFormed) :
    ∀ i j, i < d.size → j < d.size → (d.toExpr i).keyed = (d.toExpr j).keyed → i = j := by
  intro i
  induction i using Nat.strong_induction_on with
  | _ i ih =>
    intro j lti ltj same
    obtain ⟨t, node⟩ := node_of_lt lti
    obtain ⟨t', node'⟩ := node_of_lt ltj
    -- the index files each node under its key, so nodes of one key are one node
    suffices keys : t.key = t'.key by
      have filed := wf.index_node i t node
      rw [keys, wf.index_node j t' node'] at filed
      exact (Option.some.inj filed).symm
    rw [toExpr_node wf node, toExpr_node wf node'] at same
    rcases t with l | v | ⟨h, cs⟩ <;> rcases t' with l' | v' | ⟨h', cs'⟩ <;>
      simp [Term.expr, Term.key] at same ⊢
    · exact same
    · exact same
    · -- two applications: their children agree one by one, by induction
      refine ⟨same.1, List.eq_of_map_eq_map_of_mem (fun c mem c' mem' agree => ?_) same.2⟩
      have small := wf.children_lt i h cs node c mem
      exact ih c small c' (by omega)
        (Nat.lt_trans (wf.children_lt j h' cs' node' c' mem') ltj) agree

/-! ### Literals that are their own keys -/

/-- Every literal of the dag is its own key. -/
def Canonical (d : TermDag) : Prop :=
  ∀ (i : Nat) (l : Literal), d.nodes[i]? = some (.lit l) → l.key = l

/-- In a dag whose literals are their own keys, every node reads as its own keyed form. -/
theorem keyed_toExpr {d : TermDag} (wf : d.WellFormed) (canon : d.Canonical) :
    ∀ i, i < d.size → (d.toExpr i).keyed = d.toExpr i := by
  intro i
  induction i using Nat.strong_induction_on with
  | _ i ih =>
    intro lt
    obtain ⟨t, node⟩ := node_of_lt lt
    rcases t with l | v | ⟨h, cs⟩
    · rw [toExpr_lit node, Expr.keyed_lit, canon i l node]
    · rw [toExpr_var node, Expr.keyed_var]
    · rw [toExpr_app wf node, Expr.keyed_call, List.map_map]
      congr 1
      exact List.map_congr_left fun c mem =>
        have small := wf.children_lt i h cs node c mem
        ih c small (by omega)

theorem add_canonical {d : TermDag} (canon : d.Canonical) (t : Term)
    (own : ∀ l, t = .lit l → l.key = l) : (d.add t).1.Canonical := by
  rw [add]
  split
  · exact canon
  · intro i l found
    dsimp only at found
    rw [Array.getElem?_push] at found
    split at found
    · exact own l (Option.some.inj found)
    · exact canon i l found

theorem ofExprs_canonical {es : List Expr}
    (each : ∀ e ∈ es, ∀ {d : TermDag}, d.Canonical → (d.ofExpr e).1.Canonical)
    {d : TermDag} (canon : d.Canonical) : (d.ofExprs es).1.Canonical := by
  induction es generalizing d with
  | nil =>
    rw [ofExprs]
    exact canon
  | cons e es ih =>
    have first := each e List.mem_cons_self canon
    rw [ofExprs]
    rcases added : d.ofExpr e with ⟨d₁, t⟩
    rw [added] at first
    dsimp only
    have rest := ih (fun a mem => each a (List.mem_cons_of_mem e mem)) first
    rcases addedAll : d₁.ofExprs es with ⟨d₂, ts⟩
    rw [addedAll] at rest
    exact rest

/-- Adding an expression whose literals are their own keys adds no other literal. -/
theorem ofExpr_canonical (e : Expr) (own : e.keyed = e) {d : TermDag} (canon : d.Canonical) :
    (d.ofExpr e).1.Canonical := by
  induction e generalizing d with
  | lit l =>
    rw [ofExpr, TermDag.lit]
    exact add_canonical canon _ fun l' same => by
      cases same
      simpa using own
  | var v =>
    rw [ofExpr, TermDag.var]
    exact add_canonical canon _ fun _ same => by cases same
  | call h args ih =>
    rw [Expr.keyed_call, Expr.call.injEq] at own
    have members := List.map_inj_left.mp (own.2.trans (List.map_id args).symm)
    have first := ofExprs_canonical (fun a mem => ih a mem (members a mem)) canon
    rw [ofExpr]
    rcases addedAll : d.ofExprs args with ⟨d₁, ids⟩
    rw [addedAll] at first
    dsimp only
    rw [TermDag.app]
    exact add_canonical first _ fun _ same => by cases same

/-! ### Round trips -/

/-- Adding expressions to a well-formed dag and reading them back. The dag stays well formed:
ids are dense, an application comes after its children, and one node stands for each key. The
id of an expression reads back as the expression up to the keys of its literals, and exactly
when its literals and those of the dag are their own keys; its text is the text of what it reads
back, and its tree size is the number of nodes of the expression. Two expressions added one
after the other share an id exactly when they agree up to the keys of their literals. -/
theorem ofExpr_round_trip_up_to_literal_keys {d : TermDag} (wf : d.WellFormed) (e₁ e₂ : Expr) :
    let d₁ := (d.ofExpr e₁).1
    let t₁ := (d.ofExpr e₁).2
    let t₂ := (d₁.ofExpr e₂).2
    d₁.WellFormed ∧ d.Extends d₁ ∧ t₁ < d₁.size ∧
      (d₁.toExpr t₁).keyed = e₁.keyed ∧
      (e₁.keyed = e₁ → d.Canonical → d₁.toExpr t₁ = e₁) ∧
      d₁.text t₁ = (d₁.toExpr t₁).text ∧
      d₁.treeSize t₁ = e₁.nodeCount ∧
      (t₁ = t₂ ↔ e₁.keyed = e₂.keyed) := by
  intro d₁ t₁ t₂
  have first := ofExpr_adds e₁ wf
  have second := ofExpr_adds e₂ first.wellFormed
  refine ⟨first.wellFormed, first.grows, first.lt_size, first.keyed, fun own canon => ?_,
    text_eq first.wellFormed t₁ first.lt_size, ?_, ?_⟩
  · calc d₁.toExpr t₁
        = (d₁.toExpr t₁).keyed :=
          (keyed_toExpr first.wellFormed (ofExpr_canonical e₁ own canon) t₁ first.lt_size).symm
      _ = e₁.keyed := first.keyed
      _ = e₁ := own
  · rw [treeSize_eq first.wellFormed t₁ first.lt_size, ← Expr.nodeCount_keyed, first.keyed,
      Expr.nodeCount_keyed]
  · -- the first id reads the same in the dag after the second expression
    have stays := toExpr_extends first.wellFormed second.wellFormed second.grows t₁ first.lt_size
    constructor
    · intro same
      rw [← first.keyed, ← stays, ← second.keyed, same]
    · intro same
      refine toExpr_keyed_injective second.wellFormed t₁ t₂
        (Nat.lt_of_lt_of_le first.lt_size second.grows.size_le) second.lt_size ?_
      rw [stays, first.keyed, second.keyed, same]

theorem ofExpr_round_trip_of_shared_subterms :
    let e₁ := Expr.call "Add" [.call "Num" [.lit (.int 1)], .call "Num" [.lit (.int 1)]]
    let e₂ := Expr.call "Num" [.lit (.int 1)]
    let d₁ := (empty.ofExpr e₁).1
    let t₁ := (empty.ofExpr e₁).2
    let t₂ := (d₁.ofExpr e₂).2
    empty.WellFormed ∧ d₁.WellFormed ∧ empty.Extends d₁ ∧ t₁ < d₁.size ∧
      (d₁.toExpr t₁).keyed = e₁.keyed ∧
      (e₁.keyed = e₁ → empty.Canonical → d₁.toExpr t₁ = e₁) ∧
      d₁.text t₁ = (d₁.toExpr t₁).text ∧
      d₁.treeSize t₁ = e₁.nodeCount ∧
      (t₁ = t₂ ↔ e₁.keyed = e₂.keyed) :=
  ⟨empty_wellFormed, ofExpr_round_trip_up_to_literal_keys empty_wellFormed _ _⟩

/-- The two zeros are one term: the dag of `(P 0.0 -0.0)` has two nodes, and the expression
reads back as `(P 0.0 0.0)`. -/
theorem signed_zeros_share_a_term :
    let added := empty.ofExpr (.call "P" [.lit (.float 0), .lit (.float 0x8000000000000000)])
    added.1.size = 2 ∧ added.1.toExpr added.2 = .call "P" [.lit (.float 0), .lit (.float 0)] := by
  have negative : Literal.key (.float 0x8000000000000000) = .float 0 := by decide
  have positive : Literal.key (.float 0) = .float 0 := by decide
  simp [ofExpr, ofExprs, TermDag.lit, TermDag.app, add, empty, Term.key, negative, positive, toExpr,
    toExprWithin, size]

end TermDag

end Saturate
