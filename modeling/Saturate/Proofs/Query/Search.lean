import Saturate.Query
import Saturate.Proofs.Query.Settle

/-!
The search of a join program, against a relation that says what the program
reaches.

`Reaches P prog tuple nodes t` holds when the program, run from a partial
tuple and the remaining tuples of each table atom (`nodes`), can end at `t`:
an intersection binds its slot to any value that every atom of the step has
as a head (`Allowed`) and keeps, for those atoms, the tails after it
(`narrow`); a call binds or checks the answer of its primitive at pool `P`.

* `searchAdds`: `JoinStep.search` adds to the matches found exactly the
  tuples the program reaches, each once, and all of them unless the matches
  found reach their limit. The answers of primitives are read at any pool
  grown from the one the search ends at (`Saturate.Proofs.Query.Settle`).
* `Reaches.keeps`: a program that fits its tuple (`Fits`) never changes a
  bound slot. Tuples found from different values of one intersection differ
  in its slot, which is why no tuple is found twice.
* `GroupsOf`, `groupsOf_groupHeads`: what `groupHeads` computes, the tails of
  the tuples with each head, indexed by head.
-/

namespace Saturate

/-! ### Grouping tuples by their head -/

/-- The tails of the tuples that start with `v`, in order. -/
def tailsAfter (v : Value) (ts : List (List Value)) : List (List Value) :=
  ts.filterMap fun t => match t with
    | w :: rest => if w = v then some rest else none
    | [] => none

@[simp] theorem tailsAfter_nil (v : Value) : tailsAfter v [] = [] := rfl

theorem tailsAfter_append_cons (v w : Value) (rest : List Value) (ts : List (List Value)) :
    tailsAfter v (ts ++ [w :: rest]) = tailsAfter v ts ++ if w = v then [rest] else [] := by
  simp only [tailsAfter, List.filterMap_append, List.filterMap_cons, List.filterMap_nil]
  split <;> simp_all

theorem tailsAfter_append_nil (v : Value) (ts : List (List Value)) :
    tailsAfter v (ts ++ [[]]) = tailsAfter v ts := by
  simp [tailsAfter]

theorem mem_tailsAfter {v : Value} {rest : List Value} {ts : List (List Value)} :
    rest ∈ tailsAfter v ts ↔ v :: rest ∈ ts := by
  simp only [tailsAfter, List.mem_filterMap]
  constructor
  · rintro ⟨t, ht, found⟩
    match t, found with
    | w :: rest', found =>
      simp only [Option.ite_none_right_eq_some, Option.some.injEq] at found
      obtain ⟨rfl, rfl⟩ := found
      exact ht
  · intro h
    exact ⟨v :: rest, h, by simp⟩

/-- What `groupHeads` keeps of the tuples it has read: the index sends each
head to the position of its group, every group holds the tails after its
head, and the index holds exactly the heads. -/
structure GroupsOf (ts : List (List Value))
    (G : Array (Value × Array (List Value)) × Std.HashMap Value Nat) : Prop where
  index : ∀ (v : Value) (i : Nat), G.2[v]? = some i ↔ (G.1[i]?.map Prod.fst) = some v
  tails : ∀ (i : Nat) (g : Value × Array (List Value)), G.1[i]? = some g →
    g.2.toList = tailsAfter g.1 ts
  heads : ∀ v : Value, (G.2[v]?).isSome ↔ tailsAfter v ts ≠ []

namespace GroupsOf

variable {ts : List (List Value)} {G : Array (Value × Array (List Value)) × Std.HashMap Value Nat}

theorem fst_ne (h : GroupsOf ts G) {w : Value} (absent : G.2[w]? = none) {i : Nat}
    {g : Value × Array (List Value)} (hg : G.1[i]? = some g) : g.1 ≠ w := by
  rintro rfl
  have := (h.index g.1 i).mpr (by simp [hg])
  simp [absent] at this

/-- Reading a tuple whose head has a group appends its tail to that group. -/
theorem push_old (h : GroupsOf ts G) {w : Value} {rest : List Value} {i : Nat}
    (found : G.2[w]? = some i) :
    GroupsOf (ts ++ [w :: rest]) (G.1.modify i (fun g => (g.1, g.2.push rest)), G.2) := by
  have head : (G.1[i]?.map Prod.fst) = some w := (h.index w i).mp found
  refine ⟨fun v j => ?_, fun j g hg => ?_, fun v => ?_⟩
  · rw [h.index v j, Array.getElem?_modify]
    split <;> simp
  · rw [Array.getElem?_modify] at hg
    rw [tailsAfter_append_cons]
    split at hg
    · rename_i same
      subst same
      obtain ⟨g₀, hg₀, rfl⟩ := Option.map_eq_some_iff.mp hg
      have : g₀.1 = w := by simpa [hg₀] using head
      simp [h.tails _ g₀ hg₀, this]
    · rename_i other
      have : g.1 ≠ w := by
        rintro same
        have := (h.index w j).mpr (by simp [hg, same])
        rw [found] at this
        exact other (Option.some.inj this)
      simp [h.tails j g hg, Ne.symm this]
  · rw [h.heads v, tailsAfter_append_cons]
    split
    · rename_i same
      subst same
      have : (G.2[w]?).isSome := by simp [found]
      rw [h.heads] at this
      simp [this]
    · simp

/-- Reading a tuple with a new head opens a group for it at the end. -/
theorem push_new (h : GroupsOf ts G) {w : Value} {rest : List Value} (absent : G.2[w]? = none) :
    GroupsOf (ts ++ [w :: rest]) (G.1.push (w, #[rest]), G.2.insert w G.1.size) := by
  have fresh : tailsAfter w ts = [] := by
    have := h.heads w
    simp_all
  refine ⟨fun v j => ?_, fun j g hg => ?_, fun v => ?_⟩
  · rw [Std.HashMap.getElem?_insert, Array.getElem?_push]
    by_cases same : w = v
    · subst same
      simp only [beq_self_eq_true, if_true, Option.some.injEq]
      constructor
      · rintro rfl
        simp
      · intro hj
        split at hj
        · rename_i hsize
          exact hsize.symm
        · obtain ⟨g, hg, hw⟩ := Option.map_eq_some_iff.mp hj
          exact absurd hw (h.fst_ne absent hg)
    · have ne : (w == v) = false := by simpa using same
      simp only [ne, Bool.false_eq_true, if_false]
      rw [h.index v j]
      split
      · rename_i hsize
        subst hsize
        simpa using same
      · rfl
  · rw [Array.getElem?_push] at hg
    rw [tailsAfter_append_cons]
    split at hg
    · cases hg
      simp [fresh]
    · simp [h.tails j g hg, Ne.symm (h.fst_ne absent hg)]
  · rw [Std.HashMap.getElem?_insert, tailsAfter_append_cons]
    by_cases same : w = v
    · subst same
      simp
    · have ne : (w == v) = false := by simpa using same
      simp only [ne, Bool.false_eq_true, if_false, same, List.append_nil]
      exact h.heads v

theorem empty : GroupsOf [] ((#[] : Array (Value × Array (List Value))), ({} : Std.HashMap Value Nat)) := by
  refine ⟨fun v i => ?_, fun i g hg => ?_, fun v => ?_⟩ <;> simp_all

end GroupsOf

/-- A property of the prefix a fold has read, kept by each step, holds once
the fold has read everything. -/
theorem foldl_induction_on {α β : Type} {F : β → α → β} (I : List α → β → Prop)
    (step : ∀ pre x b, I pre b → I (pre ++ [x]) (F b x)) (l : List α) {b : β} (init : I [] b) :
    I l (l.foldl F b) := by
  suffices ∀ (l pre : List α) (b : β), I pre b → I (pre ++ l) (l.foldl F b) by
    simpa using this l [] b init
  intro l
  induction l with
  | nil => simp
  | cons x l ih =>
    intro pre b h
    rw [List.foldl_cons, ← List.singleton_append, ← List.append_assoc]
    exact ih _ _ (step pre x b h)

/-- `groupHeads` groups the tuples it reads by their head. -/
theorem groupsOf_groupHeads (ts : List (List Value)) : GroupsOf ts (groupHeads ts) := by
  -- the fold reads the tuples left to right, after those it has grouped
  unfold groupHeads
  refine foldl_induction_on GroupsOf (fun pre t G h => ?_) ts GroupsOf.empty
  obtain ⟨groups, index⟩ := G
  cases t with
  | nil =>
    refine ⟨h.index, fun i g hg => ?_, fun v => ?_⟩
    · rw [tailsAfter_append_nil]
      exact h.tails i g hg
    · rw [tailsAfter_append_nil]
      exact h.heads v
  | cons w rest =>
    dsimp only
    rw [Std.HashMap.get?_eq_getElem?]
    split
    · rename_i i found
      exact h.push_old found
    · rename_i absent
      exact h.push_new absent

namespace GroupsOf

variable {ts : List (List Value)} {G : Array (Value × Array (List Value)) × Std.HashMap Value Nat}

theorem tails_of_get (h : GroupsOf ts G) {v : Value} {i : Nat} (found : G.2.get? v = some i) :
    (G.1[i]?.map (·.2.toList)).getD [] = tailsAfter v ts := by
  rw [Std.HashMap.get?_eq_getElem?] at found
  obtain ⟨g, hg, rfl⟩ := Option.map_eq_some_iff.mp ((h.index v i).mp found)
  simp [hg, h.tails i g hg]

theorem tails_of_get_none (h : GroupsOf ts G) {v : Value} (absent : G.2.get? v = none) :
    tailsAfter v ts = [] := by
  rw [Std.HashMap.get?_eq_getElem?] at absent
  have := h.heads v
  simp_all

theorem contains_iff (h : GroupsOf ts G) (v : Value) :
    G.2.contains v = true ↔ tailsAfter v ts ≠ [] := by
  rw [Std.HashMap.contains_eq_isSome_getElem?]
  exact h.heads v

theorem mem_heads (h : GroupsOf ts G) (v : Value) :
    v ∈ G.1.toList.map (·.1) ↔ tailsAfter v ts ≠ [] := by
  rw [← h.heads v, List.mem_map]
  constructor
  · rintro ⟨g, hg, rfl⟩
    obtain ⟨i, hi⟩ := List.mem_iff_getElem?.mp hg
    rw [Array.getElem?_toList] at hi
    have : G.2[g.1]? = some i := (h.index _ i).mpr (by simp [hi])
    simp [this]
  · intro found
    obtain ⟨i, hi⟩ := Option.isSome_iff_exists.mp found
    obtain ⟨g, hg, rfl⟩ := Option.map_eq_some_iff.mp ((h.index v i).mp hi)
    exact ⟨g, Array.mem_toList_iff.mpr (Array.mem_of_getElem? hg), rfl⟩

theorem heads_nodup (h : GroupsOf ts G) : (G.1.toList.map (·.1)).Nodup := by
  rw [List.Nodup, List.pairwise_iff_getElem]
  intro i j hi hj lt same
  simp only [List.length_map, Array.length_toList] at hi hj
  simp only [List.getElem_map, Array.getElem_toList] at same
  have ei : G.2[G.1[i].1]? = some i := (h.index _ i).mpr (by simp [Array.getElem?_eq_getElem hi])
  have ej : G.2[G.1[j].1]? = some j := (h.index _ j).mpr (by simp [Array.getElem?_eq_getElem hj])
  rw [same, ej] at ei
  cases ei
  omega

end GroupsOf

/-! ### One intersection step -/

/-- Every atom of `js` has a tuple that starts with `v`. -/
def Allowed (js : List Nat) (nodes : Array (List (List Value))) (v : Value) : Prop :=
  ∀ j ∈ js, tailsAfter v (nodes[j]?.getD []) ≠ []

/-- The nodes once a slot is bound to `v`: each atom of `js` keeps the tails
of its tuples that start with `v`. -/
def narrow (js : List Nat) (v : Value) (nodes : Array (List (List Value))) :
    Array (List (List Value)) :=
  js.foldl (fun ns j => ns.set! j (tailsAfter v (nodes[j]?.getD []))) nodes

/-- The groups of the atoms of `js`, as the search computes them. -/
abbrev groupsOf (js : List Nat) (nodes : Array (List (List Value))) :
    List (Nat × (Array (Value × Array (List Value)) × Std.HashMap Value Nat)) :=
  js.map fun j => (j, groupHeads (nodes[j]?.getD []))

theorem foldl_groups_eq_narrow {js : List Nat} {v : Value} {nodes : Array (List (List Value))}
    {F : Array (List (List Value)) →
      Nat × (Array (Value × Array (List Value)) × Std.HashMap Value Nat) → Array (List (List Value))}
    (step : ∀ ns j, F ns (j, groupHeads (nodes[j]?.getD [])) =
      ns.set! j (tailsAfter v (nodes[j]?.getD []))) :
    (groupsOf js nodes).foldl F nodes = narrow js v nodes := by
  unfold narrow groupsOf
  rw [List.foldl_map]
  congr
  funext ns j
  exact step ns j

/-- The search narrows each group to the tails after `v`. -/
theorem narrow_step (nodes ns : Array (List (List Value))) (j : Nat) (v : Value) :
    (match (groupHeads (nodes[j]?.getD [])).2.get? v with
      | some i => ns.set! j (((groupHeads (nodes[j]?.getD [])).1[i]?.map (·.2.toList)).getD [])
      | none => ns.set! j []) = ns.set! j (tailsAfter v (nodes[j]?.getD [])) := by
  have grouped := groupsOf_groupHeads (nodes[j]?.getD [])
  split
  · rename_i i found
    rw [grouped.tails_of_get found]
  · rename_i absent
    rw [grouped.tails_of_get_none absent]

theorem foldl_choose_mem {α : Type} (f : α → α → α) (choose : ∀ a b, f a b = a ∨ f a b = b) :
    ∀ (first : α) (l : List α), l.foldl f first ∈ first :: l
  | first, [] => by simp
  | first, g :: l => by
    rw [List.foldl_cons]
    rcases choose first g with h | h <;> rw [h]
    · exact ((List.sublist_cons_self g l).cons_cons first).subset (foldl_choose_mem f choose first l)
    · exact List.mem_cons_of_mem _ (foldl_choose_mem f choose g l)

theorem mem_candidates {js : List Nat} {nodes : Array (List (List Value))}
    {smallest : Nat × (Array (Value × Array (List Value)) × Std.HashMap Value Nat)}
    (chosen : smallest ∈ groupsOf js nodes) (v : Value) :
    v ∈ (smallest.2.1.toList.map (·.1)).filter
        (fun v => (groupsOf js nodes).all fun g => g.2.2.contains v) ↔ Allowed js nodes v := by
  obtain ⟨j₀, mem₀, rfl⟩ := List.mem_map.mp chosen
  simp only [List.mem_filter, List.all_eq_true, List.mem_map, forall_exists_index, and_imp,
    forall_apply_eq_imp_iff₂, (groupsOf_groupHeads _).contains_iff,
    (groupsOf_groupHeads _).mem_heads]
  constructor
  · rintro ⟨-, all⟩
    exact all
  · intro allowed
    exact ⟨allowed j₀ mem₀, allowed⟩

theorem candidates_nodup {js : List Nat} {nodes : Array (List (List Value))}
    (smallest : Nat × (Array (Value × Array (List Value)) × Std.HashMap Value Nat))
    (chosen : smallest ∈ groupsOf js nodes) (keep : Value → Bool) :
    ((smallest.2.1.toList.map (·.1)).filter keep).Nodup := by
  obtain ⟨j₀, -, rfl⟩ := List.mem_map.mp chosen
  exact (groupsOf_groupHeads _).heads_nodup.filter keep

/-! ### What a join program reaches -/

/-- The tuples a join program reaches from a partial tuple and its nodes,
reading the answers of primitives at pool `P`. -/
inductive Reaches (P : Pool) :
    List JoinStep → Array Value → Array (List (List Value)) → List Value → Prop
  /-- At the end of the program the tuple is complete. -/
  | done {tuple nodes} : Reaches P [] tuple nodes tuple.toList
  /-- Bind the slot to a value that every atom of the step allows. -/
  | intersect {idx js rest tuple nodes t} (v : Value) (nonempty : js ≠ [])
      (allowed : Allowed js nodes v) (next : Reaches P rest (tuple.set! idx v) (narrow js v nodes) t) :
      Reaches P (.intersect idx js :: rest) tuple nodes t
  /-- Bind a slot to the answer of a primitive, or check that it holds it. -/
  | call {prim args i check rest tuple nodes t} (r : Value)
      (answer : (prim.applyPure (args.map (JoinStep.argValue tuple))).run P = .ok (some r, P))
      (checked : check = true → tuple[i]? = some r) (next : Reaches P rest (tuple.set! i r) nodes t) :
      Reaches P (.call prim args (.slot i) check :: rest) tuple nodes t
  /-- Check that a primitive answers a constant. -/
  | test {prim args v check rest tuple nodes t}
      (answer : (prim.applyPure (args.map (JoinStep.argValue tuple))).run P = .ok (some v, P))
      (next : Reaches P rest tuple nodes t) :
      Reaches P (.call prim args (.const v) check :: rest) tuple nodes t

namespace Reaches

variable {P : Pool} {rest : List JoinStep} {tuple : Array Value} {nodes : Array (List (List Value))}
  {t : List Value}

theorem nil_iff : Reaches P [] tuple nodes t ↔ t = tuple.toList := by
  constructor
  · rintro ⟨⟩
    rfl
  · rintro rfl
    exact .done

theorem intersect_iff {idx : Nat} {js : List Nat} :
    Reaches P (.intersect idx js :: rest) tuple nodes t ↔
      js ≠ [] ∧ ∃ v, Allowed js nodes v ∧ Reaches P rest (tuple.set! idx v) (narrow js v nodes) t := by
  constructor
  · intro reached
    cases reached with
    | intersect v nonempty allowed next => exact ⟨nonempty, v, allowed, next⟩
  · rintro ⟨nonempty, v, allowed, next⟩
    exact .intersect v nonempty allowed next

theorem slot_iff {prim : Prim} {args : List Arg} {i : Nat} {check : Bool} :
    Reaches P (.call prim args (.slot i) check :: rest) tuple nodes t ↔
      ∃ r, (prim.applyPure (args.map (JoinStep.argValue tuple))).run P = .ok (some r, P) ∧
        (check = true → tuple[i]? = some r) ∧ Reaches P rest (tuple.set! i r) nodes t := by
  constructor
  · intro reached
    cases reached with
    | call r answer checked next => exact ⟨r, answer, checked, next⟩
  · rintro ⟨r, answer, checked, next⟩
    exact .call r answer checked next

theorem const_iff {prim : Prim} {args : List Arg} {v : Value} {check : Bool} :
    Reaches P (.call prim args (.const v) check :: rest) tuple nodes t ↔
      (prim.applyPure (args.map (JoinStep.argValue tuple))).run P = .ok (some v, P) ∧
        Reaches P rest tuple nodes t := by
  constructor
  · intro reached
    cases reached with
    | test answer next => exact ⟨answer, next⟩
  · rintro ⟨answer, next⟩
    exact .test answer next

end Reaches

/-! ### Programs that fit their tuple -/

/-- An argument that reads a slot reads one of `B`. -/
def Arg.ReadsFrom (B : List Nat) : Arg → Prop
  | .slot i => i ∈ B
  | .const _ => True

/-- A join program fits a tuple of `n` slots of which `B` are bound, and
leaves `B'` bound: each step binds a slot below `n` not bound before, each
call reads only bound slots, and a call that checks its answer checks a bound
slot. -/
inductive Fits (n : Nat) : List Nat → List JoinStep → List Nat → Prop
  | nil {B} : Fits n B [] B
  | intersect {B B' idx js rest} (lt : idx < n) (free : idx ∉ B) (next : Fits n (idx :: B) rest B') :
      Fits n B (.intersect idx js :: rest) B'
  | bind {B B' prim args i rest} (reads : ∀ a ∈ args, a.ReadsFrom B) (lt : i < n) (free : i ∉ B)
      (next : Fits n (i :: B) rest B') : Fits n B (.call prim args (.slot i) false :: rest) B'
  | check {B B' prim args i rest} (reads : ∀ a ∈ args, a.ReadsFrom B) (bound : i ∈ B)
      (next : Fits n B rest B') : Fits n B (.call prim args (.slot i) true :: rest) B'
  | test {B B' prim args v check rest} (reads : ∀ a ∈ args, a.ReadsFrom B) (next : Fits n B rest B') :
      Fits n B (.call prim args (.const v) check :: rest) B'

theorem getElem?_set!_self {α : Type} {tuple : Array α} {i : Nat} (lt : i < tuple.size) (v : α) :
    (tuple.set! i v)[i]? = some v := by
  simp [Array.set!_eq_setIfInBounds, lt]

theorem getElem?_set!_ne {α : Type} {tuple : Array α} {i j : Nat} (ne : i ≠ j) (v : α) :
    (tuple.set! i v)[j]? = tuple[j]? := by
  simp [Array.set!_eq_setIfInBounds, ne]

/-- **A run never changes a bound slot**: the tuple a fitting program reaches
agrees with the one it started from on every slot bound at the start. -/
theorem Reaches.keeps {P : Pool} {prog : List JoinStep} {tuple : Array Value}
    {nodes : Array (List (List Value))} {t : List Value} (reached : Reaches P prog tuple nodes t) :
    ∀ {B B' : List Nat}, Fits tuple.size B prog B' → t.length = tuple.size ∧ ∀ i ∈ B, t[i]? = tuple[i]? := by
  induction reached with
  | done => intro B B' _; simp
  | intersect v nonempty allowed next ih =>
    intro B B' fits
    cases fits with
    | intersect lt free fits =>
      obtain ⟨length, kept⟩ := ih (by simpa using fits)
      refine ⟨by simpa using length, fun i hi => ?_⟩
      rw [kept i (List.mem_cons_of_mem _ hi), getElem?_set!_ne]
      rintro rfl
      exact free hi
  | @call prim args i check rest tuple nodes t r answer checked next ih =>
    intro B B' fits
    cases fits with
    | bind reads lt free fits =>
      obtain ⟨length, kept⟩ := ih (by simpa using fits)
      refine ⟨by simpa using length, fun j hj => ?_⟩
      rw [kept j (List.mem_cons_of_mem _ hj), getElem?_set!_ne]
      rintro rfl
      exact free hj
    | check reads bound fits =>
      obtain ⟨length, kept⟩ := ih (by simpa using fits)
      refine ⟨by simpa using length, fun j hj => ?_⟩
      rw [kept j hj]
      -- a check writes the value the slot already holds
      by_cases same : i = j
      · subst same
        rw [checked rfl]
        exact getElem?_set!_self (by simpa using (Array.getElem?_eq_some_iff.mp (checked rfl)).1) r
      · exact getElem?_set!_ne same r
  | test answer next ih =>
    intro B B' fits
    cases fits with
    | test reads fits => exact ih fits

/-! ### What a search adds -/

/-- `found'` is `found` with `new` added: tuples that `S` accepts at every
pool grown from `P`, none twice, and every such tuple unless `found'` is
full. -/
structure Adds (P : Pool) (S : Pool → List Value → Prop) (found found' : Found)
    (new : List (List Value)) : Prop where
  tuples : found'.tuples.toList = found.tuples.toList ++ new
  limit : found'.limit = found.limit
  nodup : new.Nodup
  sound : ∀ Q, P.Grows Q → ∀ t ∈ new, S Q t
  complete : found'.full = false → ∀ Q, P.Grows Q → ∀ t, S Q t → t ∈ new

namespace Adds

variable {P P' : Pool} {S S' : Pool → List Value → Prop} {found found₁ found' : Found}
  {new new' : List (List Value)}

/-- Nothing is added where nothing is accepted. -/
theorem none (found : Found) (never : ∀ Q, P.Grows Q → ∀ t, ¬ S Q t) : Adds P S found found [] :=
  ⟨by simp, rfl, .nil, by simp, fun _ Q grows t accepted => absurd accepted (never Q grows t)⟩

/-- Nothing is added once the matches found are enough. -/
theorem full (found : Found) (enough : found.full = true) : Adds P S found found [] :=
  ⟨by simp, rfl, .nil, by simp, fun short => by simp [enough] at short⟩

theorem congr (h : Adds P S found found' new) (same : ∀ Q, P.Grows Q → ∀ t, S Q t ↔ S' Q t) :
    Adds P S' found found' new :=
  ⟨h.tuples, h.limit, h.nodup, fun Q grows t ht => (same Q grows t).mp (h.sound Q grows t ht),
    fun short Q grows t ht => h.complete short Q grows t ((same Q grows t).mpr ht)⟩

theorem full_of_full (h : Adds P S found found' new) (enough : found.full = true) :
    found'.full = true := by
  have : found.tuples.size ≤ found'.tuples.size := by
    have := congrArg List.length h.tuples
    simp only [Array.length_toList, List.length_append] at this
    omega
  simp only [Found.full, decide_eq_true_eq] at enough ⊢
  rw [h.limit]
  omega

/-- Two searches one after the other add what either accepts, when no tuple
is added by both. -/
theorem append (h : Adds P S found found₁ new) (h' : Adds P' S' found₁ found' new')
    (grows : P.Grows P') (apart : ∀ t ∈ new, t ∉ new') :
    Adds P' (fun Q t => S Q t ∨ S' Q t) found found' (new ++ new') := by
  refine ⟨by rw [h'.tuples, h.tuples, List.append_assoc], h'.limit.trans h.limit,
    List.nodup_append.mpr ⟨h.nodup, h'.nodup, fun a ha b hb same => apart a ha (same ▸ hb)⟩,
    fun Q grown t ht => ?_, fun short Q grown t ht => ?_⟩
  · rcases List.mem_append.mp ht with ht | ht
    · exact .inl (h.sound Q (grows.trans grown) t ht)
    · exact .inr (h'.sound Q grown t ht)
  · -- a search that ended short of the limit was short of it all along
    have short₁ : found₁.full = false := by
      cases hfull : found₁.full
      · rfl
      · simp [h'.full_of_full hfull] at short
    rcases ht with ht | ht
    · exact List.mem_append_left _ (h.complete short₁ Q (grows.trans grown) t ht)
    · exact List.mem_append_right _ (h'.complete short Q grown t ht)

end Adds

/-- **Descending into candidates one after another** adds, for each of them,
what the search from it adds. No tuple is accepted from two candidates
(`apart`), so none is added twice. -/
theorem foldlM_adds {α : Type} {cs : List α} {descend : Found → α → PoolM Found}
    {S : Pool → α → List Value → Prop} {Inv : Pool → Prop}
    (nodup : cs.Nodup) (apart : ∀ Q, ∀ v ∈ cs, ∀ w ∈ cs, ∀ t, S Q v t → S Q w t → v = w)
    (step : ∀ v ∈ cs, ∀ found p found' P, Inv p → (descend found v).run p = .ok (found', P) →
      Inv P ∧ ∃ new, Adds P (fun Q => S Q v) found found' new) :
    ∀ found p found' P, Inv p → (cs.foldlM descend found).run p = .ok (found', P) →
      Inv P ∧ ∃ new, Adds P (fun Q t => ∃ v ∈ cs, S Q v t) found found' new := by
  induction cs with
  | nil =>
    intro found p found' P inv ran
    obtain ⟨rfl, rfl⟩ := PoolM.run_pure_inv ran
    exact ⟨inv, [], Adds.none _ (by simp)⟩
  | cons v cs ih =>
    intro found p found' P inv ran
    rw [List.foldlM_cons, PoolM.run_bind] at ran
    rcases first : (descend found v).run p with e | ⟨found₁, P₁⟩
    · simp [first] at ran
    · rw [first] at ran
      obtain ⟨inv₁, new, added⟩ := step v (by simp) found p found₁ P₁ inv first
      obtain ⟨inv', new', added'⟩ :=
        ih (List.nodup_cons.mp nodup).2
          (fun Q v hv w hw => apart Q v (List.mem_cons_of_mem _ hv) w (List.mem_cons_of_mem _ hw))
          (fun w hw => step w (by simp [hw])) found₁ P₁ found' P inv₁ ran
      refine ⟨inv', new ++ new', (added.append added' (PoolM.run_grows ran) ?_).congr ?_⟩
      · -- a tuple of the first candidate is accepted by no later one
        intro t ht ht'
        obtain ⟨w, hw, accepted⟩ := added'.sound P (.refl _) t ht'
        have same := apart P v List.mem_cons_self w (List.mem_cons_of_mem _ hw) t
          (added.sound P (PoolM.run_grows ran) t ht) accepted
        subst same
        exact (List.nodup_cons.mp nodup).1 hw
      · intro Q _ t
        simp

/-! ### What the search needs of the pool -/

/-- What the calls of a program need of a pool: the names of the base sorts,
containers that hold only values of named sorts, and for each call the table
and name of its sort and the sorts of its constants. -/
structure Pool.Serves (p : Pool) (prog : List JoinStep) : Prop where
  base : ∀ n ∈ baseSortNames, p.Entered n
  contents : p.ContentsEntered
  calls : ∀ prim args out check, JoinStep.call prim args out check ∈ prog →
    prim.HostedIn p ∧ ∀ v, Arg.const v ∈ args → p.Entered v.sort

/-- The values a search reads have named sorts: those of the bound slots, and
every value left in the nodes. -/
structure Pool.Names (p : Pool) (B : List Nat) (tuple : Array Value)
    (nodes : Array (List (List Value))) : Prop where
  slots : ∀ i ∈ B, ∃ v, tuple[i]? = some v ∧ p.Entered v.sort
  nodes : ∀ (j : Nat) ts, nodes[j]? = some ts → ∀ t ∈ ts, ∀ v ∈ t, p.Entered v.sort

section Invariants

variable {p q : Pool} {prog : List JoinStep} {B : List Nat} {tuple : Array Value}
  {nodes : Array (List (List Value))}

theorem Pool.Serves.tail {step : JoinStep} (h : p.Serves (step :: prog)) : p.Serves prog :=
  ⟨h.base, h.contents, fun prim args out check mem =>
    h.calls prim args out check (List.mem_cons_of_mem _ mem)⟩

theorem Pool.Serves.grow (h : p.Serves prog) (grows : p.Grows q) (contents : q.ContentsEntered) :
    q.Serves prog := by
  refine ⟨fun n hn => (h.base n hn).grow grows, contents, fun prim args out check mem => ?_⟩
  obtain ⟨hosted, consts⟩ := h.calls prim args out check mem
  exact ⟨hosted.grow grows, fun v hv => (consts v hv).grow grows⟩

theorem Pool.Names.grow (h : p.Names B tuple nodes) (grows : p.Grows q) : q.Names B tuple nodes := by
  refine ⟨fun i hi => ?_, fun j ts hts t ht v hv => (h.nodes j ts hts t ht v hv).grow grows⟩
  obtain ⟨v, hv, named⟩ := h.slots i hi
  exact ⟨v, hv, named.grow grows⟩

theorem Pool.Names.bind (h : p.Names B tuple nodes) {i : Nat} (lt : i < tuple.size) {r : Value}
    (named : p.Entered r.sort) : p.Names (i :: B) (tuple.set! i r) nodes := by
  refine ⟨fun j hj => ?_, h.nodes⟩
  by_cases same : i = j
  · subst same
    exact ⟨r, getElem?_set!_self lt r, named⟩
  · rw [getElem?_set!_ne same]
    exact h.slots j ((List.mem_cons.mp hj).resolve_left (Ne.symm same))

/-- A call reads values of named sorts. -/
theorem Pool.Names.args {args : List Arg} (h : p.Names B tuple nodes)
    (consts : ∀ v, Arg.const v ∈ args → p.Entered v.sort) (reads : ∀ a ∈ args, a.ReadsFrom B) :
    ∀ x ∈ args.map (JoinStep.argValue tuple), p.Entered x.sort := by
  intro x hx
  obtain ⟨a, ha, rfl⟩ := List.mem_map.mp hx
  cases a with
  | slot i =>
    obtain ⟨v, hv, named⟩ := h.slots i (reads _ ha)
    simpa [JoinStep.argValue, hv] using named
  | const v => exact consts v ha

end Invariants

/-- Where a search from `tuple` and `nodes` over `prog` ended: the pool still
names the sorts inside containers, and the matches added are what the
program reaches. -/
def SearchAdds (prog : List JoinStep) : Prop :=
  ∀ {B B' : List Nat} {tuple : Array Value} {nodes : Array (List (List Value))}
    {found found' : Found} {p P : Pool},
    Fits tuple.size B prog B' → p.Serves prog → p.Names B tuple nodes →
    (JoinStep.search prog tuple nodes found).run p = .ok (found', P) →
    P.ContentsEntered ∧ ∃ new, Adds P (fun Q => Reaches Q prog tuple nodes) found found' new

theorem searchAdds_nil : SearchAdds [] := by
  intro B B' tuple nodes found found' p P _ serves _ ran
  simp only [JoinStep.search] at ran
  obtain ⟨rfl, rfl⟩ := PoolM.run_pure_inv ran
  refine ⟨serves.contents, [tuple.toList], by simp, rfl, by simp, ?_, ?_⟩
  · intro Q _ t ht
    rw [List.mem_singleton.mp ht]
    exact .done
  · intro _ Q _ t reached
    simp [Reaches.nil_iff.mp reached]

/-- A call that reaches anything has an answer. -/
theorem Reaches.answer {P : Pool} {prim : Prim} {args : List Arg} {out : Arg} {check : Bool}
    {rest : List JoinStep} {tuple : Array Value} {nodes : Array (List (List Value))} {t : List Value}
    (reached : Reaches P (.call prim args out check :: rest) tuple nodes t) :
    ∃ r, (prim.applyPure (args.map (JoinStep.argValue tuple))).run P = .ok (some r, P) := by
  cases reached with
  | call r answer => exact ⟨r, answer⟩
  | test answer => exact ⟨_, answer⟩

theorem searchAdds_call {prim : Prim} {args : List Arg} {out : Arg} {check : Bool}
    {rest : List JoinStep} (ih : SearchAdds rest) : SearchAdds (.call prim args out check :: rest) := by
  intro B B' tuple nodes found found' p P fits serves names ran
  simp only [JoinStep.search] at ran
  rw [PoolM.run_bind] at ran
  rcases applied : (prim.applyPure (args.map (JoinStep.argValue tuple))).run p with e | ⟨o, p₁⟩
  · simp [applied] at ran
  rw [applied] at ran
  dsimp only at ran
  have reads : ∀ a ∈ args, a.ReadsFrom B := by
    cases fits <;> assumption
  obtain ⟨hosted, consts⟩ := serves.calls prim args out check List.mem_cons_self
  have known := names.args consts reads
  have settles := prim.applyPure_settles _ hosted known serves.contents o p₁ applied
  have named := prim.applyPure_namesResult _ serves.base hosted known serves.contents applied
  have grows := PoolM.run_grows applied
  -- at every later pool the primitive gives the answer the search saw
  have answer : ∀ Q, p₁.Grows Q → ∀ r,
      (prim.applyPure (args.map (JoinStep.argValue tuple))).run Q = .ok (some r, Q) → o = some r := by
    intro Q grown r hr
    rw [settles Q grown] at hr
    simp only [Except.ok.injEq, Prod.mk.injEq] at hr
    exact hr.1
  cases o with
  | none =>
    obtain ⟨rfl, rfl⟩ := PoolM.run_pure_inv ran
    refine ⟨named.1, [], Adds.none _ fun Q grown t reached => ?_⟩
    obtain ⟨r, hr⟩ := reached.answer
    cases answer Q grown r hr
  | some r =>
    have serves₁ := serves.tail.grow grows named.1
    have names₁ := names.grow grows
    cases out with
    | slot i =>
      dsimp only at ran
      split at ran
      · rename_i refuted
        obtain ⟨rfl, rfl⟩ := PoolM.run_pure_inv ran
        refine ⟨named.1, [], Adds.none _ fun Q grown t reached => ?_⟩
        obtain ⟨r', hr', checked, -⟩ := Reaches.slot_iff.mp reached
        cases answer Q grown r' hr'
        cases check <;> simp_all
      · rename_i kept
        have checked : check = true → tuple[i]? = some r := by
          intro h
          simpa [h] using kept
        -- past an answer of `r`, the call reaches what the rest reaches
        have same : ∀ Q, P.Grows Q → ∀ t, Reaches Q rest (tuple.set! i r) nodes t ↔
            Reaches Q (.call prim args (.slot i) check :: rest) tuple nodes t := by
          intro Q grown t
          have later := (PoolM.run_grows ran).trans grown
          rw [Reaches.slot_iff]
          constructor
          · intro reached
            exact ⟨r, settles Q later, checked, reached⟩
          · rintro ⟨r', hr', -, reached⟩
            cases answer Q later r' hr'
            exact reached
        cases fits with
        | bind _ lt free fits =>
          obtain ⟨contents, new, added⟩ :=
            ih (by simpa using fits) serves₁ (names₁.bind lt (named.2 r rfl)) ran
          exact ⟨contents, new, added.congr same⟩
        | check _ bound fits =>
          -- a check writes back the value the slot holds
          have keeps : tuple.set! i r = tuple := by
            obtain ⟨lt, -⟩ := Array.getElem?_eq_some_iff.mp (checked rfl)
            apply Array.ext_getElem?
            intro j
            by_cases same : i = j
            · subst same
              rw [getElem?_set!_self lt r, checked rfl]
            · exact getElem?_set!_ne same r
          rw [keeps] at ran same
          obtain ⟨contents, new, added⟩ := ih fits serves₁ names₁ ran
          exact ⟨contents, new, added.congr same⟩
    | const v =>
      dsimp only at ran
      split at ran
      · rename_i refuted
        obtain ⟨rfl, rfl⟩ := PoolM.run_pure_inv ran
        refine ⟨named.1, [], Adds.none _ fun Q grown t reached => ?_⟩
        obtain ⟨hr, -⟩ := Reaches.const_iff.mp reached
        cases answer Q grown v hr
        simp at refuted
      · rename_i kept
        have same : ∀ Q, P.Grows Q → ∀ t, Reaches Q rest tuple nodes t ↔
            Reaches Q (.call prim args (.const v) check :: rest) tuple nodes t := by
          intro Q grown t
          have later := (PoolM.run_grows ran).trans grown
          have : v = r := by simpa using kept
          subst this
          rw [Reaches.const_iff]
          exact ⟨fun reached => ⟨settles Q later, reached⟩, fun ⟨_, reached⟩ => reached⟩
        cases fits with
        | test _ fits =>
          obtain ⟨contents, new, added⟩ := ih fits serves₁ names₁ ran
          exact ⟨contents, new, added.congr same⟩

theorem getElem?_narrow (js : List Nat) (v : Value) (nodes : Array (List (List Value))) (k : Nat) :
    (narrow js v nodes)[k]? =
      if k ∈ js ∧ k < nodes.size then some (tailsAfter v (nodes[k]?.getD [])) else nodes[k]? := by
  -- each `set!` writes one atom's tails, computed from the nodes before the step
  suffices ∀ ns : Array (List (List Value)), ns.size = nodes.size →
      (js.foldl (fun ns j => ns.set! j (tailsAfter v (nodes[j]?.getD []))) ns)[k]? =
        if k ∈ js ∧ k < nodes.size then some (tailsAfter v (nodes[k]?.getD [])) else ns[k]? from
    this nodes rfl
  induction js with
  | nil => simp
  | cons j js ih =>
    intro ns size
    rw [List.foldl_cons, ih _ (by simpa using size)]
    by_cases same : j = k
    · subst same
      by_cases lt : j < nodes.size <;> simp [Array.set!_eq_setIfInBounds, size, lt]
    · rw [getElem?_set!_ne same]
      simp [Ne.symm same]

theorem Pool.Names.narrow {p : Pool} {B : List Nat} {tuple : Array Value}
    {nodes : Array (List (List Value))} (h : p.Names B tuple nodes) {idx : Nat} (lt : idx < tuple.size)
    {v : Value} (named : p.Entered v.sort) (js : List Nat) :
    p.Names (idx :: B) (tuple.set! idx v) (narrow js v nodes) := by
  refine ⟨(h.bind lt named).slots, fun j ts hts t ht w hw => ?_⟩
  rw [getElem?_narrow] at hts
  split at hts
  · cases hts
    have tail := mem_tailsAfter.mp ht
    rcases held : nodes[j]? with _ | ts₀
    · simp [held] at tail
    · rw [held, Option.getD_some] at tail
      exact h.nodes j ts₀ held (v :: t) tail w (List.mem_cons_of_mem v hw)
  · exact h.nodes j ts hts t ht w hw

/-- A value that the atoms allow is a head of their tuples, so its sort is named. -/
theorem Pool.Names.allowed {p : Pool} {B : List Nat} {tuple : Array Value}
    {nodes : Array (List (List Value))} (h : p.Names B tuple nodes) {js : List Nat} {v : Value}
    (nonempty : js ≠ []) (allowed : Allowed js nodes v) : p.Entered v.sort := by
  obtain ⟨j, hj⟩ := List.exists_mem_of_ne_nil js nonempty
  obtain ⟨t, ht⟩ := List.exists_mem_of_ne_nil _ (allowed j hj)
  have tail := mem_tailsAfter.mp ht
  rcases held : nodes[j]? with _ | ts₀
  · simp [held] at tail
  · rw [held, Option.getD_some] at tail
    exact h.nodes j ts₀ held (v :: t) tail v List.mem_cons_self

/-- The group the search draws its candidates from is one of the groups. -/
theorem smallest_mem {js : List Nat} {nodes : Array (List (List Value))}
    {first : Nat × (Array (Value × Array (List Value)) × Std.HashMap Value Nat)}
    (hfirst : (groupsOf js nodes).head? = some first) :
    (groupsOf js nodes).foldl (fun best g => if g.2.1.size < best.2.1.size then g else best) first ∈
      groupsOf js nodes := by
  have chosen := foldl_choose_mem (fun best g => if g.2.1.size < best.2.1.size then g else best)
    (fun a b => by split <;> simp) first (groupsOf js nodes)
  rcases List.mem_cons.mp chosen with same | mem
  · rw [same]
    exact List.mem_of_mem_head? hfirst
  · exact mem

theorem searchAdds_intersect {idx : Nat} {js : List Nat} {rest : List JoinStep}
    (ih : SearchAdds rest) : SearchAdds (.intersect idx js :: rest) := by
  intro B B' tuple nodes found found' p P fits serves names ran
  cases fits with
  | intersect lt free fits =>
  simp only [JoinStep.search] at ran
  split at ran
  · -- no atom to intersect: nothing is reached
    rename_i nothing
    obtain ⟨rfl, rfl⟩ := PoolM.run_pure_inv ran
    have : js = [] := by simpa using nothing
    exact ⟨serves.contents, [], Adds.none _ fun Q _ t reached =>
      (Reaches.intersect_iff.mp reached).1 this⟩
  rename_i first hfirst
  have nonempty : js ≠ [] := by
    rintro rfl
    simp at hfirst
  have chosen := smallest_mem hfirst
  refine (fun found => ?main) (@foldlM_adds _ _ _
    (fun Q v t => Reaches Q rest (tuple.set! idx v) (narrow js v nodes) t)
    (fun P' => P'.ContentsEntered ∧ p.Grows P')
    (candidates_nodup _ chosen _) ?apart ?step found p found' P ⟨serves.contents, .refl p⟩ ran)
  case apart =>
    -- tuples from different candidates differ in the slot the candidate fills
    have tagged : ∀ Q v t, Reaches Q rest (tuple.set! idx v) (narrow js v nodes) t →
        t[idx]? = some v := by
      intro Q v t reached
      rw [(reached.keeps (by simpa using fits)).2 idx List.mem_cons_self]
      exact getElem?_set!_self lt v
    intro Q v _ w _ t reached reached'
    exact Option.some.inj ((tagged Q v t reached).symm.trans (tagged Q w t reached'))
  case step =>
    intro v hv found₁ p₁ found₁' P₁ inv ran₁
    have allowed := (mem_candidates chosen v).mp hv
    split at ran₁
    · rename_i enough
      obtain ⟨rfl, rfl⟩ := PoolM.run_pure_inv ran₁
      exact ⟨inv, [], Adds.full _ enough⟩
    rw [foldl_groups_eq_narrow] at ran₁
    · have names₁ := (names.grow inv.2).narrow lt ((names.allowed nonempty allowed).grow inv.2) js
      obtain ⟨contents, new, added⟩ :=
        ih (by simpa using fits) (serves.tail.grow inv.2 inv.1) names₁ ran₁
      exact ⟨⟨contents, inv.2.trans (PoolM.run_grows ran₁)⟩, new, added⟩
    · intro ns j
      exact narrow_step nodes ns j v
  case main =>
    obtain ⟨⟨contents, -⟩, new, added⟩ := found
    refine ⟨contents, new, added.congr fun Q _ t => ?_⟩
    rw [Reaches.intersect_iff]
    constructor
    · rintro ⟨v, hv, reached⟩
      exact ⟨nonempty, v, (mem_candidates chosen v).mp hv, reached⟩
    · rintro ⟨-, v, allowed, reached⟩
      exact ⟨v, (mem_candidates chosen v).mpr allowed, reached⟩

/-- **The search finds what the program reaches.** A search that runs to the
end adds each tuple the program reaches once, reading primitives at any
later pool, and adds all of them unless the matches found fill up. -/
theorem searchAdds : ∀ prog : List JoinStep, SearchAdds prog
  | [] => searchAdds_nil
  | .intersect _ _ :: rest => searchAdds_intersect (searchAdds rest)
  | .call _ _ _ _ :: rest => searchAdds_call (searchAdds rest)

end Saturate
