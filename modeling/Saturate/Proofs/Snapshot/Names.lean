import Mathlib
import Saturate.Snapshot

/-!
The names of a snapshot's nodes and classes. A row's node is named by its offset and its
function, a value's class by its sort and the bits of its canonical form, and the node of a
value or of a placeholder by its class. Digits hold no dash, so each name reads back one way:
the offset ends at the first dash after the prefix, and the bits start after the last dash.
-/

namespace Saturate.Snapshot

theorem dash_not_mem_toString (n : Nat) : '-' ∉ (toString n).toList := by
  intro mem
  rw [Nat.toString_eq_repr, Nat.toList_repr] at mem
  have digit := Nat.isDigit_of_mem_toDigits (by decide) (by decide) mem
  exact absurd digit (by decide)

theorem toString_injective : Function.Injective (toString : Nat → String) := by
  intro a b same
  have digits : Nat.toDigits 10 a = Nat.toDigits 10 b := by
    simpa using congrArg String.toList same
  rw [← Nat.ofDigitChars_ten_toDigits (n := a), digits, Nat.ofDigitChars_ten_toDigits]

/-- Two lists split at a separator that neither head holds split at the same place. -/
theorem split_at_first {α : Type} {c : α} : ∀ {x₁ x₂ z₁ z₂ : List α}, c ∉ x₁ → c ∉ x₂ →
    x₁ ++ c :: z₁ = x₂ ++ c :: z₂ → x₁ = x₂ ∧ z₁ = z₂
  | [], [], _, _, _, _, same => by simpa using same
  | [], b :: x₂, _, _, _, out₂, same => by
    simp only [List.nil_append, List.cons_append, List.cons.injEq] at same
    exact absurd (same.1 ▸ List.mem_cons_self) out₂
  | a :: x₁, [], _, _, out₁, _, same => by
    simp only [List.nil_append, List.cons_append, List.cons.injEq] at same
    exact absurd (same.1 ▸ List.mem_cons_self) out₁
  | a :: x₁, b :: x₂, _, _, out₁, out₂, same => by
    simp only [List.cons_append, List.cons.injEq] at same
    obtain ⟨rfl, rest⟩ := same
    obtain ⟨rfl, rfl⟩ := split_at_first (fun mem => out₁ (.tail _ mem))
      (fun mem => out₂ (.tail _ mem)) rest
    exact ⟨rfl, rfl⟩

/-- A row's node names its function and offset. -/
theorem rowNodeId_inj {a b : String} {i j : Nat} :
    rowNodeId a i = rowNodeId b j ↔ a = b ∧ i = j := by
  refine ⟨fun same => ?_, by rintro ⟨rfl, rfl⟩; rfl⟩
  have chars := congrArg String.toList same
  simp only [rowNodeId, String.toList_append, List.append_assoc, List.append_cancel_left_eq]
    at chars
  obtain ⟨digits, names⟩ := split_at_first (dash_not_mem_toString i) (dash_not_mem_toString j)
    chars
  exact ⟨String.toList_inj.mp names, toString_injective (String.toList_inj.mp digits)⟩

/-- A class names its sort and bits. -/
theorem className_inj {s₁ s₂ : String} {b₁ b₂ : UInt64}
    (same : s₁ ++ "-" ++ toString b₁ = s₂ ++ "-" ++ toString b₂) : s₁ = s₂ ∧ b₁ = b₂ := by
  have chars := congrArg (fun t => t.toList.reverse) same
  simp only [String.toList_append, List.reverse_append, List.append_assoc] at chars
  have out : ∀ b : UInt64, '-' ∉ (toString b).toList.reverse := fun b mem =>
    dash_not_mem_toString b.toNat (List.mem_reverse.mp mem)
  obtain ⟨bits, names⟩ := split_at_first (out b₁) (out b₂) (by simpa using chars)
  refine ⟨String.toList_inj.mp (List.reverse_inj.mp names), UInt64.toNat_inj.mp ?_⟩
  exact toString_injective (String.toList_inj.mp (List.reverse_inj.mp bits))

theorem rowNodeId_ne_primitive {a c : String} {i : Nat} : rowNodeId a i ≠ "primitive-" ++ c := by
  intro same
  have heads := congrArg (fun t => t.toList.head?) same
  simp [rowNodeId] at heads

theorem rowNodeId_ne_dummy {a c : String} {i : Nat} : rowNodeId a i ≠ "dummy-" ++ c := by
  intro same
  have heads := congrArg (fun t => t.toList.head?) same
  simp [rowNodeId] at heads

theorem primitive_ne_dummy {c c' : String} : "primitive-" ++ c ≠ "dummy-" ++ c' := by
  intro same
  have heads := congrArg (fun t => t.toList.head?) same
  simp at heads

end Saturate.Snapshot
