import Mathlib.Data.List.TakeWhile
import ProcessChain.Diagram.Node

/-!
# Reading identities back

An identity is written as a scope, a colon and a number, and the join of a conditional as its
identity with `.join` after it. A scope may hold any characters, but what follows it holds no colon,
so the last colon of the text is the one after the scope; and `.join` holds no digit, so the number
is the run of digits after that colon. `NodeId.scope_and_number_unique` concludes that the scope and
the number can be read back from an identity or its join.
-/

namespace ProcessChain

/-- A list can be cut at the last occurrence of an element in one way only. -/
theorem cut_unique {α : Type} {element : α} {before after otherBefore otherAfter : List α}
    (notMem : element ∉ after) (otherNotMem : element ∉ otherAfter)
    (same : before ++ element :: after = otherBefore ++ element :: otherAfter) :
    before = otherBefore ∧ after = otherAfter := by
  rcases List.append_eq_append_iff.1 same with ⟨middle, rfl, rest⟩ | ⟨middle, rfl, rest⟩
  · cases middle with
    | nil => simpa using rest
    | cons first others =>
        rw [List.cons_append, List.cons.injEq] at rest
        exact absurd (by simp [rest.2]) notMem
  · cases middle with
    | nil => simpa using rest.symm
    | cons first others =>
        rw [List.cons_append, List.cons.injEq] at rest
        exact absurd (by simp [rest.2]) otherNotMem

/-- Numbers are read back from their digits. -/
theorem digits_injective {number count : Nat}
    (same : Nat.toDigits 10 number = Nat.toDigits 10 count) : number = count := by
  have values := congrArg (fun digits => Nat.ofDigitChars 10 digits 0) same
  simpa using values

theorem isDigit_of_mem_digits {character : Char} {number : Nat}
    (member : character ∈ Nat.toDigits 10 number) : character.isDigit :=
  Nat.isDigit_of_mem_toDigits (by decide) (by decide) member

namespace NodeId

/-- The identity with a number in a scope, or its join. -/
def StandsFor (point : NodeId) (scope : String) (number : Nat) : Prop :=
  point = numbered scope number ∨ point = (numbered scope number).join

theorem toList_numbered (scope : String) (number : Nat) :
    (numbered scope number).text.toList = scope.toList ++ ':' :: Nat.toDigits 10 number := by
  simp [numbered]

theorem toList_join (id : NodeId) :
    id.join.text.toList = id.text.toList ++ ['.', 'j', 'o', 'i', 'n'] := by
  simp [join]

theorem join_ne (id : NodeId) : id.join ≠ id := by
  intro same
  have texts := congrArg (fun other : NodeId => other.text.toList) same
  simp [toList_join] at texts

/-- What follows the scope has no colon, and its digits are those of the number. -/
theorem StandsFor.exists_toList_eq {point : NodeId} {scope : String} {number : Nat}
    (stands : point.StandsFor scope number) :
    ∃ after, point.text.toList = scope.toList ++ ':' :: after ∧ ':' ∉ after ∧
      after.takeWhile Char.isDigit = Nat.toDigits 10 number := by
  have digits : ∀ character ∈ Nat.toDigits 10 number, character.isDigit :=
    fun _ => isDigit_of_mem_digits
  have noColon : ':' ∉ Nat.toDigits 10 number := by
    intro member
    exact absurd (digits ':' member) (by decide)
  rcases stands with rfl | rfl
  · refine ⟨Nat.toDigits 10 number, toList_numbered scope number, noColon, ?_⟩
    rw [List.takeWhile_eq_self_iff]
    exact digits
  · refine ⟨Nat.toDigits 10 number ++ ['.', 'j', 'o', 'i', 'n'], ?_, ?_, ?_⟩
    · rw [toList_join, toList_numbered, List.append_assoc, List.cons_append]
    · simp [noColon]
    · rw [List.takeWhile_append_of_pos digits]
      simp

/-- Identities and joins of different scopes, or with different numbers, are different. -/
theorem scope_and_number_unique {point : NodeId} {scope other : String} {number count : Nat}
    (first : point.StandsFor scope number) (second : point.StandsFor other count) :
    scope = other ∧ number = count := by
  rcases first.exists_toList_eq with ⟨after, text, noColon, digits⟩
  rcases second.exists_toList_eq with ⟨otherAfter, otherText, otherNoColon, otherDigits⟩
  rw [text] at otherText
  rcases cut_unique noColon otherNoColon otherText with ⟨scopes, rfl⟩
  rw [digits] at otherDigits
  exact ⟨String.toList_injective scopes, digits_injective otherDigits⟩

theorem numbered_inj {scope : String} {number count : Nat} :
    numbered scope number = numbered scope count ↔ number = count := by
  constructor
  · intro same
    exact (scope_and_number_unique (Or.inl rfl) (Or.inl same)).2
  · rintro rfl
    rfl

end NodeId

end ProcessChain
