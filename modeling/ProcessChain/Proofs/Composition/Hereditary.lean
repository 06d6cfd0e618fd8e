import ProcessChain.Proofs.Composition.Derivation

/-!
# Composition remark by remark

A composition reads all lines but one kind: a line that switches to the next branch of an open
conditional. `Composition.linesRead` is the list of the lines that are read, given how many
conditionals are open before the first. Of each remark in them some nodes are made, and all nodes
that are made, each before the nodes inside it, are those of the remarks one after the other and of
the conditionals around them.

So what holds of single remarks, is kept when remarks are read one after the other and is kept when
nodes are put into a conditional holds of a whole composition. Such a relation is
`Composition.Hereditary`, between the draft before, the remarks that are read, the nodes that are
made and the draft after; an invariant of composition is shown by giving it, and the induction over
the lines is done here once.
-/

namespace ProcessChain

@[simp]
theorem Node.chainPreorder_append (first second : Chain) :
    chainPreorder (first ++ second) = chainPreorder first ++ chainPreorder second := by
  induction first with
  | nil => rfl
  | cons node rest ih => simp [chainPreorder, ih]

namespace Composition

open Node

/-- The lines that are read, given how many conditionals are open before them. -/
def linesRead : (depth : Nat) → List Line → List Line
  | _, [] => []
  | depth, line :: rest =>
    match line.role, depth with
    | .opens, depth => line :: linesRead (depth + 1) rest
    | .switches, 0 => line :: linesRead 0 rest
    | .switches, depth + 1 => linesRead (depth + 1) rest
    | .closes, depth => line :: linesRead (depth - 1) rest
    | .plain, depth => line :: linesRead depth rest

def remarksRead (depth : Nat) (lines : List Line) : Remarks :=
  (linesRead depth lines).flatMap Line.remarks

section RemarksRead

variable {line : Line} {rest : List Line}

theorem remarksRead_opens (depth : Nat) (role : line.role = .opens) :
    remarksRead depth (line :: rest) = line.remarks ++ remarksRead (depth + 1) rest := by
  simp [remarksRead, linesRead, role]

theorem remarksRead_switches (depth : Nat) (role : line.role = .switches) :
    remarksRead (depth + 1) (line :: rest) = remarksRead (depth + 1) rest := by
  simp [remarksRead, linesRead, role]

theorem remarksRead_closes (depth : Nat) (role : line.role = .closes) :
    remarksRead (depth + 1) (line :: rest) = line.remarks ++ remarksRead depth rest := by
  simp [remarksRead, linesRead, role]

theorem remarksRead_plain (depth : Nat) (role : line.role = .plain) :
    remarksRead depth (line :: rest) = line.remarks ++ remarksRead depth rest := by
  simp [remarksRead, linesRead, role]

theorem remarksRead_outside (role : line.role ≠ .opens) :
    remarksRead 0 (line :: rest) = line.remarks ++ remarksRead 0 rest := by
  cases found : line.role with
  | opens => exact absurd found role
  | _ => simp [remarksRead, linesRead, found]

end RemarksRead

/-- A relation between a draft, some remarks that are read from there, the nodes that are made of
them and the draft after, that single remarks have and that composing keeps. -/
structure Hereditary (scope : String) (holds : Draft → Remarks → List Node → Draft → Prop) :
    Prop where
  nothing : ∀ draft, holds draft [] [] draft
  append : ∀ {draft middle last read more nodes others}, holds draft read nodes middle →
    holds middle more others last → holds draft (read ++ more) (nodes ++ others) last
  conditional : ∀ {draft last read nodes} branches, holds draft.issue read nodes last →
    holds draft read (.conditional (draft.nextId scope) branches :: nodes) last
  note : ∀ line draft remark,
    holds draft [remark] (chainPreorder (draft.note scope line remark).2)
      (draft.note scope line remark).1

namespace Hereditary

variable {scope : String} {holds : Draft → Remarks → List Node → Draft → Prop}
  (hereditary : Hereditary scope holds) {draft noted last : Draft} {line : Line}
  {lines left : List Line} {nodes current : Chain} {further : List Chain}

include hereditary

theorem noteAll (line : Remarks) (draft : Draft) (remarks : Remarks) :
    holds draft remarks (chainPreorder (draft.noteAll scope line remarks).2)
      (draft.noteAll scope line remarks).1 := by
  induction remarks generalizing draft with
  | nil => exact hereditary.nothing draft
  | cons remark rest ih =>
      have first := hereditary.note line draft remark
      have others := ih (draft.note scope line remark).1
      simpa [Draft.noteAll] using hereditary.append first others

theorem read (reads : draft.read scope line = (noted, nodes)) :
    holds draft line.remarks (chainPreorder nodes) noted := by
  have all := hereditary.noteAll line.remarks draft line.remarks
  unfold Draft.read at reads
  rwa [reads] at all

theorem conditional_preorder {started inner : Draft} {first : Chain} {insideRead : Remarks}
    (reads : draft.issue.read scope line = (started, first))
    (inside : holds started insideRead (chainPreorder current ++ branchesPreorder further)
      inner) :
    holds draft (line.remarks ++ insideRead)
      (Node.conditional (draft.nextId scope) ((first ++ current) :: further)).preorder inner := by
  have nodesInside := hereditary.append (hereditary.read reads) inside
  have around := hereditary.conditional ((first ++ current) :: further) nodesInside
  simpa [preorder, branchesPreorder] using around

/-- The lines inside an open conditional are read up to the closing one; those after it are read
with one conditional less open. -/
theorem of_closes (derivation : Closes scope draft lines current further last left) :
    ∃ read, (∀ depth, remarksRead (depth + 1) lines = read ++ remarksRead depth left) ∧
      holds draft read (chainPreorder current ++ branchesPreorder further) last := by
  -- What is read does not depend on the depth, so a conditional inside another is read alike.
  induction derivation with
  | opens role reads _ _ inner outer =>
      rcases inner with ⟨innerRead, innerLines, inner⟩
      rcases outer with ⟨outerRead, outerLines, outer⟩
      have around := hereditary.conditional_preorder reads inner
      refine ⟨_, ?_, by simpa [chainPreorder] using hereditary.append around outer⟩
      intro depth
      rw [remarksRead_opens _ role, innerLines, outerLines]
      simp
  | switches role _ inside =>
      rcases inside with ⟨insideRead, insideLines, inside⟩
      refine ⟨insideRead, ?_, by simpa [chainPreorder, branchesPreorder] using inside⟩
      intro depth
      rw [remarksRead_switches _ role, insideLines]
  | closes role reads =>
      refine ⟨_, fun depth => remarksRead_closes depth role, ?_⟩
      simpa [branchesPreorder] using hereditary.read reads
  | plain role reads _ inside =>
      rcases inside with ⟨insideRead, insideLines, inside⟩
      have together := hereditary.append (hereditary.read reads) inside
      refine ⟨_, ?_, by simpa [chainPreorder_append] using together⟩
      intro depth
      rw [remarksRead_plain _ role, insideLines]
      simp

/-- What is hereditary holds of the remarks that are read, of all nodes and of the last draft. -/
theorem of_composes (derivation : Composes scope draft lines nodes last) :
    holds draft (remarksRead 0 lines) (chainPreorder nodes) last := by
  induction derivation with
  | done => exact hereditary.nothing _
  | opens role reads inner _ outer =>
      rcases hereditary.of_closes inner with ⟨innerRead, innerLines, inside⟩
      have around := hereditary.conditional_preorder reads inside
      rw [remarksRead_opens _ role, innerLines]
      simpa [chainPreorder] using hereditary.append around outer
  | other role reads _ outside =>
      rw [remarksRead_outside role]
      simpa [chainPreorder_append] using hereditary.append (hereditary.read reads) outside

end Hereditary

end Composition

end ProcessChain
