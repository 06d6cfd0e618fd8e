import ProcessChain.Files.Run
import ProcessChain.Proofs.Outcome

/-!
# Outcomes of actions

An action on a tree succeeds or fails, and leaves a tree behind in either case. What a sequence of
actions comes to is told by its first action and what follows it. To look at a tree leaves it as it
is, so many looks in a row are one look, and none of them sees what another one did.
-/

namespace ProcessChain.Files.Action

variable {α β : Type} {tree after : Entry} {fault : FileFault} {value : α} {result : β}

theorem bind_eq_ok_iff {first : Action α} {next : α → Action β} :
    (first >>= next) tree = .ok result after ↔
      ∃ value reached, first tree = .ok value reached ∧ next value reached = .ok result after := by
  cases outcome : first tree <;> simp [bind, EStateM.bind, outcome]

theorem bind_eq_error_iff {first : Action α} {next : α → Action β} :
    (first >>= next) tree = .error fault after ↔
      first tree = .error fault after ∨
        ∃ value reached, first tree = .ok value reached ∧
          next value reached = .error fault after := by
  cases outcome : first tree <;> simp [bind, EStateM.bind, outcome]

theorem pure_eq_ok_iff {returned : α} :
    (pure returned : Action α) tree = .ok value after ↔ returned = value ∧ tree = after := by
  simp [pure, EStateM.pure]

theorem pure_ne_error {returned : α} : (pure returned : Action α) tree ≠ .error fault after := by
  simp [pure, EStateM.pure]

theorem run'_eq_some_iff {action : Action α} :
    EStateM.run' action tree = some value ↔ ∃ after, action tree = .ok value after := by
  unfold EStateM.run' EStateM.run
  cases action tree <;> simp

theorem look_eq_ok_iff {view : Entry → Except PathFault α} :
    look view tree = .ok value after ↔ view tree = .ok value ∧ after = tree := by
  unfold look
  cases view tree <;> simp [eq_comm]

theorem look_eq_error_iff {view : Entry → Except PathFault α} :
    look view tree = .error fault after ↔
      (∃ pathFault, view tree = .error pathFault ∧ fault = .path pathFault) ∧ after = tree := by
  unfold look
  cases view tree <;> simp [eq_comm]

theorem change_eq_ok_iff {update : Entry → Except PathFault Entry} :
    change update tree = .ok () after ↔ update tree = .ok after := by
  unfold change
  cases update tree <;> simp

theorem content_eq_ok_iff {outcome : Except Fault α} :
    content outcome tree = .ok value after ↔ outcome = .ok value ∧ after = tree := by
  cases outcome <;> simp [content, eq_comm]

theorem content_eq_error_iff {outcome : Except Fault α} :
    content outcome tree = .error fault after ↔
      (∃ contentFault, outcome = .error contentFault ∧ fault = .content contentFault) ∧
        after = tree := by
  cases outcome <;> simp [content, eq_comm]

/-- A look for each member of a list is one look for all of them. -/
theorem mapM_look (view : α → Entry → Except PathFault β) (members : List α) :
    members.mapM (fun member => look (view member)) =
      look fun tree => members.mapM fun member => view member tree := by
  induction members with
  | nil => rfl
  | cons member rest ih =>
      funext tree
      rw [List.mapM_cons, ih]
      simp only [bind, EStateM.bind, look, List.mapM_cons]
      cases view member tree with
      | error fault => rfl
      | ok first =>
          simp only [Except.bind]
          cases rest.mapM fun member => view member tree <;> rfl

/-! ## Faults of paths -/

/-- If an action fails, it is because of a path. -/
def FailsByPath (action : Action α) : Prop :=
  ∀ tree fault after, action tree = .error fault after → ∃ pathFault, fault = .path pathFault

namespace FailsByPath

theorem pure (returned : α) : FailsByPath (pure returned : Action α) :=
  fun _ _ _ failed => absurd failed pure_ne_error

theorem bind {first : Action α} {next : α → Action β} (firstByPath : FailsByPath first)
    (nextByPath : ∀ value, FailsByPath (next value)) : FailsByPath (first >>= next) := by
  intro tree fault after failed
  rcases bind_eq_error_iff.1 failed with atFirst | ⟨value, reached, _, later⟩
  · exact firstByPath tree fault after atFirst
  · exact nextByPath value reached fault after later

theorem look (view : Entry → Except PathFault α) : FailsByPath (look view) := by
  intro tree fault after failed
  rcases look_eq_error_iff.1 failed with ⟨⟨pathFault, _, rfl⟩, _⟩
  exact ⟨pathFault, rfl⟩

theorem change (update : Entry → Except PathFault Entry) : FailsByPath (change update) := by
  intro tree fault after failed
  unfold Action.change at failed
  cases updated : update tree with
  | ok reached => simp [updated] at failed
  | error pathFault =>
      rw [updated] at failed
      cases failed
      exact ⟨pathFault, rfl⟩

theorem mapM {step : α → Action β} (byPath : ∀ member, FailsByPath (step member))
    (members : List α) : FailsByPath (members.mapM step) := by
  induction members with
  | nil => exact pure []
  | cons member rest ih =>
      rw [List.mapM_cons]
      apply bind (byPath member)
      intro first
      apply bind ih
      intro others
      exact pure (first :: others)

theorem makeFolderIn (ways : List (List Step)) : FailsByPath (makeFolderIn ways) := by
  induction ways with
  | nil => exact pure ()
  | cons steps outer ih =>
      intro tree fault after failed
      unfold Action.makeFolderIn at failed
      split at failed
      · cases failed
      · exact (bind ih fun _ => change (·.ensureFolder steps)) tree fault after failed
      · cases failed
        exact ⟨_, rfl⟩

theorem makeFolder (path : Path) : FailsByPath (makeFolder path) := by
  unfold Action.makeFolder
  split
  · exact pure ()
  · exact bind (look _) fun _ => makeFolderIn _

theorem write (drawing : Drawing) (folder : Path) : FailsByPath (drawing.write folder) :=
  bind (change _) fun _ => pure _

end FailsByPath

end ProcessChain.Files.Action
