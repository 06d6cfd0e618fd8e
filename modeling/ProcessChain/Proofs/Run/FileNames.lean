import ProcessChain.Proofs.Run.Parts

/-!
# File names of the drawings of a run

The drawings of a run have the names of its sources, in order, and the last one has the name of the
overview. A source whose name is taken is refused, so the drawings of main flows never have the
same file name. The name of the overview is not checked against the sources: its file name clashes
with that of a main flow exactly if a source has that name (`Settings.nodup_fileNames_iff`), and
then one of the two drawings replaces the other when they are written.
-/

namespace ProcessChain

/-- The name of the file for a drawing of a given name in a format. -/
def Format.fileName (format : Format) (name : String) : String :=
  name ++ "." ++ format.extension

theorem Format.fileName_injective (format : Format) : Function.Injective format.fileName := by
  intro name other same
  unfold fileName at same
  rwa [String.append_left_inj, String.append_left_inj] at same

namespace Settings

variable {settings : Settings} {sources : List (String × String)} {drawings : List Drawing}

theorem names_of_madeOf {language : Language} {flows : Flows} {mains : List Flow}
    {drawn : List DrawnFlow}
    (made : List.Forall₂ (fun main flow => ∃ inner, flow.MadeOf language flows main inner)
      mains drawn) :
    drawn.map (fun flow => flow.diagram.name) = mains.map Flow.name := by
  induction made with
  | nil => rfl
  | cons first _ ih =>
      rcases first with ⟨inner, made⟩
      have named := (Language.composes_of_composeIn made.composed).1
      simp only [List.map_cons, ih]
      exact congrArg (· :: _) named

/-- The files of a run are named after its sources, in order, and after the overview. -/
theorem fileNames_eq (accepted : settings.draw sources = .ok drawings) :
    drawings.map Drawing.fileName =
      (sources.map Prod.fst ++ [Overview.name]).map settings.format.fileName := by
  rcases draw_eq_ok_iff.1 accepted with ⟨flows, drawn, read, made, rfl⟩
  have names := names_of_madeOf made
  rw [← mainNames_readFlows read, Flows.mainNames, ← names]
  simp [drawing, Drawing.fileName, Drawing.ofDeclarations, Format.fileName]

theorem nodup_names_of_draw (accepted : settings.draw sources = .ok drawings) :
    (sources.map Prod.fst).Nodup := by
  rcases draw_eq_ok_iff.1 accepted with ⟨flows, drawn, read, _, _⟩
  rw [← mainNames_readFlows read]
  exact nodup_mainNames_readFlows read

/-- The drawings of main flows never have the same file name, and none has that of the overview
unless a source is named like the overview. -/
theorem nodup_fileNames_iff (accepted : settings.draw sources = .ok drawings) :
    (drawings.dropLast.map Drawing.fileName).Nodup ∧
      ((drawings.map Drawing.fileName).Nodup ↔ Overview.name ∉ sources.map Prod.fst) := by
  have distinct := nodup_names_of_draw accepted
  have injective := settings.format.fileName_injective
  constructor
  · rw [List.map_dropLast, fileNames_eq accepted, ← List.map_dropLast, List.dropLast_concat]
    exact distinct.map injective
  · rw [fileNames_eq accepted, List.nodup_map_iff injective, List.nodup_append_comm,
      List.singleton_append, List.nodup_cons]
    exact and_iff_left distinct

theorem nodup_fileNames_shop :
    ∃ drawings, draw {} [("shop", "# act: ship\n")] = .ok drawings ∧
      (drawings.dropLast.map Drawing.fileName).Nodup ∧ (drawings.map Drawing.fileName).Nodup := by
  have succeeds : (draw {} [("shop", "# act: ship\n")]).isOk := by decide +kernel
  rcases exists_eq_ok_of_isOk succeeds with ⟨drawings, accepted⟩
  rcases nodup_fileNames_iff accepted with ⟨mains, all⟩
  exact ⟨drawings, accepted, mains, all.2 (by decide)⟩

/-- A source named like the overview is accepted, and two drawings get the same file name. -/
theorem not_nodup_fileNames_overview :
    ∃ drawings, draw {} [(Overview.name, "# act: ship\n")] = .ok drawings ∧
      drawings.map Drawing.fileName = ["architecture.dot", "architecture.dot"] ∧
      ¬ (drawings.map Drawing.fileName).Nodup := by
  have succeeds : (draw {} [(Overview.name, "# act: ship\n")]).isOk := by decide +kernel
  rcases exists_eq_ok_of_isOk succeeds with ⟨drawings, accepted⟩
  have names : drawings.map Drawing.fileName = ["architecture.dot", "architecture.dot"] := by
    rw [fileNames_eq accepted]
    decide +kernel
  refine ⟨drawings, accepted, names, ?_⟩
  rw [names]
  decide

end Settings

end ProcessChain
