import Mathlib.Data.List.Nodup
import ProcessChain.Proofs.Flow.Regions

/-!
# Collecting the flows of a run

Files are added to a collection one at a time. `Flows.add_eq` says all that adding a file can do: it
fails as the regions of the file do, or else if a main flow of the collection has the name of the
file, and otherwise the flows of the file come after those that are there. Names of main flows
therefore stay distinct however files are added, and a collection that took in all files holds one
main flow for each, in their order.
-/

namespace ProcessChain

namespace Flows

variable {language : Language} {flows more : Flows}

def mainNames (flows : Flows) : List String :=
  flows.main.map Flow.name

/-- Adding a file fails as its regions do, or else if its name is taken; otherwise its flows come
after those that are there. -/
theorem add_eq (flows : Flows) (language : Language) (name : String) (tokens : List Token) :
    flows.add language name tokens =
      outcomeOf
        ((language.regionFault? none tokens).or
          (if name ∈ flows.mainNames then some (.duplicateFlow name) else none))
        ⟨flows.main ++ [⟨name, language.outside false tokens⟩],
          flows.inner ++ language.regions tokens⟩ := by
  unfold add
  rw [Language.divide_eq]
  cases language.regionFault? none tokens with
  | some fault => rfl
  | none =>
      have taken : flows.main.any (·.name = name) ↔ name ∈ flows.mainNames := by
        simp [mainNames]
      by_cases found : name ∈ flows.mainNames
      · simp [outcomeOf, found, taken.2 found]
      · simp [outcomeOf, found, taken]

theorem eq_of_add {name : String} {tokens : List Token}
    (added : flows.add language name tokens = .ok more) :
    name ∉ flows.mainNames ∧
      more = ⟨flows.main ++ [⟨name, language.outside false tokens⟩],
        flows.inner ++ language.regions tokens⟩ := by
  rw [add_eq, outcomeOf_eq_ok_iff, Option.or_eq_none_iff] at added
  rcases added with ⟨⟨_, free⟩, rfl⟩
  exact ⟨by simpa using free, rfl⟩

theorem mainNames_add {name : String} {tokens : List Token}
    (added : flows.add language name tokens = .ok more) :
    more.mainNames = flows.mainNames ++ [name] := by
  rcases eq_of_add added with ⟨_, rfl⟩
  simp [mainNames]

theorem nodup_mainNames_add {name : String} {tokens : List Token}
    (distinct : flows.mainNames.Nodup)
    (added : flows.add language name tokens = .ok more) : more.mainNames.Nodup := by
  rw [mainNames_add added, List.nodup_append_comm]
  exact List.nodup_cons.2 ⟨(eq_of_add added).1, distinct⟩

/-- However files are added, no two main flows have the same name. -/
theorem nodup_mainNames_addAll (language : Language) (flows : Flows)
    (files : List (String × List Token)) (distinct : flows.mainNames.Nodup) :
    (addAll language flows files).1.mainNames.Nodup := by
  fun_induction addAll language flows files with
  | case1 => exact distinct
  | case2 => exact distinct
  | case3 _ _ _ _ _ added ih => exact ih (nodup_mainNames_add distinct added)

/-- If no file has a fault, there is a main flow for each file, in order. -/
theorem mainNames_addAll {files : List (String × List Token)}
    (returned : addAll language flows files = (more, none)) :
    more.mainNames = flows.mainNames ++ files.map Prod.fst := by
  fun_induction addAll language flows files with
  | case1 =>
      cases returned
      simp
  | case2 => simp at returned
  | case3 _ _ _ _ _ added ih =>
      rw [ih returned, mainNames_add added]
      simp

end Flows

end ProcessChain
