import Mathlib.Data.List.Induction
import ProcessChain.Files.Disk
import ProcessChain.Proofs.Outcome

/-!
# What there is at a location

A tree is known by what there is at each of its locations: nothing, a folder, or a file with its
bytes. This view is all that following a path depends on, and what is done to a tree is told by it.
A file or an empty folder that is put where there is no folder changes the view at this location and
nowhere else (`Entry.at?_put`).

A tree grows into another if every folder of it is still there. A path that leads somewhere in a
tree leads to the same place after it has grown (`Entry.Grows.follow`).
-/

namespace ProcessChain.Files

/-- What an entry is by itself, whatever is in it. -/
inductive Kind where
  | file (contents : ByteArray)
  | folder

/-- Where a step leads from a folder at a location. -/
def Step.Leads (start reached : Location) : Step → Prop
  | .stay => reached = start
  | .up => start ≠ [] ∧ reached = start.dropLast
  | .down name => name.utf8ByteSize ≤ nameLimit ∧ reached = start ++ [name]

namespace Entry

def kind : Entry → Kind
  | .file contents => .file contents
  | .folder _ => .folder

def at? (tree : Entry) (location : Location) : Option Kind :=
  (tree.find? location).map kind

/-- There is nothing in the entry. -/
def IsBare (entry : Entry) : Prop :=
  ∀ location, location ≠ [] → entry.find? location = none

/-- Every folder of a tree is still there in another. -/
def Grows (before after : Entry) : Prop :=
  ∀ location, before.at? location = some .folder → after.at? location = some .folder

variable {tree placed before middle after : Entry} {location other reached : Location}
  {steps : List Step} {next : Step} {name : String}

/-! ## Entries -/

@[simp]
theorem find?_nil (tree : Entry) : tree.find? [] = some tree := by
  cases tree <;> rfl

theorem find?_append (first rest : Location) (tree : Entry) :
    tree.find? (first ++ rest) = (tree.find? first).bind (·.find? rest) := by
  induction first generalizing tree with
  | nil => simp
  | cons name others ih =>
      cases tree with
      | file contents => rfl
      | folder entries =>
          simp only [List.cons_append, find?]
          cases entries.lookup name with
          | none => rfl
          | some entry => exact ih entry

theorem at?_cons {entries : List (String × Entry)} :
    (folder entries).at? (name :: location) = (entries.lookup name).bind (·.at? location) := by
  unfold at?
  simp only [find?]
  cases entries.lookup name <;> rfl

theorem at?_eq_folder_iff :
    tree.at? location = some .folder ↔ ∃ entries, tree.find? location = some (folder entries) := by
  unfold at?
  cases tree.find? location with
  | none => simp
  | some entry => cases entry <;> simp [kind]

theorem at?_eq_file_iff {contents : ByteArray} :
    tree.at? location = some (.file contents) ↔ tree.find? location = some (file contents) := by
  unfold at?
  cases tree.find? location with
  | none => simp
  | some entry => cases entry <;> simp [kind]

/-- Only in a folder there is something else. -/
theorem at?_of_append {rest : Location} (inside : rest ≠ [])
    (found : tree.at? (location ++ rest) ≠ none) : tree.at? location = some .folder := by
  apply at?_eq_folder_iff.2
  unfold at? at found
  rw [find?_append] at found
  cases entry : tree.find? location with
  | none => simp [entry] at found
  | some entry' =>
      cases entry' with
      | folder entries => exact ⟨entries, rfl⟩
      | file contents =>
          cases rest with
          | nil => exact absurd rfl inside
          | cons name others => simp [entry, find?] at found

theorem at?_dropLast (found : tree.at? location ≠ none) (nonempty : location ≠ []) :
    tree.at? location.dropLast = some .folder := by
  have last : location = location.dropLast ++ [location.getLast nonempty] :=
    (List.dropLast_append_getLast nonempty).symm
  apply at?_of_append (List.cons_ne_nil (location.getLast nonempty) [])
  rwa [← last]

/-! ## Putting an entry at a location -/

theorem isBare_file (contents : ByteArray) : (file contents).IsBare := by
  intro location nonempty
  cases location with
  | nil => exact absurd rfl nonempty
  | cons name others => rfl

theorem isBare_emptyFolder : emptyFolder.IsBare := by
  intro location nonempty
  cases location with
  | nil => exact absurd rfl nonempty
  | cons name others => rfl

theorem lookup_assign (name other : String) (entry : Entry) (entries : List (String × Entry)) :
    (assign name entry entries).lookup other =
      if other = name then some entry else entries.lookup other := by
  induction entries with
  | nil =>
      by_cases same : other = name
      · simp [assign, same]
      · have differs : (other == name) = false := beq_eq_false_iff_ne.2 same
        simp [assign, List.lookup_cons, same, differs]
  | cons first rest ih =>
      rcases first with ⟨earlier, old⟩
      unfold assign
      by_cases replaced : earlier = name
      · subst replaced
        rw [if_pos rfl]
        by_cases same : other = earlier
        · simp [same]
        · have differs : (other == earlier) = false := beq_eq_false_iff_ne.2 same
          simp [List.lookup_cons, same, differs]
      · rw [if_neg replaced, List.lookup_cons, List.lookup_cons, ih]
        by_cases same : other = earlier
        · simp [same, replaced]
        · have differs : (other == earlier) = false := beq_eq_false_iff_ne.2 same
          simp [differs]

/-- In an existing folder, where there is no folder yet, an entry with nothing in it is put without
any change elsewhere. -/
theorem at?_put (bare : placed.IsBare) (nonempty : location ≠ [])
    (around : tree.at? location.dropLast = some .folder)
    (vacant : tree.at? location ≠ some .folder) (other : Location) :
    (tree.put placed location).at? other =
      if other = location then some placed.kind else tree.at? other := by
  fun_induction Entry.put tree placed location generalizing other with
  | case1 => exact absurd rfl nonempty
  | case2 contents placed name rest =>
      rcases at?_eq_folder_iff.1 around with ⟨entries, found⟩
      cases rest <;> simp [find?] at found
  | case3 entries placed name =>
      cases other with
      | nil => simp [at?, kind]
      | cons first others =>
          rw [at?_cons, at?_cons, lookup_assign]
          by_cases same : first = name
          · subst same
            cases others with
            | nil => simp [at?]
            | cons second more =>
                -- Nothing was below the location, and nothing is below it now.
                have none : (folder entries).at? ([first] ++ second :: more) = none := by
                  by_contra found
                  exact vacant (at?_of_append (List.cons_ne_nil _ _) found)
                rw [List.singleton_append, at?_cons] at none
                simpa [at?, bare _ (List.cons_ne_nil second more)] using none.symm
          · simp [same]
  | case4 entries placed name second more absent =>
      rcases at?_eq_folder_iff.1 around with ⟨inside, found⟩
      simp [find?, absent] at found
  | case5 entries placed name second more entry present ih =>
      have inner := ih bare (List.cons_ne_nil _ _)
        (by simpa [at?_cons, present] using around) (by simpa [at?_cons, present] using vacant)
      cases other with
      | nil => simp [at?, kind]
      | cons first others =>
          rw [at?_cons, at?_cons, lookup_assign]
          by_cases same : first = name
          · subst same
            simpa [present] using inner others
          · simp [same]

/-! ## Following steps -/

theorem step_eq_ok_iff :
    tree.step location next = .ok reached ↔
      tree.at? location = some .folder ∧ next.Leads location reached := by
  unfold step at?
  cases tree.find? location with
  | none => simp
  | some entry =>
      cases entry with
      | file contents => simp [kind]
      | folder entries =>
          cases next with
          | stay => simp [kind, Step.Leads, eq_comm]
          | up => by_cases top : location = [] <;> simp [kind, Step.Leads, top, eq_comm]
          | down name =>
              by_cases long : nameLimit < name.utf8ByteSize
              · have notShort : ¬ name.utf8ByteSize ≤ nameLimit := by omega
                simp [kind, Step.Leads, long, notShort]
              · have short : name.utf8ByteSize ≤ nameLimit := by omega
                simp [kind, Step.Leads, long, short, eq_comm]

theorem follow_concat_eq_ok_iff :
    tree.follow (steps ++ [next]) = .ok reached ↔
      ∃ location, tree.follow steps = .ok location ∧ tree.at? location = some .folder ∧
        next.Leads location reached := by
  have last (location : Location) : [next].foldlM tree.step location = tree.step location next := by
    rw [List.foldlM_cons]
    cases tree.step location next <;> rfl
  unfold follow
  rw [List.foldlM_append, bind_eq_ok_iff]
  simp only [last, step_eq_ok_iff]

theorem follow_concat_down (led : tree.follow (steps ++ [.down name]) = .ok reached) :
    ∃ location, tree.follow steps = .ok location ∧ tree.at? location = some .folder ∧
      reached = location ++ [name] := by
  rcases follow_concat_eq_ok_iff.1 led with ⟨location, ledEarlier, isFolder, _, same⟩
  exact ⟨location, ledEarlier, isFolder, same⟩

/-- The last of the steps to something else than a folder goes down. -/
theorem exists_down_of_follow (led : tree.follow steps = .ok reached)
    (there : tree.at? reached ≠ none) (notFolder : tree.at? reached ≠ some .folder)
    (nonempty : steps ≠ []) : ∃ first name, steps = first ++ [.down name] := by
  rcases List.eq_nil_or_concat' steps with rfl | ⟨first, last, rfl⟩
  · exact absurd rfl nonempty
  · rcases follow_concat_eq_ok_iff.1 led with ⟨location, _, isFolder, leads⟩
    cases last with
    | down name => exact ⟨first, name, rfl⟩
    | stay =>
        have same : reached = location := leads
        rw [same] at notFolder
        exact absurd isFolder notFolder
    | up =>
        rcases leads with ⟨inside, rfl⟩
        have present : tree.at? location ≠ none := by simp [isFolder]
        exact absurd (at?_dropLast present inside) notFolder

/-- On the way to where steps lead, each of them starts in a folder. -/
theorem follow_of_append {first rest : List Step}
    (led : tree.follow (first ++ next :: rest) = .ok reached) :
    ∃ location, tree.follow first = .ok location ∧ tree.at? location = some .folder := by
  unfold follow at led
  rw [List.foldlM_append, bind_eq_ok_iff] at led
  rcases led with ⟨location, ledFirst, ledRest⟩
  rw [List.foldlM_cons, bind_eq_ok_iff] at ledRest
  rcases ledRest with ⟨passed, stepped, _⟩
  exact ⟨location, ledFirst, (step_eq_ok_iff.1 stepped).1⟩

/-- Steps that stay where they are make no difference to where the others lead. -/
theorem follow_filter_ne_stay (led : tree.follow steps = .ok reached) :
    tree.follow (steps.filter (· ≠ .stay)) = .ok reached := by
  induction steps using List.reverseRecOn generalizing reached with
  | nil => exact led
  | append_singleton earlier last ih =>
      rcases follow_concat_eq_ok_iff.1 led with ⟨location, ledEarlier, isFolder, leads⟩
      rw [List.filter_append]
      by_cases stays : last = .stay
      · subst stays
        have same : reached = location := leads
        simpa [same] using ih ledEarlier
      · have kept : [last].filter (· ≠ .stay) = [last] := by simp [stays]
        rw [kept]
        exact follow_concat_eq_ok_iff.2 ⟨location, ih ledEarlier, isFolder, leads⟩

namespace Grows

theorem refl (tree : Entry) : tree.Grows tree :=
  fun _ isFolder => isFolder

theorem trans (first : before.Grows middle) (second : middle.Grows after) : before.Grows after :=
  fun location isFolder => second location (first location isFolder)

theorem follow (grows : before.Grows after) (led : before.follow steps = .ok reached) :
    after.follow steps = .ok reached := by
  induction steps using List.reverseRecOn generalizing reached with
  | nil => exact led
  | append_singleton earlier last ih =>
      rcases follow_concat_eq_ok_iff.1 led with ⟨location, ledEarlier, isFolder, leads⟩
      apply follow_concat_eq_ok_iff.2
      exact ⟨location, ih ledEarlier, grows location isFolder, leads⟩

end Grows

/-- No folder is lost where there was none. -/
theorem grows_put (bare : placed.IsBare) (nonempty : location ≠ [])
    (around : tree.at? location.dropLast = some .folder)
    (vacant : tree.at? location ≠ some .folder) : tree.Grows (tree.put placed location) := by
  intro other isFolder
  rw [at?_put bare nonempty around vacant, if_neg]
  · exact isFolder
  · rintro rfl
    exact vacant isFolder

end Entry

/-! ## What there is at a path -/

namespace Path

variable {path : Path} {tree found : Entry} {text : String}

theorem usable_of_check (checked : path.check = .ok ()) :
    path.isAbsolute = false ∧ path.text ≠ "" := by
  unfold check at checked
  split at checked
  · cases checked
  · next usable =>
      split at checked
      · cases checked
      · next nonempty => exact ⟨by simpa using (not_or.1 usable).1, nonempty⟩

theorem find_eq_ok_iff :
    path.find tree = .ok found ↔
      path.check = .ok () ∧ ∃ location, tree.follow path.fullSteps = .ok location ∧
        tree.find? location = some found := by
  unfold find
  simp only [bind_eq_ok_iff]
  constructor
  · rintro ⟨_, checked, location, led, present⟩
    refine ⟨checked, location, led, ?_⟩
    cases there : tree.find? location with
    | none => simp [there] at present
    | some entry => simpa [there] using present
  · rintro ⟨checked, location, led, there⟩
    exact ⟨(), checked, location, led, by simp [there]⟩

theorem write_eq_ok_iff {contents : ByteArray} {after : Entry} :
    path.write contents tree = .ok after ↔
      path.check = .ok () ∧ ∃ location, tree.follow path.fullSteps = .ok location ∧
        tree.at? location ≠ some .folder ∧ after = tree.put (.file contents) location := by
  unfold write
  simp only [bind_eq_ok_iff]
  constructor
  · rintro ⟨_, checked, location, led, updated⟩
    refine ⟨checked, location, led, ?_⟩
    unfold Entry.at?
    cases there : tree.find? location with
    | none => simpa [there, eq_comm] using updated
    | some entry =>
        cases entry with
        | file old => simpa [there, Entry.kind, eq_comm] using updated
        | folder entries => simp [there] at updated
  · rintro ⟨checked, location, led, vacant, rfl⟩
    refine ⟨(), checked, location, led, ?_⟩
    unfold Entry.at? at vacant
    cases there : tree.find? location with
    | none => rfl
    | some entry =>
        cases entry with
        | file old => rfl
        | folder entries => simp [there, Entry.kind] at vacant

theorem fromUTF8?_eq_some_iff {contents : ByteArray} :
    String.fromUTF8? contents = some text ↔ contents = text.toUTF8 := by
  unfold String.fromUTF8?
  constructor
  · intro read
    split at read
    · cases read
      rfl
    · cases read
  · rintro rfl
    exact dif_pos text.isValidUTF8

/-- The text that is read is the one whose bytes the file has. -/
theorem readText_eq_ok_iff :
    path.readText tree = .ok text ↔ path.find tree = .ok (.file text.toUTF8) := by
  unfold readText
  rw [bind_eq_ok_iff]
  constructor
  · rintro ⟨entry, present, read⟩
    cases entry with
    | folder entries => simp at read
    | file contents =>
        have spelled : String.fromUTF8? contents = some text := by
          cases bytes : String.fromUTF8? contents with
          | none => simp [bytes] at read
          | some other => simpa [bytes] using read
        rwa [fromUTF8?_eq_some_iff.1 spelled] at present
  · intro present
    refine ⟨_, present, ?_⟩
    simp only [fromUTF8?_eq_some_iff.2 rfl]

end Path

end ProcessChain.Files
