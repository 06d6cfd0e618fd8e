import Mathlib.Data.List.Forall2

/-!
# Outcomes that may be faults

Reading and drawing stop at the first fault. What a sequence of such steps comes to is said here
once: it succeeds exactly when each of its steps does, and otherwise it has the fault of the first
step that has one.
-/

namespace ProcessChain

variable {ε α β γ : Type}

theorem exists_eq_ok_of_isOk {outcome : Except ε α} (succeeds : outcome.isOk) :
    ∃ value, outcome = .ok value := by
  cases outcome with
  | error fault => cases succeeds
  | ok value => exact ⟨value, rfl⟩

theorem bind_eq_ok_iff {outcome : Except ε α} {next : α → Except ε β} {value : β} :
    outcome >>= next = .ok value ↔ ∃ first, outcome = .ok first ∧ next first = .ok value := by
  cases outcome with
  | error fault => simp [bind, Except.bind]
  | ok first => simp [bind, Except.bind]

/-- A step taken for each member of a list succeeds exactly when it does for every member. -/
theorem mapM_eq_ok_iff {step : α → Except ε β} {members : List α} {values : List β} :
    members.mapM step = .ok values ↔
      List.Forall₂ (fun member value => step member = .ok value) members values := by
  induction members generalizing values with
  | nil =>
      rw [List.mapM_nil, List.forall₂_nil_left_iff]
      constructor
      · intro same
        cases same
        rfl
      · rintro rfl
        rfl
  | cons member rest ih =>
      rw [List.mapM_cons, bind_eq_ok_iff, List.forall₂_cons_left_iff]
      simp only [bind_eq_ok_iff, ih]
      constructor
      · rintro ⟨first, stepped, others, restStepped, same⟩
        cases same
        exact ⟨first, others, stepped, restStepped, rfl⟩
      · rintro ⟨first, others, stepped, restStepped, rfl⟩
        exact ⟨first, stepped, others, restStepped, rfl⟩

theorem forM_eq_ok_iff {step : α → Except ε Unit} {members : List α} :
    members.forM step = .ok () ↔ ∀ member ∈ members, step member = .ok () := by
  induction members with
  | nil => exact ⟨fun _ _ listed => absurd listed List.not_mem_nil, fun _ => rfl⟩
  | cons member rest ih =>
      rw [List.forall_mem_cons, ← ih]
      apply bind_eq_ok_iff.trans
      exact ⟨fun ⟨_, first, others⟩ => ⟨first, others⟩, fun ⟨first, others⟩ => ⟨(), first, others⟩⟩

theorem exists_of_forM_eq_error {step : α → Except ε Unit} {members : List α} {fault : ε}
    (failed : members.forM step = .error fault) :
    ∃ member ∈ members, step member = .error fault := by
  induction members with
  | nil => cases failed
  | cons member rest ih =>
      have first : (step member >>= fun _ => rest.forM step) = .error fault := failed
      cases stepped : step member with
      | error other =>
          rw [stepped] at first
          cases first
          exact ⟨member, List.mem_cons_self, stepped⟩
      | ok _ =>
          rw [stepped] at first
          rcases ih first with ⟨later, listed, failedLater⟩
          exact ⟨later, List.mem_cons_of_mem _ listed, failedLater⟩

/-- If a step can fail in one way only, what it comes to for a list depends on the members alone. -/
theorem forM_eq_of_mem_iff {step : α → Except ε Unit} {members others : List α} {fault : ε}
    (only : ∀ member other, step member = .error other → other = fault)
    (same : ∀ member, member ∈ others ↔ member ∈ members) :
    others.forM step = members.forM step := by
  have succeeds : others.forM step = .ok () ↔ members.forM step = .ok () := by
    simp only [forM_eq_ok_iff, same]
  have fails {list : List α} {other : ε} (failed : list.forM step = .error other) :
      other = fault := by
    rcases exists_of_forM_eq_error failed with ⟨member, _, failed⟩
    exact only member other failed
  cases ofOthers : others.forM step with
  | ok _ => exact (succeeds.1 ofOthers).symm
  | error first =>
      cases ofMembers : members.forM step with
      | ok _ => simp [succeeds.2 ofMembers] at ofOthers
      | error second => rw [fails ofOthers, fails ofMembers]

theorem exists_of_forall₂ {finds : α → β → Prop} {members : List α} {values : List β} {value : β}
    (related : List.Forall₂ finds members values) (listed : value ∈ values) :
    ∃ member ∈ members, finds member value := by
  induction related with
  | nil => simp at listed
  | cons first _ ih =>
      rcases List.mem_cons.1 listed with rfl | later
      · exact ⟨_, List.mem_cons_self, first⟩
      · rcases ih later with ⟨member, member_mem, finding⟩
        exact ⟨member, List.mem_cons_of_mem _ member_mem, finding⟩

/-- If every value comes from something found for its member, the list of values comes from a list
of what was found. -/
theorem forall₂_exists_map_iff {finds : α → γ → Prop} {view : γ → β} {members : List α}
    {values : List β} :
    List.Forall₂ (fun member value => ∃ found, finds member found ∧ value = view found)
        members values ↔
      ∃ founds, List.Forall₂ finds members founds ∧ values = founds.map view := by
  constructor
  · intro related
    induction related with
    | nil => exact ⟨[], List.Forall₂.nil, rfl⟩
    | cons first _ ih =>
        rcases first with ⟨found, finding, rfl⟩
        rcases ih with ⟨founds, findings, rfl⟩
        exact ⟨found :: founds, List.Forall₂.cons finding findings, rfl⟩
  · rintro ⟨founds, findings, rfl⟩
    rw [List.forall₂_map_right_iff]
    exact findings.imp fun _ found finding => ⟨found, finding, rfl⟩

/-- What is found for a member is found for any other member that looks the same, so it is found for
lists that look the same. -/
theorem forall₂_of_map_eq {found sought : α → γ → Prop} {view : α → β} {members others : List α}
    {values : List γ} (related : List.Forall₂ found members values)
    (same : members.map view = others.map view)
    (transfer : ∀ member other value, view member = view other → found member value →
      sought other value) :
    List.Forall₂ sought others values := by
  induction related generalizing others with
  | nil =>
      rw [List.map_eq_nil_iff.1 same.symm]
      exact List.Forall₂.nil
  | cons first _ ih =>
      rw [List.map_cons, eq_comm, List.map_eq_cons_iff] at same
      rcases same with ⟨other, rest, rfl, looks, sameRest⟩
      exact List.Forall₂.cons (transfer _ _ _ looks.symm first) (ih sameRest.symm)

theorem exists_getElem?_of_forall₂ {finds : α → β → Prop} {members : List α} {values : List β}
    {position : Nat} {member : α} (related : List.Forall₂ finds members values)
    (listed : members[position]? = some member) :
    ∃ value, values[position]? = some value ∧ finds member value := by
  induction related generalizing position with
  | nil => simp at listed
  | cons first _ ih =>
      cases position with
      | zero =>
          cases listed
          exact ⟨_, rfl, first⟩
      | succ position => exact ih listed

/-- The fault that an outcome is, if it is one. -/
def faultOf? : Except ε α → Option ε
  | .error fault => some fault
  | .ok _ => none

/-- The outcome with a fault if there is one, and with a value otherwise. -/
def outcomeOf (fault : Option ε) (value : α) : Except ε α :=
  fault.elim (.ok value) .error

@[simp]
theorem faultOf?_outcomeOf (fault : Option ε) (value : α) :
    faultOf? (outcomeOf fault value) = fault := by
  cases fault <;> rfl

theorem outcomeOf_eq_ok_iff {fault : Option ε} {value result : α} :
    outcomeOf fault value = .ok result ↔ fault = none ∧ value = result := by
  cases fault <;> simp [outcomeOf]

theorem faultOf?_eq_some_iff {outcome : Except ε α} {fault : ε} :
    faultOf? outcome = some fault ↔ outcome = .error fault := by
  cases outcome <;> simp [faultOf?]

theorem faultOf?_eq_none_iff {outcome : Except ε α} :
    faultOf? outcome = none ↔ ∃ value, outcome = .ok value := by
  cases outcome <;> simp [faultOf?]

/-- Of two steps, the first one's fault counts before that of the second. -/
theorem faultOf?_bind {outcome : Except ε α} {next : α → Except ε β} {later : Option ε}
    (continues : ∀ value, outcome = .ok value → faultOf? (next value) = later) :
    faultOf? (outcome >>= next) = (faultOf? outcome).or later := by
  cases outcome with
  | error fault => rfl
  | ok value => exact continues value rfl

theorem faultOf?_bind_pure (outcome : Except ε α) (view : α → β) :
    faultOf? (outcome >>= fun value => pure (view value)) = faultOf? outcome := by
  cases outcome <;> rfl

theorem faultOf?_mapM (step : α → Except ε β) (members : List α) :
    faultOf? (members.mapM step) = members.findSome? fun member => faultOf? (step member) := by
  induction members with
  | nil => rfl
  | cons member rest ih =>
      have others (first : β) (_ : step member = .ok first) :
          faultOf? (rest.mapM step >>= fun values => pure (first :: values)) =
            faultOf? (rest.mapM step) := faultOf?_bind_pure _ _
      rw [List.mapM_cons, faultOf?_bind others, ih, List.findSome?_cons]
      cases faultOf? (step member) <;> rfl

/-- A step taken for each member of a list fails as it does for the first member it fails for. -/
theorem mapM_eq_error_iff {step : α → Except ε β} {members : List α} {fault : ε} :
    members.mapM step = .error fault ↔
      ∃ before member after, members = before ++ member :: after ∧
        (∀ earlier ∈ before, ∃ value, step earlier = .ok value) ∧ step member = .error fault := by
  rw [← faultOf?_eq_some_iff, faultOf?_mapM, List.findSome?_eq_some_iff]
  constructor
  · rintro ⟨before, member, after, split, failed, passed⟩
    refine ⟨before, member, after, split, ?_, faultOf?_eq_some_iff.1 failed⟩
    intro earlier listed
    exact faultOf?_eq_none_iff.1 (passed earlier listed)
  · rintro ⟨before, member, after, split, passed, failed⟩
    refine ⟨before, member, after, split, faultOf?_eq_some_iff.2 failed, ?_⟩
    intro earlier listed
    exact faultOf?_eq_none_iff.2 (passed earlier listed)

end ProcessChain
