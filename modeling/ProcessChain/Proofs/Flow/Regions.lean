import ProcessChain.Flow
import ProcessChain.Proofs.Outcome

/-!
# Regions of a file

The division of a file goes through its tokens once, with the region that is open. What it comes to
can be said without that state: the regions of a file are one for each token that starts one, with
the tokens up to the next bound, and the main flow is what lies outside. The division gives exactly
that if the regions are bracketed, and otherwise the first fault (`Language.divide_eq`).
-/

namespace ProcessChain

/-- What a token does to the regions of its file. -/
inductive Bound where
  | start (name : String)
  | stop
deriving DecidableEq, Repr

namespace Language

/-- The bound that a token is, if it is one. A start marker counts before an end marker. -/
def bound? (language : Language) (token : Token) : Option Bound :=
  let remarks := language.remarks token.text
  match remarks.payload? .regionStart with
  | some name => some (.start name)
  | none => if remarks.has .regionEnd then some .stop else none

/-- The tokens outside all regions, given whether a region is open before the first one. -/
def outside (language : Language) : (inside : Bool) → List Token → List Token
  | _, [] => []
  | inside, token :: rest =>
    match language.bound? token with
    | some (.start _) => language.outside true rest
    | some .stop => language.outside false rest
    | none => if inside then language.outside true rest else token :: language.outside false rest

def unbounded (language : Language) (tokens : List Token) : List Token :=
  tokens.takeWhile fun token => language.bound? token = none

/-- The regions of a file, in order: one for each start, with the tokens up to the next bound. -/
def regions (language : Language) : List Token → List Flow
  | [] => []
  | token :: rest =>
    match language.bound? token with
    | some (.start name) => ⟨name, language.unbounded rest⟩ :: language.regions rest
    | _ => language.regions rest

/-- The first fault in the regions of a file, given the name and the line of the region that is open
before the first token. -/
def regionFault? (language : Language) : (opened : Option (String × Nat)) → List Token →
    Option Fault
  | opened, [] => opened.map fun (name, line) => .openRegion name line
  | opened, token :: rest =>
    match language.bound? token with
    | some (.start name) =>
      match opened with
      | some (openName, _) => some (.nestedRegion openName name token.line)
      | none => language.regionFault? (some (name, token.line)) rest
    | some .stop => language.regionFault? none rest
    | none => language.regionFault? opened rest

/-- The regions of a file are bracketed: a region starts where none is open, and ends before the
next one starts and before the file ends. An end where no region is open bounds nothing. -/
inductive Bracketed (language : Language) : (inside : Bool) → List Token → Prop where
  | done : Bracketed language false []
  | start {token : Token} {rest : List Token} {name : String}
      (bound : language.bound? token = some (.start name)) (inside : Bracketed language true rest) :
      Bracketed language false (token :: rest)
  | stop {inside : Bool} {token : Token} {rest : List Token}
      (bound : language.bound? token = some .stop) (outside : Bracketed language false rest) :
      Bracketed language inside (token :: rest)
  | plain {inside : Bool} {token : Token} {rest : List Token}
      (bound : language.bound? token = none) (others : Bracketed language inside rest) :
      Bracketed language inside (token :: rest)

variable {language : Language} {name : String}

theorem bracketed_nil_iff {inside : Bool} : language.Bracketed inside [] ↔ inside = false := by
  constructor
  · rintro ⟨⟩
    rfl
  · rintro rfl
    exact .done

theorem bracketed_cons_iff {inside : Bool} {token : Token} {rest : List Token} :
    language.Bracketed inside (token :: rest) ↔
      match language.bound? token with
      | some (.start _) => inside = false ∧ language.Bracketed true rest
      | some .stop => language.Bracketed false rest
      | none => language.Bracketed inside rest := by
  constructor
  · intro bracketed
    cases bracketed with
    | start bound inside => simpa [bound] using inside
    | stop bound outside => simpa [bound] using outside
    | plain bound others => simpa [bound] using others
  · intro bracketed
    split at bracketed
    · next bound =>
        rcases bracketed with ⟨rfl, inside⟩
        exact .start bound inside
    · next bound => exact .stop bound bracketed
    · next bound => exact .plain bound bracketed

theorem regionFault?_eq_none_iff {opened : Option (String × Nat)} {tokens : List Token} :
    language.regionFault? opened tokens = none ↔ language.Bracketed opened.isSome tokens := by
  induction tokens generalizing opened with
  | nil => cases opened <;> simp [regionFault?, bracketed_nil_iff]
  | cons token rest ih =>
      rw [regionFault?, bracketed_cons_iff]
      cases language.bound? token with
      | none => exact ih
      | some found =>
          cases found with
          | stop => exact ih
          | start name => cases opened <;> simp [ih]

theorem regionFault?_eq_some {opened : Option (String × Nat)} {tokens : List Token} {fault : Fault}
    (found : language.regionFault? opened tokens = some fault) :
    (∃ openName name line, fault = .nestedRegion openName name line) ∨
      ∃ name line, fault = .openRegion name line := by
  induction tokens generalizing opened with
  | nil =>
      rcases Option.map_eq_some_iff.1 found with ⟨⟨name, line⟩, _, rfl⟩
      exact .inr ⟨name, line, rfl⟩
  | cons token rest ih =>
      unfold regionFault? at found
      split at found
      · split at found
        · cases found
          exact .inl ⟨_, _, _, rfl⟩
        · exact ih found
      · exact ih found
      · exact ih found

theorem regionFault?_ne_vocabulary (flaw : Vocabulary.Flaw) {opened : Option (String × Nat)}
    {tokens : List Token} : language.regionFault? opened tokens ≠ some (.vocabulary flaw) := by
  intro found
  rcases regionFault?_eq_some found with ⟨_, _, _, same⟩ | ⟨_, _, same⟩ <;> cases same

theorem add_eq (division : Division) (token : Token) :
    division.add language token =
      match language.bound? token with
      | some (.start name) => division.start name token.line
      | some .stop => .ok division.stop
      | none => .ok (division.keep token) := by
  unfold Division.add bound?
  cases found : (language.remarks token.text).payload? .regionStart with
  | some name => simp [found]
  | none => by_cases ends : (language.remarks token.text).has .regionEnd <;> simp [found, ends]

/-- The division of a file that has been divided in part. -/
def divideFrom (language : Language) (name : String) (division : Division) (tokens : List Token) :
    Except Fault (Flow × List Flow) :=
  tokens.foldlM (Division.add language) division >>= (·.finish name)

theorem divideFrom_cons {division : Division} {token : Token} {rest : List Token} :
    language.divideFrom name division (token :: rest) =
      match language.bound? token with
      | some (.start region) =>
        match division.start region token.line with
        | .ok started => language.divideFrom name started rest
        | .error fault => .error fault
      | some .stop => language.divideFrom name division.stop rest
      | none => language.divideFrom name (division.keep token) rest := by
  unfold divideFrom
  rw [List.foldlM_cons, add_eq]
  cases language.bound? token with
  | none => rfl
  | some found =>
      cases found with
      | stop => rfl
      | start region => rcases division with ⟨main, inner, _ | opened⟩ <;> rfl

def openedIn (division : Division) : Option (String × Nat) :=
  division.current.map fun opened => (opened.name, opened.line)

/-- The region that is open, with the tokens up to the next bound. -/
def pending (language : Language) (division : Division) (tokens : List Token) : List Flow :=
  division.current.toList.map fun opened =>
    ⟨opened.name, opened.tokens ++ language.unbounded tokens⟩

theorem divideFrom_eq (division : Division) (tokens : List Token) :
    language.divideFrom name division tokens =
      outcomeOf (language.regionFault? (openedIn division) tokens)
        (⟨name, division.main ++ language.outside division.current.isSome tokens⟩,
          division.inner ++ language.pending division tokens ++ language.regions tokens) := by
  induction tokens generalizing division with
  | nil =>
      rcases division with ⟨main, inner, _ | opened⟩
      · simp [divideFrom, Division.finish, openedIn, regionFault?, outcomeOf, outside, regions,
          pending]
      · simp [divideFrom, Division.finish, openedIn, regionFault?, outcomeOf]
  | cons token rest ih =>
      rw [divideFrom_cons, regionFault?]
      cases bound : language.bound? token with
      | none =>
          dsimp only
          rw [ih]
          rcases division with ⟨main, inner, _ | opened⟩ <;>
            simp [Division.keep, openedIn, outside, regions, pending, unbounded, bound]
      | some found =>
          cases found with
          | stop =>
              dsimp only
              rw [ih]
              rcases division with ⟨main, inner, _ | opened⟩ <;>
                simp [Division.stop, openedIn, outside, regions, pending, unbounded, bound]
          | start region =>
              rcases division with ⟨main, inner, _ | opened⟩
              · simp [Division.start, ih, openedIn, outside, regions, pending, bound]
              · simp [Division.start, openedIn, outcomeOf]

/-- The division of a file gives what is outside its regions and the regions, unless they have a
fault. -/
theorem divide_eq (language : Language) (name : String) (tokens : List Token) :
    language.divide name tokens =
      outcomeOf (language.regionFault? none tokens)
        (⟨name, language.outside false tokens⟩, language.regions tokens) := by
  have divided : language.divide name tokens = language.divideFrom name {} tokens := by
    unfold divide divideFrom
    cases tokens.foldlM (Division.add language) {} <;> rfl
  rw [divided, divideFrom_eq]
  simp [openedIn, pending]

end Language

end ProcessChain
