import Mathlib.Data.List.Infix
import Mathlib.Data.Prod.Lex
import Mathlib.Data.String.Basic
import ProcessChain.Proofs.Vocabulary.Flaws
import ProcessChain.Remark

/-!
# Factoring a text at its symbols

A text is cut into gaps and symbols. What makes a cut the right one can be said without a scan: no
symbol begins inside a gap, not even one that would end beyond it, and no longer symbol begins where
one of the cut does. A text has exactly one such cut, `Language.factor` finds it, and the remarks of
the text are read off it (`Language.existsUnique_isFactoring_and_remarks`).

That there is one is shown along the text, by `factor_cons` where no symbol begins and
`factor_symbol` where one does. That there is no other is shown along the parts of a cut: a gap in
which no symbol begins is passed over as a whole, whatever comes after it (`Quiet.factor_append`).

The longest symbol at a place is also what an alternation of the symbols finds there if it tries the
longer ones first (`firstAt?_eq_some_iff`). Lengths in bytes serve as well as lengths in characters,
because of two symbols at one place the shorter is the beginning of the longer.
-/

namespace ProcessChain

instance Keyword.decidableForall {holds : Keyword → Prop} [DecidablePred holds] :
    Decidable (∀ keyword, holds keyword) :=
  decidable_of_iff (∀ keyword ∈ all, holds keyword) (by simp)

namespace Language

variable {language : Language} {keyword other : Keyword} {text gap rest after : List Char}
  {factoring : Factoring} {parts : List (Keyword × List Char)}

/-! ## The symbol at a place -/

theorem letters_ne_nil (language : Language) (keyword : Keyword) :
    language.letters keyword ≠ [] := by
  rcases language.unambiguous.filled keyword with ⟨character, listed, _⟩
  exact List.ne_nil_of_mem listed

theorem letters_injective (language : Language) : Function.Injective language.letters :=
  fun _ _ same => language.unambiguous.distinct (String.toList_injective same)

/-- A text begins with the symbol of a keyword, and with no longer symbol. -/
structure IsLongest (language : Language) (text : List Char) (keyword : Keyword) : Prop where
  begins : language.letters keyword <+: text
  longest : ∀ other, language.letters other <+: text →
    (language.letters other).length ≤ (language.letters keyword).length

theorem IsLongest.unique (first : language.IsLongest text keyword)
    (second : language.IsLongest text other) : keyword = other := by
  have shorter := first.longest other second.begins
  have sameLength := Nat.le_antisymm (second.longest keyword first.begins) shorter
  apply language.letters_injective
  exact (List.prefix_of_prefix_length_le first.begins second.begins sameLength.le).eq_of_length
    sameLength

theorem isLongest_of_keywordAt? (chosen : language.keywordAt? text = some keyword) :
    language.IsLongest text keyword := by
  constructor
  · simpa using List.maxOn?_mem chosen
  · intro other found
    have listed : other ∈
        Keyword.all.filter (fun keyword => (language.letters keyword).isPrefixOf text) := by
      simpa using found
    have greatest := List.le_apply_get_maxOn?_of_mem
      (f := fun keyword => (language.letters keyword).length) listed
    unfold keywordAt? at chosen
    simpa only [chosen, Option.get_some] using greatest

theorem keywordAt?_eq_none_iff :
    language.keywordAt? text = none ↔ ∀ keyword, ¬ language.letters keyword <+: text := by
  rw [← Option.not_isSome_iff_eq_none, keywordAt?, List.isSome_maxOn?_iff, not_not,
    List.filter_eq_nil_iff]
  simp

theorem keywordAt?_eq_some_iff :
    language.keywordAt? text = some keyword ↔ language.IsLongest text keyword := by
  constructor
  · exact isLongest_of_keywordAt?
  · intro isLongest
    cases chosen : language.keywordAt? text with
    | none => exact absurd isLongest.begins (keywordAt?_eq_none_iff.1 chosen keyword)
    | some other => rw [(isLongest_of_keywordAt? chosen).unique isLongest]

/-- The place of a keyword in an alternation of all symbols: the more bytes its symbol has, the
earlier, and symbols of one size come in their own order. -/
def rank (language : Language) (keyword : Keyword) : Lex (ℕᵒᵈ × String) :=
  toLex (.toDual (language.symbol keyword).utf8ByteSize, language.symbol keyword)

/-- The keywords in the order in which an alternation tries their symbols. -/
def alternation (language : Language) : List Keyword :=
  Keyword.all.mergeSort fun first second => language.rank first ≤ language.rank second

/-- The first keyword of the alternation whose symbol a text begins with. -/
def firstAt? (language : Language) (text : List Char) : Option Keyword :=
  language.alternation.find? fun keyword => (language.letters keyword).isPrefixOf text

theorem pairwise_alternation (language : Language) :
    language.alternation.Pairwise fun first second =>
      language.rank first ≤ language.rank second := by
  have sorted : language.alternation.Pairwise fun first second =>
      decide (language.rank first ≤ language.rank second) := by
    apply List.pairwise_mergeSort
    · simpa using fun _ _ _ => le_trans
    · simpa using fun _ _ => le_total _ _
  simpa using sorted

theorem rank_lt_of_isPrefix (found : language.letters keyword <+: language.letters other)
    (different : keyword ≠ other) : language.rank other < language.rank keyword := by
  rcases found with ⟨rest, spelled⟩
  have symbol : language.symbol other = language.symbol keyword ++ String.ofList rest := by
    apply String.toList_injective
    simpa [letters] using spelled.symm
  have filled : String.ofList rest ≠ "" := by
    intro empty
    rw [empty, String.append_empty] at symbol
    exact different (language.letters_injective (by rw [letters, letters, symbol]))
  rw [rank, rank, Prod.Lex.toLex_lt_toLex]
  left
  rw [OrderDual.toDual_lt_toDual, symbol, String.utf8ByteSize_append]
  have := String.utf8ByteSize_eq_zero_iff.not.2 filled
  omega

theorem isLongest_of_firstAt? (first : language.firstAt? text = some keyword) :
    language.IsLongest text keyword := by
  rw [firstAt?, List.find?_eq_some_iff_append] at first
  rcases first with ⟨begins, before, after, split, earlier⟩
  rw [List.isPrefixOf_iff_prefix] at begins
  have sorted := language.pairwise_alternation
  rw [split, List.pairwise_append, List.pairwise_cons] at sorted
  refine ⟨begins, fun other otherBegins => ?_⟩
  have listed : other ∈ before ++ keyword :: after := by
    rw [← split]
    simp [alternation]
  rcases List.mem_append.1 listed with before | rest
  · have absent := earlier other before
    simp [List.isPrefixOf_iff_prefix.2 otherBegins] at absent
  · rcases List.mem_cons.1 rest with rfl | later
    · exact le_rfl
    · -- A longer symbol would begin with the one that was found, and come before it.
      by_contra longer
      have inside := List.prefix_of_prefix_length_le begins otherBegins (Nat.le_of_not_le longer)
      have different : keyword ≠ other := fun same => longer (same ▸ le_rfl)
      exact (rank_lt_of_isPrefix inside different).not_ge (sorted.2.1.1 other later)

/-- An alternation with the longer symbols first finds the longest one. -/
theorem firstAt?_eq_some_iff :
    language.firstAt? text = some keyword ↔ language.IsLongest text keyword := by
  constructor
  · exact isLongest_of_firstAt?
  · intro isLongest
    have tried : (language.firstAt? text).isSome := by
      rw [firstAt?, List.find?_isSome]
      exact ⟨keyword, by simp [alternation], List.isPrefixOf_iff_prefix.2 isLongest.begins⟩
    rcases Option.isSome_iff_exists.1 tried with ⟨other, first⟩
    rw [first, (isLongest_of_firstAt? first).unique isLongest]

/-! ## Scanning step by step -/

theorem factorFrom_append (language : Language) (front rest : List Char) :
    language.factorFrom front.length (front ++ rest) = language.factor rest := by
  induction front with
  | nil => rfl
  | cons character others ih => simpa [factorFrom] using ih

theorem factor_symbol
    (found : language.keywordAt? (language.letters keyword ++ rest) = some keyword) :
    language.factor (language.letters keyword ++ rest) =
      ⟨[], (keyword, (language.factor rest).lead) :: (language.factor rest).parts⟩ := by
  rcases spelled : language.letters keyword with _ | ⟨character, others⟩
  · exact absurd spelled (language.letters_ne_nil keyword)
  · rw [spelled, List.cons_append] at found
    have passed := language.factorFrom_append others rest
    simp [factor, factorFrom, found, spelled, passed]

theorem factor_cons {character : Char} (free : language.keywordAt? (character :: rest) = none) :
    language.factor (character :: rest) =
      ⟨character :: (language.factor rest).lead, (language.factor rest).parts⟩ := by
  simp [factor, factorFrom, free]

/-! ## Gaps -/

/-- No symbol begins inside a gap that is followed by some text, wherever the symbol would end. -/
def Quiet (language : Language) (gap after : List Char) : Prop :=
  ∀ keyword skipped begun, gap = skipped ++ begun → begun ≠ [] →
    ¬ language.letters keyword <+: begun ++ after

/-- No symbol occurs in a text. -/
def SymbolFree (language : Language) (text : List Char) : Prop :=
  ∀ keyword, ¬ language.letters keyword <:+: text

instance : Decidable (language.SymbolFree text) :=
  Keyword.decidableForall

theorem symbolFree_nil : language.SymbolFree [] :=
  fun keyword found => language.letters_ne_nil keyword (List.eq_nil_of_infix_nil found)

theorem SymbolFree.of_isInfix (free : language.SymbolFree text) (inside : gap <:+: text) :
    language.SymbolFree gap :=
  fun keyword found => free keyword (found.trans inside)

theorem SymbolFree.quiet (free : language.SymbolFree gap) : language.Quiet gap [] := by
  rintro keyword skipped begun rfl _ found
  rw [List.append_nil] at found
  exact free keyword (found.isInfix.trans (List.suffix_append skipped begun).isInfix)

theorem quiet_nil : language.Quiet [] after := by
  intro keyword skipped begun split filled
  exact absurd (List.append_eq_nil_iff.1 split.symm).2 filled

theorem quiet_cons_iff {character : Char} :
    language.Quiet (character :: gap) after ↔
      language.keywordAt? (character :: (gap ++ after)) = none ∧ language.Quiet gap after := by
  rw [keywordAt?_eq_none_iff]
  constructor
  · intro quiet
    refine ⟨fun keyword => quiet keyword [] (character :: gap) rfl (by simp), ?_⟩
    rintro keyword skipped begun rfl
    exact quiet keyword (character :: skipped) begun rfl
  · rintro ⟨free, quiet⟩ keyword skipped begun split filled
    rcases List.append_eq_cons_iff.1 split.symm with ⟨rfl, rfl⟩ | ⟨others, rfl, rfl⟩
    · exact free keyword
    · exact quiet keyword others begun rfl filled

namespace Quiet

theorem symbolFree (quiet : language.Quiet gap after) : language.SymbolFree gap := by
  rintro keyword ⟨skipped, others, rfl⟩
  apply quiet keyword skipped (language.letters keyword ++ others) (by simp)
  · simp [language.letters_ne_nil keyword]
  · rw [List.append_assoc]
    exact List.prefix_append _ _

/-- A gap in which no symbol begins is passed over. -/
theorem factor_append (quiet : language.Quiet gap after) :
    language.factor (gap ++ after) =
      ⟨gap ++ (language.factor after).lead, (language.factor after).parts⟩ := by
  induction gap with
  | nil => rfl
  | cons character others ih =>
      rw [quiet_cons_iff] at quiet
      rw [List.cons_append, factor_cons quiet.1, ih quiet.2]
      rfl

end Quiet

theorem SymbolFree.factor_eq (free : language.SymbolFree text) :
    language.factor text = ⟨text, []⟩ := by
  have passed := free.quiet.factor_append
  rw [List.append_nil] at passed
  rw [passed]
  simp [factor, factorFrom]

/-- A text without a symbol has no remarks. -/
theorem remarks_of_symbolFree (free : language.SymbolFree text) :
    language.remarks (String.ofList text) = [] := by
  simp [remarks, free.factor_eq]

theorem keywordAt?_letters_self (language : Language) (keyword : Keyword) :
    language.keywordAt? (language.letters keyword) = some keyword := by
  rw [keywordAt?_eq_some_iff]
  exact ⟨List.prefix_refl _, fun _ found => found.length_le⟩

/-- A symbol alone is a remark of its keyword, with nothing in it. -/
theorem remarks_symbol (language : Language) (keyword : Keyword) :
    language.remarks (language.symbol keyword) = [⟨keyword, ""⟩] := by
  have found : language.keywordAt? (language.letters keyword ++ []) = some keyword := by
    rw [List.append_nil, keywordAt?_letters_self]
  have factored := factor_symbol found
  rw [symbolFree_nil.factor_eq, List.append_nil] at factored
  unfold letters at factored
  simp [remarks, factored]

/-! ## Factorings -/

/-- The symbols of some parts, each with the gap after it. -/
def partsText (language : Language) (parts : List (Keyword × List Char)) : List Char :=
  parts.flatMap fun (keyword, gap) => language.letters keyword ++ gap

/-- In some parts, no symbol begins inside a gap, and no longer one begins where a symbol does. -/
def Tight (language : Language) (parts : List (Keyword × List Char)) : Prop :=
  ∀ before keyword gap after, parts = before ++ (keyword, gap) :: after →
    language.Quiet gap (language.partsText after) ∧
      language.IsLongest (language.partsText ((keyword, gap) :: after)) keyword

/-- A factoring cuts a text: its pieces spell the text, no symbol begins inside a gap, and no longer
symbol begins where one of its symbols does. -/
structure IsFactoring (language : Language) (text : List Char) (factoring : Factoring) : Prop where
  spells : factoring.lead ++ language.partsText factoring.parts = text
  lead_quiet : language.Quiet factoring.lead (language.partsText factoring.parts)
  tight : language.Tight factoring.parts

theorem tight_nil : language.Tight [] := by
  intro before keyword gap after split
  simp at split

theorem tight_cons_iff :
    language.Tight ((keyword, gap) :: parts) ↔
      language.Quiet gap (language.partsText parts) ∧
        language.IsLongest (language.partsText ((keyword, gap) :: parts)) keyword ∧
          language.Tight parts := by
  constructor
  · intro tight
    rcases tight [] keyword gap parts rfl with ⟨quiet, isLongest⟩
    refine ⟨quiet, isLongest, ?_⟩
    rintro before other otherGap after rfl
    exact tight ((keyword, gap) :: before) other otherGap after rfl
  · rintro ⟨quiet, isLongest, tight⟩ before other otherGap after split
    rcases List.cons_eq_append_iff.1 split with ⟨rfl, same⟩ | ⟨others, rfl, rfl⟩
    · cases same
      exact ⟨quiet, isLongest⟩
    · exact tight others other otherGap after rfl

theorem partsText_cons :
    language.partsText ((keyword, gap) :: parts) =
      language.letters keyword ++ (gap ++ language.partsText parts) := by
  simp [partsText]

theorem Tight.factor_eq (tight : language.Tight parts) :
    language.factor (language.partsText parts) = ⟨[], parts⟩ := by
  induction parts with
  | nil => rfl
  | cons part rest ih =>
      rcases part with ⟨keyword, gap⟩
      rcases tight_cons_iff.1 tight with ⟨quiet, isLongest, restTight⟩
      rw [← keywordAt?_eq_some_iff, partsText_cons] at isLongest
      rw [partsText_cons, factor_symbol isLongest, quiet.factor_append, ih restTight]
      simp

theorem IsFactoring.factor_eq (isFactoring : language.IsFactoring text factoring) :
    language.factor text = factoring := by
  rw [← isFactoring.spells, isFactoring.lead_quiet.factor_append, isFactoring.tight.factor_eq]
  simp

theorem isFactoring_factor (language : Language) (text : List Char) :
    language.IsFactoring text (language.factor text) := by
  rcases text with _ | ⟨character, rest⟩
  · exact ⟨rfl, quiet_nil, tight_nil⟩
  · cases chosen : language.keywordAt? (character :: rest) with
    | none =>
        rcases language.isFactoring_factor rest with ⟨spells, quiet, tight⟩
        rw [factor_cons chosen]
        refine ⟨by simp [spells], ?_, tight⟩
        rw [quiet_cons_iff, spells]
        exact ⟨chosen, quiet⟩
    | some keyword =>
        rcases (isLongest_of_keywordAt? chosen).begins with ⟨after, split⟩
        have shorter : after.length < (character :: rest).length := by
          rw [← split, List.length_append]
          have := List.length_pos_iff.2 (language.letters_ne_nil keyword)
          omega
        rcases language.isFactoring_factor after with ⟨spells, quiet, tight⟩
        rw [← split] at chosen ⊢
        rw [factor_symbol chosen]
        have text : language.partsText
            ((keyword, (language.factor after).lead) :: (language.factor after).parts) =
              language.letters keyword ++ after := by
          rw [partsText_cons, spells]
        refine ⟨text, quiet_nil, tight_cons_iff.2 ⟨quiet, ?_, tight⟩⟩
        rw [text]
        exact isLongest_of_keywordAt? chosen
termination_by text.length
decreasing_by
  · exact Nat.lt_succ_self rest.length
  · exact shorter

theorem isFactoring_iff :
    language.IsFactoring text factoring ↔ language.factor text = factoring := by
  constructor
  · exact IsFactoring.factor_eq
  · rintro rfl
    exact language.isFactoring_factor text

theorem IsFactoring.symbolFree (isFactoring : language.IsFactoring text factoring)
    (listed : (keyword, gap) ∈ factoring.parts) : language.SymbolFree gap := by
  rcases List.append_of_mem listed with ⟨before, after, split⟩
  exact (isFactoring.tight before keyword gap after split).1.symbolFree

/-- A text is cut at its symbols in exactly one way, and its remarks are the symbols of this cut
with the gaps after them, trimmed. No symbol is left in a payload. An alternation of the symbols
with the longer ones first finds the longest symbol at each place. -/
theorem existsUnique_isFactoring_and_remarks (language : Language) (text : String) :
    (∃! factoring, language.IsFactoring text.toList factoring) ∧
      (∀ factoring, language.IsFactoring text.toList factoring →
        language.remarks text = factoring.parts.map fun (keyword, gap) =>
          ⟨keyword, String.ofList (Text.trim gap)⟩) ∧
      (∀ remark ∈ language.remarks text,
        language.SymbolFree remark.payload.toList ∧ language.remarks remark.payload = []) ∧
      ∀ rest keyword,
        language.firstAt? rest = some keyword ↔ language.IsLongest rest keyword := by
  refine ⟨?_, ?_, ?_, fun rest keyword => firstAt?_eq_some_iff⟩
  · simp only [isFactoring_iff]
    exact existsUnique_eq'
  · intro factoring isFactoring
    rw [remarks, isFactoring.factor_eq]
  · intro remark listed
    rcases List.mem_map.1 listed with ⟨⟨keyword, gap⟩, part, rfl⟩
    have free : language.SymbolFree (Text.trim gap) :=
      ((language.isFactoring_factor text.toList).symbolFree part).of_isInfix
        (Text.trim_isInfix gap)
    exact ⟨by simpa using free, remarks_of_symbolFree free⟩

/-- A language in which one symbol begins with another. -/
def stretched : Language where
  toVocabulary := Vocabulary.standard.replace .event "act: sync"
  flawless := by decide +kernel

theorem isFactoring_stretched :
    stretched.IsFactoring "act: sync <-> ledger".toList
        ⟨[], [(.event, [' ']), (.callIn, "> ledger".toList)]⟩ ∧
      stretched.remarks "act: sync <-> ledger" = [⟨.event, ""⟩, ⟨.callIn, "> ledger"⟩] ∧
      stretched.remarks "> ledger" = [] := by
  rcases existsUnique_isFactoring_and_remarks stretched "act: sync <-> ledger" with
    ⟨_, read, silent, _⟩
  have isFactoring : stretched.IsFactoring "act: sync <-> ledger".toList
      ⟨[], [(.event, [' ']), (.callIn, "> ledger".toList)]⟩ :=
    isFactoring_iff.2 (by decide +kernel)
  have remarks : stretched.remarks "act: sync <-> ledger" =
      [⟨.event, ""⟩, ⟨.callIn, "> ledger"⟩] := by
    rw [read _ isFactoring]
    decide +kernel
  refine ⟨isFactoring, remarks, (silent ⟨.callIn, "> ledger"⟩ ?_).2⟩
  rw [remarks]
  exact List.mem_cons_of_mem _ List.mem_cons_self

end Language

end ProcessChain
