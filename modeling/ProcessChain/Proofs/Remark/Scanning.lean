import ProcessChain.Proofs.Remark.Factoring

/-!
# Reading remarks that were written

If no symbol of a language has a blank character in it, a symbol ends at the next blank at the
latest. Remarks that are written with single spaces, each as its symbol and its payload, are then
read back as they were (`Language.remarks_write`), as long as no payload has a symbol in it: no
symbol arises across the end of a payload, and none that begins with another one takes its place. In
particular the payload found for a keyword is that of the first remark written with it.
-/

namespace ProcessChain

namespace Remarks

variable {remarks : Remarks} {keyword : Keyword}

theorem payload?_eq_some_iff {payload : String} :
    remarks.payload? keyword = some payload ↔
      ∃ before after, remarks = before ++ ⟨keyword, payload⟩ :: after ∧
        ∀ earlier ∈ before, earlier.keyword ≠ keyword := by
  simp only [payload?, Option.map_eq_some_iff, List.find?_eq_some_iff_append, decide_eq_true_eq,
    Bool.not_eq_true', decide_eq_false_iff_not]
  constructor
  · rintro ⟨remark, ⟨rfl, before, after, split, earlier⟩, rfl⟩
    exact ⟨before, after, split, earlier⟩
  · rintro ⟨before, after, split, earlier⟩
    exact ⟨⟨keyword, payload⟩, ⟨rfl, before, after, split, earlier⟩, rfl⟩

theorem payload?_eq_none_iff :
    remarks.payload? keyword = none ↔ ∀ remark ∈ remarks, remark.keyword ≠ keyword := by
  simp [payload?]

end Remarks

namespace Language

variable {language : Language} {keyword : Keyword} {text front rest : List Char} {blank : Char}

/-- No symbol has a blank character in it. -/
def Unbroken (language : Language) : Prop :=
  ∀ keyword, ∀ character ∈ language.letters keyword, ¬ Text.isBlank character

instance : Decidable language.Unbroken :=
  @Keyword.decidableForall _ fun keyword => List.decidableBAll _ (language.letters keyword)

/-- A character that is in no symbol keeps symbols from arising between two texts. -/
theorem SymbolFree.append_cons {separator : Char} (first : language.SymbolFree front)
    (second : language.SymbolFree rest)
    (absent : ∀ keyword, separator ∉ language.letters keyword) :
    language.SymbolFree (front ++ separator :: rest) := by
  have begins {text : List Char} (filled : text ≠ []) (found : text <+: separator :: rest) :
      separator ∈ text := by
    cases text with
    | nil => exact absurd rfl filled
    | cons character others => simp [(List.cons_prefix_cons.1 found).1]
  intro keyword found
  rcases List.infix_append_iff_ne_nil.1 found with
    inFirst | inSecond | ⟨before, after, _, afterFilled, split, _, afterFound⟩
  · exact first keyword inFirst
  · rcases List.infix_cons_iff.1 inSecond with atStart | later
    · exact absent keyword (begins (language.letters_ne_nil keyword) atStart)
    · exact second keyword later
  · apply absent keyword
    rw [split]
    exact List.mem_append_right before (begins afterFilled afterFound)

namespace Unbroken

/-- A symbol that a text goes on with ends before the first blank. -/
theorem prefix_of_prefix_append (unbroken : language.Unbroken) (isBlank : Text.isBlank blank)
    (found : language.letters keyword <+: front ++ blank :: rest) :
    language.letters keyword <+: front := by
  rcases List.prefix_or_prefix_of_prefix found (List.prefix_append front (blank :: rest)) with
    inside | ⟨others, beyond⟩
  · exact inside
  · rw [← beyond, List.prefix_append_right_inj] at found
    cases others with
    | nil =>
        have same : language.letters keyword = front := by simpa using beyond.symm
        exact same ▸ List.prefix_refl _
    | cons character more =>
        have same : character = blank := (List.cons_prefix_cons.1 found).1
        have listed : blank ∈ language.letters keyword := by
          rw [← beyond, same]
          simp
        exact absurd isBlank (unbroken keyword blank listed)

theorem not_mem_letters (unbroken : language.Unbroken) (isBlank : Text.isBlank blank)
    (keyword : Keyword) : blank ∉ language.letters keyword :=
  fun listed => unbroken keyword blank listed isBlank

theorem keywordAt?_letters (unbroken : language.Unbroken) (keyword : Keyword)
    (ends : ∀ character ∈ rest.head?, Text.isBlank character) :
    language.keywordAt? (language.letters keyword ++ rest) = some keyword := by
  apply keywordAt?_eq_some_iff.2
  refine ⟨List.prefix_append _ _, fun other found => ?_⟩
  cases rest with
  | nil => simpa using found.length_le
  | cons blank more =>
      exact (unbroken.prefix_of_prefix_append (ends blank rfl) found).length_le

/-- A text without symbols stays quiet before anything that a blank separates it from. -/
theorem quiet_concat (unbroken : language.Unbroken) (isBlank : Text.isBlank blank)
    (free : language.SymbolFree front) : language.Quiet (front ++ [blank]) rest := by
  intro keyword skipped begun split filled found
  rcases List.eq_nil_or_concat' begun with rfl | ⟨others, last, rfl⟩
  · exact filled rfl
  · rw [← List.append_assoc] at split
    rcases List.append_inj' split rfl with ⟨rfl, same⟩
    rw [← same, List.append_assoc, List.singleton_append] at found
    have inside := unbroken.prefix_of_prefix_append isBlank found
    exact free keyword (inside.isInfix.trans (List.suffix_append skipped others).isInfix)

theorem factor_append (unbroken : language.Unbroken) (isBlank : Text.isBlank blank)
    (free : language.SymbolFree front) :
    language.factor (front ++ blank :: rest) =
      ⟨front ++ blank :: (language.factor rest).lead, (language.factor rest).parts⟩ := by
  have quiet : language.Quiet (front ++ [blank]) rest := unbroken.quiet_concat isBlank free
  simpa using quiet.factor_append

end Unbroken

/-- A text that can be a payload as it is: it is trimmed, and no symbol occurs in it. -/
structure IsPayload (language : Language) (payload : String) : Prop where
  trimmed : Text.trimmed payload = payload
  symbolFree : language.SymbolFree payload.toList

namespace IsPayload

variable {payload : String}

instance : Decidable (language.IsPayload payload) :=
  decidable_of_iff (Text.trimmed payload = payload ∧ language.SymbolFree payload.toList)
    ⟨fun ⟨trimmed, symbolFree⟩ => ⟨trimmed, symbolFree⟩,
      fun ⟨trimmed, symbolFree⟩ => ⟨trimmed, symbolFree⟩⟩

theorem trim_toList (isPayload : language.IsPayload payload) :
    Text.trim payload.toList = payload.toList := by
  rw [← Text.toList_trimmed, isPayload.trimmed]

theorem ofList_trim_cons (isPayload : language.IsPayload payload)
    (isBlank : Text.isBlank blank) :
    String.ofList (Text.trim (blank :: payload.toList)) = payload := by
  rw [Text.trim_cons_of_isBlank isBlank, isPayload.trim_toList, String.ofList_toList]

end IsPayload

/-- A symbol and its payload with a space between them. -/
def writeRemark (language : Language) (remark : Remark) : String :=
  language.symbol remark.keyword ++ " " ++ remark.payload

def write (language : Language) (remarks : Remarks) : String :=
  " ".intercalate (remarks.map language.writeRemark)

theorem toList_writeRemark (remark : Remark) :
    (language.writeRemark remark).toList =
      language.letters remark.keyword ++ ' ' :: remark.payload.toList := by
  simp [writeRemark, letters]

/-- Written remarks begin with the first symbol and are read back; no text comes before them. -/
theorem lead_factor_write (unbroken : language.Unbroken) {remarks : Remarks}
    (payloads : ∀ remark ∈ remarks, language.IsPayload remark.payload) :
    (language.factor (language.write remarks).toList).lead = [] ∧
      language.remarks (language.write remarks) = remarks := by
  have blank : Text.isBlank ' ' := by decide
  unfold Language.remarks
  induction remarks with
  | nil => exact ⟨rfl, rfl⟩
  | cons remark others ih =>
      have isPayload := payloads remark List.mem_cons_self
      have free : language.SymbolFree (' ' :: remark.payload.toList) :=
        symbolFree_nil.append_cons isPayload.symbolFree (unbroken.not_mem_letters blank)
      by_cases more : others = []
      · subst more
        have written : (language.write [remark]).toList =
            language.letters remark.keyword ++ ' ' :: remark.payload.toList :=
          toList_writeRemark remark
        rw [written, factor_symbol (unbroken.keywordAt?_letters _ (by simpa using blank)),
          free.factor_eq]
        simp [isPayload.ofList_trim_cons blank]
      · rcases ih fun other listed => payloads other (List.mem_cons_of_mem _ listed) with
          ⟨lead, othersRead⟩
        have written : (language.write (remark :: others)).toList =
            language.letters remark.keyword ++
              (' ' :: remark.payload.toList ++ ' ' :: (language.write others).toList) := by
          have joined : language.write (remark :: others) =
              language.writeRemark remark ++ " " ++ language.write others :=
            String.intercalate_cons_of_ne_nil (by simpa using more)
          rw [joined, String.toList_append, String.toList_append, toList_writeRemark]
          simp
        rw [written, factor_symbol (unbroken.keywordAt?_letters _ (by simpa using blank)),
          unbroken.factor_append blank free, lead]
        refine ⟨rfl, ?_⟩
        rw [List.map_cons, othersRead]
        dsimp only
        rw [Text.trim_concat_of_isBlank blank, isPayload.ofList_trim_cons blank]

/-- Remarks are read from a line as they were written. -/
theorem remarks_write (unbroken : language.Unbroken) {remarks : Remarks}
    (payloads : ∀ remark ∈ remarks, language.IsPayload remark.payload) :
    language.remarks (language.write remarks) = remarks :=
  (lead_factor_write unbroken payloads).2

/-- What is written is read back, and a keyword's payload is that of the first remark with it. -/
theorem remarks_write_and_payload?_iff (unbroken : language.Unbroken) {remarks : Remarks}
    (payloads : ∀ remark ∈ remarks, language.IsPayload remark.payload) :
    language.remarks (language.write remarks) = remarks ∧
      ∀ keyword,
        (∀ payload, (language.remarks (language.write remarks)).payload? keyword = some payload ↔
          ∃ before after, remarks = before ++ ⟨keyword, payload⟩ :: after ∧
            ∀ earlier ∈ before, earlier.keyword ≠ keyword) ∧
        ((language.remarks (language.write remarks)).payload? keyword = none ↔
          ∀ remark ∈ remarks, remark.keyword ≠ keyword) := by
  have read := remarks_write unbroken payloads
  rw [read]
  exact ⟨rfl, fun keyword =>
    ⟨fun payload => Remarks.payload?_eq_some_iff, Remarks.payload?_eq_none_iff⟩⟩

/-- A language in which a symbol begins with one other and ends with another. -/
def interlocked : Language where
  toVocabulary := (Vocabulary.standard.replace .event "act:!").replace .database "t:!"
  flawless := by decide +kernel

/-- Remarks in no particular order, some without a payload, one keyword twice. -/
def interlockedRemarks : Remarks :=
  [⟨.database, ""⟩, ⟨.activity, "!"⟩, ⟨.event, "a t"⟩, ⟨.activity, ""⟩]

theorem remarks_write_interlocked :
    interlocked.Unbroken ∧
      (∀ remark ∈ interlockedRemarks, interlocked.IsPayload remark.payload) ∧
      interlocked.remarks "t:!  act: ! act:! a t act: " = interlockedRemarks ∧
      (interlocked.remarks "t:!  act: ! act:! a t act: ").payload? .activity = some "!" ∧
      (interlocked.remarks "t:!  act: ! act:! a t act: ").payload? .branchEnd = none := by
  have unbroken : interlocked.Unbroken := by decide +kernel
  have payloads : ∀ remark ∈ interlockedRemarks, interlocked.IsPayload remark.payload := by
    decide +kernel
  have written : interlocked.write interlockedRemarks = "t:!  act: ! act:! a t act: " := by
    decide +kernel
  rcases remarks_write_and_payload?_iff unbroken payloads with ⟨read, found⟩
  rw [written] at read found
  refine ⟨unbroken, payloads, read, ?_, (found .branchEnd).2.2 (by decide)⟩
  exact ((found .activity).1 "!").2
    ⟨[⟨.database, ""⟩], [⟨.event, "a t"⟩, ⟨.activity, ""⟩], rfl, by decide⟩

end Language

end ProcessChain
