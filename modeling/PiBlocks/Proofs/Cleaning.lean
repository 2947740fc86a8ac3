import PiBlocks.Identifier

/-!
# Words that are left alone

What a user types is cleaned up in three steps : characters that stand in no identifier are
dropped, what may not begin one goes from the front, and the first letter gets its case. Names and
process names differ in what may begin them and in the case, so both are told here at once
(`cleaned`), given what the classes of characters have to do with each other (`Begins`). Where case
comes in, only the characters of ASCII have to be looked at (`ascii_or_caseless`).

What is left is the longest end of the characters that were kept with a character in front that may
stand there (`Begins.longestFrom_kept`). So it is a word (`Begins.isWordOf_cleaned`), and a word is
left alone (`Begins.cleaned_eq_self`) : cleaning up is a retraction onto the words and the empty
text (`retracts_words`).
-/

namespace PiBlocks

namespace Identifier

/-! ## Words -/

/-- Whether a text is a word : a character that may begin one, then letters, digits and
underscores. -/
def isWordOf (first : Char → Bool) (text : String) : Bool :=
  match text.toList with
  | [] => false
  | c :: rest => first c && rest.all isPart

/-- Whether a character may begin a name, in its final case. -/
def beginsName (c : Char) : Bool := c.isLower || c = '_'

/-- The longest end of a list with an allowed character in front, and nothing if there is none. -/
structure LongestFrom (allowed : Char → Bool) (chars rest : List Char) : Prop where
  suffix : rest <:+ chars
  head : ∀ c ∈ rest.head?, allowed c = true
  longest : ∀ other, other <:+ chars → (∀ c ∈ other.head?, allowed c = true) → other <:+ rest

/-- The same characters, but for the case of the first one. -/
def SameButCase (chars others : List Char) : Prop :=
  chars.head?.map Char.toLower = others.head?.map Char.toLower ∧ chars.tail = others.tail

/-- A way to clean up texts goes back to the words : it gives one or nothing, leaves these alone
and changes all other texts, and what it gives is the longest end of the parts of an identifier, in
their order, that an allowed character begins. -/
structure Retracts (clean : String → String) (first allowed : Char → Bool) : Prop where
  word : ∀ raw, clean raw = "" ∨ isWordOf first (clean raw) = true
  fixed : ∀ raw, clean raw = raw ↔ raw = "" ∨ isWordOf first raw = true
  idempotent : ∀ raw, clean (clean raw) = clean raw
  longest : ∀ raw, ∃ rest, LongestFrom allowed (raw.toList.filter isPart) rest ∧
    SameButCase (clean raw).toList rest

/-! ## Cleaning up -/

/-- A text without what stands in no identifier and without what is barred from its front, the
first character changed. -/
def cleaned (barred : Char → Bool) (change : Char → Char) (raw : String) : String :=
  String.ofList (changeFirst change ((raw.toList.filter isPart).dropWhile barred))

theorem ofText_eq_cleaned : ofText = cleaned Char.isDigit Char.toLower := rfl

theorem processOfText_eq_cleaned :
    processOfText = cleaned (fun c => c.isDigit || c = '_') Char.toUpper := rfl

/-- What the classes of characters have to do with each other : parts of identifiers that are not
barred are allowed, and to change an allowed character makes one that begins a word. -/
structure Begins (first allowed barred : Char → Bool) (change : Char → Char) : Prop where
  allowed_iff : ∀ c, isPart c = true → (allowed c = true ↔ barred c = false)
  isPart_of_first : ∀ c, first c = true → isPart c = true
  allowed_of_first : ∀ c, first c = true → allowed c = true
  change_of_first : ∀ c, first c = true → change c = c
  first_change : ∀ c, allowed c = true → first (change c) = true
  toLower_change : ∀ c, (change c).toLower = c.toLower

theorem sameButCase_changeFirst {change : Char → Char}
    (hchange : ∀ c, (change c).toLower = c.toLower) (chars : List Char) :
    SameButCase (changeFirst change chars) chars := by
  cases chars with
  | nil => exact ⟨rfl, rfl⟩
  | cons c rest => exact ⟨congrArg some (hchange c), rfl⟩

theorem longestFrom_dropWhile {allowed barred : Char → Bool} {chars : List Char}
    (h : ∀ c ∈ chars, allowed c = true ↔ barred c = false) :
    LongestFrom allowed chars (chars.dropWhile barred) := by
  induction chars with
  | nil => exact ⟨List.suffix_refl _, by simp, fun _ hother _ => hother⟩
  | cons c rest ih =>
    obtain ⟨hc, hrest⟩ := List.forall_mem_cons.1 h
    by_cases hbarred : barred c = true
    · rw [List.dropWhile_cons_of_pos hbarred]
      obtain ⟨hsuffix, hallowed, hlongest⟩ := ih hrest
      refine ⟨hsuffix.trans (List.suffix_cons c rest), hallowed, fun other hother hhead => ?_⟩
      rcases List.suffix_cons_iff.1 hother with rfl | hother
      · have hfree := hc.1 (hhead c rfl)
        rw [hbarred] at hfree
        cases hfree
      · exact hlongest other hother hhead
    · rw [List.dropWhile_cons_of_neg hbarred]
      refine ⟨List.suffix_refl _, ?_, fun other hother _ => hother⟩
      rintro _ ⟨⟩
      exact hc.2 (Bool.eq_false_iff.2 hbarred)

namespace Begins

variable {first allowed barred : Char → Bool} {change : Char → Char}
  (h : Begins first allowed barred change)
include h

/-- Of the parts of identifiers in a text, the longest end is kept that an allowed character
begins. -/
theorem longestFrom_kept (raw : String) : LongestFrom allowed (raw.toList.filter isPart)
    ((raw.toList.filter isPart).dropWhile barred) :=
  longestFrom_dropWhile fun c hc => h.allowed_iff c (List.mem_filter.1 hc).2

/-- A word is left alone. -/
theorem cleaned_eq_self {text : String} (hword : isWordOf first text = true) :
    cleaned barred change text = text := by
  cases htext : text.toList with
  | nil => simp [isWordOf, htext] at hword
  | cons c rest =>
    obtain ⟨hc, hrest⟩ : first c = true ∧ ∀ c ∈ rest, isPart c = true := by
      simpa [isWordOf, htext] using hword
    have hpart := h.isPart_of_first c hc
    have hkept : (c :: rest).filter isPart = c :: rest :=
      List.filter_eq_self.2 (List.forall_mem_cons.2 ⟨hpart, hrest⟩)
    have hfree : ¬barred c = true :=
      Bool.eq_false_iff.1 ((h.allowed_iff c hpart).1 (h.allowed_of_first c hc))
    unfold cleaned
    rw [htext, hkept, List.dropWhile_cons_of_neg hfree, changeFirst, h.change_of_first c hc,
      ← htext, String.ofList_toList]

/-- What is left of a text is a word or nothing. -/
theorem isWordOf_cleaned (raw : String) :
    cleaned barred change raw = "" ∨ isWordOf first (cleaned barred change raw) = true := by
  have hkept := h.longestFrom_kept raw
  unfold cleaned
  cases hleft : (raw.toList.filter isPart).dropWhile barred with
  | nil => exact .inl rfl
  | cons c rest =>
    rw [hleft] at hkept
    have hrest : rest.all isPart = true := by
      refine List.all_eq_true.2 fun c hc => ?_
      exact (List.mem_filter.1 (hkept.suffix.subset (List.mem_cons_of_mem _ hc))).2
    right
    simp [isWordOf, changeFirst, h.first_change c (hkept.head c rfl), hrest]

theorem retracts : Retracts (cleaned barred change) first allowed where
  word := h.isWordOf_cleaned
  fixed raw := by
    constructor
    · intro heq
      rw [← heq]
      exact h.isWordOf_cleaned raw
    · rintro (rfl | hword)
      · rfl
      · exact h.cleaned_eq_self hword
  idempotent raw := by
    rcases h.isWordOf_cleaned raw with hempty | hword
    · rw [hempty]
      rfl
    · exact h.cleaned_eq_self hword
  longest raw := by
    refine ⟨_, h.longestFrom_kept raw, ?_⟩
    rw [cleaned, String.toList_ofList]
    exact sameButCase_changeFirst h.toLower_change _

end Begins

/-! ## Names and process names -/

section

variable {c : Char}

theorem isPart_of_isAlpha (h : c.isAlpha = true) : isPart c = true := by
  simp [isPart, Char.isAlphanum, h]

theorem isPart_of_isDigit (h : c.isDigit = true) : isPart c = true := by
  simp [isPart, Char.isAlphanum, h]

theorem isAlpha_of_isUpper (h : c.isUpper = true) : c.isAlpha = true :=
  Bool.or_eq_true_iff.2 (.inl h)

theorem isAlpha_of_isLower (h : c.isLower = true) : c.isAlpha = true :=
  Bool.or_eq_true_iff.2 (.inr h)

/-- Case is a matter of ASCII : other characters are no letters and stay as they are. -/
theorem ascii_or_caseless (c : Char) : (∃ n : Fin 128, c = Char.ofNat n) ∨
    c.isAlpha = false ∧ c.toLower = c ∧ c.toUpper = c := by
  by_cases h : c.toNat < 128
  · exact .inl ⟨⟨c.toNat, h⟩, (Char.ofNat_toNat c).symm⟩
  · have hbeyond {last : Char} (hlast : last.toNat < 128) : ¬c.val ≤ last.val := fun hle =>
      h (Nat.lt_of_le_of_lt (UInt32.le_iff_toNat_le.1 hle) hlast)
    have hupper : ¬(c.val ≥ 'A'.val ∧ c.val ≤ 'Z'.val) := fun hin => hbeyond (by decide) hin.2
    have hlower : ¬(c.val ≥ 'a'.val ∧ c.val ≤ 'z'.val) := fun hin => hbeyond (by decide) hin.2
    have hnotLower : c.isLower = false := (Bool.decide_and _ _).symm.trans (decide_eq_false hlower)
    exact .inr ⟨Bool.or_eq_false_iff.2 ⟨decide_eq_false hupper, hnotLower⟩, dif_neg hupper,
      dif_neg hlower⟩

/-- No letter is a digit. -/
theorem not_isDigit_of_isAlpha (h : c.isAlpha = true) : c.isDigit = false := by
  rcases ascii_or_caseless c with ⟨n, rfl⟩ | ⟨halpha, -, -⟩
  · revert n
    decide
  · rw [halpha] at h
    cases h

end

/-- Names begin with a letter or an underscore, and that is a small letter in the end. -/
theorem begins_name :
    Begins beginsName (fun c => c.isAlpha || c = '_') Char.isDigit Char.toLower where
  allowed_iff c hc := by
    constructor
    · intro h
      rcases Bool.or_eq_true_iff.1 h with halpha | hunderscore
      · exact not_isDigit_of_isAlpha halpha
      · rw [of_decide_eq_true hunderscore]
        rfl
    · intro h
      simpa [isPart, Char.isAlphanum, h] using hc
  isPart_of_first c hc := by
    rcases Bool.or_eq_true_iff.1 hc with hlower | hunderscore
    · exact isPart_of_isAlpha (isAlpha_of_isLower hlower)
    · simp [isPart, hunderscore]
  allowed_of_first c hc := by
    rcases Bool.or_eq_true_iff.1 hc with hlower | hunderscore
    · simp [isAlpha_of_isLower hlower]
    · simp [hunderscore]
  change_of_first c hc := by
    rcases ascii_or_caseless c with ⟨n, rfl⟩ | ⟨-, hsame, -⟩
    · revert n
      decide
    · exact hsame
  first_change c hc := by
    rcases ascii_or_caseless c with ⟨n, rfl⟩ | ⟨halpha, hsame, -⟩
    · revert n
      decide
    · simp only [halpha, Bool.false_or] at hc
      simp [beginsName, hsame, hc]
  toLower_change c := by
    rcases ascii_or_caseless c with ⟨n, rfl⟩ | ⟨-, hsame, -⟩
    · revert n
      decide
    · rw [hsame, hsame]

/-- Process names begin with a letter, and that is a large one in the end. -/
theorem begins_process :
    Begins Char.isUpper Char.isAlpha (fun c => c.isDigit || c = '_') Char.toUpper where
  allowed_iff c hc := by
    constructor
    · intro h
      have hunderscore : c ≠ '_' := by
        rintro rfl
        cases h
      simp [not_isDigit_of_isAlpha h, hunderscore]
    · intro h
      simp only [Bool.or_eq_false_iff, decide_eq_false_iff_not] at h
      simpa [isPart, Char.isAlphanum, h.1, h.2] using hc
  isPart_of_first c hc := isPart_of_isAlpha (isAlpha_of_isUpper hc)
  allowed_of_first c hc := isAlpha_of_isUpper hc
  change_of_first c hc := by
    rcases ascii_or_caseless c with ⟨n, rfl⟩ | ⟨-, -, hsame⟩
    · revert n
      decide
    · exact hsame
  first_change c hc := by
    rcases ascii_or_caseless c with ⟨n, rfl⟩ | ⟨halpha, -, -⟩
    · revert n
      decide
    · rw [halpha] at hc
      cases hc
  toLower_change c := by
    rcases ascii_or_caseless c with ⟨n, rfl⟩ | ⟨-, -, hsame⟩
    · revert n
      decide
    · rw [hsame]

/-- To clean up a name is to go back to the words that a small letter or an underscore begins, and
to clean up a process name, to those that a large letter begins : nothing but these and the empty
text is left alone, and of any text the longest end of its letters, digits and underscores is kept
that may begin such a word, the case of its first letter apart. -/
theorem retracts_words :
    Retracts ofText beginsName (fun c => c.isAlpha || c = '_') ∧
      Retracts processOfText Char.isUpper Char.isAlpha := by
  rw [ofText_eq_cleaned, processOfText_eq_cleaned]
  exact ⟨begins_name.retracts, begins_process.retracts⟩

/-- Letters outside of ASCII go, and the digits that come to the front with them. -/
example : ofText "é9 ßTeil_2" = "teil_2" ∧ processOfText "__é9_ pool" = "Pool" := by
  decide +kernel

end Identifier

end PiBlocks
