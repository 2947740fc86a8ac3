import PiBlocks.Json.Node

/-!
# The texts of numbers

Where a number is written among other things, the scanner finds one token
(`scanFrom_number`) : a number, or the null value that stands for a double no JSON number can
hold. It is the number that was written if the text by itself reads back as that number
(`Number.ReadsBack`), for the place of a text enters a numeral only with the offset at which an
exponent became too large (`Numeral.erased`). Whether a double reads back is a matter of its
digits and of rounding, and is not decided here ; a natural number does while it fits into the
significand (`readsBack_natural`).

What characters do to a numeral is told piece by piece. `Carries` says that they take the
scanner from one stage to another whatever the numeral and whatever follows ; the pieces of a
written number (`Decimal.positional`, `Decimal.scientific`) are put together from there.
-/

namespace PiBlocks

namespace Json

/-! ## Numerals without places -/

namespace Numeral

/-- The numeral without the offset at which its exponent became too large. -/
def erased (n : Numeral) : Numeral := { n with overflow := n.overflow.map fun _ => 0 }

theorem erased_wholeDigit (n : Numeral) (digit : Nat) :
    (n.wholeDigit digit).erased = n.erased.wholeDigit digit :=
  apply_ite erased _ _ _

theorem erased_fractionDigit (n : Numeral) (digit : Nat) :
    (n.fractionDigit digit).erased = n.erased.fractionDigit digit :=
  apply_ite erased _ _ _

theorem erased_exponentDigit (n : Numeral) (digit past : Nat) :
    (n.exponentDigit digit past).erased = n.erased.exponentDigit digit 0 := by
  by_cases ho : n.overflow.isSome
  · simp [exponentDigit, erased, ho]
  · by_cases h : Nat.pow 2 31 ≤ n.exponent * 10 + digit <;> simp [exponentDigit, erased, ho, h]

/-- The value does not depend on places, if there is one. -/
theorem value_of_erased {n other : Numeral} {number : Number} (stop stop' : Nat)
    (h : n.erased = other.erased) (hvalue : n.value stop = .ok number) :
    other.value stop' = .ok number := by
  obtain ⟨negative, significand, full, scale, real, negativeExponent, exponent, overflow⟩ := n
  obtain ⟨_, _, _, _, _, _, _, overflow'⟩ := other
  obtain ⟨rfl, rfl, rfl, rfl, rfl, rfl, rfl, ho⟩ := by simpa [erased] using h
  unfold value at hvalue ⊢
  by_cases hreal : real || full
  · rw [if_pos hreal] at hvalue ⊢
    cases overflow <;> cases overflow' <;> simp at ho
    · cases hsize : magnitude ⟨negative, significand, full, scale, real, negativeExponent, exponent,
        none⟩ with
      | none => simp [hsize] at hvalue
      | some size => simpa [hsize] using hvalue
    · by_cases hlarge : significand ≠ 0 ∧ negativeExponent = false
      · simp [hlarge] at hvalue
      · simpa [hlarge] using hvalue
  · rw [if_neg hreal] at hvalue ⊢
    exact hvalue

end Numeral

/-! ## From stage to stage -/

/-- Characters that take a number from one stage to another and change it so, whatever comes
before and behind. -/
def Carries (cs : List Char) (stage stage' : Stage) (change : Numeral → Numeral) : Prop :=
  ∀ start here numeral, ∃ numeral' stop, Numeral.erased numeral' = change numeral.erased ∧
    ∀ rest, scanFrom (.number start numeral stage) here (cs ++ rest) =
      scanFrom (.number start numeral' stage') stop rest

namespace Carries

variable {cs more : List Char} {stage stage' stage'' : Stage} {change change' : Numeral → Numeral}

theorem append (h : Carries cs stage stage' change) (hmore : Carries more stage' stage'' change') :
    Carries (cs ++ more) stage stage'' (change' ∘ change) := by
  intro start here numeral
  obtain ⟨middle, stop, hmiddle, hscan⟩ := h start here numeral
  obtain ⟨last, stop', hlast, hscan'⟩ := hmore start stop middle
  refine ⟨last, stop', by rw [hlast, hmiddle, Function.comp_apply], fun rest => ?_⟩
  rw [List.append_assoc, hscan, hscan']

/-- A character that takes the scanner one step. -/
theorem of_step {c : Char} (h : ∀ start here numeral, ∃ numeral',
    stepNumber start here numeral stage c = ([], .number start numeral' stage') ∧
      Numeral.erased numeral' = change numeral.erased) :
    Carries [c] stage stage' change := by
  intro start here numeral
  obtain ⟨numeral', hstep, hnumeral⟩ := h start here numeral
  refine ⟨numeral', here + c.utf8Size, hnumeral, fun rest => ?_⟩
  simp [scanFrom, Scan.step, hstep]

end Carries

/-- Characters that take a number from one stage to another. -/
def Leads (cs : List Char) (stage stage' : Stage) : Prop := ∃ change, Carries cs stage stage' change

theorem Leads.append {cs more : List Char} {stage stage' stage'' : Stage}
    (h : Leads cs stage stage') (hmore : Leads more stage' stage'') :
    Leads (cs ++ more) stage stage'' :=
  h.elim fun _ h => hmore.elim fun _ hmore => ⟨_, h.append hmore⟩

/-! ## Digits -/

theorem digit?_of_isDigit {c : Char} (h : c.isDigit = true) :
    digit? c = some (c.toNat - '0'.toNat) := by
  have hc : '0' ≤ c ∧ c ≤ '9' := by simpa [Char.isDigit, Char.le_def] using h
  rw [digit?, if_pos hc]

/-- A digit before the point. -/
theorem carries_wholeDigit {c : Char} (h : c.isDigit = true) :
    Carries [c] .whole .whole fun n => n.wholeDigit (c.toNat - '0'.toNat) :=
  .of_step fun start here numeral => ⟨_, by simp [stepNumber, digit?_of_isDigit h],
    Numeral.erased_wholeDigit numeral _⟩

/-- A first digit that is no zero. -/
theorem carries_leadingDigit {c : Char} (h : c.isDigit = true) (hzero : c ≠ '0') :
    Carries [c] .sign .whole fun n => n.wholeDigit (c.toNat - '0'.toNat) := by
  have hc : 48 ≤ c.toNat ∧ c.toNat ≤ 57 := by
    simpa [Char.isDigit, Char.le_def, UInt32.le_iff_toNat_le] using h
  have hne : c.toNat - '0'.toNat ≠ 0 := fun heq =>
    hzero (Char.toNat_inj.1 (by simp at heq ⊢; omega))
  exact .of_step fun start here numeral => ⟨_, by
    simp only [stepNumber, digit?_of_isDigit h, if_neg hne], Numeral.erased_wholeDigit numeral _⟩

/-- A first digit and others, the first one no zero. -/
theorem carries_wholeDigits {c : Char} {cs : List Char} (hzero : c ≠ '0')
    (h : ∀ d ∈ c :: cs, d.isDigit = true) : Carries (c :: cs) .sign .whole fun n =>
      (c :: cs).foldl (fun n d => n.wholeDigit (d.toNat - '0'.toNat)) n := by
  have hmore : Carries cs .whole .whole fun n =>
      cs.foldl (fun n d => n.wholeDigit (d.toNat - '0'.toNat)) n := by
    have hcs := fun d hd => h d (List.mem_cons_of_mem c hd)
    clear h
    induction cs with
    | nil => exact fun start here numeral => ⟨numeral, here, rfl, fun _ => rfl⟩
    | cons d cs ih =>
      exact (carries_wholeDigit (hcs d List.mem_cons_self)).append
        (ih fun e he => hcs e (List.mem_cons_of_mem d he))
  exact (carries_leadingDigit (h c List.mem_cons_self) hzero).append hmore

namespace Leads

variable {c : Char} {stage stage' : Stage}

theorem of_step (change : Numeral → Numeral) (h : ∀ start here numeral, ∃ numeral',
    stepNumber start here numeral stage c = ([], .number start numeral' stage') ∧
      Numeral.erased numeral' = change numeral.erased) : Leads [c] stage stage' :=
  ⟨change, .of_step h⟩

theorem zero : Leads ['0'] .sign .zero :=
  of_step (·.wholeDigit 0) fun _ _ numeral => ⟨_, rfl, Numeral.erased_wholeDigit numeral 0⟩

theorem point (h : stage = .zero ∨ stage = .whole) : Leads ['.'] stage .point := by
  obtain rfl | rfl := h <;> exact of_step Numeral.point fun _ _ numeral => ⟨_, rfl, rfl⟩

theorem letter (h : stage = .zero ∨ stage = .whole ∨ stage = .fraction) :
    Leads ['e'] stage .letter := by
  obtain rfl | rfl | rfl := h
  · exact of_step (fun n => { n with real := true }) fun _ _ numeral => ⟨_, rfl, rfl⟩
  · exact of_step (fun n => { n with real := true }) fun _ _ numeral => ⟨_, rfl, rfl⟩
  · exact of_step id fun _ _ numeral => ⟨_, rfl, rfl⟩

theorem letterSign (negative : Bool) :
    Leads [if negative then '-' else '+'] .letter .letterSign := by
  cases negative
  · exact of_step id fun _ _ numeral => ⟨_, rfl, rfl⟩
  · exact of_step (fun n => { n with negativeExponent := true }) fun _ _ numeral => ⟨_, rfl, rfl⟩

theorem fractionDigit (h : c.isDigit = true) (hstage : stage = .point ∨ stage = .fraction) :
    Leads [c] stage .fraction := by
  obtain rfl | rfl := hstage <;> exact of_step (·.fractionDigit (c.toNat - '0'.toNat))
    fun _ _ numeral => ⟨_, by simp [stepNumber, digit?_of_isDigit h],
      Numeral.erased_fractionDigit numeral _⟩

theorem exponentDigit (h : c.isDigit = true) (hstage : stage = .letterSign ∨ stage = .exponent) :
    Leads [c] stage .exponent := by
  obtain rfl | rfl := hstage <;> exact of_step (·.exponentDigit (c.toNat - '0'.toNat) 0)
    fun _ here numeral => ⟨_, by simp [stepNumber, digit?_of_isDigit h],
      Numeral.erased_exponentDigit numeral _ (here + 1)⟩

/-- Digits, at least one, that lead on to a stage and do not lead out of it. -/
theorem digits (more : ∀ c : Char, c.isDigit = true → Leads [c] stage' stage') :
    ∀ (cs : List Char) (stage : Stage), (∀ c : Char, c.isDigit = true → Leads [c] stage stage') →
      cs ≠ [] → (∀ c ∈ cs, c.isDigit = true) → Leads cs stage stage'
  | [c], _, first, _, h => first c (h c List.mem_cons_self)
  | c :: d :: cs, _, first, _, h =>
    (first c (h c List.mem_cons_self)).append (digits more (d :: cs) stage' more
      (List.cons_ne_nil d cs) fun e he => h e (List.mem_cons_of_mem c he))

theorem fraction {cs : List Char} (hne : cs ≠ []) (h : ∀ c ∈ cs, c.isDigit = true) :
    Leads cs .point .fraction :=
  digits (fun _ hc => fractionDigit hc (.inr rfl)) cs .point
    (fun _ hc => fractionDigit hc (.inl rfl)) hne h

theorem exponent {cs : List Char} (hne : cs ≠ []) (h : ∀ c ∈ cs, c.isDigit = true) :
    Leads cs .letterSign .exponent :=
  digits (fun _ hc => exponentDigit hc (.inr rfl)) cs .letterSign
    (fun _ hc => exponentDigit hc (.inl rfl)) hne h

theorem whole {c : Char} {cs : List Char} (hzero : c ≠ '0')
    (h : ∀ d ∈ c :: cs, d.isDigit = true) : Leads (c :: cs) .sign .whole :=
  ⟨_, carries_wholeDigits hzero h⟩

end Leads

/-! ## Whole numbers, decimals and powers of ten -/

/-- Stages at which a number may end. -/
def Stage.IsLast : Stage → Prop
  | .zero | .whole | .fraction | .exponent => True
  | .sign | .point | .letter | .letterSign => False

/-- Characters that are a number without sign. -/
def IsUnsigned (cs : List Char) : Prop :=
  (∃ c more, cs = c :: more ∧ c.isDigit = true) ∧ ∃ stage, stage.IsLast ∧ Leads cs .sign stage

theorem isUnsigned_zero : IsUnsigned ['0'] := ⟨⟨'0', [], rfl, rfl⟩, .zero, trivial, .zero⟩

theorem isUnsigned_zero_point : IsUnsigned ['0', '.', '0'] :=
  ⟨⟨'0', ['.', '0'], rfl, rfl⟩, .fraction, trivial, Leads.zero.append
    ((Leads.point (.inl rfl)).append (.fraction (by simp) (by simp [Char.isDigit])))⟩

/-- Digits that stand for no power of ten more than they need : the first one is no zero. -/
structure Significant (digits : List Char) : Prop where
  isDigit : ∀ c ∈ digits, c.isDigit = true
  leading : ∃ c more, digits = c :: more ∧ c ≠ '0'

namespace Significant

variable {digits : List Char} (h : Significant digits)
include h

theorem ne_nil : digits ≠ [] := by
  obtain ⟨c, more, rfl, -⟩ := h.leading
  exact List.cons_ne_nil c more

theorem leads_append (more : List Char) (hmore : ∀ c ∈ more, c.isDigit = true) :
    Leads (digits ++ more) .sign .whole := by
  obtain ⟨c, rest, rfl, hzero⟩ := h.leading
  exact .whole hzero fun d hd => (List.mem_append.1 hd).elim (h.isDigit d) (hmore d)

theorem head_append (more : List Char) :
    ∃ c rest, digits ++ more = c :: rest ∧ c.isDigit = true := by
  obtain ⟨c, rest, rfl, -⟩ := h.leading
  exact ⟨c, rest ++ more, rfl, h.isDigit c List.mem_cons_self⟩

theorem leads : Leads digits .sign .whole := by
  simpa using h.leads_append [] (by simp)

theorem isUnsigned : IsUnsigned digits :=
  ⟨by simpa using h.head_append [], .whole, trivial, h.leads⟩

/-- The first digits of some. -/
theorem take (count : Nat) (hcount : 0 < count) : Significant (digits.take count) := by
  obtain ⟨c, more, rfl, hzero⟩ := h.leading
  obtain ⟨count, rfl⟩ := Nat.exists_eq_add_of_lt hcount
  exact ⟨fun d hd => h.isDigit d (List.mem_of_mem_take hd), c, more.take (0 + count), by simp,
    hzero⟩

theorem isUnsigned_positional (point : Int) : IsUnsigned (Decimal.positional digits point) := by
  unfold Decimal.positional
  split
  · have hfraction : Leads (List.replicate (-point).toNat '0' ++ digits) .point .fraction :=
      .fraction (by simp [h.ne_nil]) fun c hc => (List.mem_append.1 hc).elim
        (fun hc => (List.eq_of_mem_replicate hc) ▸ rfl) (h.isDigit c)
    exact ⟨⟨'0', _, rfl, rfl⟩, .fraction, trivial,
      Leads.zero.append ((Leads.point (.inl rfl)).append hfraction)⟩
  · split
    · obtain ⟨c, rest, heq, hc⟩ := h.head_append (List.replicate (point.toNat - digits.length) '0')
      have hwhole := h.leads_append (List.replicate (point.toNat - digits.length) '0')
        fun c hc => (List.eq_of_mem_replicate hc) ▸ rfl
      have hfraction : Leads ['0'] .point .fraction := .fraction (by simp) (by simp [Char.isDigit])
      exact ⟨⟨c, rest ++ ['.', '0'], by rw [heq]; rfl, hc⟩, .fraction, trivial,
        hwhole.append ((Leads.point (.inr rfl)).append hfraction)⟩
    · have hfirst := h.take point.toNat (by omega)
      obtain ⟨c, rest, heq, hc⟩ := hfirst.head_append []
      rw [List.append_nil] at heq
      have hfraction : Leads (digits.drop point.toNat) .point .fraction :=
        .fraction (by simp; omega) fun c hc => h.isDigit c (List.mem_of_mem_drop hc)
      exact ⟨⟨c, rest ++ '.' :: digits.drop point.toNat, by rw [heq]; rfl, hc⟩, .fraction, trivial,
        hfirst.leads.append ((Leads.point (.inr rfl)).append hfraction)⟩

theorem isUnsigned_scientific (exponent : Int) :
    IsUnsigned (Decimal.scientific digits exponent) := by
  have hpower (stage : Stage) (hstage : stage = .zero ∨ stage = .whole ∨ stage = .fraction) :
      Leads ('e' :: (if exponent < 0 then '-' else '+') :: Nat.toDigits 10 exponent.natAbs) stage
        .exponent := by
    have hsign : Leads [if exponent < 0 then '-' else '+'] .letter .letterSign := by
      simpa using Leads.letterSign (exponent < 0)
    exact (Leads.letter hstage).append (hsign.append (.exponent Nat.toDigits_ne_nil
      fun c hc => Nat.isDigit_of_mem_toDigits (by omega) (by omega) hc))
  obtain ⟨c, more, rfl, hzero⟩ := h.leading
  have hc := h.isDigit c List.mem_cons_self
  have hfirst : Leads [c] .sign .whole := .whole hzero (by simpa using hc)
  cases more with
  | nil =>
    exact ⟨⟨c, _, rfl, hc⟩, .exponent, trivial, hfirst.append (hpower .whole (.inr (.inl rfl)))⟩
  | cons d more =>
    have hfraction : Leads (d :: more) .point .fraction :=
      .fraction (List.cons_ne_nil d more) fun e he => h.isDigit e (List.mem_cons_of_mem c he)
    exact ⟨⟨c, _, rfl, hc⟩, .exponent, trivial, hfirst.append ((Leads.point (.inr rfl)).append
      (hfraction.append (hpower .fraction (.inr (.inr rfl)))))⟩

end Significant

/-! ## The digits of a number -/

theorem digitChar_ne_zero {n : Nat} (hpos : 0 < n) (h : n < 10) : n.digitChar ≠ '0' := by
  intro heq
  have := Nat.toNat_digitChar_of_lt_ten h
  rw [heq] at this
  simp at this
  omega

theorem significant_toDigits (n : Nat) (h : 0 < n) : Significant (Nat.toDigits 10 n) := by
  refine ⟨fun c hc => Nat.isDigit_of_mem_toDigits (by omega) (by omega) hc, ?_⟩
  induction n using Nat.strongRecOn with
  | _ n ih =>
    rw [Nat.toDigits_eq_if (by omega)]
    split
    · exact ⟨n.digitChar, [], rfl, digitChar_ne_zero h ‹_›⟩
    · obtain ⟨c, more, heq, hzero⟩ := ih (n / 10) (by omega) (by omega)
      exact ⟨c, more ++ [(n % 10).digitChar], by rw [heq]; rfl, hzero⟩

open Decimal in
theorem stripZeros_isPrefix : ∀ cs : List Char, (stripZeros cs).1 <+: cs
  | [] => List.prefix_refl []
  | c :: cs => by
    have ih := stripZeros_isPrefix cs
    rw [stripZeros]
    split
    · split
      · exact List.nil_prefix
      · exact List.prefix_cons_inj c |>.2 List.nil_prefix
    · rename_i heq
      exact (List.prefix_cons_inj c).2 (by simpa [heq] using ih)

open Decimal in
theorem stripZeros_cons_ne_nil {c : Char} (h : c ≠ '0') (cs : List Char) :
    (stripZeros (c :: cs)).1 ≠ [] := by
  rw [stripZeros]
  split
  · simp [h]
  · simp

/-- Zeros at the end do not matter for what comes first. -/
theorem Significant.stripZeros {digits : List Char} (h : Significant digits) :
    Significant (Decimal.stripZeros digits).1 := by
  obtain ⟨c, more, rfl, hzero⟩ := h.leading
  have hfront := stripZeros_isPrefix (c :: more)
  obtain ⟨d, kept, heq⟩ := List.exists_cons_of_ne_nil (stripZeros_cons_ne_nil hzero more)
  have hd : d = c := by
    rw [heq] at hfront
    exact (List.cons_prefix_cons.1 hfront).1
  exact ⟨fun e he => h.isDigit e (hfront.subset he), d, kept, heq, hd ▸ hzero⟩

end Json

/-! ## Decimals of doubles -/

namespace Decimal

theorem power_pos {base : Nat} (h : 0 < base) (e : Int) :
    0 < (power base e).1 ∧ 0 < (power base e).2 := by
  unfold power
  split
  · exact ⟨Nat.pow_pos h, Nat.one_pos⟩
  · exact ⟨Nat.one_pos, Nat.pow_pos h⟩

namespace Binary

variable {b : Binary} (h : 0 < b.mantissa)
include h

/-- Zero does not round to a positive double. -/
theorem holds_zero (k : Int) : b.holds 0 k = false := by
  have hscale : 0 < b.quarter.1 * (power 10 k).2 :=
    Nat.mul_pos (power_pos (by omega) _).1 (power_pos (by omega) k).2
  have hlow : 0 < (4 * b.mantissa - (if b.closeBelow then 1 else 2)) *
      (b.quarter.1 * (power 10 k).2) := Nat.mul_pos (by split <;> omega) hscale
  simp only [holds, Nat.zero_mul, Nat.not_lt_zero, decide_eq_false (Nat.not_le.2 hlow),
    decide_false, Bool.false_and, ite_self]

theorem digits_pos_of_onGrid {k : Int} {found : Digits} (hfound : b.onGrid k = some found) :
    0 < found.digits := by
  refine Nat.pos_of_ne_zero fun hzero => ?_
  have hholds : b.holds found.digits k = true := by
    unfold onGrid at hfound
    extract_lets v p numerator denominator below rest nearer other at hfound
    split at hfound
    · obtain rfl := Option.some.inj hfound
      assumption
    · split at hfound
      · obtain rfl := Option.some.inj hfound
        assumption
      · cases hfound
  rw [hzero, holds_zero h] at hholds
  cases hholds

theorem digits_shortest : 0 < b.shortest.digits ∨ b.shortest = ⟨0, 0⟩ := by
  unfold shortest
  dsimp only
  split
  · rename_i found hfound
    obtain ⟨count, -, hgrid⟩ := List.exists_of_findSome?_eq_some hfound
    exact .inl (digits_pos_of_onGrid h hgrid)
  · exact .inr rfl

theorem isUnsigned_textOf : Json.IsUnsigned (textOf b) := by
  rcases digits_shortest h with hpos | hzero
  · have hdigits := (Json.significant_toDigits _ hpos).stripZeros
    unfold textOf
    dsimp only
    split
    · exact hdigits.isUnsigned_positional _
    · exact hdigits.isUnsigned_scientific _
  · have htext : textOf b = ['0', '.', '0'] := by
      rw [textOf, hzero]
      rfl
    rw [htext]
    exact ⟨⟨'0', _, rfl, rfl⟩, .fraction, trivial, Json.Leads.zero.append
      ((Json.Leads.point (.inl rfl)).append (.fraction (by simp) (by simp [Char.isDigit])))⟩

end Binary

theorem mantissa_pos_of_ofBits {bits : UInt64} {negative : Bool} {b : Binary}
    (h : ofBits bits = (negative, some b)) : 0 < b.mantissa := by
  unfold ofBits at h
  dsimp only at h
  split at h
  · simp at h
  · split at h
    · split at h
      · simp at h
      · obtain ⟨-, rfl⟩ := by simpa using h
        exact Nat.pos_of_ne_zero ‹_›
    · obtain ⟨-, rfl⟩ := Prod.mk.inj h |>.imp_right Option.some.inj
      exact Nat.add_pos_left (Nat.pow_pos Nat.two_pos) _

end Decimal

/-! ## Numbers among other things -/

/-- The text of a number is the null value or a number with or without a sign. -/
theorem Number.text_cases (n : Number) : n.text.toList = ['n', 'u', 'l', 'l'] ∨
    ∃ cs, Json.IsUnsigned cs ∧ (n.text.toList = cs ∨ n.text.toList = '-' :: cs) := by
  have hnatural (n : Nat) : ∃ cs, Json.IsUnsigned cs ∧ n.repr.toList = cs := by
    refine ⟨_, ?_, by rw [Nat.repr_eq_ofList_toDigits, String.toList_ofList]⟩
    rcases Nat.eq_zero_or_pos n with rfl | hpos
    · exact Json.isUnsigned_zero
    · exact (Json.significant_toDigits n hpos).isUnsigned
  cases n with
  | integer value =>
    cases value with
    | ofNat n =>
      obtain ⟨cs, hcs, htext⟩ := hnatural n
      exact .inr ⟨cs, hcs, .inl htext⟩
    | negSucc n =>
      obtain ⟨cs, hcs, htext⟩ := hnatural (n + 1)
      refine .inr ⟨cs, hcs, .inr ?_⟩
      have hrepr : (Number.integer (Int.negSucc n)).text = "-" ++ (n + 1).repr := rfl
      rw [hrepr, String.toList_append, htext]
      rfl
  | real value =>
    rcases hbits : Decimal.ofBits value.toBits with ⟨negative, _ | b⟩
    · by_cases hfinite : value.isFinite
      · refine .inr ⟨_, Json.isUnsigned_zero_point, ?_⟩
        cases negative <;> simp [Number.text, Float.text, hbits, hfinite]
      · exact .inl (by simp [Number.text, Float.text, hbits, hfinite])
    · refine .inr ⟨_, Decimal.Binary.isUnsigned_textOf (Decimal.mantissa_pos_of_ofBits hbits), ?_⟩
      cases negative <;> simp [Number.text, Float.text, hbits]

namespace Json

/-- What may stand behind a value : nothing, space, a comma or a closing bracket. -/
def Delimited : List Char → Prop
  | [] => True
  | c :: _ => isGap c = true ∨ c = ',' ∨ c = ']' ∨ c = '}'

/-- A number ends where something else begins. -/
theorem scanFrom_of_isLast {stage : Stage} (hlast : stage.IsLast) {rest : List Char}
    (h : Delimited rest) (start here : Nat) (numeral : Numeral) :
    scanFrom (.number start numeral stage) here rest =
      ⟨start, here, .number (numeral.value here)⟩ :: scanFrom .between here rest := by
  cases rest with
  | nil => cases stage <;> first | exact hlast.elim | rfl
  | cons c rest =>
    have hc : digit? c = none ∧ c ≠ '.' ∧ ¬(c = 'e' ∨ c = 'E') := by
      rcases h with h | rfl | rfl | rfl
      · simp only [isGap, Bool.or_eq_true, decide_eq_true_eq] at h
        rcases h with ((rfl | rfl) | rfl) | rfl <;> decide
      all_goals decide
    have hstep : stepNumber start here numeral stage c = endNumber start here numeral c := by
      cases stage <;> first
        | exact hlast.elim
        | simp only [stepNumber, hc.1, afterWhole, if_neg hc.2.1, if_neg hc.2.2]
    rw [scanFrom, scanFrom, Scan.step, Scan.step, hstep]
    rfl

/-- A digit begins a number as it goes on behind a sign. -/
theorem begin_of_isDigit {c : Char} (h : c.isDigit = true) (here : Nat) :
    begin here c = stepNumber here here {} .sign c := by
  have hne (d : Char) (hd : d.isDigit = false) : c ≠ d := by
    rintro rfl
    rw [h] at hd
    cases hd
  simp [begin, isGap, stepNumber, digit?_of_isDigit h, hne ' ' rfl, hne '\n' rfl, hne '\t' rfl,
    hne '\r' rfl, hne '"' rfl, hne '-' rfl, hne 'n' rfl, hne 't' rfl, hne 'f' rfl]

/-- Wherever a number is written, with a sign or without one, one token stands there, and its
numeral is the same but for places. -/
theorem scanFrom_carries {c : Char} {more : List Char} {stage : Stage}
    {change : Numeral → Numeral} (hc : c.isDigit = true) (hlast : stage.IsLast)
    (h : Carries (c :: more) .sign stage change) (negative : Bool) (here : Nat) :
    ∃ numeral stop, Numeral.erased numeral = change { negative := negative } ∧ ∀ rest,
      Delimited rest →
        scanFrom .between here ((if negative then '-' :: c :: more else c :: more) ++ rest) =
          ⟨here, stop, .number (numeral.value stop)⟩ :: scanFrom .between stop rest := by
  cases negative with
  | true =>
    obtain ⟨numeral, stop, herased, hscan⟩ := h here (here + 1) { negative := true }
    refine ⟨numeral, stop, herased, fun rest hrest => ?_⟩
    rw [← scanFrom_of_isLast hlast hrest, ← hscan]
    rfl
  | false =>
    obtain ⟨numeral, stop, herased, hscan⟩ := h here here {}
    refine ⟨numeral, stop, herased, fun rest hrest => ?_⟩
    rw [← scanFrom_of_isLast hlast hrest, ← hscan]
    simp only [Bool.false_eq_true, reduceIte, List.cons_append, scanFrom, Scan.step,
      begin_of_isDigit hc]

end Json

/-- The text of the number reads back as the number. -/
def Number.ReadsBack (n : Number) : Prop := Json.parse n.text = .ok (.number n)

/-- The value of a text whose tokens are one number. -/
theorem Json.parse_of_scan {source : String} {stop : Nat} {value : Except JsonError Number}
    (h : scan source = ⟨0, stop, .number value⟩ :: scanFrom .between stop []) :
    parse source = value.map .number := by
  rw [parse, Document.parse, h]
  cases value <;> rfl

/-- A number reads back if it is the one token of its text. -/
theorem Number.ReadsBack.of_scan {n : Number} (text : String) {stop : Nat}
    {value : Except JsonError Number} (htext : n.text = text)
    (hscan : Json.scan text = ⟨0, stop, .number value⟩ :: Json.scanFrom .between stop [])
    (hvalue : value.toOption = some n) : n.ReadsBack := by
  rw [ReadsBack, htext, Json.parse_of_scan hscan]
  cases value with
  | error => cases hvalue
  | ok value =>
    cases hvalue
    rfl

namespace Json

/-- Wherever a number is written, one token stands there : the number, if its text reads back
as the number, or the null value, which does not. -/
theorem scanFrom_number (n : Number) (here : Nat) : ∃ stop lexeme,
    (∀ rest, Delimited rest → scanFrom .between here (n.text.toList ++ rest) =
      ⟨here, stop, lexeme⟩ :: scanFrom .between stop rest) ∧
    ((∃ value, lexeme = .number value ∧ (n.ReadsBack → value = .ok n)) ∨
      lexeme = .null ∧ ¬n.ReadsBack) := by
  rcases n.text_cases with hnull | ⟨cs, ⟨⟨c, more, rfl, hc⟩, stage, hlast, change, hcarries⟩, htext⟩
  · refine ⟨here + 4, .null, fun rest _ => by rw [hnull]; rfl, .inr ⟨rfl, fun hback => ?_⟩⟩
    rw [Number.ReadsBack, parse, Document.parse, scan, hnull] at hback
    cases hback
  · obtain ⟨negative, htext⟩ : ∃ negative, n.text.toList = if negative then '-' :: c :: more
        else c :: more := htext.elim (fun h => ⟨false, h⟩) fun h => ⟨true, h⟩
    obtain ⟨numeral, stop, herased, hscan⟩ := scanFrom_carries hc hlast hcarries negative here
    refine ⟨stop, _, fun rest hrest => by rw [htext, hscan rest hrest],
      .inl ⟨_, rfl, fun hback => ?_⟩⟩
    obtain ⟨alone, stop', halone, hscan'⟩ := scanFrom_carries hc hlast hcarries negative 0
    have hparse := hscan' [] trivial
    rw [List.append_nil, ← htext] at hparse
    have hvalue : (alone.value stop').map Json.number = .ok (.number n) :=
      (parse_of_scan hparse).symm.trans hback
    refine Numeral.value_of_erased stop' stop (halone.trans herased.symm) ?_
    cases hnumber : alone.value stop' with
    | error => rw [hnumber] at hvalue; cases hvalue
    | ok => rw [hnumber] at hvalue; cases hvalue; rfl

/-! ## Natural numbers -/

theorem le_ofDigitChars : ∀ (cs : List Char) (n : Nat), n ≤ Nat.ofDigitChars 10 cs n
  | [], n => Nat.le_refl n
  | c :: cs, n => by
    rw [Nat.ofDigitChars_cons]
    exact Nat.le_trans (by omega) (le_ofDigitChars cs _)

/-- Digits that fit into the significand. -/
theorem foldl_wholeDigit : ∀ (cs : List Char) (n : Numeral), n.full = false →
    Nat.ofDigitChars 10 cs n.significand < Nat.pow 2 64 →
      cs.foldl (fun n c => n.wholeDigit (c.toNat - '0'.toNat)) n =
        { n with significand := Nat.ofDigitChars 10 cs n.significand }
  | [], _, _, _ => rfl
  | c :: cs, n, hfull, hfits => by
    rw [Nat.ofDigitChars_cons, Nat.mul_comm] at hfits
    have hnext : n.wholeDigit (c.toNat - '0'.toNat) =
        { n with significand := n.significand * 10 + (c.toNat - '0'.toNat) } := by
      have hless := Nat.not_le.2 (Nat.lt_of_le_of_lt (le_ofDigitChars cs _) hfits)
      rw [Numeral.wholeDigit, hfull, Bool.false_or, decide_eq_false hless]
      rfl
    rw [List.foldl_cons, hnext, foldl_wholeDigit cs
      { n with significand := n.significand * 10 + (c.toNat - '0'.toNat) } hfull hfits,
      Nat.ofDigitChars_cons, Nat.mul_comm 10]

/-- A natural number reads back while it fits into the significand. -/
theorem readsBack_natural {n : Nat} (h : n < Nat.pow 2 64) : (Number.integer n).ReadsBack := by
  rcases Nat.eq_zero_or_pos n with rfl | hpos
  · rfl
  have htext : (Number.integer n).text.toList = Nat.toDigits 10 n := by
    rw [← String.toList_ofList (l := Nat.toDigits 10 n), ← Nat.repr_eq_ofList_toDigits]
    rfl
  obtain ⟨c, more, hdigits, hzero⟩ := (significant_toDigits n hpos).leading
  have hisDigit := (significant_toDigits n hpos).isDigit
  have hvalue : Nat.ofDigitChars 10 (c :: more) 0 = n := by
    rw [← hdigits, Nat.ofDigitChars_toDigits (by omega) (by omega)]
  rw [hdigits] at hisDigit
  obtain ⟨numeral, stop, herased, hscan⟩ := scanFrom_carries (hisDigit c List.mem_cons_self)
    (show Stage.IsLast .whole from trivial) (carries_wholeDigits hzero hisDigit) false 0
  rw [foldl_wholeDigit (c :: more) {} rfl (by rw [hvalue]; exact h), hvalue] at herased
  have hnumber : numeral.value stop = .ok (.integer n) :=
    Numeral.value_of_erased stop stop (n := { significand := n }) herased.symm rfl
  have hparse : scan (Number.integer n).text =
      ⟨0, stop, .number (.ok (.integer n))⟩ :: scanFrom .between stop [] := by
    rw [scan, htext, hdigits, ← hnumber, ← hscan [] trivial]
    simp
  exact .of_scan _ rfl hparse rfl

end Json

end PiBlocks
