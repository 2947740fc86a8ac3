import PiBlocks.Proofs.Json.Members
import PiBlocks.Proofs.Maps
import PiBlocks.Workspace.Ids

/-!
# Where ids are found

The search for ids knows no more of a text than its characters. What it finds are the places that
read `"id"`, a colon and a string without escapes (`IdSpan.of_mem_all`), and it finds every such
place whose first quote is not the last one of the place before (`IdSpan.mem_all`). Places are
found in their order in the text, so the one that counts for a string is the first one
(`IdSpan.get?_eq_some_iff`).

A member that was parsed is found if its name and its value are written without escapes
(`Json.InText.mem_all_of_reads`), and only then (`Json.InText.reads_of_mem_all`).
-/

namespace PiBlocks

open Text (byteLength isSpace)

namespace Text

/-- The text has these characters at the span. -/
def Span.Reads (span : Span) (cs chars : List Char) : Prop :=
  ∃ before after, cs = before ++ (chars ++ after) ∧ byteLength before = span.start ∧
    byteLength before + byteLength chars = span.stop

end Text

namespace IdSpan

/-! ## What stands behind a name -/

theorem afterSpace_append {c : Char} (hc : isSpace c = false) (rest : List Char) :
    ∀ (space : List Char) (offset : Nat), (∀ s ∈ space, isSpace s = true) →
      afterSpace offset (space ++ c :: rest) = (offset + byteLength space, c :: rest)
  | [], offset, _ => by simp [afterSpace, hc]
  | s :: space, offset, h => by
    obtain ⟨hs, hspace⟩ := List.forall_mem_cons.1 h
    rw [List.cons_append, afterSpace, if_pos hs, afterSpace_append hc rest space _ hspace,
      Text.byteLength_cons, Nat.add_assoc]

theorem of_afterSpace {rest : List Char} {past : Nat} : ∀ {cs : List Char} {offset : Nat},
    afterSpace offset cs = (past, rest) → ∃ space, (∀ s ∈ space, isSpace s = true) ∧
      cs = space ++ rest ∧ past = offset + byteLength space
  | [], _, h => by
    cases h
    exact ⟨[], List.forall_mem_nil _, rfl, rfl⟩
  | c :: cs, offset, h => by
    rw [afterSpace] at h
    split_ifs at h with hc
    · obtain ⟨space, hspace, rfl, rfl⟩ := of_afterSpace h
      refine ⟨c :: space, List.forall_mem_cons.2 ⟨hc, hspace⟩, rfl, ?_⟩
      rw [Text.byteLength_cons, Nat.add_assoc]
    · cases h
      exact ⟨[], List.forall_mem_nil _, rfl, rfl⟩

theorem untilQuote_append (after : List Char) : ∀ (chars : List Char) (offset : Nat),
    '"' ∉ chars →
      untilQuote offset (chars ++ '"' :: after) = some (chars, offset + byteLength chars)
  | [], offset, _ => rfl
  | c :: chars, offset, h => by
    obtain ⟨hc, hchars⟩ := List.ne_and_not_mem_of_not_mem_cons h
    rw [List.cons_append, untilQuote, if_neg (Ne.symm hc), untilQuote_append after chars _ hchars,
      Text.byteLength_cons, ← Nat.add_assoc]
    rfl

theorem of_untilQuote {stop : Nat} : ∀ {cs chars : List Char} {offset : Nat},
    untilQuote offset cs = some (chars, stop) →
      '"' ∉ chars ∧ stop = offset + byteLength chars ∧ ∃ after, cs = chars ++ '"' :: after
  | [], _, _, h => by cases h
  | c :: cs, chars, offset, h => by
    rw [untilQuote] at h
    split_ifs at h with hc
    · obtain ⟨rfl, rfl⟩ := h
      exact ⟨List.not_mem_nil, rfl, cs, by rw [hc]; rfl⟩
    · obtain ⟨⟨chars', _⟩, hmore, ⟨⟩⟩ := Option.map_eq_some_iff.1 h
      obtain ⟨hquote, rfl, after, rfl⟩ := of_untilQuote hmore
      refine ⟨List.not_mem_cons_of_ne_of_not_mem (Ne.symm hc) hquote, ?_, after, rfl⟩
      rw [Text.byteLength_cons, Nat.add_assoc]

/-- What stands behind a name : a colon and a string without escapes, with white space around the
colon. The string is found at the offset from which it is counted. -/
def Behind (offset : Nat) (rest chars : List Char) (span : Text.Span) : Prop :=
  ∃ space space' after, rest = space ++ ':' :: (space' ++ '"' :: (chars ++ '"' :: after)) ∧
    (∀ s ∈ space, isSpace s = true) ∧ (∀ s ∈ space', isSpace s = true) ∧ '"' ∉ chars ∧
    span.start = offset + byteLength space + byteLength space' + 2 ∧
    span.stop = span.start + byteLength chars

theorem value?_of_behind {offset : Nat} {rest chars : List Char} {span : Text.Span}
    (h : Behind offset rest chars span) :
    value? offset rest = some (String.ofList chars, span) := by
  obtain ⟨space, space', after, rfl, hspace, hspace', hquote, hstart, hstop⟩ := h
  rw [value?, afterSpace_append (by decide) _ space _ hspace]
  simp only [afterSpace_append (c := '"') (by decide) _ space' _ hspace',
    untilQuote_append after chars _ hquote, Option.map_some, Option.some.injEq, Prod.mk.injEq,
    true_and]
  cases span
  simp only at hstart hstop
  subst hstart hstop
  congr 1 <;> omega

theorem behind_of_value? {offset : Nat} {rest : List Char} {found : String × Text.Span}
    (h : value? offset rest = some found) : Behind offset rest found.1.toList found.2 := by
  rw [value?] at h
  split at h
  · next hcolon =>
    obtain ⟨space, hspace, rfl, rfl⟩ := of_afterSpace hcolon
    split at h
    · next hquote =>
      obtain ⟨space', hspace', rfl, rfl⟩ := of_afterSpace hquote
      obtain ⟨⟨chars, stop⟩, huntil, rfl⟩ := Option.map_eq_some_iff.1 h
      obtain ⟨hchars, rfl, after, rfl⟩ := of_untilQuote huntil
      refine ⟨space, space', after, by simp, hspace, hspace', by simpa using hchars, ?_, ?_⟩
      · show offset + byteLength space + 1 + byteLength space' + 1 = _
        omega
      · simp
    · cases h
  · cases h

/-! ## Places in a text -/

theorem all_cons {c : Char} (rest : List Char) (offset : Nat) (hc : c ≠ '"') :
    all offset (c :: rest) = all (offset + c.utf8Size) rest := by
  rw [all]
  exact fun _ h => absurd h hc

/-- Nothing is found where there is no quote. -/
theorem all_append {skipped : List Char} (rest : List Char) : ∀ (offset : Nat),
    '"' ∉ skipped → all offset (skipped ++ rest) = all (offset + byteLength skipped) rest := by
  induction skipped with
  | nil => exact fun _ _ => rfl
  | cons c skipped ih =>
    intro offset h
    obtain ⟨hc, hskipped⟩ := List.ne_and_not_mem_of_not_mem_cons h
    rw [List.cons_append, all_cons _ offset (Ne.symm hc), ih _ hskipped, Text.byteLength_cons,
      Nat.add_assoc]

/-- A place of a text that reads as a name and a string. -/
def Place (offset : Nat) (cs : List Char) (found : String × Text.Span) : Prop :=
  ∃ front rest, cs = front ++ '"' :: 'i' :: 'd' :: '"' :: rest ∧
    Behind (offset + byteLength front + 4) rest found.1.toList found.2

theorem Place.append {offset : Nat} {cs : List Char} {found : String × Text.Span}
    (skipped : List Char) (h : Place (offset + byteLength skipped) cs found) :
    Place offset (skipped ++ cs) found := by
  obtain ⟨front, rest, rfl, hbehind⟩ := h
  refine ⟨skipped ++ front, rest, (List.append_assoc _ _ _).symm, ?_⟩
  rwa [Text.byteLength_append, ← Nat.add_assoc]

/-- What is found is a place of the text. -/
theorem of_mem_all {found : String × Text.Span} {cs : List Char} {offset : Nat}
    (h : found ∈ all offset cs) : Place offset cs found := by
  fun_induction all offset cs with
  | case1 offset rest first hvalue ih =>
    rcases List.mem_cons.1 h with rfl | hmore
    · exact ⟨[], rest, rfl, behind_of_value? hvalue⟩
    · exact (ih hmore).append ['"', 'i', 'd', '"']
  | case2 offset rest hvalue ih => exact (ih h).append ['"', 'i', 'd', '"']
  | case3 offset c rest hc ih => exact (ih h).append [c]
  | case4 => cases h

/-- Of two names, the second one begins behind the first one unless they share a quote. -/
theorem front_cases {front more tail : List Char} (hlast : front.getLast? ≠ some 'd')
    (h : '"' :: 'i' :: 'd' :: '"' :: more = front ++ '"' :: tail) :
    front = [] ∨ ∃ front', front = '"' :: 'i' :: 'd' :: '"' :: front' ∧
      front'.getLast? ≠ some 'd' := by
  match front with
  | [] => exact .inl rfl
  | [_] => simp at h
  | [_, _] => simp at h
  | [_, _, _] =>
    simp only [List.cons_append, List.nil_append, List.cons.injEq] at h
    obtain ⟨rfl, rfl, rfl, -⟩ := h
    simp at hlast
  | [_, _, _, _] =>
    simp only [List.cons_append, List.nil_append, List.cons.injEq] at h
    obtain ⟨rfl, rfl, rfl, rfl, -⟩ := h
    exact .inr ⟨[], rfl, by simp⟩
  | _ :: _ :: _ :: _ :: c :: front =>
    simp only [List.cons_append, List.cons.injEq] at h
    obtain ⟨rfl, rfl, rfl, rfl, -⟩ := h
    exact .inr ⟨c :: front, rfl, by simpa using hlast⟩

theorem byteLength_name (front : List Char) :
    byteLength ('"' :: 'i' :: 'd' :: '"' :: front) = 4 + byteLength front := by
  have hquote : '"'.utf8Size = 1 := rfl
  have hi : 'i'.utf8Size = 1 := rfl
  have hd : 'd'.utf8Size = 1 := rfl
  simp only [Text.byteLength_cons, hquote, hi, hd]
  omega

/-- A place is found unless its first quote belongs to the place before. -/
theorem mem_all {found : String × Text.Span} {front rest cs : List Char} {offset : Nat}
    (hcs : cs = front ++ '"' :: 'i' :: 'd' :: '"' :: rest) (hlast : front.getLast? ≠ some 'd')
    (hvalue : value? (offset + byteLength front + 4) rest = some found) :
    found ∈ all offset cs := by
  fun_induction all offset cs generalizing front with
  | case1 offset more first hfirst ih =>
    rcases front_cases hlast hcs with rfl | ⟨front, rfl, hfront⟩
    · cases hcs
      rw [Text.byteLength_nil, Nat.add_zero, hfirst] at hvalue
      cases hvalue
      exact List.mem_cons_self
    · rw [byteLength_name, ← Nat.add_assoc] at hvalue
      exact List.mem_cons_of_mem _ (ih (by simpa using hcs) hfront hvalue)
  | case2 offset more hnone ih =>
    rcases front_cases hlast hcs with rfl | ⟨front, rfl, hfront⟩
    · cases hcs
      rw [Text.byteLength_nil, Nat.add_zero, hnone] at hvalue
      cases hvalue
    · rw [byteLength_name, ← Nat.add_assoc] at hvalue
      exact ih (by simpa using hcs) hfront hvalue
  | case3 offset c more hc ih =>
    cases front with
    | nil =>
      cases hcs
      exact absurd rfl (hc rest rfl)
    | cons _ front =>
      simp only [List.cons_append, List.cons.injEq] at hcs
      obtain ⟨rfl, hcs⟩ := hcs
      rw [Text.byteLength_cons, ← Nat.add_assoc] at hvalue
      refine ih hcs ?_ hvalue
      cases front with
      | nil => simp
      | cons => simpa using hlast
  | case4 => simp at hcs

/-- The strings that are found stand behind the offset and the shortest name. -/
theorem le_start_of_mem_all {found : String × Text.Span} {cs : List Char} {offset : Nat}
    (h : found ∈ all offset cs) : offset + 6 ≤ found.2.start := by
  obtain ⟨front, rest, -, space, space', after, -, -, -, -, hstart, -⟩ := of_mem_all h
  omega

/-- Places are found in their order. -/
theorem pairwise_all (cs : List Char) (offset : Nat) :
    (all offset cs).Pairwise fun found other => found.2.start < other.2.start := by
  fun_induction all offset cs with
  | case1 offset rest first hvalue ih =>
    refine List.pairwise_cons.2 ⟨fun other hother => ?_, ih⟩
    obtain ⟨space, space', after, rfl, hspace, hspace', -, hstart, -⟩ := behind_of_value? hvalue
    have hskip : '"' ∉ space ++ ':' :: space' := by
      simp only [List.mem_append, List.mem_cons]
      rintro (hmem | hmem | hmem)
      · exact absurd (hspace _ hmem) (by decide)
      · cases hmem
      · exact absurd (hspace' _ hmem) (by decide)
    rw [← List.cons_append, ← List.append_assoc, all_append _ _ hskip] at hother
    have hle := le_start_of_mem_all hother
    rw [Text.byteLength_append, Text.byteLength_cons] at hle
    omega
  | case2 offset rest hvalue ih => exact ih
  | case3 offset c rest hc ih => exact ih
  | case4 => exact .nil

/-- Of places in their order, the first one counts. -/
theorem get?_eq_some_iff {key : String} {span : Text.Span} {map : OrderedMap Text.Span}
    (h : map.Pairwise fun found other => found.2.start < other.2.start) :
    OrderedMap.get? key map = some span ↔
      (key, span) ∈ map ∧ ∀ found ∈ map, found.1 = key → span.start ≤ found.2.start := by
  induction map with
  | nil => simp [OrderedMap.get?]
  | cons first map ih =>
    obtain ⟨hfirst, hmap⟩ := List.pairwise_cons.1 h
    rw [OrderedMap.get?, List.mem_cons, List.forall_mem_cons]
    split_ifs with hkey
    · constructor
      · rintro ⟨⟩
        exact ⟨.inl (Prod.ext hkey.symm rfl), fun _ => Nat.le_refl _,
          fun found hfound _ => Nat.le_of_lt (hfirst found hfound)⟩
      · rintro ⟨rfl | hmem, hle, -⟩
        · rfl
        · exact absurd (hfirst _ hmem) (Nat.not_lt.2 (hle hkey))
    · rw [ih hmap]
      constructor
      · rintro ⟨hmem, hle⟩
        exact ⟨.inr hmem, fun heq => absurd heq hkey, hle⟩
      · rintro ⟨rfl | hmem, -, hle⟩
        · exact absurd rfl hkey
        · exact ⟨hmem, hle⟩

end IdSpan

namespace Json

open IdSpan

/-- The string stands at the place, between quotes, maybe with escapes. -/
def Literal (cs : List Char) (place : Text.Span) (chars : List Char) : Prop :=
  ∃ raw, Spells raw chars ∧
    Text.Span.Reads ⟨place.start - 1, place.stop + 1⟩ cs ('"' :: (raw ++ ['"']))

theorem isSpace_of_isGap {c : Char} (h : isGap c = true) : isSpace c = true := by
  simp only [isGap, Bool.or_eq_true, decide_eq_true_eq] at h
  rcases h with ((rfl | rfl) | rfl) | rfl <;> rfl

theorem IsGap.isSpace {gap : List Char} (h : IsGap gap) : ∀ s ∈ gap, isSpace s = true :=
  fun s hs => isSpace_of_isGap (h s hs)

/-- What is in front of the last place of a character is told by the text. -/
theorem append_cons_inj {c : Char} {front front' space space' : List Char} (hspace : c ∉ space)
    (hspace' : c ∉ space') (h : front ++ c :: space = front' ++ c :: space') :
    front = front' ∧ space = space' := by
  rcases List.append_eq_append_iff.1 h with ⟨more, rfl, hmore⟩ | ⟨more, rfl, hmore⟩
  · cases more with
    | nil => simpa using hmore
    | cons _ more =>
      obtain ⟨rfl, rfl⟩ := List.cons.inj hmore
      simp at hspace
  · cases more with
    | nil => simpa [eq_comm] using hmore
    | cons _ more =>
      obtain ⟨rfl, rfl⟩ := List.cons.inj hmore
      simp at hspace'

theorem not_mem_of_isSpace {c : Char} {space : List Char} (hc : isSpace c = false)
    (h : ∀ s ∈ space, isSpace s = true) : c ∉ space := by
  intro hmem
  rw [h c hmem] at hc
  cases hc

/-- So is what is in front of the quote behind a name, if a colon with space around it ends the
text. -/
theorem fronts_eq {front front' space₁ space₁' space₂ space₂' : List Char}
    (h₁ : ∀ s ∈ space₁, isSpace s = true) (h₂ : ∀ s ∈ space₂, isSpace s = true)
    (h₁' : ∀ s ∈ space₁', isSpace s = true) (h₂' : ∀ s ∈ space₂', isSpace s = true)
    (h : front ++ '"' :: (space₁ ++ ':' :: space₂) = front' ++ '"' :: (space₁' ++ ':' :: space₂')) :
    front = front' := by
  have hcolon : front ++ '"' :: space₁ = front' ++ '"' :: space₁' := by
    refine (append_cons_inj (c := ':') (not_mem_of_isSpace (by decide) h₂)
      (not_mem_of_isSpace (by decide) h₂') ?_).1
    simpa using h
  exact (append_cons_inj (not_mem_of_isSpace (by decide) h₁) (not_mem_of_isSpace (by decide) h₁')
    hcolon).1

theorem byteLength_quote (chars : List Char) : byteLength ('"' :: chars) = 1 + byteLength chars :=
  rfl

theorem byteLength_colon (chars : List Char) : byteLength (':' :: chars) = 1 + byteLength chars :=
  rfl

theorem Spells.eq_of_reads {raw front before : List Char} (h : Spells raw ['i', 'd'])
    (hfront : front ++ '"' :: raw = before ++ '"' :: ['i', 'd']) : raw = ['i', 'd'] :=
  (append_cons_inj (fun hmem => absurd (h.quote_mem hmem) (by decide)) (by decide) hfront).2

theorem Spells.quote_not_mem {raw : List Char} (h : Spells raw raw) : '"' ∉ raw :=
  (h.eq_of_not_mem fun hslash => Nat.lt_irrefl _ (h.length_lt hslash)).2

namespace InText

variable {cs value : List Char} {keyStop start stop : Nat}

/-- The string of a member stands between its quotes. -/
theorem literal {name : List Char} (h : InText cs keyStop start stop name value) :
    Literal cs ⟨start + 1, stop - 1⟩ value := by
  obtain ⟨front, raw, gap, gap', raw', after, hcs, -, -, -, -, hraw', hkeyStop, hstart, hstop⟩ := h
  have hbefore : byteLength (front ++ '"' :: (raw ++ '"' :: (gap ++ ':' :: gap'))) = start := by
    simp only [Text.byteLength_append, byteLength_quote, byteLength_colon]
    omega
  refine ⟨raw', hraw', _, after, by simp [hcs], hbefore, ?_⟩
  rw [hbefore, byteLength_quote, Text.byteLength_append]
  show start + (1 + (byteLength raw' + 1)) = stop - 1 + 1
  omega

/-- If a member is found by the search, its name and its value are written as they are read : the
place that is found is the only one whose string begins there. -/
theorem reads_of_mem_all {name : List Char} (h : InText cs keyStop start stop name value)
    (hmem : (String.ofList value, ⟨start + 1, stop - 1⟩) ∈ all 0 cs) :
    Text.Span.Reads ⟨keyStop - 4, keyStop⟩ cs ['"', 'i', 'd', '"'] ∧
      Text.Span.Reads ⟨start + 1, stop - 1⟩ cs value := by
  obtain ⟨front, raw, gap, gap', raw', after, hcs, -, hgap, hgap', -, -, hkeyStop, hstart, -⟩ := h
  obtain ⟨front', rest, hcs', space, space', after', rfl, hspace, hspace', -, hbegin, hend⟩ :=
    of_mem_all hmem
  simp only [String.toList_ofList] at hcs' hbegin hend
  have hlength : byteLength ['i', 'd'] = 2 := rfl
  have hheads : cs = ((front ++ '"' :: raw) ++ '"' :: (gap ++ ':' :: gap')) ++
      ('"' :: (raw' ++ '"' :: after)) := by simp [hcs]
  have hheads' : cs = ((front' ++ '"' :: ['i', 'd']) ++ '"' :: (space ++ ':' :: space')) ++
      ('"' :: (value ++ '"' :: after')) := by simp [hcs']
  have hfront : front ++ '"' :: raw = front' ++ '"' :: ['i', 'd'] := by
    refine fronts_eq hgap.isSpace hgap'.isSpace hspace hspace' (Text.append_inj_of_byteLength
      (hheads.symm.trans hheads') ?_).1
    simp only [Text.byteLength_append, byteLength_quote, byteLength_colon, hlength]
    omega
  constructor
  · have hlengths := congrArg byteLength hfront
    simp only [Text.byteLength_append, byteLength_quote, hlength] at hlengths
    refine ⟨front', _, hcs', ?_, ?_⟩
    · show byteLength front' = keyStop - 4
      omega
    · show byteLength front' + 4 = keyStop
      omega
  · have hbefore : byteLength (front' ++ '"' :: ['i', 'd'] ++ '"' :: (space ++ ':' :: space') ++
        ['"']) = start + 1 := by
      simp only [Text.byteLength_append, byteLength_quote, byteLength_colon, hlength,
        Text.byteLength_nil]
      omega
    exact ⟨_, '"' :: after', by simp [hcs'], hbefore, by rw [hbefore, ← hend]⟩

/-- A member whose name and value are written as they are read is found. -/
theorem mem_all_of_reads (h : InText cs keyStop start stop ['i', 'd'] value)
    (hname : Text.Span.Reads ⟨keyStop - 4, keyStop⟩ cs ['"', 'i', 'd', '"'])
    (hvalue : Text.Span.Reads ⟨start + 1, stop - 1⟩ cs value) :
    (String.ofList value, ⟨start + 1, stop - 1⟩) ∈ all 0 cs := by
  obtain ⟨front, raw, gap, gap', raw', after, hcs, hlast, hgap, hgap', hraw, hraw', hkeyStop,
    hstart, hstop⟩ := h
  obtain ⟨before, rest, hcs', hbegin, hend⟩ := hname
  obtain ⟨before', rest', hcs'', hbegin', hend'⟩ := hvalue
  have hlength : byteLength ['i', 'd'] = 2 := rfl
  have hfront : front ++ '"' :: raw = before ++ '"' :: ['i', 'd'] := by
    have hheads : cs = (front ++ '"' :: raw) ++ ('"' :: (gap ++ ':' :: gap') ++
        '"' :: (raw' ++ '"' :: after)) := by simp [hcs]
    have hheads' : cs = (before ++ '"' :: ['i', 'd']) ++ '"' :: rest := by simp [hcs']
    refine (Text.append_inj_of_byteLength (hheads.symm.trans hheads') ?_).1
    have hsize : byteLength before + 4 = keyStop := hend
    simp only [Text.byteLength_append, byteLength_quote, hlength]
    omega
  obtain rfl := hraw.eq_of_reads hfront
  obtain rfl : raw' = value := by
    have hheads : cs = (front ++ '"' :: ['i', 'd'] ++ '"' :: (gap ++ ':' :: gap') ++ ['"']) ++
        (raw' ++ '"' :: after) := by simp [hcs]
    have hbefore : byteLength (front ++ '"' :: ['i', 'd'] ++ '"' :: (gap ++ ':' :: gap') ++
        ['"']) = byteLength before' := by
      simp only [Text.byteLength_append, byteLength_quote, byteLength_colon, hlength,
        Text.byteLength_nil] at hbegin' hkeyStop ⊢
      omega
    have htails := (Text.append_inj_of_byteLength (hheads.symm.trans hcs'') hbefore).2
    refine (Text.append_inj_of_byteLength htails ?_).1
    simp only at hbegin' hend'
    omega
  refine @mem_all _ front _ _ _ (by simpa using hcs) hlast (value?_of_behind ?_)
  refine ⟨gap, gap', after, rfl, hgap.isSpace, hgap'.isSpace, hraw'.quote_not_mem, ?_, ?_⟩
  · show start + 1 = _
    omega
  · show stop - 1 = start + 1 + _
    omega

end InText

end Json

end PiBlocks
