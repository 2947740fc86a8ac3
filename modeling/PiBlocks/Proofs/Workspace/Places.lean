import PiBlocks.Proofs.Json.Whole
import PiBlocks.Proofs.Text.Bytes
import PiBlocks.Proofs.Workspace.Spans

/-!
# Spans in the bytes of a source

Whoever shows a span cuts the source at two byte offsets. So a span that is recorded for an id has
to lie between characters and hold the bytes of the id, and around it has to stand what makes it an
id (`Text.Span.Marks`). Said of characters, that is a place the search knows
(`IdSpan.place_iff_marks`).

The search passes over a place that shares a quote with the place before. In a source that can be
loaded no two places do, as it is read to its end (`Source.quote_not_within_of_load`). So the span
of an id is the first one that marks it, and there is none only if no span does
(`Source.span?_eq_some_iff_marks`).
-/

namespace PiBlocks

open Json (Thorough)
open Text (isSpace isBlank)

/-! ## Files that are read to their end -/

namespace SavedBlock

variable {inner : Json.Reader SavedBlock} (h : Thorough inner)
include h

theorem thorough_link : Thorough (Link.record inner).read := by
  refine .read ?_
  simp only [Link.record, List.forall_mem_cons]
  exact ⟨.set (.optional h), .set (.optional h), List.forall_mem_nil _⟩

theorem thorough_record : Thorough (record inner).read := by
  refine .read ?_
  simp only [record, List.forall_mem_cons]
  exact ⟨.set .variant, .set (.optional .text), .set (.optional .real), .set (.optional .real),
    .set (.map .text), .set (.map (thorough_link h)), .set (.optional (thorough_link h)),
    List.forall_mem_nil _⟩

end SavedBlock

theorem SavedBlock.thorough_readWithin : ∀ depth : Nat, Thorough (readWithin depth)
  | 0 => fun _ _ hread => by cases hread
  | depth + 1 => thorough_record (thorough_readWithin depth)

theorem SavedBlock.thorough_read : Thorough read :=
  fun node => thorough_readWithin node.depth node

theorem SavedWorkspace.thorough_blocksRecord : Thorough blocksRecord.read := by
  refine .read ?_
  simp only [blocksRecord, List.forall_mem_cons]
  exact ⟨.set .word, .set (.list SavedBlock.thorough_read), List.forall_mem_nil _⟩

theorem SavedWorkspace.thorough_record : Thorough record.read := by
  refine .read ?_
  simp only [record, List.forall_mem_cons]
  exact ⟨.set thorough_blocksRecord, List.forall_mem_nil _⟩

theorem SaveFile.thorough_record : Thorough record.read := by
  refine .read ?_
  simp only [record, List.forall_mem_cons]
  exact ⟨.set (.optional SavedWorkspace.thorough_record),
    .set (.optional SavedWorkspace.thorough_blocksRecord), List.forall_mem_nil _⟩

/-- In a source that can be loaded no two names share a quote : it would stand between the `d` of
one and the `i` of the other. -/
theorem Source.quote_not_within_of_load {source : Source} {tree : Tree}
    (h : source.load = .ok tree) :
    ¬['d', '"', 'i'] <:+: source.text.toList := by
  obtain ⟨workspace, hworkspace, -⟩ := of_load h
  rw [Source.workspace] at hworkspace
  split_ifs at hworkspace with hblank
  · intro hwithin
    have hspace := List.all_eq_true.1 hblank 'd' (hwithin.subset (by simp))
    exact absurd hspace (by decide)
  · split at hworkspace
    · next hread =>
      exact (Json.Document.whole_of_read SaveFile.thorough_record hread).quote_not_within
    · cases hworkspace

/-! ## Places that are found -/

/-- If no two names share a quote, every place is found. -/
theorem IdSpan.mem_all_iff {cs : List Char} (h : ¬['d', '"', 'i'] <:+: cs)
    {found : String × Text.Span} : found ∈ all 0 cs ↔ Place 0 cs found := by
  refine ⟨of_mem_all, fun ⟨front, rest, hcs, hbehind⟩ => mem_all hcs ?_ ?_⟩
  · intro hlast
    obtain ⟨front, rfl⟩ := List.getLast?_eq_some_iff.1 hlast
    exact h ⟨front, 'd' :: '"' :: rest, by simp [hcs]⟩
  · simpa using value?_of_behind hbehind

/-! ## Spans of bytes -/

namespace Text

/-- The span is a piece of the text that begins and ends between characters. -/
structure Span.Within (span : Span) (source : String) : Prop where
  start_le : span.start ≤ span.stop
  stop_le : span.stop ≤ source.utf8ByteSize
  start_isValid : String.Pos.Raw.IsValid source ⟨span.start⟩
  stop_isValid : String.Pos.Raw.IsValid source ⟨span.stop⟩

/-- What stands in front of an id : the name, a colon with white space around it and a quote. -/
def heading (front space space' : String) : String :=
  front ++ "\"id\"" ++ space ++ ":" ++ space' ++ "\""

/-- The span marks an id. It holds the bytes of the id, which has no quote in it, and in the bytes
around it a heading ends and a quote stands behind. -/
structure Span.Marks (span : Span) (source id : String) : Prop extends span.Within source where
  front : ∃ front space space', isBlank space = true ∧ isBlank space' = true ∧
    source.toUTF8.extract 0 span.start = (heading front space space').toUTF8
  inside : source.toUTF8.extract span.start span.stop = id.toUTF8
  quote_not_mem : '"' ∉ id.toList
  back : source.toUTF8.extract span.stop (span.stop + 1) = "\"".toUTF8

/-- Of a text that begins with the byte of a quote, the first character is a quote. -/
theorem exists_eq_of_extract_quote {back : String}
    (h : back.toUTF8.extract 0 1 = "\"".toUTF8) : ∃ after, back = "\"" ++ after := by
  have hbytes : (bytesOf back.toList).take 1 = [UInt8.ofNat '"'.toNat] := by
    have hlist := congrArg (fun bytes => bytes.data.toList) h
    simp only [ByteArray.data_extract, Array.toList_extract, data_toUTF8,
      List.extract_eq_take_drop, List.drop_zero] at hlist
    exact hlist
  cases hchars : back.toList with
  | nil =>
    rw [hchars] at hbytes
    cases hbytes
  | cons c cs =>
    rw [hchars, bytesOf_cons, List.take_append_of_le_length
      (by rw [String.length_utf8EncodeChar]; exact c.utf8Size_pos)] at hbytes
    have hmem : UInt8.ofNat '"'.toNat ∈ (String.utf8EncodeChar c).take 1 := by simp [hbytes]
    obtain rfl := (ascii_mem_iff (by decide)).1 (List.mem_of_mem_take hmem)
    exact ⟨String.ofList cs, String.toList_inj.1 (by simp [hchars])⟩

/-- Where a span that marks an id stands in the text. -/
theorem Span.marks_iff {span : Span} {source id : String} :
    span.Marks source id ↔ ∃ front space space' after, isBlank space = true ∧
      isBlank space' = true ∧ '"' ∉ id.toList ∧
      source = heading front space space' ++ (id ++ ("\"" ++ after)) ∧
      span.start = (heading front space space').utf8ByteSize ∧
      span.stop = span.start + id.utf8ByteSize := by
  constructor
  · rintro ⟨⟨hle, -, hstart, hstop⟩, ⟨front, space, space', hspace, hspace', hfront⟩, hinside,
      hquote, hback⟩
    obtain ⟨before, more, -, hbefore, hextract⟩ := exists_append_of_isValid hstart
    obtain ⟨before', back, hsource, hbefore', hextract'⟩ := exists_append_of_isValid hstop
    obtain rfl : before = heading front space space' :=
      String.toByteArray_inj.1 (hextract.symm.trans hfront)
    obtain rfl : before' = heading front space space' ++ id := by
      refine String.toByteArray_inj.1 (hextract'.symm.trans ?_)
      rw [ByteArray.extract_eq_extract_append_extract span.start (Nat.zero_le _) hle, hfront,
        hinside, ← toUTF8_append]
      rfl
    have hbehind : back.toUTF8.extract 0 1 = "\"".toUTF8 := by
      rw [← hback, hsource, toUTF8_append, ← hbefore', ← size_toUTF8]
      exact (ByteArray.extract_append_size_add (i := 0)).symm
    obtain ⟨after, rfl⟩ := exists_eq_of_extract_quote hbehind
    refine ⟨front, space, space', after, hspace, hspace', hquote, ?_, hbefore.symm, ?_⟩
    · rw [hsource, String.append_assoc]
    · rw [← hbefore', String.utf8ByteSize_append, hbefore]
  · rintro ⟨front, space, space', after, hspace, hspace', hquote, rfl, hstart, hstop⟩
    have hquoteSize : "\"".utf8ByteSize = 1 := rfl
    have hstopSize : span.stop = (heading front space space' ++ id).utf8ByteSize := by
      rw [String.utf8ByteSize_append, ← hstart, hstop]
    have hsource : heading front space space' ++ (id ++ ("\"" ++ after)) =
        (heading front space space' ++ id) ++ ("\"" ++ after) := by rw [String.append_assoc]
    refine ⟨⟨by omega, ?_, ?_, ?_⟩, ⟨front, space, space', hspace, hspace', ?_⟩, ?_, hquote, ?_⟩
    · rw [hsource, String.utf8ByteSize_append, hstopSize]
      exact Nat.le_add_right _ _
    · rw [hstart]
      exact isValid_append _ _
    · rw [hsource, hstopSize]
      exact isValid_append _ _
    · rw [hstart, toUTF8_append]
      exact ByteArray.extract_append_eq_left rfl
    · rw [hstop, hstart]
      exact extract_append _ id _
    · rw [hsource, hstopSize]
      exact extract_append _ "\"" after

theorem toList_heading (front space space' : String) : (heading front space space').toList =
    front.toList ++ '"' :: 'i' :: 'd' :: '"' ::
      (space.toList ++ ':' :: (space'.toList ++ ['"'])) := by
  have hname : "\"id\"".toList = ['"', 'i', 'd', '"'] := rfl
  simp [heading, hname]

theorem utf8ByteSize_heading (front space space' : String) :
    (heading front space space').utf8ByteSize =
      front.utf8ByteSize + space.utf8ByteSize + space'.utf8ByteSize + 6 := by
  have hname : "\"id\"".utf8ByteSize = 4 := rfl
  have hcolon : ":".utf8ByteSize = 1 := rfl
  have hquote : "\"".utf8ByteSize = 1 := rfl
  simp only [heading, String.utf8ByteSize_append, hname, hcolon, hquote]
  omega

end Text

namespace IdSpan

open Text (heading utf8ByteSize_eq)

/-- The places of characters that the search knows are the spans of bytes that mark an id. -/
theorem place_iff_marks {source id : String} {span : Text.Span} :
    Place 0 source.toList (id, span) ↔ span.Marks source id := by
  rw [Text.Span.marks_iff]
  constructor
  · rintro ⟨front, rest, hsource, space, space', after, rfl, hspace, hspace', hquote, hstart,
      hstop⟩
    have hblank {cs : List Char} (h : ∀ s ∈ cs, isSpace s = true) :
        isBlank (String.ofList cs) = true := by
      rw [isBlank, String.toList_ofList]
      exact List.all_eq_true.2 h
    refine ⟨.ofList front, .ofList space, .ofList space', .ofList after, hblank hspace,
      hblank hspace', hquote, String.toList_inj.1 ?_, ?_, ?_⟩
    · simp [Text.toList_heading, hsource]
    · rw [Text.utf8ByteSize_heading]
      simp only [utf8ByteSize_eq, String.toList_ofList] at hstart ⊢
      omega
    · rw [utf8ByteSize_eq]
      exact hstop
  · rintro ⟨front, space, space', after, hspace, hspace', hquote, rfl, hstart, hstop⟩
    refine ⟨front.toList, _, ?_, space.toList, space'.toList, after.toList, rfl,
      List.all_eq_true.1 hspace, List.all_eq_true.1 hspace', hquote, ?_, ?_⟩
    · simp [Text.toList_heading]
    · rw [Text.utf8ByteSize_heading] at hstart
      simp only [utf8ByteSize_eq] at hstart
      show span.start = _
      omega
    · rw [← utf8ByteSize_eq]
      exact hstop

end IdSpan

namespace Source

/-- In a source that was loaded, the span that is recorded for an id is the first one that marks
it, and if there is any, it is recorded. -/
theorem span?_eq_some_iff_marks (source : Source) (tree : Tree) (h : source.load = .ok tree)
    (id : String) (span : Text.Span) :
    tree.span? id = some span ↔ span.Marks source.text id ∧
      ∀ other : Text.Span, other.Marks source.text id → span.start ≤ other.start := by
  obtain ⟨_, -, -, hspans⟩ := of_load h
  have hfound (found : String × Text.Span) :
      found ∈ idSpans source.text ↔ found.2.Marks source.text found.1 :=
    (IdSpan.mem_all_iff (quote_not_within_of_load h)).trans IdSpan.place_iff_marks
  rw [Tree.span?, hspans, idSpans,
    IdSpan.get?_eq_some_iff (IdSpan.pairwise_all source.text.toList 0)]
  refine and_congr (hfound (id, span)) ⟨fun hfirst other hother => ?_, ?_⟩
  · exact hfirst (id, other) ((hfound (id, other)).2 hother) rfl
  · rintro hfirst ⟨_, other⟩ hmem rfl
    exact hfirst other ((hfound (_, other)).1 hmem)

/-- An id of more bytes than characters, a line behind its name, and once more in a field that is
called like ids are. -/
def twice : Source where
  text := "\x7b\"blocks\": \x7b\"blocks\": [\x7b\"type\": \"MainBlock\", \"id\" :\n\"süß\", " ++
    "\"fields\": \x7b\"id\": \"süß\"\x7d\x7d]\x7d\x7d"

/-- Its span is that of the place in front. -/
theorem span?_eq_some_iff_marks_twice : ∃ tree, twice.load = .ok tree ∧ tree.ids = ["süß"] ∧
    tree.span? "süß" = some ⟨53, 58⟩ ∧ (⟨53, 58⟩ : Text.Span).Marks twice.text "süß" ∧
      ∀ other : Text.Span, other.Marks twice.text "süß" → 53 ≤ other.start := by
  have hload : twice.load.toOption.map (fun tree => (tree.ids, tree.span? "süß")) =
      some (["süß"], some ⟨53, 58⟩) := by decide +kernel
  cases htree : twice.load with
  | error error =>
    rw [htree] at hload
    cases hload
  | ok tree =>
    rw [htree] at hload
    obtain ⟨hids, hspan⟩ := Prod.mk.inj (Option.some.inj hload)
    exact ⟨tree, rfl, hids, hspan, (span?_eq_some_iff_marks twice tree htree _ _).1 hspan⟩

end Source

end PiBlocks
