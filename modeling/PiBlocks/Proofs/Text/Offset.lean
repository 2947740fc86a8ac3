import PiBlocks.Proofs.Text.Bytes
import Mathlib.Data.List.TakeWhile

/-!
# Offsets and places

A report names a place by the bytes in front of it : its line is one more than the line feeds among
them (`lineOf`), its column the bytes behind the last of these (`columnOf`). `position` reads both
off the characters (`position_eq`), also for a place inside of a character, and `offsetOf` goes back
to the byte before the place, or to the place itself if it begins its line (`offsetOf_lineOf`).

What is in front of a place is told along the characters (`Front`). The line on which the place
stands begins behind the last line feed, and is there unless nothing comes behind the place, not
even a line feed (`lineStart?_of_front`).
-/

namespace PiBlocks

namespace Text

/-! ## Lines and columns -/

/-- The one-based line of a place with these bytes in front. -/
def lineOf (front : List UInt8) : Nat := front.count lineFeed + 1

/-- The bytes behind the last line feed. -/
def columnOf (front : List UInt8) : Nat := (front.reverse.takeWhile (· != lineFeed)).length

section

variable {front more : List UInt8}

theorem columnOf_append_of_not_mem (front : List UInt8) (h : lineFeed ∉ more) :
    columnOf (front ++ more) = columnOf front + more.length := by
  have hmore : ∀ byte ∈ more.reverse, (byte != lineFeed) = true := by
    intro byte hbyte
    rw [bne_iff_ne]
    rintro rfl
    exact h (List.mem_reverse.1 hbyte)
  rw [columnOf, List.reverse_append, List.takeWhile_append_of_pos hmore, List.length_append,
    List.length_reverse, Nat.add_comm, columnOf]

/-- Without a line feed, everything is on one line. -/
theorem columnOf_of_not_mem (h : lineFeed ∉ front) : columnOf front = front.length := by
  simpa [columnOf] using columnOf_append_of_not_mem [] h

/-- What comes before a line feed does not count. -/
theorem columnOf_append_of_mem (front : List UInt8) (h : lineFeed ∈ more) :
    columnOf (front ++ more) = columnOf more := by
  have hstops : (more.reverse.takeWhile (· != lineFeed)).length ≠ more.reverse.length := by
    intro hlength
    have hall := List.takeWhile_eq_self_iff.1
      ((List.takeWhile_prefix (· != lineFeed)).eq_of_length hlength)
    simpa using hall lineFeed (List.mem_reverse.2 h)
  rw [columnOf, List.reverse_append, List.takeWhile_append, if_neg hstops, columnOf]

theorem columnOf_le (front : List UInt8) : columnOf front ≤ front.length := by
  simpa [columnOf] using (List.takeWhile_prefix (l := front.reverse) (· != lineFeed)).length_le

end

/-! ## Bytes in front of a place -/

/-- What may stand in front of a place in a text : whole characters, and some bytes of the one the
place is inside of. -/
inductive Front : List Char → List UInt8 → Prop
  | done : Front [] []
  | inside {c : Char} {cs : List Char} {count : Nat} (h : count < c.utf8Size) :
      Front (c :: cs) ((String.utf8EncodeChar c).take count)
  | past {c : Char} {cs : List Char} {front : List UInt8} (h : Front cs front) :
      Front (c :: cs) (String.utf8EncodeChar c ++ front)

theorem front_take : ∀ (cs : List Char) (place : Nat), Front cs ((bytesOf cs).take place)
  | [], place => by
    rw [bytesOf_nil, List.take_nil]
    exact .done
  | c :: cs, place => by
    rw [bytesOf_cons, List.take_append, String.length_utf8EncodeChar]
    by_cases h : place < c.utf8Size
    · rw [Nat.sub_eq_zero_of_le (Nat.le_of_lt h), List.take_zero, List.append_nil]
      exact .inside h
    · rw [List.take_of_length_le (by rw [String.length_utf8EncodeChar]; omega)]
      exact .past (front_take cs (place - c.utf8Size))

theorem not_mem_take {c : Char} {count : Nat} (h : count < c.utf8Size) :
    lineFeed ∉ (String.utf8EncodeChar c).take count := by
  intro hmem
  obtain rfl := lineFeed_mem_iff.1 (List.mem_of_mem_take hmem)
  obtain rfl : count = 0 := Nat.lt_one_iff.1 h
  cases hmem

theorem length_take {c : Char} {count : Nat} (h : count < c.utf8Size) :
    ((String.utf8EncodeChar c).take count).length = count := by
  rw [List.length_take, String.length_utf8EncodeChar]
  omega

theorem count_of_not_mem {front : List UInt8} (h : lineFeed ∉ front) :
    front.count lineFeed = 0 := List.count_eq_zero.2 h

/-- Line and column are counted on over the bytes in front. -/
theorem positionFrom_of_front {cs : List Char} {front : List UInt8} (h : Front cs front) :
    ∀ line column : Nat, positionFrom line column front.length cs =
      (line + front.count lineFeed,
        if lineFeed ∈ front then columnOf front else column + front.length) := by
  induction h with
  | done => intro line column; rfl
  | @inside c cs count hcount =>
    intro line column
    have hnot := not_mem_take hcount
    rw [length_take hcount, count_of_not_mem hnot, if_neg hnot, positionFrom]
    split_ifs with hzero
    · rw [hzero]
      rfl
    · rfl
  | @past c cs front _ ih =>
    intro line column
    have hpos := c.utf8Size_pos
    rw [List.length_append, String.length_utf8EncodeChar, positionFrom, if_neg (by omega),
      if_neg (by omega)]
    by_cases hc : c = '\n'
    · subst hc
      have hfeed : lineFeed ∈ [lineFeed] ++ front := by simp
      have hsize : '\n'.utf8Size + front.length - 1 = front.length := by
        rw [show '\n'.utf8Size = 1 from rfl]
        omega
      rw [if_pos rfl, utf8EncodeChar_lineFeed, if_pos hfeed, hsize, ih]
      have hcount : ([lineFeed] ++ front).count lineFeed = front.count lineFeed + 1 := by simp
      rw [hcount]
      split_ifs with hmem
      · rw [columnOf_append_of_mem _ hmem, Nat.add_right_comm, Nat.add_assoc]
      · rw [columnOf_append_of_not_mem _ hmem, Nat.add_right_comm, Nat.add_assoc]
        rfl
    · have hnot : lineFeed ∉ String.utf8EncodeChar c := fun hmem => hc (lineFeed_mem_iff.1 hmem)
      rw [if_neg hc, Nat.add_sub_cancel_left, ih, List.count_append, count_of_not_mem hnot,
        Nat.zero_add]
      by_cases hmem : lineFeed ∈ front
      · rw [if_pos hmem, if_pos (List.mem_append_right _ hmem), columnOf_append_of_mem _ hmem]
      · rw [if_neg hmem, if_neg (by simp [hnot, hmem]), Nat.add_assoc]

/-- The line of a place begins behind the last line feed in front of it, and if there is no such
line, the text ends there. -/
theorem lineStart?_of_front {cs : List Char} {front : List UInt8} (h : Front cs front) :
    ∀ offset : Nat,
      lineStart? offset (lineOf front) cs = some (offset + (front.length - columnOf front)) ∨
        lineStart? offset (lineOf front) cs = none ∧ columnOf front = 0 ∧
          front.length = byteLength cs := by
  induction h with
  | done => exact fun offset => .inr ⟨rfl, rfl, rfl⟩
  | @inside c cs count hcount =>
    intro offset
    have hnot := not_mem_take hcount
    rw [lineOf, count_of_not_mem hnot, columnOf_of_not_mem hnot, Nat.sub_self]
    exact .inl rfl
  | @past c cs front _ ih =>
    intro offset
    have hle := columnOf_le front
    by_cases hc : c = '\n'
    · subst hc
      have hline : lineOf ([lineFeed] ++ front) = front.count lineFeed + 2 := by simp [lineOf]
      have hcolumn : columnOf ([lineFeed] ++ front) = columnOf front := by
        by_cases hmem : lineFeed ∈ front
        · exact columnOf_append_of_mem _ hmem
        · rw [columnOf_append_of_not_mem _ hmem, columnOf_of_not_mem hmem]
          exact Nat.zero_add _
      rw [utf8EncodeChar_lineFeed, hline, hcolumn, lineStart?, if_pos rfl]
      rcases ih (offset + 1) with hsome | ⟨hnone, hzero, hlength⟩
      · left
        rw [lineOf] at hsome
        rw [hsome, List.length_append, List.length_singleton]
        congr 1
        omega
      · refine .inr ⟨hnone, hzero, ?_⟩
        rw [List.length_append, hlength]
        rfl
    · have hnot : lineFeed ∉ String.utf8EncodeChar c := fun hmem => hc (lineFeed_mem_iff.1 hmem)
      have hline : lineOf (String.utf8EncodeChar c ++ front) = lineOf front := by
        rw [lineOf, List.count_append, count_of_not_mem hnot, Nat.zero_add, lineOf]
      rw [hline, List.length_append, String.length_utf8EncodeChar]
      by_cases hmem : lineFeed ∈ front
      · obtain ⟨line, hcount⟩ := Nat.exists_eq_succ_of_ne_zero
          (Nat.ne_of_gt (List.count_pos_iff.2 hmem))
        have hrest := ih (offset + c.utf8Size)
        rw [columnOf_append_of_mem _ hmem, lineOf, hcount, lineStart?, if_neg hc]
        rw [lineOf, hcount] at hrest
        rcases hrest with hsome | ⟨hnone, hzero, hlength⟩
        · left
          rw [hsome]
          congr 1
          omega
        · exact .inr ⟨hnone, hzero, by rw [hlength, byteLength_cons]⟩
      · have hall : lineFeed ∉ String.utf8EncodeChar c ++ front := by simp [hnot, hmem]
        rw [columnOf_of_not_mem hall, lineOf, count_of_not_mem hmem, List.length_append,
          String.length_utf8EncodeChar, Nat.sub_self]
        exact .inl rfl

/-! ## Places of a text -/

/-- No place is past the end. -/
theorem offsetOf_le (source : String) (line column : Nat) :
    offsetOf source line column ≤ source.utf8ByteSize := by
  rw [offsetOf, utf8ByteSize_eq]
  split
  · exact Nat.min_le_right _ _
  · exact Nat.le_refl _

/-- The position of a place tells the line feeds in front of it and the bytes since the last one. -/
theorem position_eq {source : String} {place : Nat} (h : place ≤ source.utf8ByteSize) :
    position source place = (lineOf (source.toUTF8.data.toList.take place),
      columnOf (source.toUTF8.data.toList.take place)) := by
  rw [utf8ByteSize_eq, ← length_bytesOf] at h
  have hposition := positionFrom_of_front (front_take source.toList place) 1 0
  rw [List.length_take_of_le h] at hposition
  rw [position, hposition, data_toUTF8, lineOf, Nat.add_comm]
  congr 1
  split_ifs with hmem
  · rfl
  · rw [columnOf_of_not_mem hmem, List.length_take_of_le h, Nat.zero_add]

theorem Front.length_le {cs : List Char} {front : List UInt8} (h : Front cs front) :
    front.length ≤ byteLength cs := by
  induction h with
  | done => exact Nat.le_refl 0
  | inside hcount =>
    rw [length_take hcount, byteLength_cons]
    omega
  | past _ ih =>
    rw [List.length_append, String.length_utf8EncodeChar, byteLength_cons]
    omega

theorem offsetOf_of_front {source : String} {front : List UInt8} (h : Front source.toList front) :
    offsetOf source (lineOf front) (columnOf front) =
      if columnOf front = 0 then front.length else front.length - 1 := by
  have hcolumn := columnOf_le front
  have hlength := h.length_le
  unfold offsetOf
  rcases lineStart?_of_front h 0 with hsome | ⟨hnone, hzero, hend⟩
  · rw [hsome]
    show min (0 + (front.length - columnOf front) + (columnOf front - 1)) _ = _
    split_ifs <;> omega
  · rw [hnone, if_pos hzero]
    exact hend.symm

/-- Line and column of a place, counted over the bytes in front of it, lead back to the place if it
begins its line, and else to the byte before, on whatever line it stands and wherever the text ends.
No line and column lead past the end. -/
theorem offsetOf_lineOf_columnOf (source : String) :
    (∀ place ≤ source.utf8ByteSize,
      let front := source.toUTF8.data.toList.take place
      position source place = (lineOf front, columnOf front) ∧
        offsetOf source (lineOf front) (columnOf front) =
          if columnOf front = 0 then place else place - 1) ∧
    ∀ line column : Nat, offsetOf source line column ≤ source.utf8ByteSize := by
  refine ⟨fun place hplace => ?_, offsetOf_le source⟩
  intro front
  refine ⟨position_eq hplace, ?_⟩
  have hlength : front.length = place := by
    rw [List.length_take_of_le]
    rwa [data_toUTF8, length_bytesOf, ← utf8ByteSize_eq]
  have hfront : Front source.toList front := by
    show Front source.toList (source.toUTF8.data.toList.take place)
    rw [data_toUTF8]
    exact front_take source.toList place
  rw [offsetOf_of_front hfront, hlength]

/-- The place inside of a letter, the one in front of the last line feed and the end behind it. -/
theorem offsetOf_lineOf_columnOf_umlaut :
    let source := "aß\n\nb\n"
    source.utf8ByteSize = 7 ∧ offsetOf source 1 2 = 1 ∧ offsetOf source 3 1 = 5 ∧
      offsetOf source 4 0 = 7 := by
  intro source
  have hsize : source.utf8ByteSize = 7 := by decide
  have hbytes : source.toUTF8.data.toList = [0x61, 0xC3, 0x9F, 0x0A, 0x0A, 0x62, 0x0A] := by
    decide +kernel
  obtain ⟨hplaces, -⟩ := offsetOf_lineOf_columnOf source
  have hinside := (hplaces 2 (by omega)).2
  have hfeed := (hplaces 6 (by omega)).2
  have hend := (hplaces 7 (by omega)).2
  rw [hbytes] at hinside hfeed hend
  exact ⟨hsize, hinside, hfeed, hend⟩

end Text

end PiBlocks
