import PiBlocks.Text.Offset
import Mathlib.Data.List.Basic
import Mathlib.Tactic.SplitIfs

/-!
# Bytes of a text

Places in a source text are byte offsets, but texts are read character by character. `bytesOf` is
what the characters look like in UTF-8 ; it has as many bytes as `byteLength` counts
(`length_bytesOf`), and it is what a string consists of (`data_toUTF8`). Some characters are one
byte, and no other character has that byte in it (`ascii_mem_iff`).
-/

namespace PiBlocks

namespace Text

/-! ## Lengths -/

@[simp] theorem byteLength_nil : byteLength [] = 0 := rfl

@[simp] theorem byteLength_cons (c : Char) (cs : List Char) :
    byteLength (c :: cs) = c.utf8Size + byteLength cs := rfl

@[simp] theorem byteLength_append (cs more : List Char) :
    byteLength (cs ++ more) = byteLength cs + byteLength more := by
  induction cs with
  | nil => simp
  | cons c cs ih => simp [ih, Nat.add_assoc]

/-- Pieces of one text that begin together and are as long as each other are the same. -/
theorem append_inj_of_byteLength : ∀ {cs cs' more more' : List Char},
    cs ++ more = cs' ++ more' → byteLength cs = byteLength cs' → cs = cs' ∧ more = more'
  | [], [], _, _, h, _ => ⟨rfl, h⟩
  | [], c :: _, _, _, _, hlength => by
    have hpos := c.utf8Size_pos
    simp only [byteLength_nil, byteLength_cons] at hlength
    omega
  | c :: _, [], _, _, _, hlength => by
    have hpos := c.utf8Size_pos
    simp only [byteLength_nil, byteLength_cons] at hlength
    omega
  | c :: cs, c' :: cs', _, _, h, hlength => by
    simp only [List.cons_append, List.cons.injEq] at h
    obtain ⟨rfl, h⟩ := h
    obtain ⟨rfl, hmore⟩ := append_inj_of_byteLength h (by simpa using hlength)
    exact ⟨rfl, hmore⟩

/-! ## Bytes -/

/-- The characters in UTF-8. -/
def bytesOf (cs : List Char) : List UInt8 := cs.flatMap String.utf8EncodeChar

@[simp] theorem bytesOf_nil : bytesOf [] = [] := rfl

@[simp] theorem bytesOf_cons (c : Char) (cs : List Char) :
    bytesOf (c :: cs) = String.utf8EncodeChar c ++ bytesOf cs := rfl

@[simp] theorem length_bytesOf (cs : List Char) : (bytesOf cs).length = byteLength cs := by
  induction cs with
  | nil => rfl
  | cons c cs ih => rw [bytesOf_cons, List.length_append, String.length_utf8EncodeChar, ih,
      byteLength_cons]

theorem toByteArray_eq (text : String) : text.toByteArray = (bytesOf text.toList).toByteArray := by
  rw [← String.utf8Encode_toList]
  rfl

/-- The bytes of a string are those of its characters. -/
theorem data_toUTF8 (text : String) : text.toUTF8.data.toList = bytesOf text.toList := by
  rw [String.toUTF8_eq_toByteArray, toByteArray_eq, List.data_toByteArray, List.toList_toArray]

/-- So the size of a string is the length of its characters. -/
theorem utf8ByteSize_eq (text : String) : text.utf8ByteSize = byteLength text.toList := by
  rw [← length_bytesOf, ← data_toUTF8, Array.length_toList]
  rfl

/-! ## Cutting a text -/

theorem toUTF8_append (a b : String) : (a ++ b).toUTF8 = a.toUTF8 ++ b.toUTF8 :=
  String.toByteArray_append

theorem size_toUTF8 (text : String) : text.toUTF8.size = text.utf8ByteSize := rfl

/-- A text can be cut between characters. -/
theorem exists_append_of_isValid {source : String} {offset : Nat}
    (h : String.Pos.Raw.IsValid source ⟨offset⟩) : ∃ front back, source = front ++ back ∧
      front.utf8ByteSize = offset ∧ source.toUTF8.extract 0 offset = front.toUTF8 := by
  obtain ⟨front, back, rfl, hoffset⟩ := String.Pos.Raw.isValid_iff_exists_append.1 h
  obtain rfl : offset = front.utf8ByteSize := congrArg String.Pos.Raw.byteIdx hoffset
  refine ⟨front, back, rfl, rfl, ?_⟩
  rw [toUTF8_append]
  exact ByteArray.extract_append_eq_left rfl

theorem isValid_append (front back : String) :
    String.Pos.Raw.IsValid (front ++ back) ⟨front.utf8ByteSize⟩ :=
  String.Pos.Raw.isValid_iff_exists_append.2 ⟨front, back, rfl, rfl⟩

/-- The bytes of a piece of a text. -/
theorem extract_append (front piece back : String) :
    (front ++ (piece ++ back)).toUTF8.extract front.utf8ByteSize
      (front.utf8ByteSize + piece.utf8ByteSize) = piece.toUTF8 := by
  rw [toUTF8_append, toUTF8_append]
  calc (front.toUTF8 ++ (piece.toUTF8 ++ back.toUTF8)).extract front.toUTF8.size
        (front.toUTF8.size + piece.toUTF8.size)
      = (piece.toUTF8 ++ back.toUTF8).extract 0 piece.toUTF8.size :=
        ByteArray.extract_append_size_add (i := 0)
    _ = piece.toUTF8 := ByteArray.extract_append_eq_left rfl

/-! ## Bytes of single characters -/

theorem toNat_of_eq_ofNat {byte : UInt8} {n : Nat} (h : byte = UInt8.ofNat n) :
    byte.toNat = n % 256 := by
  rw [h, UInt8.toNat_ofNat']

/-- Only a character of one byte has its byte in it : the bytes of longer characters are at least
128. -/
theorem ascii_mem_iff {c d : Char} (hd : d.toNat < 128) :
    UInt8.ofNat d.toNat ∈ String.utf8EncodeChar c ↔ c = d := by
  constructor
  · intro h
    have hbyte : (UInt8.ofNat d.toNat).toNat = d.toNat := by
      rw [UInt8.toNat_ofNat', Nat.mod_eq_of_lt (by omega)]
    unfold String.utf8EncodeChar at h
    dsimp only at h
    split_ifs at h with hone htwo hthree <;>
      simp only [List.mem_cons, List.not_mem_nil, or_false] at h
    · have hval := toNat_of_eq_ofNat h
      refine Char.ext (UInt32.toNat_inj.1 ?_)
      show c.val.toNat = d.toNat
      omega
    · rcases h with h | h <;> have hval := toNat_of_eq_ofNat h <;> omega
    · rcases h with h | h | h <;> have hval := toNat_of_eq_ofNat h <;> omega
    · rcases h with h | h | h | h <;> have hval := toNat_of_eq_ofNat h <;> omega
  · rintro rfl
    have hval : c.toNat ≤ 127 := Nat.le_of_lt_succ hd
    simp [String.utf8EncodeChar, hval]

/-- The byte of a line feed. -/
def lineFeed : UInt8 := 10

@[simp] theorem utf8EncodeChar_lineFeed : String.utf8EncodeChar '\n' = [lineFeed] := rfl

/-- Only a line feed has its byte in it. -/
theorem lineFeed_mem_iff {c : Char} : lineFeed ∈ String.utf8EncodeChar c ↔ c = '\n' :=
  ascii_mem_iff (d := '\n') (by decide)

end Text

end PiBlocks
