import PiBlocks.CommandLine.Disk
import Mathlib.Data.List.Basic
import Mathlib.Tactic.SplitIfs

/-!
# Files that are written

A text that could be written is there when its path is read again (`Disk.text_of_withText`). The
path leads to the same place as before : on the way there are only folders, which the place is not
one of, and to set a file takes no folder away (`Disk.follow_setFile`).
-/

namespace PiBlocks

theorem fromUTF8?_toUTF8 (text : String) : String.fromUTF8? text.toUTF8 = some text := by
  rw [String.fromUTF8?, String.toUTF8_eq_toByteArray, dif_pos text.isValidUTF8]
  rfl

namespace Disk

variable {disk : Disk} {place : List String} {bytes : ByteArray}

/-! ## Setting a file -/

/-- A file that is set has its bytes, and the others keep theirs. -/
theorem contents?_setFile (parts : List String) :
    (disk.setFile place bytes).contents? parts =
      if parts = place then some bytes else disk.contents? parts := by
  obtain ⟨files, current⟩ := disk
  simp only [contents?, setFile]
  induction files with
  | nil =>
    by_cases h : parts = place
    · simp [setBytes, h]
    · simp [setBytes, h, Ne.symm h]
  | cons file files ih =>
    rw [setBytes]
    by_cases hfile : file.1 = place
    · by_cases h : parts = place
      · simp [hfile, h]
      · simp [hfile, h, Ne.symm h]
    · rw [if_neg hfile, List.find?_cons, List.find?_cons]
      by_cases h : file.1 = parts
      · simp [h, h ▸ hfile]
      · simpa [h] using ih

theorem mem_setBytes {parts : List String} {files : List (List String × ByteArray)}
    (h : parts ∈ files.map Prod.fst) : parts ∈ (setBytes place bytes files).map Prod.fst := by
  induction files with
  | nil => cases h
  | cons file files ih =>
    rw [setBytes]
    split_ifs with hplace
    · simpa [hplace] using h
    · rw [List.map_cons, List.mem_cons] at h ⊢
      exact h.imp_right ih

theorem isFolder_iff (disk : Disk) (parts : List String) : disk.isFolder parts = true ↔
    parts <+: disk.current ∨
      ∃ file ∈ disk.files.map Prod.fst, parts <+: file ∧ parts.length < file.length := by
  simp [isFolder]

/-- To set a file takes no folder away. -/
theorem isFolder_setFile {parts : List String} (h : disk.isFolder parts = true) :
    (disk.setFile place bytes).isFolder parts = true := by
  rw [isFolder_iff] at h ⊢
  rcases h with h | ⟨file, hfile, hunder⟩
  · exact .inl h
  · exact .inr ⟨file, mem_setBytes hfile, hunder⟩

/-- A way leads where it has led before if a file is set in a place that is no folder. -/
theorem follow_setFile (hplace : disk.isFolder place = false) {found : List String} :
    ∀ {parts here : List String}, disk.follow here parts = .ok found →
      (disk.setFile place bytes).follow here parts = .ok found
  | [], _, h => h
  | part :: parts, here, h => by
    rw [follow] at h
    split_ifs at h with hlong hfile hfolder hstay hback
    all_goals
      have hthere : disk.isFolder here = true := by simpa using hfolder
      have hne : here ≠ place := by
        rintro rfl
        exact Bool.false_ne_true (hplace.symm.trans hthere)
      rw [follow, if_neg hlong, contents?_setFile, if_neg hne, if_neg hfile,
        isFolder_setFile hthere]
    · simpa [hstay] using follow_setFile hplace h
    · simpa [hstay, hback] using follow_setFile hplace h
    · simpa [hstay, hback] using follow_setFile hplace h

/-! ## Writing a text -/

/-- A path that does not end in a slash is taken as it is. -/
theorem eq_of_trimSlashes {path trimmed : String} (h : trimSlashes path = (trimmed, false)) :
    trimmed = path := by
  rw [trimSlashes] at h
  have hsublist := List.dropWhile_sublist (fun c => decide (c = '/')) (l := path.toList.reverse)
  split at h
  · exact (Prod.mk.inj h).1.symm
  · obtain ⟨rfl, hlength⟩ := Prod.mk.inj h
    have hall := hsublist.eq_of_length_le (by simpa using hlength)
    rw [hall, List.reverse_reverse, String.ofList_toList]

/-- A text is written in a place that is no folder and has no name that is too long. -/
theorem exists_of_withText {path text : String} {written : Disk}
    (h : disk.withText path text = .ok written) :
    ∃ place, disk.locate path = .ok place ∧ hasLongName place = false ∧
      disk.isFolder place = false ∧ written = disk.setFile place text.toUTF8 := by
  rw [withText] at h
  obtain ⟨trimmed, asFolder, htrim⟩ : ∃ trimmed asFolder,
    trimSlashes path = (trimmed, asFolder) := ⟨_, _, rfl⟩
  rw [htrim] at h
  dsimp only at h
  cases hlocate : disk.locate trimmed with
  | error error =>
    rw [hlocate] at h
    cases h
  | ok place =>
    rw [hlocate] at h
    change (if asFolder = true then _ else _) = _ at h
    split_ifs at h with hslash hlong hfolder
    obtain rfl : asFolder = false := by simpa using hslash
    obtain rfl := eq_of_trimSlashes htrim
    obtain rfl := Except.ok.inj h
    exact ⟨place, hlocate, by simpa using hlong, by simpa using hfolder, rfl⟩

theorem bytes_of_locate {path : String} (hlocate : disk.locate path = .ok place)
    (hlong : hasLongName place = false) (hcontents : disk.contents? place = some bytes) :
    disk.bytes path = .ok bytes := by
  rw [Disk.bytes, hlocate]
  simp [bind, Except.bind, hlong, hcontents, pure, Except.pure]

theorem text_of_bytes {path text : String} (h : disk.bytes path = .ok text.toUTF8) :
    disk.text path = .ok text := by
  unfold Disk.text
  rw [h]
  simp only [bind, Except.bind, fromUTF8?_toUTF8]
  rfl

/-- A text that is written can be read again. -/
theorem text_of_withText {path text : String} {written : Disk}
    (h : disk.withText path text = .ok written) : written.text path = .ok text := by
  obtain ⟨place, hlocate, hlong, hfolder, rfl⟩ := exists_of_withText h
  refine text_of_bytes (bytes_of_locate ?_ hlong (by rw [contents?_setFile, if_pos rfl]))
  rw [locate] at hlocate ⊢
  split_ifs at hlocate ⊢
  exact follow_setFile hfolder hlocate

end Disk

end PiBlocks
