import HeaderIndex.Proofs.Text.Malformed
import HeaderIndex.Scan.Basic

/-! Reading one file. The bytes of a file are read as the text that they are, or else the reason
why they are none is given, and it is right (`file_exact`). -/

namespace HeaderIndex.Scan

open HeaderIndex.Text

section Found

variable {fs : FileSystem} {path : Path} {bytes : List UInt8}
  (h : fs.find path = .ok (.file (.ok bytes)))

include h

theorem read_of_find : fs.read path = .ok bytes := by
  rw [FileSystem.read, h]
  rfl

theorem file_of_decode {text : List Char} (htext : Utf8.decode bytes = .ok text) :
    file fs path = .ok ⟨path, Header.symbols (String.ofList text)⟩ := by
  simp only [file, read_of_find h, htext]

theorem file_of_decode_error {cause : Utf8.Error} (hcause : Utf8.decode bytes = .error cause) :
    file fs path = .error (.decode path cause) := by
  simp only [file, read_of_find h, hcause]

end Found

/-- **Reading a file is exact.** A file that can be opened gives a record just if its bytes are
those of a text, and then the record has the path and the symbols of that text. Otherwise the
file cannot be decoded, and the reason given is true of its bytes. -/
theorem file_exact (fs : FileSystem) (path : Path) (bytes : List UInt8)
    (h : fs.find path = .ok (.file (.ok bytes))) :
    ((∃ record, file fs path = .ok record) ↔ Utf8.IsText bytes) ∧
    (∀ text : String, text.toUTF8.toList = bytes →
      file fs path = .ok ⟨path, Header.symbols text⟩) ∧
    (¬ Utf8.IsText bytes →
      ∃ cause, file fs path = .error (.decode path cause) ∧ cause.IsTrueOf bytes) := by
  have hrecord : ∀ text : String, text.toUTF8.toList = bytes →
      file fs path = .ok ⟨path, Header.symbols text⟩ := by
    intro text htext
    rw [Utf8.toList_toUTF8] at htext
    rw [file_of_decode h (Utf8.decode_eq_ok_iff.mpr htext.symm), String.ofList_toList]
  cases hdecode : Utf8.decode bytes with
  | ok text =>
    have htext : Utf8.IsText bytes :=
      Utf8.isText_iff.mpr ⟨text, Utf8.decode_eq_ok_iff.mp hdecode⟩
    exact ⟨iff_of_true ⟨_, file_of_decode h hdecode⟩ htext, hrecord,
      fun hnone => absurd htext hnone⟩
  | error cause =>
    have hfails := file_of_decode_error h hdecode
    refine ⟨⟨?_, fun ⟨text, htext⟩ => ⟨_, hrecord text htext⟩⟩, hrecord, fun _ =>
      ⟨cause, hfails, Utf8.isTrueOf_of_decode hdecode⟩⟩
    rintro ⟨record, hok⟩
    rw [hfails] at hok
    cases hok

/-- A letter and two bytes of a character of three, at the end of a file and before another
letter. -/
theorem file_exact_cut :
    ∃ (fs : FileSystem) (a b : Path) (cut wrong : List UInt8),
      cut = [0x61, 0xe2, 0x82] ∧ wrong = [0x61, 0xe2, 0x82, 0x61] ∧
      fs.find a = .ok (.file (.ok cut)) ∧ ¬ Utf8.IsText cut ∧
      file fs a = .error (.decode a ⟨1, none⟩) ∧ Utf8.Error.IsTrueOf ⟨1, none⟩ cut ∧
      fs.find b = .ok (.file (.ok wrong)) ∧ ¬ Utf8.IsText wrong ∧
      file fs b = .error (.decode b ⟨1, some 2⟩) ∧
        Utf8.Error.IsTrueOf ⟨1, some 2⟩ wrong := by
  let cut : List UInt8 := [0x61, 0xe2, 0x82]
  let wrong : List UInt8 := [0x61, 0xe2, 0x82, 0x61]
  let fs : FileSystem :=
    ⟨.folder [(Utf8.bytes "a.h", .file (.ok cut)), (Utf8.bytes "b.h", .file (.ok wrong))],
      [], none⟩
  let a : Path := .ofText "/a.h"
  let b : Path := .ofText "/b.h"
  have hcut : fs.find a = .ok (.file (.ok cut)) := rfl
  have hwrong : fs.find b = .ok (.file (.ok wrong)) := rfl
  have hcause : file fs a = .error (.decode a ⟨1, none⟩) := file_of_decode_error hcut rfl
  have hcause' : file fs b = .error (.decode b ⟨1, some 2⟩) := file_of_decode_error hwrong rfl
  obtain ⟨hread, _, htrue⟩ := file_exact fs a cut hcut
  obtain ⟨hread', _, htrue'⟩ := file_exact fs b wrong hwrong
  have hnone : ¬ Utf8.IsText cut := by simp [← hread, hcause]
  have hnone' : ¬ Utf8.IsText wrong := by simp [← hread', hcause']
  obtain ⟨cause, hfile, htrue⟩ := htrue hnone
  obtain ⟨cause', hfile', htrue'⟩ := htrue' hnone'
  cases hcause.symm.trans hfile
  cases hcause'.symm.trans hfile'
  exact ⟨fs, a, b, cut, wrong, rfl, rfl, hcut, hnone, hcause, htrue, hwrong, hnone', hcause',
    htrue'⟩

end HeaderIndex.Scan
