import Cczoe.Net.ConstReads
import Cczoe.Net.SequentialWrites

/-!
# Byte arrays loaded from files

`readFromFile` writes a file into the array in pieces of a block each. A fresh array has one block,
which the first piece fills, and the next piece meets a full array: it goes over the first one.
`loads_iff` says that a fresh array loads a file exactly when one block holds it, and
`writeToFile_readFromFile_iff` what that means for a dump that is loaded again.
-/

set_option autoImplicit false
set_option relaxedAutoImplicit false

namespace Cczoe.Net

namespace ByteArray

variable (junk : ℕ → ℕ → UInt8)

/-- The loop of `readFromFile` on what is left of the file. A turn that finds fewer bytes than it
asks for reaches the end of the file and is the last one. Blocks of no bytes, which no turn gets on
with, are left out. -/
def readFromFileLoop (baseSize : ℕ) (file : List UInt8) : ByteArrayM Unit :=
  if _hfull : 0 < baseSize ∧ baseSize ≤ file.length then do
    write junk (file.take baseSize)
    readFromFileLoop baseSize (file.drop baseSize)
  else write junk file
termination_by file.length
decreasing_by
  rw [List.length_drop]
  omega

/-- `readFromFile`: the returned flag; `none` is a file that cannot be opened. -/
def readFromFile (file : Option (List UInt8)) : ByteArrayM Bool := fun b ↦
  match file with
  | none => .ok false b
  | some bytes => (readFromFileLoop junk b.baseSize bytes >>= fun _ ↦ pure true) b

/-- The pieces that a file is written in. -/
def filePieces (baseSize : ℕ) (file : List UInt8) : List (List UInt8) :=
  if _hfull : 0 < baseSize ∧ baseSize ≤ file.length then
    file.take baseSize :: filePieces baseSize (file.drop baseSize)
  else [file]
termination_by file.length
decreasing_by
  rw [List.length_drop]
  omega

/-- A fresh array loads a file: whatever fresh memory holds, it returns true and holds the bytes of
the file. -/
def Loads (baseSize : ℕ) (file : List UInt8) : Prop :=
  ∀ junk, ∃ after, readFromFile junk (some file) (ofBaseSize junk baseSize) = .ok true after ∧
    Holds [file] after

section Pieces

variable {baseSize : ℕ}

theorem flatten_filePieces (file : List UInt8) : (filePieces baseSize file).flatten = file := by
  fun_induction filePieces baseSize file with
  | case1 file hfull ih => rw [List.flatten_cons, ih, List.take_append_drop]
  | case2 file hshort => rw [List.flatten_singleton]

theorem writeAll_singleton (chunk : List UInt8) : writeAll junk [chunk] = write junk chunk := by
  funext b
  cases hwrite : write junk chunk b with
  | ok value after => exact writeAll_cons junk [] hwrite
  | error fault after =>
    simp only [writeAll, bind, EStateM.bind, hwrite]

/-- The loop writes the pieces one after another. -/
theorem readFromFileLoop_eq (file : List UInt8) :
    readFromFileLoop junk baseSize file = writeAll junk (filePieces baseSize file) := by
  fun_induction filePieces baseSize file with
  | case1 file hfull ih =>
    rw [readFromFileLoop, dif_pos hfull, ih]
    rfl
  | case2 file hshort => rw [readFromFileLoop, dif_neg hshort, writeAll_singleton]

/-- The second piece meets a full array, and there is none exactly when one block holds the file. -/
theorem meetsRoom_filePieces (hbase : 0 < baseSize) (file : List UInt8) :
    MeetsRoom baseSize baseSize (filePieces baseSize file) ↔ file.length ≤ baseSize := by
  rw [filePieces]
  by_cases hfull : baseSize ≤ file.length
  · have htake : (file.take baseSize).length = baseSize := List.length_take_of_le hfull
    have hroom : room baseSize baseSize (file.take baseSize).length = 0 := by
      rw [room, if_pos htake.le, htake, Nat.sub_self]
    rw [dif_pos ⟨hbase, hfull⟩, MeetsRoom, hroom, filePieces]
    have hdrop : (file.drop baseSize).length = file.length - baseSize := List.length_drop
    constructor
    · rintro ⟨-, hrest⟩
      by_contra hlong
      have hmore : 0 < (file.drop baseSize).length := by omega
      by_cases hagain : baseSize ≤ (file.drop baseSize).length
      · rw [dif_pos ⟨hbase, hagain⟩] at hrest
        refine hrest.1 (List.ne_nil_of_length_pos ?_) rfl
        rw [List.length_take_of_le hagain]
        exact hbase
      · rw [dif_neg (fun hboth ↦ hagain hboth.2)] at hrest
        exact hrest.1 (List.ne_nil_of_length_pos hmore) rfl
    · intro hle
      have hnil : file.drop baseSize = [] := List.drop_eq_nil_of_le hle
      refine ⟨fun _ ↦ hbase.ne', ?_⟩
      rw [hnil, dif_neg (by simp; omega)]
      exact ⟨fun hne ↦ absurd rfl hne, trivial⟩
  · rw [dif_neg fun hboth ↦ hfull hboth.2]
    exact iff_of_true ⟨fun _ ↦ hbase.ne', trivial⟩ (Nat.le_of_not_le hfull)

theorem readFromFile_eq (file : List UInt8) {b after : ByteArray}
    (hwrites : writeAll junk (filePieces b.baseSize file) b = .ok () after) :
    readFromFile junk (some file) b = .ok true after := by
  simp only [readFromFile, readFromFileLoop_eq, bind, EStateM.bind, hwrites]
  rfl

theorem loads_iff (hbase : 1 ≤ baseSize) (file : List UInt8) :
    Loads baseSize file ↔ file.length ≤ baseSize := by
  rw [← meetsRoom_filePieces hbase]
  have hpieces {b : ByteArray} : Holds [file] b ↔ Holds (filePieces baseSize file) b := by
    rw [Holds, Holds, flatten_filePieces, List.flatten_singleton]
  constructor
  · intro hloads
    by_contra hroom
    -- a filler that differs from the last byte of the file shows that this byte was lost
    obtain ⟨filler, hfiller⟩ :
        ∃ filler : UInt8, (filePieces baseSize file).flatten.getLast? ≠ some filler := by
      cases (filePieces baseSize file).flatten.getLast? with
      | none => exact ⟨0, nofun⟩
      | some last => exact ⟨last + 1, by simp⟩
    obtain ⟨after, start, hwrites, hlagging, hstart, -⟩ :=
      (seated_ofBaseSize (fun _ _ ↦ filler) hbase).writeAll_lagging _ _ _ _ rfl hroom
    obtain ⟨other, hother, hholds⟩ := hloads fun _ _ ↦ filler
    rw [readFromFile_eq _ file hwrites] at hother
    cases hother
    exact hlagging.not_holds hstart hfiller (hpieces.mp hholds)
  · intro hroom junk
    obtain ⟨after, hwrites, hseated⟩ :=
      (seated_ofBaseSize junk hbase).writeAll junk _ _ _ rfl hroom
    rw [List.nil_append] at hseated
    refine ⟨after, readFromFile_eq junk file hwrites, hpieces.mpr ?_⟩
    refine ⟨hseated.position_eq, hseated.size_eq, ?_⟩
    rw [hseated.size_eq, hseated.text_take]

end Pieces

/-- Assumes: a placed array whose dump starts well, and blocks of at least one byte. The file it
writes is loaded into a fresh array with blocks of another size exactly when one of them holds all
readable bytes. -/
theorem writeToFile_readFromFile_iff {b : ByteArray} (hb : Placed b) (hstarts : DumpStarts b)
    {baseSize : ℕ} (hbase : 1 ≤ baseSize) :
    ∃ file, b.toString = .ok file ∧ b.writeToFile true = .ok (true, file) ∧
      (Loads baseSize file ↔ b.getReadableSize ≤ baseSize) := by
  obtain ⟨file, hstring, hdump⟩ := writeToFile_of_starts hb hstarts
  refine ⟨file, hstring, hdump, ?_⟩
  have hlength : file.length = b.getReadableSize := by
    rw [toString_eq hb] at hstring
    have hbytes := Except.ok.inj hstring
    have htext := hb.length_text
    have hsize := hb.size_le
    rw [← hbytes, List.length_take, List.length_drop, htext, getReadableSize]
    omega
  rw [loads_iff hbase, hlength]

/-- Four readable bytes across three blocks of two, dumped and loaded into a block of four. -/
theorem writeToFile_readFromFile_acrossThree : ∃ file, acrossThree.toString = .ok file ∧
    acrossThree.writeToFile true = .ok (true, file) ∧
      (Loads 4 file ↔ acrossThree.getReadableSize ≤ 4) :=
  writeToFile_readFromFile_iff placed_acrossThree (Or.inr (Or.inr ⟨by decide, by decide⟩))
    (by decide)

end ByteArray

end Cczoe.Net
