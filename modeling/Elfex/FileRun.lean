import Elfex.File
import Elfex.Image.Edits
import Elfex.Image.Source

/-!
# Runs of a file

A container is opened from any source of its bytes, edited through its image, saved and
opened again. The trailing bytes are no part of the image, and the end of the last structure
of a built file is where they were appended, so no run of such rounds loses or moves them.
-/

namespace Elfex

open Foundation

namespace ElfFile

/-- Wraps an image with no trailing data. -/
def new (image : ElfImage) : ElfFile := ⟨image, []⟩

/-- Edits the image of a file. -/
def imageMut (file : ElfFile) (edits : List Edit) : ElfFile :=
  { file with image := Edit.run file.image edits }

/-- What a file of a byte string holds. -/
def fileOf (data : List UInt8) : ElfFile :=
  ⟨imageOf data, data.drop (lastStructureEnd (imageOf data)).toNat⟩

theorem readFrom_decides {reader : Reader} {data : List UInt8} (h : reader.ServesBytes data)
    (hdata : data.length ≤ isizeMax) :
    (readFrom reader).Decides (FileGrammar data) (fileOf data) := by
  have hbase : (offsetReader reader 0).ServesBytes data := by rwa [offsetReader_zero]
  rw [readFrom]
  simp only [readTrailing_serves h hdata, Outcome.ok_bind]
  exact (readFrom_file_decides hbase hdata).map fun image =>
    (⟨image, data.drop (lastStructureEnd image).toNat⟩ : ElfFile)

/-- A file is read alike from every source of its bytes, whatever the sizes of the reads;
the source decides neither what is accepted nor which bytes trail. -/
theorem readFrom_any_source {reader : Reader} {data : List UInt8} (h : reader.ServesBytes data)
    (hdata : data.length ≤ isizeMax) :
    ((readFrom reader).IsErr ∧ (parse data).IsErr) ∨
      ∃ file, readFrom reader = .ok file ∧ parse data = .ok file := by
  have hmax : isizeMax < 2 ^ 64 := by decide
  exact (readFrom_decides h hdata).agree
    (readFrom_decides (sliceReader_serves (by omega)) hdata)

/-- A file with three bytes appended, read two bytes at a time. -/
theorem smallFile_any_source :
    ∃ file, readFrom (memoryReader (Memory.ofList (smallFile ++ [1, 2, 3])) 2
        (some (UInt64.ofNat (smallFile ++ [1, 2, 3]).length))) = .ok file ∧
      file.trailing = [1, 2, 3] := by
  have hserves : (memoryReader (Memory.ofList (smallFile ++ [1, 2, 3])) 2
      (some (UInt64.ofNat (smallFile ++ [1, 2, 3]).length))).ServesBytes
        (smallFile ++ [1, 2, 3]) :=
    ⟨by decide +kernel, rfl, memoryReader_serves _ (by decide) (by decide) _⟩
  have htrailing : (parse (smallFile ++ [1, 2, 3])).map ElfFile.trailing = .ok [1, 2, 3] := by
    decide +kernel
  rcases readFrom_any_source hserves (by decide +kernel) with ⟨-, e, herr⟩ | ⟨file, hread, hparse⟩
  · rw [herr] at htrailing
    cases htrailing
  · rw [hparse] at htrailing
    exact ⟨file, hread, Except.ok.inj htrailing⟩

/-! ## Edits, saved and opened again -/

end ElfFile

/-- An edit gives no section a name with a NUL. -/
def Edit.NulFree : Edit → Prop
  | sectionsMut sections => ∀ sec ∈ sections, 0 ∉ strBytes sec.name
  | _ => True

theorem names_apply {image : ElfImage} (hnames : ∀ sec ∈ image.sections, 0 ∉ strBytes sec.name)
    {edit : Edit} (hfree : edit.NulFree) :
    ∀ sec ∈ (edit.apply image).sections, 0 ∉ strBytes sec.name := by
  cases edit with
  | headerMut header => exact hnames
  | segmentsMut segments fits => exact hnames
  | sectionsMut sections => exact hfree
  | setRuntimeImageBase base => exact hnames
  | writeAtIoff ioff bytes =>
      rw [Edit.apply]
      cases hwrite : image.writeAtIoff ioff bytes with
      | none => exact hnames
      | some image' =>
          obtain ⟨vaddr, index, segment, h⟩ := ElfImage.writeAtIoff_eq_some.1 hwrite
          rw [Option.getD_some, h.result]
          intro sec' hmem
          obtain ⟨sec, hsec, rfl⟩ := List.mem_map.1 hmem
          rw [sec.writeAt_name]
          exact hnames sec hsec

theorem names_run {image : ElfImage} (hnames : ∀ sec ∈ image.sections, 0 ∉ strBytes sec.name)
    {edits : List Edit} (hfree : ∀ edit ∈ edits, edit.NulFree) :
    ∀ sec ∈ (Edit.run image edits).sections, 0 ∉ strBytes sec.name := by
  induction edits generalizing image with
  | nil => exact hnames
  | cons edit edits ih =>
      exact ih (names_apply hnames (hfree edit List.mem_cons_self)) fun next hnext =>
        hfree next (List.mem_cons_of_mem edit hnext)

theorem ElfImage.SameEncoding.keeps {ident ident' : ElfIdent}
    (h : ElfImage.SameEncoding ident' ident) {edit : Edit} (hkeeps : edit.KeepsEncoding ident) :
    edit.KeepsEncoding ident' := by
  cases edit with
  | headerMut header =>
      exact ⟨hkeeps.elfClass.trans h.elfClass.symm, hkeeps.data.trans h.data.symm⟩
  | segmentsMut segments fits => trivial
  | sectionsMut sections => trivial
  | writeAtIoff ioff bytes => trivial
  | setRuntimeImageBase base => trivial

namespace ElfFile

section Reopen

variable {image : ElfImage} {trailing b : List UInt8}

/-- A saved container opens with its trailing bytes, and with the image that the bytes in
front of them parse to. -/
theorem reopen (hencoding : ElfImage.SameEncoding image.header.ident image.ident)
    (hnames : ∀ sec ∈ image.sections, 0 ∉ strBytes sec.name)
    (hbuild : tryBuild ⟨image, trailing⟩ = .ok b) :
    ∃ bytes, image.tryBuild = .ok bytes ∧ b = bytes ++ trailing ∧
      ElfImage.parse bytes = .ok image.announced.rebuilt ∧
      parse b = .ok ⟨image.announced.rebuilt, trailing⟩ := by
  rw [tryBuild] at hbuild
  obtain ⟨bytes, hbytes, hret⟩ := Outcome.bind_eq_ok.1 hbuild
  split at hret
  · cases hret
  rename_i hlength
  cases hret
  have hannounced : image.announced.tryBuild = .ok bytes :=
    (ElfImage.tryBuild_announced hencoding).trans hbytes
  have hident : image.announced.header.ident = image.announced.ident := rfl
  have hfit := Nat.le_of_not_lt hlength
  have hend :=
    ElfImage.lastStructureEnd_rebuilt (ElfImage.tryBuild_eq_ok hannounced) hident hnames
  have hbare : bytes.length ≤ isizeMax := by
    rw [List.length_append] at hfit
    exact (Nat.le_add_right _ _).trans hfit
  refine ⟨bytes, hbytes, rfl, ?_, (parse_eq_ok hfit).2
    ⟨ElfImage.parse_build hident hnames hannounced hfit, ?_⟩⟩
  · simpa using ElfImage.parse_build hident hnames hannounced (t := []) (by simpa using hbare)
  · rw [hend, List.drop_left]

end Reopen

/-- Edits of an opened file are saved in front of its trailing bytes, and the saved file
opens with them and with the image that the saved bytes alone parse to. -/
theorem edits_keep_trailing {data b : List UInt8} (hdata : data.length ≤ isizeMax)
    {file : ElfFile} (hparse : parse data = .ok file) {edits : List Edit}
    (hkeeps : ∀ edit ∈ edits, edit.KeepsEncoding file.image.ident)
    (hfree : ∀ edit ∈ edits, edit.NulFree) (hbuild : (file.imageMut edits).tryBuild = .ok b) :
    ∃ bytes file', (Edit.run file.image edits).tryBuild = .ok bytes ∧
      b = bytes ++ file.trailing ∧ parse b = .ok file' ∧ file'.trailing = file.trailing ∧
      ElfImage.parse bytes = .ok file'.image := by
  have himage := ((parse_eq_ok hdata).1 hparse).1
  have heditable := (ElfImage.editable_of_parse hdata himage).run hkeeps
  obtain ⟨bytes, hbytes, hb, himage', hfile⟩ := reopen (heditable.ident_eq ▸ heditable.encoding)
    (names_run (regular_of_parse hdata himage).1.names hfree) hbuild
  exact ⟨bytes, _, hbytes, hb, hfile, rfl, himage'⟩

/-- A byte of code is changed in a file with three bytes appended. -/
theorem smallFile_edited :
    ∃ file b file', parse (smallFile ++ [1, 2, 3]) = .ok file ∧
      (file.imageMut [.writeAtIoff 0 [0xcc]]).tryBuild = .ok b ∧ parse b = .ok file' ∧
      file'.trailing = file.trailing := by
  obtain ⟨b, hb⟩ := Outcome.exists_of_isOk
    (show (parse (smallFile ++ [1, 2, 3]) >>= fun file =>
      (file.imageMut [.writeAtIoff 0 [0xcc]]).tryBuild).isOk = true by decide +kernel)
  obtain ⟨file, hparse, hbuild⟩ := Outcome.bind_eq_ok.1 hb
  have hkeeps : ∀ edit ∈ [Edit.writeAtIoff 0 [0xcc]], edit.KeepsEncoding file.image.ident :=
    List.forall_mem_singleton.2 trivial
  have hfree : ∀ edit ∈ [Edit.writeAtIoff 0 [0xcc]], edit.NulFree :=
    List.forall_mem_singleton.2 trivial
  obtain ⟨bytes, file', -, -, hopen, htrailing, -⟩ :=
    edits_keep_trailing (by decide +kernel) hparse hkeeps hfree hbuild
  exact ⟨file, b, file', hparse, hbuild, hopen, htrailing⟩

/-! ## Rounds -/

/-- A run of rounds: each edits the opened file, saves it and opens what was saved. -/
inductive Rounds : ElfFile → List (List Edit) → ElfFile → Prop
  | nil (file : ElfFile) : Rounds file [] file
  | cons {file next last : ElfFile} {edits : List Edit} {rounds : List (List Edit)}
      {b : List UInt8} (hbuild : (file.imageMut edits).tryBuild = .ok b)
      (hopen : parse b = .ok next) (hrest : Rounds next rounds last) :
      Rounds file (edits :: rounds) last

/-- A file that some bytes open to. -/
structure Opened (file : ElfFile) : Prop where
  editable : ElfImage.Editable file.image.ident file.image
  names : ∀ sec ∈ file.image.sections, 0 ∉ strBytes sec.name

theorem opened_of_parse {data : List UInt8} (hdata : data.length ≤ isizeMax) {file : ElfFile}
    (hparse : parse data = .ok file) : file.Opened := by
  have himage := ((parse_eq_ok hdata).1 hparse).1
  exact ⟨ElfImage.editable_of_parse hdata himage, (regular_of_parse hdata himage).1.names⟩

theorem length_of_tryBuild {file : ElfFile} {b : List UInt8} (h : file.tryBuild = .ok b) :
    b.length ≤ isizeMax := by
  rw [tryBuild] at h
  obtain ⟨bytes, -, hret⟩ := Outcome.bind_eq_ok.1 h
  split at hret
  · cases hret
  · rename_i hlength
    cases hret
    exact Nat.le_of_not_lt hlength

/-- One round keeps the trailing bytes, the class and the byte order. -/
theorem Opened.round {file next : ElfFile} (h : file.Opened) {edits : List Edit}
    (hkeeps : ∀ edit ∈ edits, edit.KeepsEncoding file.image.ident)
    (hfree : ∀ edit ∈ edits, edit.NulFree) {b : List UInt8}
    (hbuild : (file.imageMut edits).tryBuild = .ok b) (hopen : parse b = .ok next) :
    next.Opened ∧ next.trailing = file.trailing ∧
      ElfImage.SameEncoding next.image.ident file.image.ident := by
  have heditable := h.editable.run hkeeps
  obtain ⟨bytes, -, -, -, hfile⟩ := reopen (heditable.ident_eq ▸ heditable.encoding)
    (names_run h.names hfree) hbuild
  obtain rfl := Except.ok.inj (hfile.symm.trans hopen)
  exact ⟨opened_of_parse (length_of_tryBuild hbuild) hopen, rfl, heditable.encoding⟩

/-- No run of rounds loses a trailing byte or changes the encoding. -/
theorem rounds_keep_trailing {data : List UInt8} (hdata : data.length ≤ isizeMax)
    {file last : ElfFile} (hparse : parse data = .ok file) {rounds : List (List Edit)}
    (hkeeps : ∀ edits ∈ rounds, ∀ edit ∈ edits, edit.KeepsEncoding file.image.ident)
    (hfree : ∀ edits ∈ rounds, ∀ edit ∈ edits, edit.NulFree)
    (hrun : Rounds file rounds last) :
    last.Opened ∧ last.trailing = file.trailing ∧
      ElfImage.SameEncoding last.image.ident file.image.ident := by
  have hopened := opened_of_parse hdata hparse
  clear hparse
  induction hrun with
  | nil file => exact ⟨hopened, rfl, rfl, rfl⟩
  | cons hbuild hopen hrest ih =>
      obtain ⟨hnext, htrailing, hencoding⟩ := hopened.round (hkeeps _ List.mem_cons_self)
        (hfree _ List.mem_cons_self) hbuild hopen
      obtain ⟨hlast, hsame, hkept⟩ := ih
        (fun edits hedits edit hedit =>
          hencoding.keeps (hkeeps edits (List.mem_cons_of_mem _ hedits) edit hedit))
        (fun edits hedits => hfree edits (List.mem_cons_of_mem _ hedits)) hnext
      exact ⟨hlast, hsame.trans htrailing, hkept.elfClass.trans hencoding.elfClass,
        hkept.data.trans hencoding.data⟩

/-- The code is changed in one round and the runtime base in the next. -/
theorem smallFile_rounds :
    ∃ file last, parse (smallFile ++ [1, 2, 3]) = .ok file ∧
      Rounds file [[.writeAtIoff 0 [0xcc]], [.setRuntimeImageBase 0x4000]] last ∧
      last.trailing = file.trailing := by
  obtain ⟨last, hlast⟩ := Outcome.exists_of_isOk
    (show (parse (smallFile ++ [1, 2, 3]) >>= fun file =>
      (file.imageMut [.writeAtIoff 0 [0xcc]]).tryBuild >>= parse >>= fun next =>
        (next.imageMut [.setRuntimeImageBase 0x4000]).tryBuild >>= parse).isOk = true by
      decide +kernel)
  obtain ⟨file, hparse, hrounds⟩ := Outcome.bind_eq_ok.1 hlast
  obtain ⟨next, hfirst, hsecond⟩ := Outcome.bind_eq_ok.1 hrounds
  obtain ⟨b, hbuild, hopen⟩ := Outcome.bind_eq_ok.1 hfirst
  obtain ⟨b', hbuild', hopen'⟩ := Outcome.bind_eq_ok.1 hsecond
  have hrun : Rounds file [[.writeAtIoff 0 [0xcc]], [.setRuntimeImageBase 0x4000]] last :=
    .cons hbuild hopen (.cons hbuild' hopen' (.nil last))
  refine ⟨file, last, hparse, hrun, (rounds_keep_trailing (by decide +kernel) hparse
    ?_ ?_ hrun).2.1⟩ <;>
  · simp only [List.forall_mem_cons]
    exact ⟨⟨trivial, nofun⟩, ⟨trivial, nofun⟩, nofun⟩

end ElfFile

end Elfex
