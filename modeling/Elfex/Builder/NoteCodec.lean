import Elfex.Builder.Serialize
import Elfex.Format.NoteWalk

/-!
# The note codec

A serialized note is a complete record wherever it stands, so a concatenation of
serialized notes is a sequence of records that the walk reads whole. The writer pads by
the length of its output and the reader by the length of a field; they agree because the
header is a whole number of words.
-/

namespace Elfex

open Foundation

/-- The note that a record to embed describes. -/
def NoteSpec.note (spec : NoteSpec) : Note where
  name := spec.name
  noteType := spec.noteType
  descriptor := spec.descriptor

/-- The sizes of the record fit their fields. -/
structure NoteSpec.Fits (spec : NoteSpec) : Prop where
  name : (strBytes spec.name).length + 1 < 2 ^ 32
  descriptor : spec.descriptor.length < 2 ^ 32

/-- The sequence of notes, one record after another. -/
def serializeNotes (specs : List NoteSpec) (endian : Endian) : List UInt8 :=
  specs.flatMap fun spec => serializeNote spec endian

theorem toNat_u32OrZero {n : ℕ} (h : n < 2 ^ 32) : (u32OrZero n).toNat = n := by
  rw [u32OrZero, if_pos h, UInt32.toNat_ofNat_of_lt' h]

theorem length_padTo4 (out : List UInt8) :
    (padTo4 out).length = out.length + padding4 out.length := by
  rw [padTo4, List.length_append, List.length_replicate]

theorem length_padTo4_mod (out : List UInt8) : (padTo4 out).length % 4 = 0 := by
  rw [length_padTo4, padding4]
  omega

/-- After a whole number of words, the padding is that of the field alone. -/
theorem padTo4_append {out : List UInt8} (h : out.length % 4 = 0) (field : List UInt8) :
    padTo4 (out ++ field) = out ++ padTo4 field := by
  have hpad : padding4 (out.length + field.length) = padding4 field.length := by
    rw [padding4, padding4]
    omega
  rw [padTo4, padTo4, List.length_append, hpad, List.append_assoc]

section Record

variable (endian : Endian) (spec : NoteSpec)

/-- The twelve bytes in front of the name. -/
def noteHeader : List UInt8 :=
  endian.u32Bytes (u32OrZero ((strBytes spec.name).length + 1)) ++
    endian.u32Bytes (u32OrZero spec.descriptor.length) ++ endian.u32Bytes spec.noteType

theorem length_noteHeader : (noteHeader endian spec).length = 12 := by
  simp [noteHeader]

/-- A serialized note is its header, its padded name and its padded descriptor. -/
theorem serializeNote_eq : serializeNote spec endian =
    noteHeader endian spec ++ (padTo4 (strBytes spec.name ++ [0]) ++ padTo4 spec.descriptor) := by
  have hheader : (noteHeader endian spec).length % 4 = 0 := by rw [length_noteHeader]
  have haligned : (noteHeader endian spec ++ padTo4 (strBytes spec.name ++ [0])).length % 4 =
      0 := by
    have hname := length_padTo4_mod (strBytes spec.name ++ [0])
    rw [List.length_append, length_noteHeader]
    omega
  rw [← List.append_assoc, ← padTo4_append haligned, ← padTo4_append hheader, noteHeader,
    ← List.append_assoc]
  rfl

variable {endian} {spec} (hfits : spec.Fits) (pre post : List UInt8)

/-- A window of a string in the middle. -/
theorem window_middle {α : Type*} {bs : List α} (as cs : List α) {o n : ℕ}
    (h : o + n ≤ bs.length) : window (as ++ (bs ++ cs)) (as.length + o) n = window bs o n := by
  rw [window_append_right, window_append_left _ h]

variable (endian) (spec) in
theorem window_header {o n : ℕ} (h : o + n ≤ 12) :
    window (pre ++ (serializeNote spec endian ++ post)) (pre.length + o) n =
      window (noteHeader endian spec) o n := by
  have hlen := length_noteHeader endian spec
  rw [serializeNote_eq, List.append_assoc]
  exact window_middle pre _ (by omega)

include hfits

theorem noteNameLen_serialized :
    noteNameLen (pre ++ (serializeNote spec endian ++ post)) endian pre.length =
      (strBytes spec.name ++ [0]).length := by
  have hwindow := window_header endian spec pre post
    (show 0 + 4 ≤ 12 by decide)
  have hfields := window_fields (endian.length_u32Bytes (u32OrZero
    ((strBytes spec.name).length + 1))) (endian.length_u32Bytes (u32OrZero
    spec.descriptor.length)) (endian.length_u32Bytes spec.noteType)
  rw [noteNameLen, noteField, ← Nat.add_zero pre.length, hwindow, noteHeader, hfields.1,
    Endian.u32_u32Bytes, toNat_u32OrZero hfits.name, List.length_append, List.length_singleton]

theorem noteDescLen_serialized :
    noteDescLen (pre ++ (serializeNote spec endian ++ post)) endian pre.length =
      spec.descriptor.length := by
  have hwindow := window_header endian spec pre post
    (show 4 + 4 ≤ 12 by decide)
  have hfields := window_fields (endian.length_u32Bytes (u32OrZero
    ((strBytes spec.name).length + 1))) (endian.length_u32Bytes (u32OrZero
    spec.descriptor.length)) (endian.length_u32Bytes spec.noteType)
  rw [noteDescLen, noteField, hwindow, noteHeader, hfields.2.1, Endian.u32_u32Bytes,
    toNat_u32OrZero hfits.descriptor]

theorem noteDescStart_serialized :
    noteDescStart (pre ++ (serializeNote spec endian ++ post)) endian pre.length =
      pre.length + (12 + (padTo4 (strBytes spec.name ++ [0])).length) := by
  rw [noteDescStart, noteNameLen_serialized hfits, length_padTo4]
  omega

theorem noteNext_serialized :
    noteNext (pre ++ (serializeNote spec endian ++ post)) endian pre.length =
      pre.length + (serializeNote spec endian).length := by
  rw [noteNext, noteDescEnd, noteDescStart_serialized hfits, noteDescLen_serialized hfits,
    serializeNote_eq, List.length_append, List.length_append, length_noteHeader,
    length_padTo4 spec.descriptor]
  omega

theorem completeAt_serialized :
    CompleteAt (pre ++ (serializeNote spec endian ++ post)) endian pre.length := by
  have hnext : noteNext (pre ++ (serializeNote spec endian ++ post)) endian pre.length = _ :=
    noteNext_serialized hfits pre post
  have hstart := add_lt_noteDescStart (pre ++ (serializeNote spec endian ++ post)) endian
    pre.length
  have htotal : (pre ++ (serializeNote spec endian ++ post)).length =
      pre.length + ((serializeNote spec endian).length + post.length) := by
    rw [List.length_append, List.length_append]
  rw [noteNext, noteDescEnd] at hnext
  rw [CompleteAt, noteDescEnd, htotal]
  omega

/-- The record of a serialized note holds the NUL-terminated name, the type and the
descriptor. -/
theorem rawNoteAt_serialized :
    rawNoteAt (pre ++ (serializeNote spec endian ++ post)) endian pre.length =
      { nameBytes := strBytes spec.name ++ [0]
        noteType := spec.noteType
        descriptor := spec.descriptor } := by
  have hheader := length_noteHeader endian spec
  have hname : window (pre ++ (serializeNote spec endian ++ post)) (pre.length + 12)
      (strBytes spec.name ++ [0]).length = strBytes spec.name ++ [0] := by
    rw [window_append_right, serializeNote_eq, List.append_assoc, ← hheader,
      ← Nat.add_zero (noteHeader endian spec).length, window_append_right, padTo4,
      List.append_assoc, List.append_assoc, window_append_left _ (by omega), window_self]
  have hdescriptor : window (pre ++ (serializeNote spec endian ++ post))
      (pre.length + (12 + (padTo4 (strBytes spec.name ++ [0])).length))
      spec.descriptor.length = spec.descriptor := by
    rw [window_append_right, serializeNote_eq, List.append_assoc, ← hheader,
      window_append_right, ← Nat.add_zero (padTo4 (strBytes spec.name ++ [0])).length,
      List.append_assoc, window_append_right, padTo4, List.append_assoc,
      window_append_left _ (by omega), window_self]
  have htype : noteField (pre ++ (serializeNote spec endian ++ post)) endian
      (pre.length + 8) = spec.noteType := by
    have hfields := window_fields (endian.length_u32Bytes (u32OrZero
      ((strBytes spec.name).length + 1))) (endian.length_u32Bytes (u32OrZero
      spec.descriptor.length)) (endian.length_u32Bytes spec.noteType)
    rw [noteField, window_header endian spec pre post (by decide), noteHeader, hfields.2.2,
      Endian.u32_u32Bytes]
  rw [rawNoteAt, noteNameLen_serialized hfits, noteDescStart_serialized hfits,
    noteDescLen_serialized hfits, hname, hdescriptor, htype]

end Record

/-- The name of a record loses the NUL the writer appended, and no other. -/
theorem decode_serialized (spec : NoteSpec) :
    RawNote.decode { nameBytes := strBytes spec.name ++ [0], noteType := spec.noteType
                     descriptor := spec.descriptor } = some spec.note := by
  have htrim : trimNul (strBytes spec.name ++ [0]) = strBytes spec.name := by
    rw [trimNul, if_pos List.getLast?_concat, List.dropLast_concat]
  rw [RawNote.decode, htrim, fromUtf8_strBytes]
  rfl

/-- The records of a concatenation of serialized notes. -/
theorem records_serializeNotes (endian : Endian) {specs : List NoteSpec}
    (hfits : ∀ spec ∈ specs, spec.Fits) (pre : List UInt8) :
    Records (pre ++ serializeNotes specs endian) endian pre.length
      (specs.map fun spec => { nameBytes := strBytes spec.name ++ [0]
                               noteType := spec.noteType, descriptor := spec.descriptor })
      (pre ++ serializeNotes specs endian).length := by
  induction specs generalizing pre with
  | nil =>
      rw [serializeNotes, List.flatMap_nil, List.append_nil]
      exact .done pre.length
  | cons spec specs ih =>
      have hspec := hfits spec List.mem_cons_self
      have hrest := ih (fun other hother => hfits other (List.mem_cons_of_mem spec hother))
        (pre ++ serializeNote spec endian)
      rw [List.append_assoc, List.length_append, ← noteNext_serialized hspec pre
        (serializeNotes specs endian)] at hrest
      have hraw : rawNoteAt (pre ++ (serializeNote spec endian ++ serializeNotes specs endian))
          endian pre.length = _ := rawNoteAt_serialized hspec pre (serializeNotes specs endian)
      rw [List.map_cons, ← hraw]
      exact .record (completeAt_serialized hspec pre _) hrest

theorem decodeNotes_serialized (specs : List NoteSpec) :
    decodeNotes (specs.map fun spec => { nameBytes := strBytes spec.name ++ [0]
                                         noteType := spec.noteType
                                         descriptor := spec.descriptor }) =
      some (specs.map NoteSpec.note) := by
  induction specs with
  | nil => rfl
  | cons spec specs ih =>
      rw [List.map_cons, decodeNotes_cons, decode_serialized, ih]
      rfl

/-- Parsing the concatenation of serialized notes gives exactly the notes, in order, when
the concatenation is a slice. -/
theorem parseAll_serializeNotes (width : ℕ) (hw : width = 32 ∨ width = 64) (endian : Endian)
    (specs : List NoteSpec) (hfits : ∀ spec ∈ specs, spec.Fits)
    (hlen : (serializeNotes specs endian).length < 2 ^ (width - 1)) :
    Note.parseAll width (serializeNotes specs endian) endian =
      .ok (specs.map NoteSpec.note) := by
  obtain ⟨hwidth, hroom⟩ := room_of_slice hw hlen
  have hrecords := records_serializeNotes endian hfits []
  rw [List.nil_append] at hrecords
  have hend : ¬CompleteAt (serializeNotes specs endian) endian
      (serializeNotes specs endian).length := by
    intro hcomplete
    have hheader := hcomplete.1
    omega
  have hstops : WalkStops width (serializeNotes specs endian) endian
      (serializeNotes specs endian).length := ⟨Nat.le_refl _, by omega⟩
  rw [parseAll_longest hwidth hroom ⟨hrecords, hend⟩, decodeNotes_serialized]
  dsimp only
  rw [parseFrom_of_stops hwidth hroom hend hstops, Outcome.ok_bind, List.append_nil]

/-- Two notes whose fields need different paddings, one with a NUL in its name. -/
theorem parseAll_two_notes :
    Note.parseAll 64 (serializeNotes
        [⟨"GNU", 3, [1, 2, 3, 4, 5]⟩, ⟨"a\x00b\x00", 7, []⟩] .big) .big =
      .ok [⟨"GNU", 3, [1, 2, 3, 4, 5]⟩, ⟨"a\x00b\x00", 7, []⟩] := by
  refine parseAll_serializeNotes 64 (Or.inr rfl) .big _ ?_ (by decide +kernel)
  intro spec hspec
  rw [List.mem_cons, List.mem_singleton] at hspec
  rcases hspec with rfl | rfl
  · exact ⟨by decide +kernel, by decide⟩
  · exact ⟨by decide +kernel, by decide⟩

end Elfex
