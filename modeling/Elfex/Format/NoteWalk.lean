import Elfex.Format.Notes

/-!
# The walk over a note sequence

What a note sequence holds, read off the bytes alone: `CompleteAt` says that the record
at an offset lies inside the data, and `Records` is the judgment that the walk from an
offset passes over these records and stops there. The loop of the parser agrees with the
judgment as long as no index leaves `usize` and no offset passes the end of the data.
-/

namespace Elfex

open Foundation

/-- A record before its name is decoded. -/
structure RawNote where
  nameBytes : List UInt8
  noteType : UInt32
  descriptor : List UInt8
  deriving DecidableEq, Repr

/-- The bytes without one trailing NUL. -/
def trimNul (bytes : List UInt8) : List UInt8 :=
  if bytes.getLast? = some 0 then bytes.dropLast else bytes

/-- The note of a record: its name loses one trailing NUL and must be UTF-8. -/
def RawNote.decode (raw : RawNote) : Option Note :=
  (fromUtf8 (trimNul raw.nameBytes)).map fun name =>
    { name, noteType := raw.noteType, descriptor := raw.descriptor }

section Records

variable (data : List UInt8) (endian : Endian)

/-- The word of a note header at an offset. -/
def noteField (offset : ℕ) : UInt32 := endian.u32 (window data offset 4)

def noteNameLen (offset : ℕ) : ℕ := (noteField data endian offset).toNat

def noteDescLen (offset : ℕ) : ℕ := (noteField data endian (offset + 4)).toNat

/-- Where the descriptor of the record at `offset` starts, after the padded name. -/
def noteDescStart (offset : ℕ) : ℕ :=
  offset + 12 + noteNameLen data endian offset + padding4 (noteNameLen data endian offset)

def noteDescEnd (offset : ℕ) : ℕ :=
  noteDescStart data endian offset + noteDescLen data endian offset

/-- Where the record after the one at `offset` starts. -/
def noteNext (offset : ℕ) : ℕ :=
  noteDescEnd data endian offset + padding4 (noteDescLen data endian offset)

/-- The header, the padded name and the descriptor of the record lie inside the data. -/
def CompleteAt (offset : ℕ) : Prop :=
  offset + 12 ≤ data.length ∧ noteDescEnd data endian offset ≤ data.length

instance (offset : ℕ) : Decidable (CompleteAt data endian offset) :=
  inferInstanceAs (Decidable (_ ∧ _))

def rawNoteAt (offset : ℕ) : RawNote where
  nameBytes := window data (offset + 12) (noteNameLen data endian offset)
  noteType := noteField data endian (offset + 8)
  descriptor := window data (noteDescStart data endian offset) (noteDescLen data endian offset)

/-- `Records offset raws stop`: the consecutive complete records from `offset` on are
`raws`, and the next one would start at `stop`. -/
inductive Records : ℕ → List RawNote → ℕ → Prop where
  | done (offset : ℕ) : Records offset [] offset
  | record {offset stop : ℕ} {raws : List RawNote} (complete : CompleteAt data endian offset)
      (rest : Records (noteNext data endian offset) raws stop) :
      Records offset (rawNoteAt data endian offset :: raws) stop

/-- The longest sequence of complete records from the start of the data. -/
def LongestRecords (raws : List RawNote) (stop : ℕ) : Prop :=
  Records data endian 0 raws stop ∧ ¬CompleteAt data endian stop

end Records

variable {data : List UInt8} {endian : Endian}

theorem padding4_lt (length : ℕ) : padding4 length < 4 := Nat.mod_lt _ (by decide)

theorem add_lt_noteDescStart (data : List UInt8) (endian : Endian) (offset : ℕ) :
    offset + 12 ≤ noteDescStart data endian offset := by
  rw [noteDescStart]
  omega

theorem lt_noteNext (data : List UInt8) (endian : Endian) (offset : ℕ) :
    offset < noteNext data endian offset := by
  have hstart := add_lt_noteDescStart data endian offset
  rw [noteNext, noteDescEnd]
  omega

/-- The walk ends: each complete record leaves less of the data. -/
theorem exists_records (data : List UInt8) (endian : Endian) (offset : ℕ) :
    ∃ raws stop, Records data endian offset raws stop ∧ ¬CompleteAt data endian stop := by
  induction hgap : data.length - offset using Nat.strong_induction_on generalizing offset with
  | _ gap ih =>
      by_cases hcomplete : CompleteAt data endian offset
      · have hnext := lt_noteNext data endian offset
        have hinside := hcomplete.1
        obtain ⟨raws, stop, hrest, hstop⟩ := ih _ (by omega) (noteNext data endian offset) rfl
        exact ⟨_, stop, .record hcomplete hrest, hstop⟩
      · exact ⟨[], offset, .done offset, hcomplete⟩

theorem Records.unique {offset stop stop' : ℕ} {raws raws' : List RawNote}
    (h : Records data endian offset raws stop) (hstop : ¬CompleteAt data endian stop)
    (h' : Records data endian offset raws' stop') (hstop' : ¬CompleteAt data endian stop') :
    raws = raws' ∧ stop = stop' := by
  induction h generalizing raws' with
  | done offset =>
      cases h' with
      | done => exact ⟨rfl, rfl⟩
      | record complete rest => exact absurd complete hstop
  | record complete rest ih =>
      cases h' with
      | done => exact absurd complete hstop'
      | record complete' rest' =>
          obtain ⟨hraws, hend⟩ := ih hstop rest'
          exact ⟨by rw [hraws], hend⟩

/-! ## One round of the loop -/

section Round

variable {width : ℕ} (hwidth : 2 ^ 32 ≤ 2 ^ width)

theorem usizeOfU32_eq_ok {width : ℕ} (hwidth : 2 ^ 32 ≤ 2 ^ width) (value : UInt32)
    (message : String) : usizeOfU32 width value message = .ok value.toNat := by
  have hlt : value.toNat < 2 ^ 32 := value.toNat_lt
  rw [usizeOfU32, if_pos (by omega)]

theorem addUsize_of_lt {width a b : ℕ} (h : a + b < 2 ^ width) :
    addUsize width a b = .ok (a + b) := by
  rw [addUsize, if_pos h]

theorem addUsize_of_le {width a b : ℕ} (h : 2 ^ width ≤ a + b) :
    addUsize width a b = Outcome.fault := by
  rw [addUsize, if_neg (by omega)]

include hwidth

/-- The header of the record at `offset` is read, and the indices are added up. -/
theorem parseOne_eq {offset : ℕ} (hheader : offset + 12 ≤ data.length)
    (hlen : data.length < 2 ^ width) :
    Note.parseOne width data endian offset = (do
      let nameEnd ← addUsize width (offset + 12) (noteNameLen data endian offset)
      let descStart ← addUsize width nameEnd (padding4 (noteNameLen data endian offset))
      let descEnd ← addUsize width descStart (noteDescLen data endian offset)
      if data.length < descEnd then return none
      else
        match fromUtf8 (trimNul (window data (offset + 12) (noteNameLen data endian offset))) with
        | none => Outcome.fail .invalidUtf8
        | some text =>
          let next ← addUsize width descEnd (padding4 (noteDescLen data endian offset))
          return some ({
            name := text
            noteType := noteField data endian (offset + 8)
            descriptor := window data descStart (noteDescLen data endian offset) }, next)) := by
  have hname : array4 data offset = .ok (window data offset 4) := arrayAt_eq (by omega)
  have hdesc : array4 data (offset + 4) = .ok (window data (offset + 4) 4) :=
    arrayAt_eq (by omega)
  have htype : array4 data (offset + 8) = .ok (window data (offset + 8) 4) :=
    arrayAt_eq (by omega)
  simp only [Note.parseOne, hname, hdesc, htype, Outcome.ok_bind, usizeOfU32_eq_ok hwidth,
    addUsize_of_lt (show offset + 12 < 2 ^ width by omega)]
  rfl

/-- A complete record is decoded, and the walk goes on after its padding. -/
theorem parseOne_of_complete {offset : ℕ} (h : CompleteAt data endian offset)
    (hlen : data.length + 4 ≤ 2 ^ width) :
    Note.parseOne width data endian offset =
      match (rawNoteAt data endian offset).decode with
      | none => Outcome.fail .invalidUtf8
      | some note => .ok (some (note, noteNext data endian offset)) := by
  obtain ⟨hheader, hend⟩ := h
  have hpad := padding4_lt (noteDescLen data endian offset)
  have hdescEnd : noteDescEnd data endian offset = offset + 12 + noteNameLen data endian offset +
    padding4 (noteNameLen data endian offset) + noteDescLen data endian offset := rfl
  rw [parseOne_eq hwidth hheader (by omega), addUsize_of_lt (by omega), Outcome.ok_bind,
    addUsize_of_lt (by omega), Outcome.ok_bind, addUsize_of_lt (by omega), Outcome.ok_bind,
    if_neg (by omega), addUsize_of_lt (by omega)]
  rw [RawNote.decode]
  dsimp only [rawNoteAt, Outcome.ok_bind]
  generalize fromUtf8 _ = text
  cases text with
  | none => rfl
  | some name => rfl

/-- A record that is not complete ends the walk, when the end it declares is an index. -/
theorem parseOne_of_incomplete {offset : ℕ} (h : ¬CompleteAt data endian offset)
    (hheader : offset + 12 ≤ data.length) (hlen : data.length < 2 ^ width)
    (hend : noteDescEnd data endian offset < 2 ^ width) :
    Note.parseOne width data endian offset = .ok none := by
  have hdescEnd : noteDescEnd data endian offset = offset + 12 + noteNameLen data endian offset +
    padding4 (noteNameLen data endian offset) + noteDescLen data endian offset := rfl
  have hpast : data.length < noteDescEnd data endian offset := by
    by_contra hle
    exact h ⟨hheader, by omega⟩
  rw [parseOne_eq hwidth hheader hlen, addUsize_of_lt (by omega), Outcome.ok_bind,
    addUsize_of_lt (by omega), Outcome.ok_bind, addUsize_of_lt (by omega), Outcome.ok_bind,
    if_pos (by omega)]
  rfl

/-- A header whose declared end is not an index overflows. -/
theorem parseOne_of_overflow {offset : ℕ} (hheader : offset + 12 ≤ data.length)
    (hlen : data.length < 2 ^ width) (hend : 2 ^ width ≤ noteDescEnd data endian offset) :
    Note.parseOne width data endian offset = Outcome.fault := by
  have hdescEnd : noteDescEnd data endian offset = offset + 12 + noteNameLen data endian offset +
    padding4 (noteNameLen data endian offset) + noteDescLen data endian offset := rfl
  rw [parseOne_eq hwidth hheader hlen]
  by_cases hname : offset + 12 + noteNameLen data endian offset < 2 ^ width
  · rw [addUsize_of_lt hname, Outcome.ok_bind]
    by_cases hstart : offset + 12 + noteNameLen data endian offset +
        padding4 (noteNameLen data endian offset) < 2 ^ width
    · rw [addUsize_of_lt hstart, Outcome.ok_bind, addUsize_of_le (by omega), Outcome.fault_bind]
    · rw [addUsize_of_le (by omega), Outcome.fault_bind]
  · rw [addUsize_of_le (by omega), Outcome.fault_bind]

end Round

/-! ## The loop -/

/-- The notes of a sequence of records, when every name is UTF-8. -/
def decodeNotes (raws : List RawNote) : Option (List Note) := raws.mapM RawNote.decode

theorem decodeNotes_cons (raw : RawNote) (raws : List RawNote) :
    decodeNotes (raw :: raws) =
      raw.decode.bind fun note => (decodeNotes raws).map fun notes => note :: notes := by
  rw [decodeNotes, List.mapM_cons]
  cases raw.decode with
  | none => rfl
  | some note => cases hrest : decodeNotes raws <;> rw [decodeNotes] at hrest <;> simp [hrest]

theorem decodeNotes_eq_none (raws : List RawNote) :
    decodeNotes raws = none ↔ ∃ raw ∈ raws, raw.decode = none := by
  induction raws with
  | nil => simp [decodeNotes]
  | cons raw raws ih =>
      rw [decodeNotes_cons, List.exists_mem_cons_iff, ← ih]
      cases raw.decode with
      | none => simp
      | some note => simp

/-- What the walk makes of the place where the records stop: the offset is inside the
data, and the end that a further header declares is an index. -/
def WalkStops (width : ℕ) (data : List UInt8) (endian : Endian) (stop : ℕ) : Prop :=
  stop ≤ data.length ∧ (stop + 12 ≤ data.length → noteDescEnd data endian stop < 2 ^ width)

/-- A round of the loop that finds a header. -/
theorem parseFrom_eq {width offset : ℕ} (h : offset + 12 ≤ data.length) :
    Note.parseFrom width data endian offset =
      match Note.parseOne width data endian offset with
      | .error halt => .error halt
      | .ok none => .ok []
      | .ok (some (note, next)) => Note.parseFrom width data endian next >>= fun notes =>
          .ok (note :: notes) := by
  rw [Note.parseFrom, if_neg (by omega), dif_neg (by omega)]
  split
  · next halt hone => rw [hone]
  · next hone => rw [hone]
  · next note next hone =>
    rw [hone]
    rfl

section Loop

variable {width : ℕ} (hwidth : 2 ^ 32 ≤ 2 ^ width) (hlen : data.length + 4 ≤ 2 ^ width)

include hwidth hlen

theorem parseFrom_of_complete {offset : ℕ} (h : CompleteAt data endian offset) :
    Note.parseFrom width data endian offset =
      match (rawNoteAt data endian offset).decode with
      | none => Outcome.fail .invalidUtf8
      | some note => Note.parseFrom width data endian (noteNext data endian offset) >>=
          fun notes => .ok (note :: notes) := by
  rw [parseFrom_eq h.1, parseOne_of_complete hwidth h hlen]
  cases (rawNoteAt data endian offset).decode with
  | none => rfl
  | some note => rfl

theorem parseFrom_of_stops {stop : ℕ} (h : ¬CompleteAt data endian stop)
    (hstop : WalkStops width data endian stop) :
    Note.parseFrom width data endian stop = .ok [] := by
  obtain ⟨hinside, hend⟩ := hstop
  by_cases hheader : stop + 12 ≤ data.length
  · rw [parseFrom_eq hheader,
      parseOne_of_incomplete hwidth h hheader (by omega) (hend hheader)]
  · rw [Note.parseFrom, if_neg (by omega), dif_pos (by omega)]

theorem parseFrom_of_not_stops {stop : ℕ} (hstop : ¬WalkStops width data endian stop) :
    Note.parseFrom width data endian stop = Outcome.fault := by
  by_cases hinside : stop ≤ data.length
  · rw [WalkStops, not_and, Classical.not_imp] at hstop
    obtain ⟨hheader, hend⟩ := hstop hinside
    rw [parseFrom_eq hheader,
      parseOne_of_overflow hwidth hheader (by omega) (Nat.not_lt.1 hend)]
    rfl
  · rw [Note.parseFrom, if_pos (by omega)]

/-- The loop reads the records of the judgment and then does what it does where they
stop. -/
theorem parseFrom_records {offset stop : ℕ} {raws : List RawNote}
    (h : Records data endian offset raws stop) :
    Note.parseFrom width data endian offset =
      match decodeNotes raws with
      | none => Outcome.fail .invalidUtf8
      | some notes => Note.parseFrom width data endian stop >>= fun rest =>
          .ok (notes ++ rest) := by
  induction h with
  | done offset =>
      change _ = Note.parseFrom width data endian offset >>= _
      cases Note.parseFrom width data endian offset <;> rfl
  | record complete rest ih =>
      rw [parseFrom_of_complete hwidth hlen complete, ih, decodeNotes_cons]
      cases (rawNoteAt data endian _).decode with
      | none => rfl
      | some note =>
          cases decodeNotes _ with
          | none => rfl
          | some notes =>
              dsimp only [Option.bind_some, Option.map_some]
              cases Note.parseFrom width data endian _ <;> rfl

end Loop

/-- The parser returns the notes of the longest sequence of complete records, or an
error when one of their names is not UTF-8. -/
def ParsesCompleteNotes (width : ℕ) (data : List UInt8) (endian : Endian) : Prop :=
  ∃ raws stop, LongestRecords data endian raws stop ∧
    match decodeNotes raws with
    | some notes => Note.parseAll width data endian = .ok notes
    | none => (Note.parseAll width data endian).IsErr

/-- A name is rejected, or the walk stops inside the data: the padding after the last
descriptor is there, and the end that a further header declares is an index. -/
def WalkInBounds (width : ℕ) (data : List UInt8) (endian : Endian) : Prop :=
  ∀ raws stop, LongestRecords data endian raws stop →
    (∃ raw ∈ raws, raw.decode = none) ∨ WalkStops width data endian stop

theorem parseAll_longest {width : ℕ} (hwidth : 2 ^ 32 ≤ 2 ^ width)
    (hlen : data.length + 4 ≤ 2 ^ width) {stop : ℕ} {raws : List RawNote}
    (h : LongestRecords data endian raws stop) :
    Note.parseAll width data endian =
      match decodeNotes raws with
      | none => Outcome.fail .invalidUtf8
      | some notes => Note.parseFrom width data endian stop >>= fun rest =>
          .ok (notes ++ rest) :=
  parseFrom_records hwidth hlen h.1

/-- A slice of a target with 32-bit or 64-bit `usize` leaves room for the padding. -/
theorem room_of_slice {width length : ℕ} (hw : width = 32 ∨ width = 64)
    (hlen : length < 2 ^ (width - 1)) : 2 ^ 32 ≤ 2 ^ width ∧ length + 4 ≤ 2 ^ width := by
  rcases hw with rfl | rfl <;> omega

/-- The parser does what a note sequence asks for exactly when the walk stays in
bounds. -/
theorem parsesCompleteNotes_iff (width : ℕ) (hw : width = 32 ∨ width = 64)
    (data : List UInt8) (endian : Endian) (hlen : data.length < 2 ^ (width - 1)) :
    ParsesCompleteNotes width data endian ↔ WalkInBounds width data endian := by
  obtain ⟨hwidth, hroom⟩ := room_of_slice hw hlen
  constructor
  · rintro ⟨raws, stop, hlongest, hparse⟩ raws' stop' hlongest'
    obtain ⟨rfl, rfl⟩ := hlongest.1.unique hlongest.2 hlongest'.1 hlongest'.2
    by_contra hbad
    obtain ⟨hnames, hstop⟩ := not_or.1 hbad
    rw [← decodeNotes_eq_none] at hnames
    obtain ⟨notes, hnotes⟩ := Option.ne_none_iff_exists'.1 hnames
    rw [hnotes] at hparse
    rw [parseAll_longest hwidth hroom hlongest, hnotes] at hparse
    dsimp only at hparse
    rw [parseFrom_of_not_stops hwidth hroom hstop] at hparse
    cases hparse
  · intro hgood
    obtain ⟨raws, stop, hrecords, hincomplete⟩ := exists_records data endian 0
    have hlongest : LongestRecords data endian raws stop := ⟨hrecords, hincomplete⟩
    refine ⟨raws, stop, hlongest, ?_⟩
    rw [parseAll_longest hwidth hroom hlongest]
    cases hnotes : decodeNotes raws with
    | none => exact Outcome.isErr_fail _
    | some notes =>
        rcases hgood raws stop hlongest with hname | hstop
        · rw [← decodeNotes_eq_none, hnotes] at hname
          cases hname
        · dsimp only
          rw [parseFrom_of_stops hwidth hroom hincomplete hstop, Outcome.ok_bind,
            List.append_nil]

/-- A note of one descriptor byte, with its three bytes of padding. -/
theorem parsesCompleteNotes_padded :
    ParsesCompleteNotes 64
      [4, 0, 0, 0, 1, 0, 0, 0, 3, 0, 0, 0, 0x47, 0x4e, 0x55, 0, 0xab, 0, 0, 0] .little := by
  refine (parsesCompleteNotes_iff 64 (Or.inr rfl) _ .little (by decide)).2 ?_
  intro raws stop hlongest
  have hrecords : Records
      [4, 0, 0, 0, 1, 0, 0, 0, 3, 0, 0, 0, 0x47, 0x4e, 0x55, 0, 0xab, 0, 0, 0] .little
      0 [⟨[0x47, 0x4e, 0x55, 0], 3, [0xab]⟩] 20 := .record (by decide) (.done 20)
  obtain ⟨-, rfl⟩ := hlongest.1.unique hlongest.2 hrecords (by decide)
  exact Or.inr ⟨by decide, by decide⟩

/-- Without the padding after its last descriptor the same note overflows the length. -/
theorem not_parsesCompleteNotes_unpadded :
    ¬ParsesCompleteNotes 64
      [4, 0, 0, 0, 1, 0, 0, 0, 3, 0, 0, 0, 0x47, 0x4e, 0x55, 0, 0xab] .little := by
  rintro ⟨raws, stop, hlongest, hparse⟩
  have hrecords : Records [4, 0, 0, 0, 1, 0, 0, 0, 3, 0, 0, 0, 0x47, 0x4e, 0x55, 0, 0xab] .little
      0 [⟨[0x47, 0x4e, 0x55, 0], 3, [0xab]⟩] 20 := .record (by decide) (.done 20)
  obtain ⟨rfl, rfl⟩ := hlongest.1.unique hlongest.2 hrecords (by decide)
  have hname : RawNote.decode ⟨[0x47, 0x4e, 0x55, 0], 3, [0xab]⟩ = some ⟨"GNU", 3, [0xab]⟩ := by
    have htrim : trimNul [0x47, 0x4e, 0x55, 0] = strBytes "GNU" := by decide
    rw [RawNote.decode, htrim, fromUtf8_strBytes]
    rfl
  have hpast : ¬WalkStops 64
      [4, 0, 0, 0, 1, 0, 0, 0, 3, 0, 0, 0, 0x47, 0x4e, 0x55, 0, 0xab] .little 20 :=
    fun hstop => absurd hstop.1 (by decide)
  rw [parseAll_longest (by decide) (by decide) hlongest, decodeNotes_cons, hname,
    parseFrom_of_not_stops (by decide) (by decide) hpast] at hparse
  cases hparse

end Elfex
