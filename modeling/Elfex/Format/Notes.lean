import Elfex.Format.Tables

/-!
# Note records

The walk over a sequence of notes. Offsets are machine words of the target, so
the walk takes the width of `usize`; every index that does not fit faults, and
so does the subtraction in the loop condition once an offset has passed the end.
-/

namespace Elfex

open Foundation

structure Note where
  name : String
  noteType : UInt32
  descriptor : List UInt8
  deriving DecidableEq, Repr

def ntGnuBuildId : UInt32 := 3

/-- A sum of two `usize` values; an overflow faults. -/
def addUsize (width : ℕ) (a b : ℕ) : Exec ℕ :=
  if a + b < 2 ^ width then .ok (a + b) else Outcome.fault

/-- A `u32` as a `usize`; `message` when it does not fit. -/
def usizeOfU32 (width : ℕ) (value : UInt32) (message : String) : Exec ℕ :=
  if value.toNat < 2 ^ width then .ok value.toNat
  else Outcome.fail (.invalidSection message)

/-- The bytes from `length` to the next multiple of four. -/
def padding4 (length : ℕ) : ℕ := (4 - length % 4) % 4

/-- One round of the note loop: the note at `offset` and the offset after it, or
nothing when the record is not complete. -/
def Note.parseOne (width : ℕ) (data : List UInt8) (endian : Endian) (offset : ℕ) :
    Exec (Option (Note × ℕ)) := do
  let namesz ← array4 data offset
  let descsz ← array4 data (offset + 4)
  let noteType ← array4 data (offset + 8)
  let nameLen ← usizeOfU32 width (endian.u32 namesz) "note name size is out of range"
  let descLen ← usizeOfU32 width (endian.u32 descsz) "note descriptor size is out of range"
  let nameStart ← addUsize width offset 12
  let nameEnd ← addUsize width nameStart nameLen
  let descStart ← addUsize width nameEnd (padding4 nameLen)
  let descEnd ← addUsize width descStart descLen
  if data.length < descEnd then return none
  else
    let name := window data nameStart nameLen
    let trimmed := if name.getLast? = some 0 then name.dropLast else name
    match fromUtf8 trimmed with
    | none => Outcome.fail .invalidUtf8
    | some text =>
      let next ← addUsize width descEnd (padding4 descLen)
      return some ({
        name := text
        noteType := endian.u32 noteType
        descriptor := window data descStart descLen }, next)

/-- A round of the loop moves past the twelve bytes of the record's header. -/
theorem Note.lt_of_parseOne {width : ℕ} {data : List UInt8} {endian : Endian}
    {offset next : ℕ} {note : Note}
    (h : Note.parseOne width data endian offset = .ok (some (note, next))) :
    offset + 12 ≤ next := by
  have hadd : ∀ {a b c : ℕ}, addUsize width a b = .ok c → c = a + b := by
    intro a b c hc
    rw [addUsize] at hc
    split at hc
    · exact (Except.ok.inj hc).symm
    · cases hc
  rw [Note.parseOne] at h
  simp only [Outcome.bind_eq_ok] at h
  obtain ⟨_, -, _, -, _, -, _, -, _, -, nameStart, hstart, nameEnd, hname, descStart, hdesc,
    descEnd, hend, h⟩ := h
  split at h
  · cases h
  split at h
  · cases h
  rw [Outcome.bind_eq_ok] at h
  obtain ⟨after, hafter, hret⟩ := h
  cases hret
  rw [hadd hafter, hadd hend, hadd hdesc, hadd hname, hadd hstart]
  omega

/-- The note loop from `offset`. -/
def Note.parseFrom (width : ℕ) (data : List UInt8) (endian : Endian) (offset : ℕ) :
    Exec (List Note) :=
  if data.length < offset then Outcome.fault
  else if _hmore : data.length - offset < 12 then .ok []
  else
    match _hone : Note.parseOne width data endian offset with
    | .error halt => .error halt
    | .ok none => .ok []
    | .ok (some (note, next)) => do
      let notes ← Note.parseFrom width data endian next
      return note :: notes
termination_by data.length - offset
decreasing_by
  have hnext := Note.lt_of_parseOne _hone
  omega

def Note.parseAll (width : ℕ) (data : List UInt8) (endian : Endian) : Exec (List Note) :=
  Note.parseFrom width data endian 0

/-- Tests whether the note is a GNU note of the given type. -/
def Note.isGnu (note : Note) (noteType : UInt32) : Bool :=
  note.name == "GNU" && note.noteType == noteType

end Elfex
