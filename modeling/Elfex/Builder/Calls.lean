import Elfex.Builder.Faithful
import Elfex.Foundation.Register

/-!
# Sequences of builder calls

A builder is configured by any sequence of calls. What it holds afterwards is the last
value of each setting and everything that was added, in order. The relocations alone are
not added to the ones before but take their place.
-/

namespace Elfex

open Foundation

namespace ElfBuilder

/-- A call that configures a builder. -/
inductive Call
  | withClass (value : ElfClass)
  | withEndian (value : Endian)
  | withElfType (value : ElfType)
  | withMachine (value : Machine)
  | withEntry (value : UInt64)
  | withOsAbi (value : OsAbi)
  | withFlags (value : UInt32)
  | addLoad (vaddr : UInt64) (flags : SegmentFlags) (data : List UInt8)
  | addLoadAligned (vaddr : UInt64) (flags : SegmentFlags) (align : UInt64) (data : List UInt8)
  | addNote (name : String) (noteType : UInt32) (descriptor : List UInt8)
  | addRelocations (entries : List RelocationEntry)
  | addTls (vaddr : UInt64) (data : List UInt8) (memsz align : UInt64)
  | addDynamicNeeded (name : String)
  deriving DecidableEq, Repr

namespace Call

def apply (builder : ElfBuilder) : Call → ElfBuilder
  | .withClass value => builder.withClass value
  | .withEndian value => builder.withEndian value
  | .withElfType value => builder.withElfType value
  | .withMachine value => builder.withMachine value
  | .withEntry value => builder.withEntry value
  | .withOsAbi value => builder.withOsAbi value
  | .withFlags value => builder.withFlags value
  | .addLoad vaddr flags data => builder.addLoad vaddr flags data
  | .addLoadAligned vaddr flags align data => builder.addLoadAligned vaddr flags align data
  | .addNote name noteType descriptor => builder.addNote name noteType descriptor
  | .addRelocations entries => builder.addRelocations entries
  | .addTls vaddr data memsz align => builder.addTls vaddr data memsz align
  | .addDynamicNeeded name => builder.addDynamicNeeded name

/-- The relocation entries of a call that passes some. -/
def relocations? : Call → Option (List RelocationEntry)
  | .addRelocations entries => some entries
  | _ => none

end Call

/-- The builder after a sequence of calls. -/
def run (calls : List Call) : ElfBuilder := calls.foldl Call.apply new

/-- What a sequence of calls gives: the last value of each setting, and everything that is
passed to be added, in call order. -/
def given (calls : List Call) : ElfBuilder where
  elfClass := latest new.elfClass (fun | .withClass value => some value | _ => none) calls
  endian := latest new.endian (fun | .withEndian value => some value | _ => none) calls
  elfType := latest new.elfType (fun | .withElfType value => some value | _ => none) calls
  machine := latest new.machine (fun | .withMachine value => some value | _ => none) calls
  entry := latest new.entry (fun | .withEntry value => some value | _ => none) calls
  osAbi := latest new.osAbi (fun | .withOsAbi value => some value | _ => none) calls
  flags := latest new.flags (fun | .withFlags value => some value | _ => none) calls
  loads := calls.flatMap fun
    | .addLoad vaddr flags data => [⟨vaddr, flags, 0x1000, data⟩]
    | .addLoadAligned vaddr flags align data => [⟨vaddr, flags, align, data⟩]
    | _ => []
  notes := calls.flatMap fun
    | .addNote name noteType descriptor => [⟨name, noteType, descriptor⟩]
    | _ => []
  relocations := (calls.filterMap Call.relocations?).flatten
  tls := latest new.tls (fun
    | .addTls vaddr data memsz align => some (some ⟨vaddr, data, memsz, align⟩)
    | _ => none) calls
  needed := calls.flatMap fun
    | .addDynamicNeeded name => [name]
    | _ => []

/-- Two sequences with the same last value of each setting and, kind by kind, the same
additions in the same order. -/
structure SameCalls (calls calls' : List Call) : Prop where
  given : given calls = given calls'
  relocations : calls.filterMap Call.relocations? = calls'.filterMap Call.relocations?

/-- The builder holds what the calls give, and the image is the same for any other
interleaving of them. -/
structure Accumulates (calls : List Call) : Prop where
  held : run calls = given calls
  image : ∀ calls', SameCalls calls' calls → (run calls').tryBuild = (run calls).tryBuild

/-- The builder holds what the calls give, but for the relocations: of these it holds the
last ones. -/
theorem run_eq (calls : List Call) : run calls =
    { given calls with
      relocations := (calls.filterMap Call.relocations?).getLast?.getD [] } := by
  have hsetting : ∀ {β : Type} {register : ElfBuilder → β} {value : Call → Option β},
      (∀ builder call, register (Call.apply builder call) =
        (value call).getD (register builder)) →
          register (run calls) = latest (register new) value calls :=
    fun hstep => foldl_latest hstep calls new
  have hlist : ∀ {β : Type} {register : ElfBuilder → List β} {added : Call → List β},
      (∀ builder call, register (Call.apply builder call) =
        register builder ++ added call) → register new = [] →
          register (run calls) = calls.flatMap added := by
    intro β register added hstep hnew
    rw [run, foldl_collected hstep, hnew, List.nil_append]
  apply ElfBuilder.ext
  case loads | notes | needed =>
    exact hlist (fun _ call => by
      cases call <;> first | rfl | exact (List.append_nil _).symm) rfl
  -- the relocations are a setting like the others
  all_goals exact hsetting fun _ call => by cases call <;> rfl

/-- Only the last of the calls that pass relocations passes any entries. -/
def OnlyLastRelocates (calls : List Call) : Prop :=
  ∀ entries ∈ (calls.filterMap Call.relocations?).dropLast, entries = []

/-- Calls accumulate exactly when only the last one that passes relocations passes any
entries. -/
theorem accumulates_iff (calls : List Call) :
    Accumulates calls ↔ OnlyLastRelocates calls := by
  have hheld : run calls = given calls ↔ OnlyLastRelocates calls := by
    rw [OnlyLastRelocates, ← getLast?_getD_eq_flatten_iff, run_eq]
    constructor
    · exact fun heq => congrArg ElfBuilder.relocations heq
    · exact fun heq => by rw [heq]; rfl
  constructor
  · exact fun h => hheld.1 h.held
  · refine fun h => ⟨hheld.2 h, fun calls' hsame => ?_⟩
    rw [run_eq, run_eq, hsame.given, hsame.relocations]

end ElfBuilder

/-- Two calls that pass one relocation each. -/
def relocatedCalls : List ElfBuilder.Call :=
  [.addRelocations [⟨0x1000, 0, 8, some 1⟩], .addRelocations [⟨0x2000, 0, 8, some 2⟩]]

/-- The second relocation is the only one of the image. -/
theorem relocatedCalls_dropped : ¬ElfBuilder.Accumulates relocatedCalls ∧
    ∃ image, (ElfBuilder.run relocatedCalls).tryBuild = .ok image ∧
      image.relocations =
        .ok [{ entries := [⟨0x2000, 0, 8, some 2⟩], isRela := true }] := by
  constructor
  · intro h
    exact absurd (congrArg ElfBuilder.relocations h.held) (by decide)
  · obtain ⟨image, himage⟩ :=
      (ElfBuilder.run relocatedCalls).exists_tryBuild (by decide +kernel)
    obtain ⟨d, hpresent, rfl⟩ := ElfBuilder.exists_present himage
    exact ⟨imageOf d, himage,
      ElfBuilder.relocations_present hpresent (List.forall_mem_singleton.2 rfl)⟩

end Elfex
