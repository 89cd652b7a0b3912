import Elfex.Image.MappedGrammar

/-!
# Parsing from any source

A source that serves a byte string is parsed like the string itself, whatever the sizes
of its reads and wherever the string starts in it. A partially resident memory is read up
to the first missing byte of each segment, so an image of it is exact when only zeros
follow a missing byte.
-/

namespace Elfex

open Foundation

namespace ElfImage

/-! ## Sources of a byte string -/

/-- Parsing depends on the bytes of the source from the base offset on, and neither on
the sizes of its reads nor on what precedes them. -/
theorem readFrom_agrees {reader : Reader} {p d : List UInt8}
    (h : reader.ServesBytes (p ++ d)) (hd : d.length ≤ isizeMax) (layout : Layout) :
    ((readFrom reader (UInt64.ofNat p.length) layout).IsErr ∧
        (readFrom (sliceReader d) 0 layout).IsErr) ∨
      ∃ image, readFrom reader (UInt64.ofNat p.length) layout = .ok image ∧
        readFrom (sliceReader d) 0 layout = .ok image := by
  have hshifted := h.offset
  have hslice : (offsetReader (sliceReader d) 0).ServesBytes d := by
    rw [offsetReader_zero]
    exact sliceReader_serves hshifted.length
  cases layout with
  | file =>
      exact (readFrom_file_decides hshifted hd).agree (readFrom_file_decides hslice hd)
  | mapped =>
      exact (readFrom_mapped_decides hshifted).agree (readFrom_mapped_decides hslice)

end ElfImage

/-- A reader of a memory, at most `chunk` bytes at a time. -/
def memoryReader (memory : Memory UInt8) (chunk : ℕ) (size : Option UInt64) : Reader where
  readAt offset buf :=
    let bytes := memory.run offset.toNat (min chunk buf.length)
    (.ok (UInt64.ofNat bytes.length), bytes ++ buf.drop bytes.length)
  size := size
  length_readAt offset buf := by
    have hle := memory.length_run_le offset.toNat (min chunk buf.length)
    rw [List.length_append, List.length_drop]
    omega

theorem memoryReader_serves (memory : Memory UInt8) {chunk : ℕ} (hpos : 0 < chunk)
    (hchunk : chunk < 2 ^ 64) (size : Option UInt64) :
    (memoryReader memory chunk size).Serves memory := by
  constructor
  · intro offset buf hbuf hresident
    have hbuf := List.length_pos_iff.2 hbuf
    have hle := memory.length_run_le offset.toNat (min chunk buf.length)
    have hcount : (UInt64.ofNat (memory.run offset.toNat (min chunk buf.length)).length).toNat =
        (memory.run offset.toNat (min chunk buf.length)).length :=
      toNat_ofNat_of_lt (by omega)
    have htake := memory.take_run offset.toNat (Nat.min_le_right chunk buf.length)
    refine ⟨UInt64.ofNat (memory.run offset.toNat (min chunk buf.length)).length, ?_, ?_, ?_⟩
    · -- a run of no bytes would end at the offset itself
      rw [hcount]
      by_contra hzero
      have hmissing := memory.get?_length_run offset.toNat (n := min chunk buf.length)
        (by omega)
      rw [Nat.eq_zero_of_not_pos hzero] at hmissing
      exact hresident hmissing
    · rw [hcount, ← htake, List.length_take]
      exact Nat.min_le_right _ _
    · have hself : memory.run offset.toNat
          (memory.run offset.toNat (min chunk buf.length)).length =
            memory.run offset.toNat (min chunk buf.length) := by
        rw [← memory.take_run offset.toNat hle, List.take_length]
      rw [hcount, hself]
      simp only [memoryReader]
  · intro offset buf _ hmissing
    left
    simp [memoryReader, memory.run_of_missing _ hmissing]

/-- A file behind three bytes, read two bytes at a time, parses like the file. -/
theorem smallFile_agrees :
    ∃ image, ElfImage.readFrom (memoryReader (Memory.ofList ([1, 2, 3] ++ smallFile)) 2
        (some (UInt64.ofNat ([1, 2, 3] ++ smallFile).length))) 3 .file = .ok image ∧
      ElfImage.parse smallFile = .ok image := by
  have hserves : (memoryReader (Memory.ofList ([1, 2, 3] ++ smallFile)) 2
      (some (UInt64.ofNat ([1, 2, 3] ++ smallFile).length))).ServesBytes
        ([1, 2, 3] ++ smallFile) :=
    ⟨by decide +kernel, rfl, memoryReader_serves _ (by decide) (by decide) _⟩
  rcases ElfImage.readFrom_agrees hserves smallFile_length .file with ⟨-, herr⟩ | hagree
  · obtain ⟨image, himage⟩ := Outcome.exists_of_isOk smallFile_parses
    exact absurd himage (herr.ne_ok image)
  · exact hagree

namespace ElfImage

/-! ## Partially resident memories -/

/-- Where the bytes of a segment start in a memory source. -/
def sourceStart (image : ElfImage) (sourceAddress : UInt64) (segment : Segment) : ℕ :=
  sourceAddress.toNat + (segment.header.vaddr.toNat - image.imageBase.toNat)

/-- A segment read from a memory holds its bytes up to the first missing one. -/
theorem readMappedSegment_eq_fill {reader : Reader} {memory : Memory UInt8}
    (h : reader.Serves memory) {imageBase : UInt64} {header : ProgramHeader}
    {segment : Segment} (hread : readMappedSegment reader imageBase header = .ok segment) :
    segment.header = header ∧ (header.type = SegmentType.load →
      segment.data = memory.fill (header.vaddr.toNat - imageBase.toNat)
        (List.replicate header.memsz.toNat 0)) := by
  rw [readMappedSegment] at hread
  split at hread
  · rename_i hskip
    cases hread
    refine ⟨rfl, fun hload => ?_⟩
    rcases hskip with hnull | hzero
    · rw [hload] at hnull
      cases hnull
    · rw [ProgramHeader.mappedLength, if_pos hload] at hzero
      rw [hzero]
      rfl
  · rw [Outcome.bind_eq_ok] at hread
    obtain ⟨len, hlen, hread⟩ := hread
    dsimp only at hread
    rw [Outcome.bind_eq_ok] at hread
    obtain ⟨bytes, hbytes, hret⟩ := hread
    cases hret
    refine ⟨rfl, fun hload => ?_⟩
    have hlen' : len = header.memsz.toNat := by
      rw [checkedLen_eq_ok hlen, ProgramHeader.mappedLength, if_pos hload]
    subst hlen'
    rw [← toNat_saturatingSub]
    exact readLenient_eq_fill h (by simpa using header.memsz.toNat_lt) hbytes

/-- The loadable segments of an image read from a memory. -/
theorem readMappedFrom_segments {reader : Reader} {memory : Memory UInt8}
    (h : reader.Serves memory) {sourceAddress loadBase : UInt64} {image : ElfImage}
    (hread : readMappedFrom reader sourceAddress loadBase = .ok image) :
    ∀ segment ∈ image.segments, segment.header.type = SegmentType.load →
      segment.data = memory.fill (image.sourceStart sourceAddress segment)
        (List.replicate segment.header.memsz.toNat 0) := by
  rw [readMappedFrom, Outcome.bind_eq_ok] at hread
  obtain ⟨read, hread, hret⟩ := hread
  cases hret
  rw [readMappedLayout, Outcome.bind_eq_ok] at hread
  obtain ⟨headers, -, hread⟩ := hread
  dsimp only at hread
  rw [Outcome.bind_eq_ok] at hread
  obtain ⟨segments, hsegments, hread⟩ := hread
  rw [Outcome.bind_eq_ok] at hread
  obtain ⟨sections, -, hret⟩ := hread
  cases hret
  have hserves := h.offset sourceAddress
  have hheaders : segments.map Segment.header = headers.programHeaders :=
    Outcome.map_of_mapM (fun _ _ hstep => (readMappedSegment_eq_fill hserves hstep).1)
      hsegments
  intro segment hmem hload
  obtain ⟨header, -, hstep⟩ := Outcome.exists_of_mem_mapM hsegments hmem
  obtain ⟨hheader, hdata⟩ := readMappedSegment_eq_fill hserves hstep
  rw [← hheader] at hdata
  rw [hdata hload, Memory.fill_shift, ← hheaders]
  rfl

/-- Every loadable segment holds the memory behind it, with zeros for missing bytes. -/
def HoldsMemory (image : ElfImage) (memory : Memory UInt8) (sourceAddress : UInt64) : Prop :=
  ∀ segment ∈ image.segments, segment.header.type = SegmentType.load →
    ∀ i < segment.header.memsz.toNat, segment.data[i]? =
      some ((memory.get? (image.sourceStart sourceAddress segment + i)).getD 0)

/-- In the memory behind every loadable segment only zeros come after a missing byte. -/
def ZerosAfterMissing (image : ElfImage) (memory : Memory UInt8) (sourceAddress : UInt64) :
    Prop :=
  ∀ segment ∈ image.segments, segment.header.type = SegmentType.load →
    ∀ i j, i < j → j < segment.header.memsz.toNat →
      memory.get? (image.sourceStart sourceAddress segment + i) = none →
      ∀ x, memory.get? (image.sourceStart sourceAddress segment + j) = some x → x = 0

/-- An image read from a partially resident memory is exact when only zeros come after a
missing byte of a segment, and only then. -/
theorem readMappedFrom_exact_iff {reader : Reader} {memory : Memory UInt8}
    (h : reader.Serves memory) {sourceAddress loadBase : UInt64} {image : ElfImage}
    (hread : readMappedFrom reader sourceAddress loadBase = .ok image) :
    image.HoldsMemory memory sourceAddress ↔
      image.ZerosAfterMissing memory sourceAddress := by
  refine forall₃_congr fun segment hmem hload => ?_
  rw [readMappedFrom_segments h hread segment hmem hload]
  exact memory.fill_exact_iff _ _ 0

end ElfImage

/-- The headers of an executable whose only loadable segment has 122 bytes of memory. -/
def holedHeaders : List UInt8 :=
  { smallHeader with shoff := 0, shnum := 0, shstrndx := 0 }.write ++
    { smallLoad with offset := 0, filesz := 122, memsz := 122 }.write .little .elf64

/-- The executable in memory: the byte after its headers is missing. -/
def holedMemory (last : UInt8) : Memory UInt8 where
  get? a := if a = 121 then some last else if a < 120 then holedHeaders[a]? else none
  get?_eq_none a ha := by
    rw [if_neg (by omega), if_neg (by omega)]

def holedReader (last : UInt8) : Reader := memoryReader (holedMemory last) 4096 none

theorem holedReader_serves (last : UInt8) : (holedReader last).Serves (holedMemory last) :=
  memoryReader_serves _ (by decide) (by decide) _

/-- The only segment read from the memory: where it starts, how long it is in memory and
what it holds at the last address. -/
theorem holedReader_segments (last : UInt8)
    (h : (ElfImage.readMappedFrom (holedReader last) 0 0x1000 >>= fun image =>
      pure (image.segments.map fun segment => (segment.header.type,
        image.sourceStart 0 segment, segment.header.memsz, segment.data[121]?))) =
          .ok [(SegmentType.load, 0, 122, some 0)]) :
    ∃ image segment, ElfImage.readMappedFrom (holedReader last) 0 0x1000 = .ok image ∧
      image.segments = [segment] ∧ segment.header.type = SegmentType.load ∧
      image.sourceStart 0 segment = 0 ∧ segment.header.memsz = 122 ∧
      segment.data[121]? = some 0 := by
  rw [Outcome.bind_eq_ok] at h
  obtain ⟨image, hread, hret⟩ := h
  have hsegments := Except.ok.inj hret
  obtain ⟨segment, hsegment⟩ := List.length_eq_one_iff.1
    (by simpa using congrArg List.length hsegments)
  rw [hsegment] at hsegments
  simp only [List.map_cons, List.map_nil, List.cons.injEq, Prod.mk.injEq] at hsegments
  exact ⟨image, segment, hread, hsegment, hsegments.1.1, hsegments.1.2.1, hsegments.1.2.2.1,
    hsegments.1.2.2.2⟩

/-- A zero after the missing byte is read as it is. -/
theorem holedMemory_exact :
    ∃ image, ElfImage.readMappedFrom (holedReader 0) 0 0x1000 = .ok image ∧
      image.HoldsMemory (holedMemory 0) 0 := by
  obtain ⟨image, only, hread, hsegments, -, hstart, -⟩ :=
    holedReader_segments 0 (by decide +kernel)
  refine ⟨image, hread,
    (ElfImage.readMappedFrom_exact_iff (holedReader_serves 0) hread).2 ?_⟩
  intro segment hmem hload i j hij hj hmissing x hx
  obtain rfl : segment = only := by simpa [hsegments] using hmem
  rw [hstart, Nat.zero_add] at hmissing hx
  have hlength : holedHeaders.length = 120 := by decide +kernel
  simp only [holedMemory] at hmissing hx
  grind

/-- The byte after the missing one is lost. -/
theorem holedMemory_lost :
    ∃ image, ElfImage.readMappedFrom (holedReader 0xcc) 0 0x1000 = .ok image ∧
      ¬image.HoldsMemory (holedMemory 0xcc) 0 := by
  obtain ⟨image, segment, hread, hsegments, hload, hstart, hmemsz, hdata⟩ :=
    holedReader_segments 0xcc (by decide +kernel)
  refine ⟨image, hread, fun hholds => ?_⟩
  have hbyte := hholds segment (by rw [hsegments]; exact List.mem_singleton_self _) hload 121
    (by rw [hmemsz]; decide)
  rw [hdata, hstart] at hbyte
  exact absurd (Option.some.inj hbyte) (by decide)

end Elfex
