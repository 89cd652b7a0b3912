import Elfex.Foundation.Memory
import Elfex.Foundation.Word
import Elfex.Format.Ident

/-!
# Positional readers

A `Reader` fills a caller's buffer from an absolute offset. It may fill less
than was asked, and nothing forces the count it reports to be honest; the exact
reads retry until the buffer is full and check every count. `SliceReader` reads
a byte string in memory, and `OffsetReader` shifts another reader.

`Serves` is what a faithful reader promises: every read of a resident address makes
progress, with bytes of the memory, and how many it delivers at once is its own choice.
The exact reads depend on the memory only.
-/

namespace Elfex

open Foundation

/-- A byte source read at absolute offsets. A read returns its result and the
buffer it leaves behind, which has the length it was given. -/
structure Reader where
  readAt : UInt64 → List UInt8 → Except ErrorKind UInt64 × List UInt8
  size : Option UInt64
  length_readAt : ∀ offset buf, (readAt offset buf).2.length = buf.length

namespace Reader

/-- The loop of `read_exact_at`: `filled` is the part of the buffer already read
and `rest` the part still to be filled. -/
def readExactLoop (reader : Reader) (offset : UInt64) (expected : ℕ)
    (filled rest : List UInt8) : Exec (List UInt8) :=
  if _hrest : rest = [] then .ok filled
  else
    match checkedAdd offset (UInt64.ofNat filled.length) with
    | none => Outcome.fail (.offsetOutOfBounds offset (UInt64.ofNat expected))
    | some current =>
      let buf := (reader.readAt current rest).2
      match (reader.readAt current rest).1 with
      | .error e => Outcome.fail e
      | .ok count =>
        if _hcount : count = 0 then
          Outcome.fail (.bufferTooSmall expected filled.length)
        else if expected - filled.length < count.toNat then
          Outcome.fail (.generic
            "ReadAt::read_at reported more bytes than the supplied buffer")
        else
          readExactLoop reader offset expected (filled ++ buf.take count.toNat)
            (buf.drop count.toNat)
termination_by rest.length
decreasing_by
  have hlen := reader.length_readAt current rest
  have hpos : count.toNat ≠ 0 := fun h => _hcount (UInt64.toNat_inj.1 h)
  have hne : rest.length ≠ 0 := fun h => _hrest (List.length_eq_zero_iff.1 h)
  simp only [List.length_drop]
  omega

def readExactAt (reader : Reader) (offset : UInt64) (buf : List UInt8) :
    Exec (List UInt8) :=
  readExactLoop reader offset buf.length [] buf

def readU16At (reader : Reader) (offset : UInt64) (endian : Endian) : Exec UInt16 := do
  let buf ← reader.readExactAt offset (List.replicate 2 0)
  return endian.u16 buf

def readU32At (reader : Reader) (offset : UInt64) (endian : Endian) : Exec UInt32 := do
  let buf ← reader.readExactAt offset (List.replicate 4 0)
  return endian.u32 buf

def readU64At (reader : Reader) (offset : UInt64) (endian : Endian) : Exec UInt64 := do
  let buf ← reader.readExactAt offset (List.replicate 8 0)
  return endian.u64 buf

/-- Reads the `u32` field `delta` bytes past `offset`; the address is an unchecked
sum. -/
def readU32Past (reader : Reader) (offset delta : UInt64) (endian : Endian) :
    Exec UInt32 := do
  let address ← Outcome.add offset delta
  reader.readU32At address endian

/-- Reads the `u64` field `delta` bytes past `offset`; the address is an unchecked
sum. -/
def readU64Past (reader : Reader) (offset delta : UInt64) (endian : Endian) :
    Exec UInt64 := do
  let address ← Outcome.add offset delta
  reader.readU64At address endian

/-- Reads `len` bytes at `offset` into an owned vector. -/
def readBytesAt (reader : Reader) (offset : UInt64) (len : ℕ) : Exec (List UInt8) :=
  if isizeMax < len then
    Outcome.fail (.generic "reader request is too large to allocate")
  else
    reader.readExactAt offset (List.replicate len 0)

end Reader

def sliceReader (data : List UInt8) : Reader where
  readAt offset buf :=
    if data.length < offset.toNat then (.ok 0, buf)
    else
      let available := data.drop offset.toNat
      let count := min available.length buf.length
      (.ok (UInt64.ofNat count), available.take count ++ buf.drop count)
  size := some (UInt64.ofNat data.length)
  length_readAt offset buf := by
    split
    · rfl
    · simp only [List.length_append, List.length_take, List.length_drop]
      omega

/-- A reader that shifts every offset by `base`. -/
def offsetReader (inner : Reader) (base : UInt64) : Reader where
  readAt offset buf :=
    match checkedAdd base offset with
    | none => (.ok 0, buf)
    | some shifted => inner.readAt shifted buf
  size := inner.size.map fun size => saturatingSub size base
  length_readAt offset buf := by
    split
    · rfl
    · exact inner.length_readAt _ _

@[simp] theorem sliceReader_size (data : List UInt8) :
    (sliceReader data).size = some (UInt64.ofNat data.length) := rfl

@[simp] theorem offsetReader_zero (inner : Reader) : offsetReader inner 0 = inner := by
  have hread : (offsetReader inner 0).readAt = inner.readAt := by
    funext offset buf
    have hadd : checkedAdd 0 offset = some offset := checkedAdd_eq_some.2 (by simp)
    simp [offsetReader, hadd]
  have hsize : (offsetReader inner 0).size = inner.size := by
    cases h : inner.size with
    | none => simp [offsetReader, h]
    | some size => simp [offsetReader, h, saturatingSub]
  obtain ⟨readAt, size, hlen⟩ := inner
  simp only [offsetReader, Reader.mk.injEq] at hread hsize ⊢
  exact ⟨hread, hsize⟩

/-! ## Readers that serve a memory -/

namespace Reader

/-- The reader serves the memory: a read at a resident address fills at least one and at
most all positions of the run that starts there, and a read at a missing one fills none
or fails. What a read does not fill keeps its bytes. -/
structure Serves (reader : Reader) (memory : Memory UInt8) : Prop where
  resident : ∀ (offset : UInt64) (buf : List UInt8), buf ≠ [] →
    memory.get? offset.toNat ≠ none → ∃ count : UInt64, 0 < count.toNat ∧
      count.toNat ≤ (memory.run offset.toNat buf.length).length ∧
      reader.readAt offset buf =
        (.ok count, memory.run offset.toNat count.toNat ++ buf.drop count.toNat)
  missing : ∀ (offset : UInt64) (buf : List UInt8), buf ≠ [] →
    memory.get? offset.toNat = none → reader.readAt offset buf = (.ok 0, buf) ∨
      ∃ e, reader.readAt offset buf = (.error e, buf)

/-- The reader serves a byte string and knows its size. -/
structure ServesBytes (reader : Reader) (data : List UInt8) : Prop where
  length : data.length < 2 ^ 64
  size : reader.size = some (UInt64.ofNat data.length)
  serves : reader.Serves (Memory.ofList data)

end Reader

theorem sliceReader_serves {data : List UInt8} (hdata : data.length < 2 ^ 64) :
    (sliceReader data).ServesBytes data := by
  refine ⟨hdata, rfl, ⟨fun offset buf hbuf hresident => ?_, fun offset buf _ hmissing => ?_⟩⟩
  · rw [Memory.get?_ofList hdata.le, Ne, List.getElem?_eq_none_iff, Nat.not_le] at hresident
    have hpos := List.length_pos_iff.2 hbuf
    have hcount : (UInt64.ofNat (min (data.drop offset.toNat).length buf.length)).toNat =
        min (data.length - offset.toNat) buf.length := by
      rw [List.length_drop, toNat_ofNat_of_lt (by omega)]
    refine ⟨UInt64.ofNat (min (data.drop offset.toNat).length buf.length), ?_, ?_, ?_⟩
    · omega
    · rw [Memory.run_ofList hdata.le, length_window]
      omega
    · rw [hcount, Memory.run_ofList hdata.le]
      simp only [sliceReader, if_neg (Nat.not_lt.2 hresident.le), List.length_drop]
      rfl
  · rw [Memory.get?_ofList hdata.le, List.getElem?_eq_none_iff] at hmissing
    left
    by_cases hlt : data.length < offset.toNat
    · simp [sliceReader, hlt]
    · simp [sliceReader, hlt, Nat.sub_eq_zero_of_le hmissing]

theorem Reader.Serves.offset {reader : Reader} {memory : Memory UInt8}
    (h : reader.Serves memory) (base : UInt64) :
    (offsetReader reader base).Serves (memory.shift base.toNat) := by
  have hrun : ∀ {offset shifted : UInt64} (n : ℕ), checkedAdd base offset = some shifted →
      (memory.shift base.toNat).run offset.toNat n = memory.run shifted.toNat n := by
    intro offset shifted n hadd
    rw [Memory.run_shift, checkedAdd_eq_some.1 hadd]
  constructor
  · intro offset buf hbuf hresident
    rw [Memory.get?_shift] at hresident
    cases hadd : checkedAdd base offset with
    | none => exact absurd (memory.get?_eq_none _ (checkedAdd_eq_none.1 hadd)) hresident
    | some shifted =>
        rw [checkedAdd_eq_some.1 hadd] at hresident
        simp only [hrun _ hadd, offsetReader, hadd]
        exact h.resident shifted buf hbuf hresident
  · intro offset buf hbuf hmissing
    rw [Memory.get?_shift] at hmissing
    cases hadd : checkedAdd base offset with
    | none => simp [offsetReader, hadd]
    | some shifted =>
        rw [checkedAdd_eq_some.1 hadd] at hmissing
        simp only [offsetReader, hadd]
        exact h.missing shifted buf hbuf hmissing

/-- A reader of a string after a prefix, addressed from the prefix's end on, serves the
string. -/
theorem Reader.ServesBytes.offset {reader : Reader} {p d : List UInt8}
    (h : reader.ServesBytes (p ++ d)) :
    (offsetReader reader (UInt64.ofNat p.length)).ServesBytes d := by
  have hlen := h.length
  rw [List.length_append] at hlen
  have hbase : (UInt64.ofNat p.length).toNat = p.length := toNat_ofNat_of_lt (by omega)
  refine ⟨by omega, ?_, ?_⟩
  · have hsize : saturatingSub (UInt64.ofNat (p ++ d).length) (UInt64.ofNat p.length) =
        UInt64.ofNat d.length := by
      rw [← UInt64.toNat_inj, toNat_saturatingSub, hbase, toNat_ofNat_of_lt h.length,
        toNat_ofNat_of_lt (by omega), List.length_append, Nat.add_sub_cancel_left]
    rw [← hsize]
    simp only [offsetReader, h.size, Option.map_some]
  · have hserves := h.serves.offset (UInt64.ofNat p.length)
    rwa [hbase, Memory.shift_ofList_append h.length.le] at hserves

/-! ## Exact reads -/

section Exact

variable {reader : Reader} {memory : Memory UInt8}

/-- The loop of an exact read, from a filled part on, ends with the whole range exactly
when the range is resident. -/
theorem readExactLoop_decides (h : reader.Serves memory) (offset : UInt64) {expected : ℕ}
    (hexpected : expected < 2 ^ 64) {filled rest : List UInt8}
    (hlen : filled.length + rest.length = expected)
    (hfilled : memory.run offset.toNat filled.length = filled) :
    (reader.readExactLoop offset expected filled rest).Decides
      (∀ i < expected, memory.get? (offset.toNat + i) ≠ none)
      (memory.run offset.toNat expected) := by
  induction hn : rest.length using Nat.strong_induction_on generalizing filled rest with
  | _ n ih =>
      subst hn
      have hcomplete : (memory.run offset.toNat filled.length).length = filled.length := by
        rw [hfilled]
      have hwhole : memory.run offset.toNat expected =
          filled ++ memory.run (offset.toNat + filled.length) rest.length := by
        rw [← hlen, memory.run_add offset.toNat rest.length hcomplete, hfilled]
      rw [Reader.readExactLoop]
      by_cases hrest : rest = []
      · rw [dif_pos hrest]
        subst hrest
        rw [List.length_nil, Nat.add_zero] at hlen
        refine (Outcome.Decides.pure filled).congr (iff_true_intro ?_) fun _ => ?_
        · rw [← hlen]
          exact (memory.length_run_eq_iff _ _).1 hcomplete
        · rw [hwhole, List.length_nil, Memory.run_zero, List.append_nil]
      rw [dif_neg hrest]
      have hpos := List.length_pos_iff.2 hrest
      have hofNat : (UInt64.ofNat filled.length).toNat = filled.length :=
        toNat_ofNat_of_lt (by omega)
      -- without the next byte the range is not resident
      have hmissing : memory.get? (offset.toNat + filled.length) = none →
          ¬∀ i < expected, memory.get? (offset.toNat + i) ≠ none :=
        fun hnone hall => hall filled.length (by omega) hnone
      cases hadd : checkedAdd offset (UInt64.ofNat filled.length) with
      | none =>
          rw [checkedAdd_eq_none, hofNat] at hadd
          exact ⟨fun hall => absurd hall (hmissing (memory.get?_eq_none _ hadd)),
            fun _ => Outcome.isErr_fail _⟩
      | some current =>
          have hcurrent : offset.toNat + filled.length = current.toNat := by
            rw [← hofNat]
            exact checkedAdd_eq_some.1 hadd
          rw [hcurrent] at hmissing hwhole
          dsimp only
          by_cases hnone : memory.get? current.toNat = none
          · refine ⟨fun hall => absurd hall (hmissing hnone), fun _ => ?_⟩
            rcases h.missing current rest hrest hnone with hread | ⟨e, hread⟩
            · simp only [hread, dif_pos]
              exact Outcome.isErr_fail _
            · simp only [hread]
              exact Outcome.isErr_fail _
          · obtain ⟨count, hcount, hle, hread⟩ := h.resident current rest hrest hnone
            have hbound := hle.trans (memory.length_run_le _ _)
            have hrun : (memory.run current.toNat count.toNat).length = count.toNat :=
              memory.length_run_of_le _ hle
            have hne : count ≠ 0 := ne_zero_of_lt_toNat hcount
            simp only [hread, dif_neg hne,
              if_neg (by omega : ¬expected - filled.length < count.toNat),
              List.take_append_of_le_length hrun.ge, List.take_of_length_le hrun.le,
              List.drop_append_of_le_length hrun.ge, List.drop_eq_nil_of_le hrun.le,
              List.nil_append]
            refine ih (rest.drop count.toNat).length ?_ ?_ ?_ rfl
            · rw [List.length_drop]
              omega
            · rw [List.length_append, hrun, List.length_drop]
              omega
            · rw [List.length_append, hrun, memory.run_add _ _ hcomplete, hfilled, hcurrent]

theorem readExactAt_decides (h : reader.Serves memory) (offset : UInt64)
    (buf : List UInt8) (hbuf : buf.length < 2 ^ 64) :
    (reader.readExactAt offset buf).Decides
      (∀ i < buf.length, memory.get? (offset.toNat + i) ≠ none)
      (memory.run offset.toNat buf.length) :=
  readExactLoop_decides h offset hbuf (by simp) rfl

end Exact

/-! ## Exact reads of a byte string -/

section Bytes

variable {reader : Reader} {data : List UInt8}

/-- An exact read of a served string succeeds exactly when its range lies inside. -/
theorem readExactBytes_decides (h : reader.ServesBytes data) (offset : UInt64)
    (buf : List UInt8) (hbuf : buf.length < 2 ^ 64) (hne : buf ≠ []) :
    (reader.readExactAt offset buf).Decides (offset.toNat + buf.length ≤ data.length)
      (window data offset.toNat buf.length) := by
  have hpos := List.length_pos_iff.2 hne
  refine (readExactAt_decides h.serves offset buf hbuf).congr ?_ fun _ =>
    Memory.run_ofList h.length.le _ _
  simp only [Memory.get?_ofList h.length.le, Ne, List.getElem?_eq_none_iff, Nat.not_le]
  constructor
  · intro hle i hi
    omega
  · intro hall
    have hlast := hall (buf.length - 1) (by omega)
    omega

theorem readU16At_decides (h : reader.ServesBytes data) (offset : UInt64)
    (endian : Endian) :
    (reader.readU16At offset endian).Decides
      (offset.toNat + 2 ≤ data.length) (endian.u16 (window data offset.toNat 2)) := by
  have hread := readExactBytes_decides h offset (List.replicate 2 0) (by simp) (by simp)
  rw [List.length_replicate] at hread
  exact hread.map endian.u16

theorem readU32At_decides (h : reader.ServesBytes data) (offset : UInt64)
    (endian : Endian) :
    (reader.readU32At offset endian).Decides
      (offset.toNat + 4 ≤ data.length) (endian.u32 (window data offset.toNat 4)) := by
  have hread := readExactBytes_decides h offset (List.replicate 4 0) (by simp) (by simp)
  rw [List.length_replicate] at hread
  exact hread.map endian.u32

theorem readU64At_decides (h : reader.ServesBytes data) (offset : UInt64)
    (endian : Endian) :
    (reader.readU64At offset endian).Decides
      (offset.toNat + 8 ≤ data.length) (endian.u64 (window data offset.toNat 8)) := by
  have hread := readExactBytes_decides h offset (List.replicate 8 0) (by simp) (by simp)
  rw [List.length_replicate] at hread
  exact hread.map endian.u64

theorem readU32Past_decides (h : reader.ServesBytes data) (offset delta : UInt64)
    (endian : Endian) (hadd : offset.toNat + delta.toNat < 2 ^ 64) :
    (reader.readU32Past offset delta endian).Decides
      (offset.toNat + delta.toNat + 4 ≤ data.length)
      (endian.u32 (window data (offset.toNat + delta.toNat) 4)) := by
  rw [Reader.readU32Past, Outcome.add_of_lt hadd, Outcome.ok_bind,
    ← toNat_add_of_lt hadd]
  exact readU32At_decides h _ endian

theorem readU64Past_decides (h : reader.ServesBytes data) (offset delta : UInt64)
    (endian : Endian) (hadd : offset.toNat + delta.toNat < 2 ^ 64) :
    (reader.readU64Past offset delta endian).Decides
      (offset.toNat + delta.toNat + 8 ≤ data.length)
      (endian.u64 (window data (offset.toNat + delta.toNat) 8)) := by
  rw [Reader.readU64Past, Outcome.add_of_lt hadd, Outcome.ok_bind,
    ← toNat_add_of_lt hadd]
  exact readU64At_decides h _ endian

/-- An owned read of a nonempty range succeeds exactly when the range lies in
the string. -/
theorem readBytesAt_decides (h : reader.ServesBytes data) (hdata : data.length ≤ isizeMax)
    (offset : UInt64) {len : ℕ} (hlen : 0 < len) :
    (reader.readBytesAt offset len).Decides
      (offset.toNat + len ≤ data.length) (window data offset.toNat len) := by
  have hmax : isizeMax < 2 ^ 64 := by decide
  by_cases hlarge : isizeMax < len
  · rw [Reader.readBytesAt, if_pos hlarge]
    exact ⟨fun h => by omega, fun _ => Outcome.isErr_fail _⟩
  · rw [Reader.readBytesAt, if_neg hlarge]
    refine (readExactBytes_decides h offset (List.replicate len 0) (by simp; omega) ?_).congr
      (by simp) (by simp)
    simpa using hlen.ne'

/-- An owned read of no bytes never looks at the source. -/
@[simp] theorem readBytesAt_zero (reader : Reader) (offset : UInt64) :
    reader.readBytesAt offset 0 = .ok [] := by
  rw [Reader.readBytesAt, if_neg (by decide), Reader.readExactAt, Reader.readExactLoop]
  rfl

end Bytes

end Elfex
