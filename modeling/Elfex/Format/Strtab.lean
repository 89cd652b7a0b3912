import Mathlib.Data.List.TakeWhile
import Elfex.Format.Ident

/-!
# String tables

A string table is a block of NUL-terminated strings, and a name is an offset
into it. Names are UTF-8 strings without a NUL, so the bytes of a name followed
by a NUL read back as the name.
-/

namespace Elfex

open Foundation

def strBytes (name : String) : List UInt8 := name.toByteArray.data.toList

/-- The string with these bytes when they are valid UTF-8. -/
def fromUtf8 (bytes : List UInt8) : Option String := String.fromUTF8? ⟨bytes.toArray⟩

namespace StringTable

/-- The bytes from the start of `tail` up to its first NUL. -/
def untilNul (tail : List UInt8) : List UInt8 := tail.take (tail.findIdx (· == 0))

/-- The string at `offset`; `none` when the offset is out of range or the string
is not valid UTF-8. -/
def get (data : List UInt8) (offset : ℕ) : Option String :=
  if data.length < offset then none else fromUtf8 (untilNul (data.drop offset))

/-- The name at `offset`, empty when there is none. -/
def name (data : List UInt8) (offset : ℕ) : String := (get data offset).getD ""

end StringTable

@[simp] theorem fromUtf8_strBytes (name : String) :
    fromUtf8 (strBytes name) = some name := by
  have hbytes : (⟨(strBytes name).toArray⟩ : ByteArray) = name.toByteArray := by
    simp [strBytes]
  rw [fromUtf8, hbytes, String.fromUTF8?, dif_pos name.isValidUTF8]
  rfl

theorem strBytes_append (first second : String) :
    strBytes (first ++ second) = strBytes first ++ strBytes second := by
  simp [strBytes]

theorem strBytes_singleton (c : Char) :
    strBytes (String.singleton c) = String.utf8EncodeChar c := by
  rw [strBytes, String.toByteArray_singleton, List.utf8Encode_singleton]
  simp

/-- A character is encoded without a zero byte, or as one. -/
theorem utf8EncodeChar_of_zero_mem {c : Char} (h : 0 ∈ String.utf8EncodeChar c) :
    String.utf8EncodeChar c = [0] := by
  -- every byte of a longer encoding has its highest bit set
  have hbyte : ∀ {x k base : ℕ}, 0 < k → 0 < base → base + k ≤ 256 →
      (0 : UInt8) ≠ UInt8.ofNat (x % k + base) := by
    intro x k base hk hbase hlimit hzero
    have hmod := Nat.mod_lt x hk
    have hnat := congrArg UInt8.toNat hzero
    rw [UInt8.toNat_ofNat', UInt8.toNat_zero] at hnat
    omega
  rw [String.utf8EncodeChar] at h ⊢
  split_ifs at h ⊢ <;> simp only [List.mem_cons, List.not_mem_nil, or_false] at h
  · rw [← h]
  · rcases h with h | h
    · exact absurd h (hbyte (by decide) (by decide) (by decide))
    · exact absurd h (hbyte (by decide) (by decide) (by decide))
  · rcases h with h | h | h
    · exact absurd h (hbyte (by decide) (by decide) (by decide))
    · exact absurd h (hbyte (by decide) (by decide) (by decide))
    · exact absurd h (hbyte (by decide) (by decide) (by decide))
  · rcases h with h | h | h | h
    · exact absurd h (hbyte (by decide) (by decide) (by decide))
    · exact absurd h (hbyte (by decide) (by decide) (by decide))
    · exact absurd h (hbyte (by decide) (by decide) (by decide))
    · exact absurd h (hbyte (by decide) (by decide) (by decide))

theorem strBytes_of_fromUtf8 {bytes : List UInt8} {name : String}
    (h : fromUtf8 bytes = some name) : strBytes name = bytes := by
  rw [fromUtf8, String.fromUTF8?] at h
  split at h
  · rw [← Option.some.inj h]
    rfl
  · cases h

namespace StringTable

theorem untilNul_eq_takeWhile (tail : List UInt8) :
    untilNul tail = tail.takeWhile (· != 0) := by
  rw [untilNul, List.takeWhile_eq_take_findIdx_not]
  congr 2
  funext byte
  simp [bne]

theorem zero_notMem_untilNul (tail : List UInt8) : 0 ∉ untilNul tail := by
  rw [untilNul_eq_takeWhile]
  intro h
  simpa using List.mem_takeWhile_imp h

theorem untilNul_of_notMem {bytes : List UInt8} (h : 0 ∉ bytes) : untilNul bytes = bytes := by
  rw [untilNul_eq_takeWhile, List.takeWhile_eq_self_iff]
  intro byte hbyte
  have hne : byte ≠ 0 := fun h0 => h (h0 ▸ hbyte)
  simpa using hne

/-- What follows a NUL is not read. -/
theorem untilNul_append_nul (bytes rest : List UInt8) :
    untilNul (bytes ++ 0 :: rest) = untilNul bytes := by
  induction bytes with
  | nil => rfl
  | cons byte bytes ih =>
      rw [untilNul_eq_takeWhile, untilNul_eq_takeWhile] at ih ⊢
      rw [List.cons_append, List.takeWhile_cons, List.takeWhile_cons, ih]

/-- The bytes of a string up to its first NUL are those of a string. -/
theorem exists_untilNul (name : String) :
    ∃ first : String, strBytes first = untilNul (strBytes name) := by
  obtain ⟨cs, hcs⟩ := name.isValidUTF8
  have hbytes : strBytes name = cs.flatMap String.utf8EncodeChar := by
    rw [strBytes, hcs, List.utf8Encode]
    simp
  rw [hbytes]
  clear hcs hbytes
  induction cs with
  | nil => exact ⟨"", by decide +kernel⟩
  | cons c cs ih =>
      obtain ⟨first, hfirst⟩ := ih
      rw [List.flatMap_cons]
      by_cases hzero : 0 ∈ String.utf8EncodeChar c
      · refine ⟨"", ?_⟩
        rw [utf8EncodeChar_of_zero_mem hzero]
        exact (untilNul_append_nul [] _).symm
      · refine ⟨String.singleton c ++ first, ?_⟩
        rw [strBytes_append, strBytes_singleton, hfirst, untilNul_eq_takeWhile,
          untilNul_eq_takeWhile, List.takeWhile_append_of_pos]
        intro byte hbyte
        have hne : byte ≠ 0 := fun h => hzero (h ▸ hbyte)
        simpa using hne

theorem untilNul_zero (tail : List UInt8) : untilNul (0 :: tail) = [] :=
  untilNul_append_nul [] tail

theorem untilNul_cons {byte : UInt8} (h : byte ≠ 0) (tail : List UInt8) :
    untilNul (byte :: tail) = byte :: untilNul tail := by
  have hbyte : (byte != 0) = true := bne_iff_ne.2 h
  rw [untilNul_eq_takeWhile, untilNul_eq_takeWhile, List.takeWhile_cons, hbyte]
  rfl

/-- The string at the start of a tail is the same exactly when its bytes and the NUL behind
them are. -/
theorem untilNul_eq_iff {tail tail' : List UInt8} (hlen : tail'.length = tail.length) :
    untilNul tail' = untilNul tail ↔
      ∀ i ≤ (untilNul tail).length, tail'[i]? = tail[i]? := by
  induction tail generalizing tail' with
  | nil =>
      obtain rfl := List.eq_nil_of_length_eq_zero hlen
      exact iff_of_true rfl fun _ _ => rfl
  | cons byte tail ih =>
      cases tail' with
      | nil => exact absurd hlen (by simp)
      | cons byte' tail' =>
          rw [List.length_cons, List.length_cons] at hlen
          by_cases hzero : byte = 0
          · subst hzero
            rw [untilNul_zero]
            constructor
            · intro hnone i hi
              obtain rfl := Nat.le_zero.1 hi
              by_contra hne
              have hbyte : byte' ≠ 0 := fun h => hne (by rw [h]; rfl)
              rw [untilNul_cons hbyte] at hnone
              cases hnone
            · intro hall
              have hfirst := Option.some.inj (hall 0 (Nat.le_refl _))
              rw [hfirst, untilNul_zero]
          · rw [untilNul_cons hzero]
            constructor
            · intro heq i hi
              have hbyte : byte' ≠ 0 := by
                rintro rfl
                rw [untilNul_zero] at heq
                cases heq
              rw [untilNul_cons hbyte] at heq
              obtain ⟨hfirst, hrest⟩ := List.cons.inj heq
              cases i with
              | zero => rw [hfirst]; rfl
              | succ i => exact (ih (by omega)).1 hrest i (Nat.le_of_succ_le_succ hi)
            · intro hall
              have hfirst := Option.some.inj (hall 0 (Nat.zero_le _))
              rw [hfirst, untilNul_cons hzero, (ih (by omega)).2 fun i hi =>
                hall (i + 1) (Nat.succ_le_succ hi)]

/-- What a reader finds of a written name: its bytes up to the first NUL. -/
def readName (name : String) : String := (fromUtf8 (untilNul (strBytes name))).getD ""

theorem readName_of_notMem {name : String} (h : 0 ∉ strBytes name) : readName name = name := by
  rw [readName, untilNul_of_notMem h, fromUtf8_strBytes, Option.getD_some]

theorem zero_notMem_name (data : List UInt8) (offset : ℕ) :
    0 ∉ strBytes (name data offset) := by
  unfold name get
  split
  · decide +kernel
  · cases h : fromUtf8 (untilNul (data.drop offset)) with
    | none => decide +kernel
    | some s =>
        rw [Option.getD_some, strBytes_of_fromUtf8 h]
        exact zero_notMem_untilNul _

end StringTable

end Elfex
