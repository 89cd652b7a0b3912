import Elfex.Foundation.Outcome
import Elfex.Foundation.Window

/-!
# Tables of fixed-width records

`chunks w l` cuts a string into its whole pieces of length `w`. A `RecordCodec` is a
writer and a reader of records of one width that are inverse on the values that fit
the record, and the laws lift to tables: a table of any length is read back as it was
written, and the bytes of a table are those its own entries write.
-/

namespace Foundation

variable {α β ε : Type*}

/-- The whole pieces of length `w`, in order. -/
def chunks (w : ℕ) (l : List α) : List (List α) :=
  (List.range (l.length / w)).map fun i => window l (i * w) w

theorem chunks_of_lt {w : ℕ} {l : List α} (h : l.length < w) : chunks w l = [] := by
  rw [chunks, Nat.div_eq_of_lt h]
  rfl

theorem chunks_append {w : ℕ} (hw : 0 < w) {bs : List α} (hbs : bs.length = w)
    (l : List α) : chunks w (bs ++ l) = bs :: chunks w l := by
  have hcount : (bs ++ l).length / w = l.length / w + 1 := by
    rw [List.length_append, hbs, Nat.add_div_left _ hw]
  rw [chunks, hcount, List.range_succ_eq_map, List.map_cons, List.map_map, chunks]
  congr 1
  · rw [Nat.zero_mul, window_append_left _ (by omega)]
    exact window_eq_self hbs
  · apply List.map_congr_left
    intro i _
    have hstep : (i + 1) * w = bs.length + i * w := by
      rw [hbs, Nat.add_mul, Nat.one_mul, Nat.add_comm]
    rw [Function.comp_apply, Nat.succ_eq_add_one, hstep, window_append_right]

theorem chunks_flatMap {w : ℕ} (hw : 0 < w) (f : β → List α) (l : List β)
    (hf : ∀ b ∈ l, (f b).length = w) : chunks w (l.flatMap f) = l.map f := by
  induction l with
  | nil => exact chunks_of_lt hw
  | cons b l ih =>
      rw [List.flatMap_cons, chunks_append hw (hf b List.mem_cons_self), List.map_cons,
        ih fun c hc => hf c (List.mem_cons_of_mem b hc)]

/-- A string of whole pieces is the sequence of its pieces. -/
theorem exists_flatten {w k : ℕ} {l : List α} (h : l.length = k * w) :
    ∃ pieces : List (List α), pieces.length = k ∧ (∀ p ∈ pieces, p.length = w) ∧
      pieces.flatMap id = l := by
  induction k generalizing l with
  | zero =>
      have hnil : l = [] := List.eq_nil_of_length_eq_zero (by omega)
      exact ⟨[], rfl, by simp, by simp [hnil]⟩
  | succ k ih =>
      rw [Nat.add_mul, Nat.one_mul] at h
      obtain ⟨pieces, hcount, hwidth, hall⟩ :=
        ih (l := l.drop w) (by rw [List.length_drop]; omega)
      refine ⟨l.take w :: pieces, by rw [List.length_cons, hcount], ?_, ?_⟩
      · intro p hp
        rcases List.mem_cons.1 hp with rfl | hp
        · rw [List.length_take]
          omega
        · exact hwidth p hp
      · rw [List.flatMap_cons, hall]
        exact List.take_append_drop w l

/-- Records of one width, and the values they carry exactly. -/
structure RecordCodec (ε : Type*) (α : Type*) where
  width : ℕ
  width_pos : 0 < width
  encode : α → List UInt8
  decode : List UInt8 → Outcome ε α
  Fits : α → Prop
  length_encode : ∀ a, (encode a).length = width
  decode_encode : ∀ a, Fits a → decode (encode a) = .ok a
  encode_decode : ∀ bs, bs.length = width → ∃ a, decode bs = .ok a ∧ Fits a ∧ encode a = bs

namespace RecordCodec

variable {α : Type} {ε : Type} (codec : RecordCodec ε α)

theorem chunks_encode (l : List α) :
    chunks codec.width (l.flatMap codec.encode) = l.map codec.encode :=
  chunks_flatMap codec.width_pos codec.encode l fun a _ => codec.length_encode a

/-- Reading a written table gives its entries back. -/
theorem mapM_decode_encode {l : List α} (h : ∀ a ∈ l, codec.Fits a) :
    (chunks codec.width (l.flatMap codec.encode)).mapM codec.decode = .ok l := by
  rw [chunks_encode]
  induction l with
  | nil => rfl
  | cons a l ih =>
      rw [List.map_cons, List.mapM_cons, codec.decode_encode a (h a List.mem_cons_self),
        Outcome.ok_bind, ih fun b hb => h b (List.mem_cons_of_mem a hb)]
      rfl

/-- Two records that decode alike are the same bytes. -/
theorem decode_inj {x y : List UInt8} (hx : x.length = codec.width)
    (hy : y.length = codec.width) : codec.decode x = codec.decode y ↔ x = y := by
  refine ⟨fun h => ?_, congrArg codec.decode⟩
  obtain ⟨a, ha, -, hax⟩ := codec.encode_decode x hx
  obtain ⟨b, hb, -, hby⟩ := codec.encode_decode y hy
  rw [ha, hb] at h
  rw [← hax, ← hby, Except.ok.inj h]

/-- A string of whole records is the table of the entries it holds. -/
theorem exists_table {data : List UInt8} (h : codec.width ∣ data.length) :
    ∃ l : List α, (∀ a ∈ l, codec.Fits a) ∧ l.flatMap codec.encode = data := by
  obtain ⟨k, hk⟩ := h
  obtain ⟨pieces, -, hwidth, rfl⟩ := exists_flatten (hk.trans (Nat.mul_comm _ _))
  clear hk
  induction pieces with
  | nil => exact ⟨[], by simp, by simp⟩
  | cons p pieces ih =>
      obtain ⟨l, hfits, hl⟩ := ih fun q hq => hwidth q (List.mem_cons_of_mem p hq)
      obtain ⟨a, -, hfit, hp⟩ := codec.encode_decode p (hwidth p List.mem_cons_self)
      refine ⟨a :: l, ?_, ?_⟩
      · rw [List.forall_mem_cons]
        exact ⟨hfit, hfits⟩
      · rw [List.flatMap_cons, List.flatMap_cons, hp, hl, id]

/-- Reading a string of whole records succeeds, with entries that write the string. -/
theorem mapM_decode_of_dvd {data : List UInt8} (h : codec.width ∣ data.length) :
    ∃ l : List α, (chunks codec.width data).mapM codec.decode = .ok l ∧
      (∀ a ∈ l, codec.Fits a) ∧ l.flatMap codec.encode = data := by
  obtain ⟨l, hfits, rfl⟩ := codec.exists_table h
  exact ⟨l, codec.mapM_decode_encode hfits, hfits, rfl⟩

end RecordCodec

end Foundation
