import Elfex.Image.Validate

/-!
# Reported overlaps

Overlaps are looked for between neighbours of the sorted ranges only. No overlap is missed,
since ranges that end before their neighbours start are in a row. A range without addresses
shares none, but is reported when its neighbour reaches over it.
-/

namespace Elfex

open Foundation

/-! ## The names in an issue -/

/-- The two loads an issue names, by their positions among the loads. -/
def overlapContext (i j : ℕ) : String := "segments " ++ toString i ++ " and " ++ toString j

theorem toDigits_inj {i j : ℕ} (h : Nat.toDigits 10 i = Nat.toDigits 10 j) : i = j := by
  have hread := fun n => Nat.ofDigitChars_toDigits (b := 10) (n := n) (by decide) (by decide)
  rw [← hread i, h, hread j]

theorem overlapContext_inj {i j i' j' : ℕ} (h : overlapContext i j = overlapContext i' j') :
    i = i' ∧ j = j' := by
  -- the only `a` behind the first word separates the two numbers
  have hsplit : ∀ i j, (overlapContext i j).toList = "segments ".toList ++
      ((Nat.toDigits 10 i ++ [' ']) ++ 'a' :: (['n', 'd', ' '] ++ Nat.toDigits 10 j)) := by
    intro i j
    simp [overlapContext]
  have hdigits : ∀ n, 'a' ∉ Nat.toDigits 10 n := fun n hmem =>
    absurd (Nat.isDigit_of_mem_toDigits (by decide) (by decide) hmem) (by decide)
  have hlists := congrArg String.toList h
  rw [hsplit, hsplit] at hlists
  obtain ⟨hi, -, hj⟩ := (List.append_cons_inj_of_notMem (by simp [hdigits])
    (by simp [hdigits])).1 (List.append_cancel_left hlists)
  exact ⟨toDigits_inj (List.append_cancel_right hi), toDigits_inj (List.append_cancel_left hj)⟩

/-! ## Ranges of loads -/

namespace Segment

/-- The end of the segment in memory is an address. -/
def Representable (segment : Segment) : Prop :=
  segment.header.vaddr.toNat + segment.header.memsz.toNat < 2 ^ 64

instance (segment : Segment) : Decidable segment.Representable :=
  inferInstanceAs (Decidable (_ < _))

end Segment

namespace LoadRange

theorem toNat_stop {segment : Segment} (h : segment.Representable) (i : ℕ) :
    (ofSegment segment i).stop.toNat =
      segment.header.vaddr.toNat + segment.header.memsz.toNat := by
  rw [ofSegment, toNat_saturatingAdd]
  exact Nat.min_eq_left (Nat.le_sub_one_of_lt h)

theorem start_le_stop (segment : Segment) (i : ℕ) :
    (ofSegment segment i).start.toNat ≤ (ofSegment segment i).stop.toNat := by
  have hlt := segment.header.vaddr.toNat_lt
  rw [ofSegment, toNat_saturatingAdd]
  dsimp only
  omega

instance : Std.Refl Le where
  refl a := by
    rw [le_iff]
    omega

/-- The first range ends before the second one starts. -/
def Precedes (a b : LoadRange) : Prop :=
  a.stop.toNat ≤ b.start.toNat ∧ b.start.toNat ≤ b.stop.toNat

instance : Trans Precedes Precedes Precedes where
  trans hab hbc := ⟨(hab.1.trans hab.2).trans hbc.1, hbc.2⟩

end LoadRange

namespace ElfImage

variable {image : ElfImage}

theorem mem_loadRanges {range : LoadRange} : range ∈ image.loadRanges ↔
    ∃ segment i, image.loads[i]? = some segment ∧ range = LoadRange.ofSegment segment i := by
  rw [loadRanges, (List.perm_insertionSort _ _).mem_iff, List.mem_map]
  constructor
  · rintro ⟨⟨segment, i⟩, hmem, rfl⟩
    exact ⟨segment, i, List.mem_zipIdx_iff_getElem?.1 hmem, rfl⟩
  · rintro ⟨segment, i, hget, rfl⟩
    exact ⟨(segment, i), List.mem_zipIdx_iff_getElem?.2 hget, rfl⟩

theorem start_le_stop_of_mem {range : LoadRange} (h : range ∈ image.loadRanges) :
    range.start.toNat ≤ range.stop.toNat := by
  obtain ⟨segment, i, -, rfl⟩ := mem_loadRanges.1 h
  exact LoadRange.start_le_stop segment i

theorem loadRanges_sorted (image : ElfImage) : image.loadRanges.Pairwise LoadRange.Le :=
  List.pairwise_insertionSort _ _

/-- Two ranges are those of loads at different positions. -/
theorem loadRanges_index_ne (image : ElfImage) :
    image.loadRanges.Pairwise fun a b => a.index ≠ b.index := by
  refine ((List.perm_insertionSort _ _).pairwise_iff fun {_ _} h => h.symm).2 ?_
  rw [List.pairwise_map]
  have hindices : (image.loads.zipIdx.map Prod.snd).Nodup := by
    rw [List.zipIdx_map_snd]
    exact List.nodup_range'
  exact List.pairwise_map.1 hindices

/-- An overlap is reported for two neighbours, with their names. -/
theorem mem_overlapIssues_iff {issue : ValidationIssue} : issue ∈ image.overlapIssues ↔
    ∃ pair ∈ image.loadRanges.zip image.loadRanges.tail,
      pair.2.start.toNat < pair.1.stop.toNat ∧
        issue = (ValidationIssue.error .overlappingSegments
          "two loadable segments overlap in memory").withContext
            (overlapContext pair.1.index pair.2.index) := by
  rw [overlapIssues, List.mem_filterMap]
  refine exists_congr fun pair => and_congr_right fun _ => ?_
  rw [LoadRange.overlapIssue, ← UInt64.lt_iff_toNat_lt]
  split_ifs with hlt
  · simp [hlt, overlapContext, eq_comm]
  · simp [hlt]

theorem code_of_mem_segmentIssues {segment : Segment} {i : ℕ} {issue : ValidationIssue}
    (h : issue ∈ segmentIssues segment i) : issue.code ≠ .overlappingSegments := by
  rw [segmentIssues, List.mem_append] at h
  rcases h with h | h <;> split_ifs at h
  · rw [List.mem_singleton.1 h]
    simp [ValidationIssue.error, ValidationIssue.withContext]
  · exact absurd h List.not_mem_nil
  · rw [List.mem_singleton.1 h]
    simp [ValidationIssue.warning, ValidationIssue.withContext]
  · exact absurd h List.not_mem_nil

/-- The issues of an overlap are those of the neighbours. -/
theorem mem_issues_overlapping {issue : ValidationIssue} :
    issue ∈ image.validate.issues ∧ issue.code = .overlappingSegments ↔
      issue ∈ image.overlapIssues := by
  have hloads : ∀ issue ∈ image.loadIssues, issue.code ≠ .overlappingSegments := by
    rw [loadIssues]
    split_ifs <;> simp [ValidationIssue.warning]
  have hentry : ∀ issue ∈ image.entryIssues, issue.code ≠ .overlappingSegments := by
    rw [entryIssues]
    split_ifs <;> simp [ValidationIssue.warning, ValidationIssue.withContext]
  have htable : ∀ issue ∈ image.stringTableIssues, issue.code ≠ .overlappingSegments := by
    rw [stringTableIssues]
    split_ifs <;> simp [ValidationIssue.warning]
  constructor
  · rintro ⟨hmem, hcode⟩
    simp only [validate, List.mem_append, List.mem_flatMap] at hmem
    rcases hmem with (((hmem | hmem) | hmem) | ⟨entry, -, hmem⟩) | hmem
    · exact absurd hcode (hloads issue hmem)
    · exact absurd hcode (hentry issue hmem)
    · exact hmem
    · exact absurd hcode (code_of_mem_segmentIssues hmem)
    · exact absurd hcode (htable issue hmem)
  · intro hmem
    refine ⟨?_, ?_⟩
    · simp only [validate, List.mem_append]
      exact Or.inl (Or.inl (Or.inr hmem))
    · obtain ⟨pair, -, -, rfl⟩ := mem_overlapIssues_iff.1 hmem
      rfl

/-! ## Overlaps among neighbours -/

/-- The loads at two different positions share an address. -/
def LoadsOverlap (image : ElfImage) (i j : ℕ) : Prop :=
  i ≠ j ∧ ∃ s t, image.loads[i]? = some s ∧ image.loads[j]? = some t ∧ s.Overlaps t

/-- An overlap is reported exactly when there is one, and every reported one names two
loads that overlap. -/
structure OverlapsExact (image : ElfImage) : Prop where
  reported : (∃ issue ∈ image.validate.issues, issue.code = .overlappingSegments) ↔
    ∃ i j, image.LoadsOverlap i j
  named : ∀ issue ∈ image.validate.issues, issue.code = .overlappingSegments →
    ∃ i j, issue.context = some (overlapContext i j) ∧ image.LoadsOverlap i j

/-- Of the loads that start below a load, one that starts last, and of those that start
there one that ends last. -/
structure LastBelow (image : ElfImage) (last segment : Segment) : Prop where
  mem : last ∈ image.loads
  below : last.header.vaddr < segment.header.vaddr
  last : ∀ load ∈ image.loads, load.header.vaddr < segment.header.vaddr →
    load.header.vaddr < last.header.vaddr ∨
      load.header.vaddr = last.header.vaddr ∧ load.header.memsz ≤ last.header.memsz

/-- Two neighbours, by the loads they are the ranges of. -/
structure Neighbours (image : ElfImage) (s t : Segment) (i j : ℕ) : Prop where
  pair : (LoadRange.ofSegment s i, LoadRange.ofSegment t j) ∈
    image.loadRanges.zip image.loadRanges.tail
  first : image.loads[i]? = some s
  second : image.loads[j]? = some t

theorem exists_neighbours {pair : LoadRange × LoadRange}
    (h : pair ∈ image.loadRanges.zip image.loadRanges.tail) :
    ∃ s t i j, image.Neighbours s t i j ∧
      pair = (LoadRange.ofSegment s i, LoadRange.ofSegment t j) := by
  obtain ⟨hfirst, hsecond⟩ := List.of_mem_zip h
  obtain ⟨s, i, hs, hi⟩ := mem_loadRanges.1 hfirst
  obtain ⟨t, j, ht, hj⟩ := mem_loadRanges.1 (List.mem_of_mem_tail hsecond)
  obtain rfl : pair = (_, _) := Prod.ext hi hj
  exact ⟨s, t, i, j, ⟨h, hs, ht⟩, rfl⟩

namespace Neighbours

variable {s t : Segment} {i j : ℕ}

theorem ne (h : image.Neighbours s t i j) : i ≠ j :=
  forall_zip_tail image.loadRanges_index_ne _ h.pair

/-- The first neighbour starts first, or both start together and it does not end last. -/
theorem sorted (h : image.Neighbours s t i j) (hs : s.Representable) (ht : t.Representable) :
    s.header.vaddr.toNat < t.header.vaddr.toNat ∨
      s.header.vaddr.toNat = t.header.vaddr.toNat ∧
        s.header.memsz.toNat ≤ t.header.memsz.toNat := by
  have hle := (LoadRange.le_iff _ _).1 (forall_zip_tail image.loadRanges_sorted _ h.pair)
  rw [LoadRange.toNat_stop hs, LoadRange.toNat_stop ht] at hle
  simp only [LoadRange.ofSegment] at hle
  omega

/-- A load comes no later than the first neighbour or no earlier than the second one. -/
theorem outside (h : image.Neighbours s t i j)
    (hall : ∀ segment ∈ image.loads, segment.Representable) {load : Segment}
    (hload : load ∈ image.loads) :
    (load.header.vaddr.toNat < s.header.vaddr.toNat ∨
      load.header.vaddr.toNat = s.header.vaddr.toNat ∧
        load.header.memsz.toNat ≤ s.header.memsz.toNat) ∨
    t.header.vaddr.toNat < load.header.vaddr.toNat ∨
      t.header.vaddr.toNat = load.header.vaddr.toNat ∧
        t.header.memsz.toNat ≤ load.header.memsz.toNat := by
  obtain ⟨k, hk⟩ := List.mem_iff_getElem?.1 hload
  have hside := rel_or_rel_of_neighbours image.loadRanges_sorted h.pair
    (mem_loadRanges.2 ⟨load, k, hk, rfl⟩)
  rw [LoadRange.le_iff, LoadRange.le_iff, LoadRange.toNat_stop (hall load hload),
    LoadRange.toNat_stop (hall s (List.mem_of_getElem? h.first)),
    LoadRange.toNat_stop (hall t (List.mem_of_getElem? h.second))] at hside
  simp only [LoadRange.ofSegment] at hside
  omega

/-- A neighbour with addresses that starts before the first one ends shares the first of
its addresses. -/
theorem loadsOverlap (h : image.Neighbours s t i j)
    (hall : ∀ segment ∈ image.loads, segment.Representable)
    (hover : t.header.vaddr.toNat < s.header.vaddr.toNat + s.header.memsz.toNat)
    (hpos : 0 < t.header.memsz.toNat) : image.LoadsOverlap i j := by
  have hsorted := h.sorted (hall s (List.mem_of_getElem? h.first))
    (hall t (List.mem_of_getElem? h.second))
  exact ⟨h.ne, s, t, h.first, h.second, t.header.vaddr.toNat, ⟨by omega, hover⟩,
    ⟨Nat.le_refl _, Nat.lt_add_of_pos_right hpos⟩⟩

/-- The first of two neighbours is the load last below the second one, if it starts below
it. -/
theorem lastBelow (h : image.Neighbours s t i j)
    (hall : ∀ segment ∈ image.loads, segment.Representable)
    (hbelow : s.header.vaddr.toNat < t.header.vaddr.toNat) : image.LastBelow s t where
  mem := List.mem_of_getElem? h.first
  below := UInt64.lt_iff_toNat_lt.2 hbelow
  last load hload hlt := by
    have hside := h.outside hall hload
    rw [UInt64.lt_iff_toNat_lt, ← UInt64.toNat_inj, UInt64.le_iff_toNat_le]
    rw [UInt64.lt_iff_toNat_lt] at hlt
    omega

end Neighbours

/-- A load without addresses comes behind the load last below it, up to loads like it. -/
theorem LastBelow.exists_neighbours {empty last : Segment}
    (h : image.LastBelow last empty)
    (hall : ∀ segment ∈ image.loads, segment.Representable) (hmem : empty ∈ image.loads)
    (hempty : empty.header.memsz = 0) :
    ∃ s t i j, image.Neighbours s t i j ∧
      t.header.vaddr.toNat = empty.header.vaddr.toNat ∧ t.header.memsz.toNat = 0 ∧
      last.header.vaddr.toNat + last.header.memsz.toNat ≤
        s.header.vaddr.toNat + s.header.memsz.toNat := by
  obtain ⟨k, hk⟩ := List.mem_iff_getElem?.1 h.mem
  obtain ⟨m, hm⟩ := List.mem_iff_getElem?.1 hmem
  obtain ⟨pair, hpair, hbelow, habove⟩ := exists_border
    (p := fun range => range.start < empty.header.vaddr) image.loadRanges_sorted
    (fun a b hle hlt => by
      rw [LoadRange.le_iff] at hle
      rw [UInt64.lt_iff_toNat_lt] at hlt ⊢
      omega)
    (mem_loadRanges.2 ⟨last, k, hk, rfl⟩) h.below
    (mem_loadRanges.2 ⟨empty, m, hm, rfl⟩) (UInt64.lt_irrefl _)
  obtain ⟨s, t, i, j, hneighbours, rfl⟩ := ElfImage.exists_neighbours hpair
  simp only [LoadRange.ofSegment, UInt64.lt_iff_toNat_lt] at hbelow habove
  have hzero : empty.header.memsz.toNat = 0 := by rw [hempty]; rfl
  have hlast := hneighbours.outside hall h.mem
  have hthis := hneighbours.outside hall hmem
  have hfirst := h.last s (List.mem_of_getElem? hneighbours.first)
    (UInt64.lt_iff_toNat_lt.2 hbelow)
  have hlt := UInt64.lt_iff_toNat_lt.1 h.below
  rw [UInt64.lt_iff_toNat_lt, ← UInt64.toNat_inj, UInt64.le_iff_toNat_le] at hfirst
  exact ⟨s, t, i, j, hneighbours, by omega, by omega, by omega⟩

/-- No load without addresses lies inside the load last below it. -/
def EmptyLoadsClear (image : ElfImage) : Prop :=
  ∀ empty ∈ image.loads, empty.header.memsz = 0 → ∀ last, image.LastBelow last empty →
    last.header.vaddr.toNat + last.header.memsz.toNat ≤ empty.header.vaddr.toNat

/-- If no load without addresses lies inside the load last below it, a range shares an
address with its neighbour when that one starts before its end. -/
theorem EmptyLoadsClear.loadsOverlap (hclear : image.EmptyLoadsClear)
    (hall : ∀ segment ∈ image.loads, segment.Representable) {pair : LoadRange × LoadRange}
    (hpair : pair ∈ image.loadRanges.zip image.loadRanges.tail)
    (hover : pair.2.start.toNat < pair.1.stop.toNat) :
    image.LoadsOverlap pair.1.index pair.2.index := by
  obtain ⟨s, t, i, j, h, rfl⟩ := exists_neighbours hpair
  have hs := hall s (List.mem_of_getElem? h.first)
  have ht := hall t (List.mem_of_getElem? h.second)
  rw [LoadRange.toNat_stop hs] at hover
  rcases Nat.eq_zero_or_pos t.header.memsz.toNat with hzero | hpos
  · have hsorted := h.sorted hs ht
    have hover' : t.header.vaddr.toNat <
        s.header.vaddr.toNat + s.header.memsz.toNat := hover
    have hstop := hclear t (List.mem_of_getElem? h.second) (UInt64.toNat_inj.1 hzero) s
      (h.lastBelow hall (by omega))
    omega
  · exact h.loadsOverlap hall hover hpos

/-- Loads whose sorted ranges end before their neighbours start do not overlap. -/
theorem not_loadsOverlap (hall : ∀ segment ∈ image.loads, segment.Representable)
    (h : ∀ pair ∈ image.loadRanges.zip image.loadRanges.tail,
      pair.1.stop.toNat ≤ pair.2.start.toNat) (i j : ℕ) : ¬image.LoadsOverlap i j := by
  have hrow : image.loadRanges.Pairwise LoadRange.Precedes :=
    pairwise_of_zip_tail fun pair hpair =>
      ⟨h pair hpair,
        start_le_stop_of_mem (List.mem_of_mem_tail (List.of_mem_zip hpair).2)⟩
  have : Std.Symm fun a b : LoadRange =>
      a.stop.toNat ≤ b.start.toNat ∨ b.stop.toNat ≤ a.start.toNat := ⟨fun _ _ => Or.symm⟩
  have hapart : image.loadRanges.Pairwise fun a b =>
      a.stop.toNat ≤ b.start.toNat ∨ b.stop.toNat ≤ a.start.toNat :=
    hrow.imp fun hab => Or.inl hab.1
  rintro ⟨hne, s, t, hs, ht, address, hfirst, hsecond⟩
  have hranges := hapart.forall (mem_loadRanges.2 ⟨s, i, hs, rfl⟩)
    (mem_loadRanges.2 ⟨t, j, ht, rfl⟩) fun heq => hne (congrArg LoadRange.index heq)
  rw [LoadRange.toNat_stop (hall s (List.mem_of_getElem? hs)),
    LoadRange.toNat_stop (hall t (List.mem_of_getElem? ht))] at hranges
  simp only [LoadRange.ofSegment] at hranges
  obtain ⟨hfirst, hfirst'⟩ := hfirst
  obtain ⟨hsecond, hsecond'⟩ := hsecond
  omega

/-- The reported overlaps are exact exactly when no load without addresses lies inside the
load last below it. -/
theorem overlapsExact_iff (hall : ∀ segment ∈ image.loads, segment.Representable) :
    image.OverlapsExact ↔ image.EmptyLoadsClear := by
  constructor
  · intro hexact empty hmem hempty last hlast
    by_contra hover
    obtain ⟨s, t, i, j, hneighbours, hstart, hzero, hstop⟩ :=
      hlast.exists_neighbours hall hmem hempty
    have hreported := mem_overlapIssues_iff.2 ⟨_, hneighbours.pair, by
      rw [LoadRange.toNat_stop (hall s (List.mem_of_getElem? hneighbours.first))]
      simp only [LoadRange.ofSegment]
      omega, rfl⟩
    obtain ⟨hissue, hcode⟩ := mem_issues_overlapping.2 hreported
    obtain ⟨i', j', hcontext, -, s', t', -, ht', address, -, haddress⟩ :=
      hexact.named _ hissue hcode
    obtain ⟨-, rfl⟩ := overlapContext_inj (Option.some.inj hcontext)
    obtain rfl : t = t' := Option.some.inj (hneighbours.second.symm.trans ht')
    exact Segment.not_covers hzero address haddress
  · intro hclear
    have hnamed : ∀ issue ∈ image.validate.issues, issue.code = .overlappingSegments →
        ∃ i j, issue.context = some (overlapContext i j) ∧ image.LoadsOverlap i j := by
      intro issue hissue hcode
      obtain ⟨pair, hpair, hover, rfl⟩ :=
        mem_overlapIssues_iff.1 (mem_issues_overlapping.1 ⟨hissue, hcode⟩)
      exact ⟨_, _, rfl, hclear.loadsOverlap hall hpair hover⟩
    refine ⟨⟨?_, ?_⟩, hnamed⟩
    · rintro ⟨issue, hissue, hcode⟩
      obtain ⟨i, j, -, hoverlap⟩ := hnamed issue hissue hcode
      exact ⟨i, j, hoverlap⟩
    · rintro ⟨i, j, hoverlap⟩
      by_contra hnone
      refine not_loadsOverlap hall (fun pair hpair => Nat.not_lt.1 fun hover => ?_) i j hoverlap
      obtain ⟨hissue, hcode⟩ :=
        mem_issues_overlapping.2 (mem_overlapIssues_iff.2 ⟨pair, hpair, hover, rfl⟩)
      exact hnone ⟨_, hissue, hcode⟩

end ElfImage

/-- A load of sixteen addresses from `0x1000` on, and one without addresses. -/
def nestedLoadFile (vaddr : UInt64) : List UInt8 :=
  { smallHeader with phnum := 2, shoff := 0, shnum := 0, shstrndx := 0 }.write ++
    { smallLoad with vaddr := 0x1000, filesz := 0, memsz := 16 }.write .little .elf64 ++
    { smallLoad with vaddr, filesz := 0, memsz := 0 }.write .little .elf64

/-- Behind the other load, the empty one is not reported. -/
theorem nestedLoadFile_exact : (imageOf (nestedLoadFile 0x1010)).OverlapsExact := by
  refine (ElfImage.overlapsExact_iff (by decide +kernel)).2 fun empty hmem hempty last hlast => ?_
  have hends : ∀ empty ∈ (imageOf (nestedLoadFile 0x1010)).loads, empty.header.memsz = 0 →
      ∀ last ∈ (imageOf (nestedLoadFile 0x1010)).loads,
        last.header.vaddr < empty.header.vaddr →
        last.header.vaddr.toNat + last.header.memsz.toNat ≤ empty.header.vaddr.toNat := by
    decide +kernel
  exact hends empty hmem hempty last hlast.mem hlast.below

/-- Inside it, the empty one is reported although it has no address. -/
theorem nestedLoadFile_reported : ∃ image, ElfImage.parse (nestedLoadFile 0x1008) = .ok image ∧
    (∀ segment ∈ image.loads, segment.Representable) ∧
    image.overlapIssues.map ValidationIssue.context = [some "segments 0 and 1"] ∧
    ¬image.OverlapsExact := by
  obtain ⟨image, himage⟩ := Outcome.exists_of_isOk
    (show (ElfImage.parse (nestedLoadFile 0x1008)).isOk = true by decide +kernel)
  have hdescribed := ((parse_eq_ok (by decide +kernel)).1 himage).2
  refine ⟨image, himage, ?_⟩
  rw [← hdescribed]
  have hcount : (imageOf (nestedLoadFile 0x1008)).loads.length = 2 := by decide +kernel
  have hempty : ((imageOf (nestedLoadFile 0x1008)).loads[1]?).map
      (fun segment => segment.header.memsz.toNat) = some 0 := by decide +kernel
  refine ⟨by decide +kernel, by decide +kernel, fun hexact => ?_⟩
  obtain ⟨i, j, hne, s, t, hs, ht, address, hfirst, hsecond⟩ :=
    hexact.reported.1 (by decide +kernel)
  have hi := (List.getElem?_eq_some_iff.1 hs).1
  have hj := (List.getElem?_eq_some_iff.1 ht).1
  obtain rfl | rfl : i = 1 ∨ j = 1 := by omega
  · have hzero : s.header.memsz.toNat = 0 := by simpa [hs] using hempty
    exact Segment.not_covers hzero address hfirst
  · have hzero : t.header.memsz.toNat = 0 := by simpa [ht] using hempty
    exact Segment.not_covers hzero address hsecond

end Elfex
