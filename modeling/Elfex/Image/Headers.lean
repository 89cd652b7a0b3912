import Elfex.Foundation.Extent
import Elfex.Image.Grammar

/-!
# Strings that hold written headers

A string that starts with a written file header and holds a written program header table
where the header says describes those headers, whatever else it holds.
-/

namespace Elfex

open Foundation

variable {d : List UInt8}

/-- A string that starts with a written identification describes it. -/
theorem identOf_written {ident : ElfIdent} (h : window d 0 16 = ident.toBytes) :
    d.take 4 = elfMagic ∧ (d.getD 4 0 = 1 ∨ d.getD 4 0 = 2) ∧
      (d.getD 5 0 = 1 ∨ d.getD 5 0 = 2) ∧ identOf d = ident := by
  obtain ⟨hident, htake, hclass, hdata⟩ := identOf_window d
  have hparse := (ElfIdent.parse_decides (window d 0 16)).eq_ok_iff ident
  rw [hident, htake, hclass, hdata] at hparse
  rcases hparse.1 (by rw [h, ElfIdent.parse_toBytes]) with ⟨⟨hmagic, hclass, hdata⟩, hident⟩
  exact ⟨hmagic, hclass, hdata, hident⟩

section FileHeader

variable {header : ElfHeader}
  (h : window d 0 (ElfHeader.size header.ident.elfClass).toNat = header.write)

include h

/-- A written file header starts the string with its identification. -/
theorem window_ident_written : window d 0 16 = header.ident.toBytes := by
  have hsize := sixteen_le_size header.ident.elfClass
  rw [← ElfHeader.window_write_ident, ← h, window_window d (by omega)]

/-- A string that starts with a written file header describes what the widths of the
class keep of it. -/
theorem headerOf_written : headerOf d = header.narrow := by
  have hident := (identOf_written (window_ident_written h)).2.2.2
  rw [headerOf, hident, h, ElfHeader.decode_write]

end FileHeader

/-- A string that holds a program header table written in some byte order describes what
the announced one makes of its entries. -/
theorem programHeadersOf_encoded {headers : List ProgramHeader} {written : Endian}
    (hcount : (headerOf d).phnum.toNat = headers.length)
    (hheld : Extent.Held ⟨(headerOf d).phoff.toNat,
      headers.flatMap fun phdr => phdr.write written (identOf d).elfClass⟩ d) :
    (∀ i < (headerOf d).phnum.toNat,
      programHeaderStart d i + (ProgramHeader.size (identOf d).elfClass).toNat ≤ d.length) ∧
      programHeadersOf d = headers.map fun phdr =>
        ProgramHeader.decode (identOf d).data (identOf d).elfClass
          (phdr.write written (identOf d).elfClass) := by
  have hrecord := fun (i : ℕ) (hi : i < headers.length) =>
    hheld.record (fun _ _ => ProgramHeader.length_write _ _ _) hi
  refine ⟨fun i hi => (hrecord i (hcount ▸ hi)).1, ?_⟩
  apply List.ext_getElem
  · simp [programHeadersOf, hcount]
  · intro i hi _
    have hi' : i < headers.length := by simpa [programHeadersOf, hcount] using hi
    simp only [programHeadersOf, List.getElem_map, List.getElem_range, programHeaderAt,
      programHeaderStart]
    rw [(hrecord i hi').2]

/-- A string that holds a written program header table describes what the widths of the
class keep of its entries. -/
theorem programHeadersOf_written {headers : List ProgramHeader}
    (hcount : (headerOf d).phnum.toNat = headers.length)
    (hheld : Extent.Held ⟨(headerOf d).phoff.toNat,
      headers.flatMap fun phdr => phdr.write (identOf d).data (identOf d).elfClass⟩ d) :
    programHeadersOf d = headers.map fun phdr => phdr.narrow (identOf d).elfClass := by
  simp only [(programHeadersOf_encoded hcount hheld).2, ProgramHeader.decode_write]

end Elfex
