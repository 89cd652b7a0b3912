import Elfex.Foundation.Outcome
import Elfex.Foundation.Reaching
import Elfex.Foundation.ByteOrder
import Elfex.Foundation.Window
import Elfex.Foundation.Codec
import Elfex.Foundation.Memory
import Elfex.Foundation.Word
import Elfex.Foundation.Extrema
import Elfex.Foundation.Extent
import Elfex.Foundation.Overlay
import Elfex.Foundation.Layer
import Elfex.Foundation.Patches
import Elfex.Foundation.Painting
import Elfex.Foundation.Slot
import Elfex.Foundation.Moved
import Elfex.Foundation.Carry
import Elfex.Foundation.Neighbours
import Elfex.Foundation.Register
import Elfex.Format.Ident
import Elfex.Format.Reader
import Elfex.Format.Program
import Elfex.Format.Header
import Elfex.Format.HeaderCodec
import Elfex.Format.Fields
import Elfex.Format.Strtab
import Elfex.Format.Notes
import Elfex.Format.NoteWalk
import Elfex.Format.SymbolCodec
import Elfex.Image.Basic
import Elfex.Image.Build
import Elfex.Image.Parse
import Elfex.Image.Grammar
import Elfex.Image.Headers
import Elfex.Image.Placement
import Elfex.Image.Geometry
import Elfex.Image.Built
import Elfex.Image.Names
import Elfex.Image.Reparse
import Elfex.Image.Layout
import Elfex.Image.MappedGrammar
import Elfex.Image.Regular
import Elfex.Image.Inspect
import Elfex.Image.Rebuild
import Elfex.Image.Projection
import Elfex.Image.Whole
import Elfex.Image.Edit
import Elfex.Image.ReadBack
import Elfex.Image.Views
import Elfex.Image.Saved
import Elfex.Image.Mapped
import Elfex.Image.Source
import Elfex.Image.Translation
import Elfex.Image.SectionTable
import Elfex.Image.Layers
import Elfex.Image.Loaded
import Elfex.Image.Validate
import Elfex.Image.Remapped
import Elfex.Image.Relocated
import Elfex.Image.Rebased
import Elfex.Image.PointerWidth
import Elfex.Image.PlacedAgain
import Elfex.Image.Coincide
import Elfex.Image.Rebases
import Elfex.Image.ProgramTable
import Elfex.Image.Edits
import Elfex.Image.InPlace
import Elfex.Image.Narrowing
import Elfex.Image.Stride
import Elfex.Image.Overlap
import Elfex.Image.LoaderView
import Elfex.Image.WriteRun
import Elfex.Image.MappedRun
import Elfex.Image.SavedRun
import Elfex.Image.ReadRun
import Elfex.Image.Dumped
import Elfex.Image.Serialized
import Elfex.Image.PatchedFile
import Elfex.Image.SavedTables
import Elfex.Image.EditedViews
import Elfex.Image.Verdict
import Elfex.File
import Elfex.Trailing
import Elfex.Faults
import Elfex.FileRun
import Elfex.Consumed
import Elfex.Builder.Serialize
import Elfex.Builder.Build
import Elfex.Builder.MappedLoads
import Elfex.Builder.RelaCodec
import Elfex.Builder.NoteCodec
import Elfex.Builder.DynamicCodec
import Elfex.Builder.DynamicLookup
import Elfex.Builder.Faithful
import Elfex.Builder.Valid
import Elfex.Builder.Edited
import Elfex.Builder.RelaLimits
import Elfex.Builder.Metadata
import Elfex.Builder.Calls
