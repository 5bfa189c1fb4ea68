import ViewCompiler.Convert.Script.Reader
import ViewCompiler.Files.Tree
import ViewCompiler.Main
import ViewCompiler.Proofs.Convert.Clashes
import ViewCompiler.Proofs.Convert.Elements
import ViewCompiler.Proofs.Convert.Faithful
import ViewCompiler.Proofs.Convert.FilePaths
import ViewCompiler.Proofs.Convert.ImageReports
import ViewCompiler.Proofs.Convert.InOrder
import ViewCompiler.Proofs.Convert.Isolated
import ViewCompiler.Proofs.Convert.Readable
import ViewCompiler.Proofs.Convert.Referenced
import ViewCompiler.Proofs.Convert.Tallied
import ViewCompiler.Proofs.Convert.ViewNames
import ViewCompiler.Proofs.Convert.Ways
import ViewCompiler.Proofs.Convert.Wiring
import ViewCompiler.Proofs.Files.Confinement
import ViewCompiler.Proofs.Layout.Ascents
import ViewCompiler.Proofs.Layout.Branched
import ViewCompiler.Proofs.Layout.Edits
import ViewCompiler.Proofs.Layout.Flattened
import ViewCompiler.Proofs.Layout.Floats
import ViewCompiler.Proofs.Layout.GridRows
import ViewCompiler.Proofs.Layout.Justified
import ViewCompiler.Proofs.Layout.Layering
import ViewCompiler.Proofs.Layout.Linked
import ViewCompiler.Proofs.Layout.Placement
import ViewCompiler.Proofs.Layout.RenderDepths
import ViewCompiler.Proofs.Layout.StyleReports
import ViewCompiler.Proofs.Layout.Walks
import ViewCompiler.Proofs.Resource.Arrays
import ViewCompiler.Proofs.Resource.InputOrder
import ViewCompiler.Proofs.Resource.Interning
import ViewCompiler.Proofs.Resource.LegalNames
import ViewCompiler.Proofs.Resource.NameSearch
import ViewCompiler.Proofs.Resource.StringFiles
import ViewCompiler.Proofs.Resource.Unsplit
import ViewCompiler.Proofs.Snapshot
import ViewCompiler.Proofs.Style.Accessors
import ViewCompiler.Proofs.Style.Gradients
import ViewCompiler.Proofs.Style.HexColors
import ViewCompiler.Proofs.Template.AnyOrder
import ViewCompiler.Proofs.Template.Lossless
import ViewCompiler.Proofs.Template.Nesting
import ViewCompiler.Proofs.Template.SavedOrders
