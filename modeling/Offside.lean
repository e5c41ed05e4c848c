import Offside.Embedding
import Offside.Main
import Offside.Proofs.BlockPlacement
import Offside.Proofs.Build
import Offside.Proofs.Concatenation
import Offside.Proofs.Containment
import Offside.Proofs.Entries
import Offside.Proofs.Failure
import Offside.Proofs.JsonForm
import Offside.Proofs.JsonOrder
import Offside.Proofs.LineDiagnostics
import Offside.Proofs.Noise
import Offside.Proofs.Offsets
import Offside.Proofs.Pages
import Offside.Proofs.Regions
import Offside.Proofs.Relayout
import Offside.Proofs.SelectorScan
import Offside.Proofs.Shorthand
import Offside.Proofs.TagForm
import Offside.Proofs.TagRecords
import Offside.Proofs.TagWord
import Offside.Proofs.VoidStyles
import Offside.Proofs.WideBlanks
