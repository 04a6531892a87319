import Offside.Main
import Offside.Proofs.Bytes.Cutting
import Offside.Proofs.Bytes.Numbering
import Offside.Proofs.Command.Agreement
import Offside.Proofs.Layout.Cover
import Offside.Proofs.Layout.Exchange
import Offside.Proofs.Layout.LastLine
import Offside.Proofs.Layout.Margin
import Offside.Proofs.Layout.Pushes
import Offside.Proofs.Normalize.BlankLines
import Offside.Proofs.Normalize.Content
import Offside.Proofs.Normalize.Ending
import Offside.Proofs.Normalize.Faults
import Offside.Proofs.Normalize.Idempotence
import Offside.Proofs.Normalize.LineEndings
import Offside.Proofs.Normalize.Partition
import Offside.Proofs.Normalize.Placement
import Offside.Proofs.Normalize.Ranges
import Offside.Proofs.Normalize.Removal
import Offside.Proofs.Normalize.Separators
import Offside.Proofs.Normalize.Tokens
import Offside.Proofs.Settings.Precedence
import Offside.Proofs.Statement.Comments
import Offside.Proofs.Statement.Fault
import Offside.Proofs.Statement.Grammar
import Offside.Proofs.Statement.Laminar
import Offside.Proofs.Statement.Runs
