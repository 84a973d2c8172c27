import Grf.Main
import Grf.Proofs.Conditional.Branches
import Grf.Proofs.Conditional.Loop
import Grf.Text.Ansi
import Grf.Proofs.Conditional.Together
import Grf.Proofs.Conditional.Interference
import Grf.Proofs.Build
import Grf.Proofs.Lowering.GivenBack
import Grf.Proofs.Finalize.Loops
import Grf.Proofs.Conditional.SpriteSets
import Grf.Proofs.Expr.Rewriting
import Grf.Proofs.Registry.Order
import Grf.Proofs.Expr.Widths
import Grf.Proofs.Table.Linked
import Grf.Proofs.Table.Stream
import Grf.Proofs.Skip.Partition
import Grf.Proofs.Lowering.Decided
import Grf.Proofs.Record.Fields
import Grf.Proofs.Lowering.Texts
import Grf.Proofs.Table.StringIds
import Grf.Proofs.Table.Ranges
import Grf.Proofs.Lowering.Agreement
import Grf.Proofs.Pool.Unique
import Grf.Proofs.Pool.Scopes
import Grf.Proofs.Cache.Keys
import Grf.Proofs.Cache.Contents
import Grf.Proofs.StringTable.Names
import Grf.Proofs.Output.Closing
import Grf.Proofs.Lowering.Computes
import Grf.Proofs.Lowering.Operands
