import WatchExpr.Editor.Workspace
import WatchExpr.Service.Server
import WatchExpr.Main
import WatchExpr.Proofs.Debug.Storage
import WatchExpr.Proofs.Debug.WellFoundedness
import WatchExpr.Proofs.Evaluation.Transparency
import WatchExpr.Proofs.Expression.RoundTrip
import WatchExpr.Proofs.Lowering.Explained
import WatchExpr.Proofs.Lowering.IntegerResults
import WatchExpr.Proofs.Lowering.NarrowResults
import WatchExpr.Proofs.Machine.Bounds
import WatchExpr.Proofs.Machine.Capacity
import WatchExpr.Proofs.Lexical.Respacing
import WatchExpr.Proofs.Lexical.Tiling
import WatchExpr.Proofs.Text.Digits
import WatchExpr.Proofs.Types.ReadBack
import WatchExpr.Proofs.Wire.StoredPrograms
import WatchExpr.Proofs.Machine.Boundaries
import WatchExpr.Proofs.Tree.JumpLimit
import WatchExpr.Proofs.Machine.FloatingZero
import WatchExpr.Proofs.Tree.Operands
import WatchExpr.Proofs.Lowering.Selection
import WatchExpr.Proofs.Lowering.ValueCode
import WatchExpr.Proofs.Lowering.Renumbering
import WatchExpr.Proofs.Lowering.Addressing
import WatchExpr.Proofs.Expression.Deepening
import WatchExpr.Proofs.Expression.CursorBounds
import WatchExpr.Proofs.Expression.Enclosing
import WatchExpr.Proofs.Lowering.Offsets
import WatchExpr.Proofs.Debug.MemberBounds
import WatchExpr.Proofs.Lowering.PointerResults
import WatchExpr.Proofs.Types.Structure
import WatchExpr.Proofs.Evaluation.RegisterNames
import WatchExpr.Proofs.Lowering.SymbolLocations
import WatchExpr.Proofs.Types.Matching
import WatchExpr.Proofs.Machine.Walking
import WatchExpr.Proofs.Types.Underlying
import WatchExpr.Proofs.Evaluation.IntegerLiterals
