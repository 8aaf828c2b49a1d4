import Wacc.Main
import Wacc.Proofs.Arm.Balance
import Wacc.Proofs.Control.Declared
import Wacc.Proofs.Typing.Plan
import Wacc.Proofs.Typing.Compatible
import Wacc.Proofs.Compile.Points
import Wacc.Proofs.Machine.Memory
import Wacc.Proofs.Arm.Moves
import Wacc.Proofs.Table.Resolution
import Wacc.Proofs.Returns.Order
import Wacc.Proofs.Arm.Paths
import Wacc.Proofs.Arm.Weight
import Wacc.Proofs.Tree.Limits
import Wacc.Proofs.Token.Layout
import Wacc.Proofs.Source.Position
import Wacc.Proofs.Compile.Nesting
import Wacc.Proofs.Typing.Flattened
