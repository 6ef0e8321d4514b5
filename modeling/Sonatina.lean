import Sonatina.Ir.Value
import Sonatina.Ir.Insn
import Sonatina.Ir.Dfg
import Sonatina.Ir.Run
import Sonatina.Ir.Users
import Sonatina.Ir.BranchDest
import Sonatina.Ir.Sound
import Sonatina.Ir.Undo
import Sonatina.Ir.Interning
import Sonatina.Ir.Results
import Sonatina.Ir.Types
import Sonatina.Ir.Phi
import Sonatina.Ir.Layout
import Sonatina.Ir.Function
import Sonatina.Builder.FuncBuilder
import Sonatina.Builder.Preds
import Sonatina.Builder.Results
import Sonatina.Builder.Graph
import Sonatina.Builder.Order
import Sonatina.Builder.Seal
import Sonatina.Builder.Types
import Sonatina.Module.FuncStore
import Sonatina.Module.ModuleBuilder
import Sonatina.Module.Declare
