import Mathlib.Data.BitVec

/-!
# Handles, Types, Immediates and Values

The entities of the data-flow graph (`dfg.rs`) are small integer handles into per-function
arenas (`Value`, `Insn`, `Block`) and into the module-wide global-variable store
(`GlobalVariable`). Handles are compared by their index only.

The files that define the payloads of these handles (`types.rs`, `value.rs`,
`global_variable.rs`) are not part of the modelled sources; their shapes are taken from the
data model of the specification and kept to what the modelled functions read:

* `Ty` — the integer widths and pointers (the only types an instruction computes with);
* `Immediate` — a scalar integer of one of the supported widths, with its type `Immediate.ty`;
* `ValueData` — what a value is: an instruction result, a function argument, an immediate, or
  the address of a global;
* `GlobalVariableStore` — the symbol, type, constness and initialiser of each global, which
  `DataFlowGraph::make_global_value` and `DataFlowGraph::value_imm` read.
-/

namespace Sonatina

/-- An opaque reference to a value (`Value(u32)` in the arena of the data-flow graph). -/
@[ext] structure Value where
  index : Nat
  deriving DecidableEq, Repr

/-- An opaque reference to an instruction (`Insn(u32)`). -/
@[ext] structure Insn where
  index : Nat
  deriving DecidableEq, Repr

/-- An opaque reference to a basic block (`Block(u32)`); the block payload `BlockData` is
empty, so a block is its index. -/
@[ext] structure Block where
  index : Nat
  deriving DecidableEq, Repr

/-- An opaque reference to a global variable of the module. -/
structure GlobalVariable where
  index : Nat
  deriving DecidableEq, Repr

/-- Modelled from the spec: the type store is not among the modelled sources. The integer
widths and the pointer types; arrays, structs and function types are not read by any modelled
function. -/
inductive Ty where
  | i1
  | i8
  | i16
  | i32
  | i64
  | i128
  | i256
  | ptr (elem : Ty)
  deriving DecidableEq, Repr

/-- Modelled from the spec: an interned constant is a scalar integer of width up to 256 bits,
stored in two's complement. -/
inductive Immediate where
  | i1 (val : Bool)
  | i8 (val : BitVec 8)
  | i16 (val : BitVec 16)
  | i32 (val : BitVec 32)
  | i64 (val : BitVec 64)
  | i128 (val : BitVec 128)
  | i256 (val : BitVec 256)
  deriving DecidableEq, Repr

/-- Modelled from the spec: the type of an immediate is the width of its variant. -/
def Immediate.ty : Immediate → Ty
  | .i1 _ => .i1
  | .i8 _ => .i8
  | .i16 _ => .i16
  | .i32 _ => .i32
  | .i64 _ => .i64
  | .i128 _ => .i128
  | .i256 _ => .i256

/-- What a value is (`ValueData`): the result of an instruction, an argument of the function,
an interned immediate, or the address of a global variable; each carries its type. -/
inductive ValueData where
  | insn (insn : Insn) (ty : Ty)
  | arg (ty : Ty) (idx : Nat)
  | immediate (imm : Immediate) (ty : Ty)
  | global (gv : GlobalVariable) (ty : Ty)
  deriving DecidableEq, Repr

/-- The type carried by a value's data (the match of `DataFlowGraph::value_ty`). -/
def ValueData.ty : ValueData → Ty
  | .insn _ ty | .arg ty _ | .immediate _ ty | .global _ ty => ty

/-- Modelled from the spec: a constant initialiser of a global is an immediate or an
aggregate of constants. -/
inductive ConstantValue where
  | immediate (data : Immediate)
  | aggregate (elems : List ConstantValue)

/-- Modelled from the spec: the data of one global variable; its linkage is read by no modelled
function. -/
structure GlobalVariableData where
  symbol : String
  ty : Ty
  isConst : Bool
  data : Option ConstantValue

/-- Modelled from the spec: the module's global-variable store, indexed by `GlobalVariable`. -/
structure GlobalVariableStore where
  gvData : List GlobalVariableData

namespace GlobalVariableStore

/-- The type of a global (`GlobalVariableStore::ty`); `none` when the handle is not held,
where the arena index panics. -/
def ty (s : GlobalVariableStore) (gv : GlobalVariable) : Option Ty :=
  (s.gvData[gv.index]?).map GlobalVariableData.ty

/-- The scalar initialiser of a constant global: the part of `DataFlowGraph::value_imm` that
reads the store (`is_const`, then `init_data`, then the immediate case of the constant). -/
def constImm (s : GlobalVariableStore) (gv : GlobalVariable) : Option Immediate :=
  match s.gvData[gv.index]? with
  | some { isConst := true, data := some (.immediate data), .. } => some data
  | _ => none

end GlobalVariableStore

end Sonatina
