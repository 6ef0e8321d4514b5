import Sonatina.Ir.Function
import Sonatina.Ir.Run

/-!
# The Function Builder

`FunctionBuilder` (`func_builder.rs`) wraps a function, a cursor location and an SSA builder. Its
instruction constructors all go through `insert_insn`: push the instruction, put it into the
layout at the cursor, push and attach its result if it has one, and move the cursor to it. The
terminators `jump`, `br` and `br_table` first read the block the cursor is in and record it, in
the SSA builder, as a predecessor of each destination, one `append_pred` per destination
occurrence.

The model is of a debug build: a failed `debug_assert!`, an `unwrap` of `None` and an indexing
panic all make a call return `none`. The macros `impl_unary_insn!`, `impl_binary_insn!` and
`impl_cast_insn!` are one definition each (`unaryInsn`, `binaryInsn`, `castInsn`), and each method
they generate is that definition at its opcode; the memory and storage loads and stores are
`loadInsn` and `storeInsn` at their location.

Of the SSA builder (`ssa.rs`, not among the modelled sources) only what the function builder
writes and reads is modelled: the predecessor edges, kept in the order `append_pred` received
them, and the set of sealed blocks. Variables, sealing and phi placement are not modelled.

A run is a sequence of builder calls (`BuilderCall`) from `FunctionBuilder::new`: every public
call but `declare_var`, `use_var` and `def_var`. These three run the SSA construction of `ssa.rs`,
which places phis in blocks, completes them when a block is sealed and aliases trivial ones away;
its code is not among the sources, so the variable calls are left out, and every result about
reachable builders is about runs that use no variables.

## Main results

* `insertInsn_eq_some`: what `insert_insn` does, as the three cursor steps it makes.
* `call_cases`: every call is a frame step or goes through `insert_insn` once.
* `Reachable.layoutSound`: every reachable builder keeps its layout well formed.
* `Reachable.of_runCalls`: a run that does not panic reaches a reachable builder.
-/

namespace Sonatina

/-- Modelled from the spec: the predecessor edges and sealed blocks of the SSA builder
(`SsaBuilder`). An edge `(dest, pred)` is one call `append_pred(dest, pred)`. -/
structure SsaBuilder where
  predEdges : List (Block × Block)
  sealed : Finset Block

namespace SsaBuilder

/-- A new SSA builder (`SsaBuilder::new`). -/
def new : SsaBuilder :=
  ⟨[], ∅⟩

/-- Whether a block is sealed (`is_sealed`). -/
def isSealed (ssa : SsaBuilder) (block : Block) : Bool :=
  decide (block ∈ ssa.sealed)

/-- Record `pred` as a predecessor of `dest` (`append_pred`); appending to a sealed block is a
failed debug assertion. -/
def appendPred (ssa : SsaBuilder) (dest pred : Block) : Option SsaBuilder :=
  if ssa.isSealed dest then none
  else some { ssa with predEdges := ssa.predEdges ++ [(dest, pred)] }

end SsaBuilder

/-- The `(destination, block)` pairs of a branch placed in `block`, one per destination
occurrence. -/
def BranchInfo.edgesFrom (info : BranchInfo) (block : Block) : List (Block × Block) :=
  info.iterDests.map fun dest => (dest, block)

/-- The function builder (`FunctionBuilder`); the target descriptor it holds is read by no
modelled method and is left out. -/
structure FunctionBuilder where
  func : Function
  loc : CursorLocation
  ssaBuilder : SsaBuilder

namespace FunctionBuilder

/-- A builder for a new function, with the cursor nowhere (`FunctionBuilder::new`). -/
def new (sig : Signature) : FunctionBuilder :=
  ⟨Function.new sig, .noWhere, SsaBuilder.new⟩

/-- Make a block and append it to the layout (`append_block`). -/
def appendBlock (fb : FunctionBuilder) : Option (FunctionBuilder × Block) :=
  let (dfg, block) := fb.func.dfg.makeBlock
  (fb.func.layout.appendBlock block).map fun layout =>
    ({ fb with func := { fb.func with dfg, layout } }, block)

/-- Move the cursor to the bottom of a block (`switch_to_block`). -/
def switchToBlock (fb : FunctionBuilder) (block : Block) : FunctionBuilder :=
  { fb with loc := .blockBottom block }

/-- Intern an immediate in the function's graph (`make_imm_value`). -/
def makeImmValue (fb : FunctionBuilder) (imm : Immediate) : FunctionBuilder × Value :=
  let (dfg, value) := fb.func.dfg.makeImmValue imm
  ({ fb with func := { fb.func with dfg } }, value)

/-- Insert an instruction at the cursor, push and attach its result if it has one, and move the
cursor to it (`insert_insn`). -/
def insertInsn (fb : FunctionBuilder) (insnData : InsnData) :
    Option (FunctionBuilder × Option Value) := do
  let (func, insn) ← fb.func.insertInsnData fb.loc insnData
  let (func, result) ← func.makeResult insn
  let func ← result.elim (some func) (func.attachResult insn)
  pure ({ fb with func, loc := .at insn }, result)

/-- `insert_insn(insn_data).unwrap()`: the constructors of value-producing instructions. -/
def insertInsnUnwrap (fb : FunctionBuilder) (insnData : InsnData) :
    Option (FunctionBuilder × Value) := do
  let (fb, result) ← fb.insertInsn insnData
  let result ← result
  pure (fb, result)

/-- The unary constructors (`impl_unary_insn!`). -/
def unaryInsn (fb : FunctionBuilder) (code : UnaryOp) (lhs : Value) :
    Option (FunctionBuilder × Value) :=
  fb.insertInsnUnwrap (.unary code lhs)

/-- The binary constructors (`impl_binary_insn!`). -/
def binaryInsn (fb : FunctionBuilder) (code : BinaryOp) (lhs rhs : Value) :
    Option (FunctionBuilder × Value) :=
  fb.insertInsnUnwrap (.binary code lhs rhs)

/-- The cast constructors (`impl_cast_insn!`). -/
def castInsn (fb : FunctionBuilder) (code : CastOp) (lhs : Value) (ty : Ty) :
    Option (FunctionBuilder × Value) :=
  fb.insertInsnUnwrap (.cast code lhs ty)

/-- The loads from memory and storage (`memory_load`, `storage_load`). -/
def loadInsn (fb : FunctionBuilder) (loc : DataLocationKind) (addr : Value) (ty : Ty) :
    Option (FunctionBuilder × Value) :=
  fb.insertInsnUnwrap (.load addr ty loc)

/-- The stores to memory and storage (`memory_store`, `storage_store`); the result of
`insert_insn` is dropped. -/
def storeInsn (fb : FunctionBuilder) (loc : DataLocationKind) (addr data : Value) :
    Option FunctionBuilder :=
  (fb.insertInsn (.store addr data loc)).map Prod.fst

/-- Build an `alloca` (`alloca`). -/
def alloca (fb : FunctionBuilder) (ty : Ty) : Option (FunctionBuilder × Value) :=
  fb.insertInsnUnwrap (.alloca ty)

/-- Emit a jump: record the cursor's block as a predecessor of `dest`, then insert (`jump`). -/
def jump (fb : FunctionBuilder) (dest : Block) : Option FunctionBuilder :=
  if fb.ssaBuilder.isSealed dest then none
  else do
    let pred ← fb.loc.block fb.func.layout
    let ssaBuilder ← fb.ssaBuilder.appendPred dest pred
    let (fb, _) ← { fb with ssaBuilder }.insertInsn (.jump dest)
    pure fb

/-- Emit a table branch on `cond` (`br_table`): the operands are the condition followed by the
case values, the table the case blocks; the cursor's block is recorded as a predecessor of the
default, then of each case block in order, then the instruction is inserted. -/
def brTable (fb : FunctionBuilder) (cond : Value) (default : Option Block)
    (table : List (Value × Block)) : Option FunctionBuilder :=
  if default.any fb.ssaBuilder.isSealed || table.any (fun p => fb.ssaBuilder.isSealed p.2) then
    none
  else do
    let insnData := InsnData.brTable (cond :: table.map Prod.fst) default (table.map Prod.snd)
    let block ← fb.loc.block fb.func.layout
    let ssaBuilder ← default.elim (some fb.ssaBuilder) (fb.ssaBuilder.appendPred · block)
    let ssaBuilder ← table.foldlM (fun ssa p => ssa.appendPred p.2 block) ssaBuilder
    let (fb, _) ← { fb with ssaBuilder }.insertInsn insnData
    pure fb

/-- Emit a two-way branch (`br`): the cursor's block is recorded as a predecessor of `thenDest`,
then of `elseDest`, then the instruction is inserted. -/
def br (fb : FunctionBuilder) (cond : Value) (thenDest elseDest : Block) :
    Option FunctionBuilder :=
  if fb.ssaBuilder.isSealed thenDest || fb.ssaBuilder.isSealed elseDest then none
  else do
    let block ← fb.loc.block fb.func.layout
    let ssaBuilder ← fb.ssaBuilder.appendPred thenDest block
    let ssaBuilder ← ssaBuilder.appendPred elseDest block
    let (fb, _) ← { fb with ssaBuilder }.insertInsn (.branch cond thenDest elseDest)
    pure fb

/-- Emit a return (`ret`). -/
def ret (fb : FunctionBuilder) (args : Option Value) : Option FunctionBuilder :=
  (fb.insertInsn (.ret args)).map Prod.fst

/-- Build a phi from `(value, block)` entries, typed by the first value (`phi`); no entries is
an indexing panic. -/
def phi (fb : FunctionBuilder) (args : List (Value × Block)) :
    Option (FunctionBuilder × Value) := do
  let (value, _) ← args.head?
  let ty ← fb.func.dfg.valueTy value
  fb.insertInsnUnwrap (.phi (args.map Prod.fst) (args.map Prod.snd) ty)

/-- Append an entry to the phi whose result is `phiValue` (`append_phi_arg`). -/
def appendPhiArg (fb : FunctionBuilder) (phiValue value : Value) (block : Block) :
    Option FunctionBuilder := do
  let insn ← fb.func.dfg.valueInsn phiValue
  if ← fb.func.dfg.isPhi insn then
    let dfg ← fb.func.dfg.appendPhiArg insn value block
    pure { fb with func := { fb.func with dfg } }
  else none

/-- The type of a value (`type_of`). -/
def typeOf (fb : FunctionBuilder) (value : Value) : Option Ty :=
  fb.func.dfg.valueTy value

/-- The argument values of the function (`args`). -/
def args (fb : FunctionBuilder) : List Value :=
  fb.func.argValues

/-! ### The generated methods -/

/-- `not` (`impl_unary_insn!(not, UnaryOp::Not)`). -/
def not (fb : FunctionBuilder) (lhs : Value) := fb.unaryInsn .not lhs
/-- `neg` (`impl_unary_insn!(neg, UnaryOp::Neg)`). -/
def neg (fb : FunctionBuilder) (lhs : Value) := fb.unaryInsn .neg lhs
/-- `add` (`impl_binary_insn!(add, BinaryOp::Add)`). -/
def add (fb : FunctionBuilder) (lhs rhs : Value) := fb.binaryInsn .add lhs rhs
/-- `sub` (`impl_binary_insn!(sub, BinaryOp::Sub)`). -/
def sub (fb : FunctionBuilder) (lhs rhs : Value) := fb.binaryInsn .sub lhs rhs
/-- `mul` (`impl_binary_insn!(mul, BinaryOp::Mul)`). -/
def mul (fb : FunctionBuilder) (lhs rhs : Value) := fb.binaryInsn .mul lhs rhs
/-- `udiv` (`impl_binary_insn!(udiv, BinaryOp::Udiv)`). -/
def udiv (fb : FunctionBuilder) (lhs rhs : Value) := fb.binaryInsn .udiv lhs rhs
/-- `sdiv` (`impl_binary_insn!(sdiv, BinaryOp::Sdiv)`). -/
def sdiv (fb : FunctionBuilder) (lhs rhs : Value) := fb.binaryInsn .sdiv lhs rhs
/-- `lt` (`impl_binary_insn!(lt, BinaryOp::Lt)`). -/
def lt (fb : FunctionBuilder) (lhs rhs : Value) := fb.binaryInsn .lt lhs rhs
/-- `gt` (`impl_binary_insn!(gt, BinaryOp::Gt)`). -/
def gt (fb : FunctionBuilder) (lhs rhs : Value) := fb.binaryInsn .gt lhs rhs
/-- `slt` (`impl_binary_insn!(slt, BinaryOp::Slt)`). -/
def slt (fb : FunctionBuilder) (lhs rhs : Value) := fb.binaryInsn .slt lhs rhs
/-- `sgt` (`impl_binary_insn!(sgt, BinaryOp::Sgt)`). -/
def sgt (fb : FunctionBuilder) (lhs rhs : Value) := fb.binaryInsn .sgt lhs rhs
/-- `le` (`impl_binary_insn!(le, BinaryOp::Le)`). -/
def le (fb : FunctionBuilder) (lhs rhs : Value) := fb.binaryInsn .le lhs rhs
/-- `ge` (`impl_binary_insn!(ge, BinaryOp::Ge)`). -/
def ge (fb : FunctionBuilder) (lhs rhs : Value) := fb.binaryInsn .ge lhs rhs
/-- `sle` (`impl_binary_insn!(sle, BinaryOp::Sle)`). -/
def sle (fb : FunctionBuilder) (lhs rhs : Value) := fb.binaryInsn .sle lhs rhs
/-- `sge` (`impl_binary_insn!(sge, BinaryOp::Sge)`). -/
def sge (fb : FunctionBuilder) (lhs rhs : Value) := fb.binaryInsn .sge lhs rhs
/-- `eq` (`impl_binary_insn!(eq, BinaryOp::Eq)`). -/
def eq (fb : FunctionBuilder) (lhs rhs : Value) := fb.binaryInsn .eq lhs rhs
/-- `ne` (`impl_binary_insn!(ne, BinaryOp::Ne)`). -/
def ne (fb : FunctionBuilder) (lhs rhs : Value) := fb.binaryInsn .ne lhs rhs
/-- `and` (`impl_binary_insn!(and, BinaryOp::And)`). -/
def and (fb : FunctionBuilder) (lhs rhs : Value) := fb.binaryInsn .and lhs rhs
/-- `or` (`impl_binary_insn!(or, BinaryOp::Or)`). -/
def or (fb : FunctionBuilder) (lhs rhs : Value) := fb.binaryInsn .or lhs rhs
/-- `sext` (`impl_cast_insn!(sext, CastOp::Sext)`). -/
def sext (fb : FunctionBuilder) (lhs : Value) (ty : Ty) := fb.castInsn .sext lhs ty
/-- `zext` (`impl_cast_insn!(zext, CastOp::Zext)`). -/
def zext (fb : FunctionBuilder) (lhs : Value) (ty : Ty) := fb.castInsn .zext lhs ty
/-- `trunc` (`impl_cast_insn!(trunc, CastOp::Trunc)`). -/
def trunc (fb : FunctionBuilder) (lhs : Value) (ty : Ty) := fb.castInsn .trunc lhs ty
/-- `memory_load`. -/
def memoryLoad (fb : FunctionBuilder) (addr : Value) (ty : Ty) := fb.loadInsn .memory addr ty
/-- `storage_load`. -/
def storageLoad (fb : FunctionBuilder) (addr : Value) (ty : Ty) := fb.loadInsn .storage addr ty
/-- `memory_store`. -/
def memoryStore (fb : FunctionBuilder) (addr data : Value) := fb.storeInsn .memory addr data
/-- `storage_store`. -/
def storageStore (fb : FunctionBuilder) (addr data : Value) := fb.storeInsn .storage addr data

/-! ### Runs -/

/-- One public call on a function builder, with its arguments; the variable calls are left out. -/
inductive BuilderCall where
  | appendBlock
  | switchToBlock (block : Block)
  | makeImmValue (imm : Immediate)
  | unary (code : UnaryOp) (lhs : Value)
  | binary (code : BinaryOp) (lhs rhs : Value)
  | cast (code : CastOp) (lhs : Value) (ty : Ty)
  | load (loc : DataLocationKind) (addr : Value) (ty : Ty)
  | store (loc : DataLocationKind) (addr data : Value)
  | alloca (ty : Ty)
  | jump (dest : Block)
  | brTable (cond : Value) (default : Option Block) (table : List (Value × Block))
  | br (cond : Value) (thenDest elseDest : Block)
  | ret (args : Option Value)
  | phi (args : List (Value × Block))
  | appendPhiArg (phiValue value : Value) (block : Block)

/-- The calls that insert an instruction: the instruction constructors and the terminators. -/
def BuilderCall.insertsInsn : BuilderCall → Bool
  | .appendBlock | .switchToBlock _ | .makeImmValue _ | .appendPhiArg .. => false
  | _ => true

/-- Run one call; the value is the `Value` the call returns, if it returns one; `none` when the
call panics. -/
def call (fb : FunctionBuilder) : BuilderCall → Option (FunctionBuilder × Option Value)
  | .appendBlock => fb.appendBlock.map fun r => (r.1, none)
  | .switchToBlock block => some (fb.switchToBlock block, none)
  | .makeImmValue imm => some ((fb.makeImmValue imm).1, some (fb.makeImmValue imm).2)
  | .unary code lhs => (fb.unaryInsn code lhs).map fun r => (r.1, some r.2)
  | .binary code lhs rhs => (fb.binaryInsn code lhs rhs).map fun r => (r.1, some r.2)
  | .cast code lhs ty => (fb.castInsn code lhs ty).map fun r => (r.1, some r.2)
  | .load loc addr ty => (fb.loadInsn loc addr ty).map fun r => (r.1, some r.2)
  | .store loc addr data => (fb.storeInsn loc addr data).map fun fb => (fb, none)
  | .alloca ty => (fb.alloca ty).map fun r => (r.1, some r.2)
  | .jump dest => (fb.jump dest).map fun fb => (fb, none)
  | .brTable cond default table => (fb.brTable cond default table).map fun fb => (fb, none)
  | .br cond thenDest elseDest => (fb.br cond thenDest elseDest).map fun fb => (fb, none)
  | .ret args => (fb.ret args).map fun fb => (fb, none)
  | .phi args => (fb.phi args).map fun r => (r.1, some r.2)
  | .appendPhiArg phiValue value block =>
      (fb.appendPhiArg phiValue value block).map fun fb => (fb, none)

/-- One call that does not panic leads from `fb` to `fb'`. -/
def Step (fb fb' : FunctionBuilder) : Prop :=
  ∃ c r, fb.call c = some (fb', r)

/-- The builders some run of the modelled calls, without variables, reaches from a new builder. -/
def Reachable (fb : FunctionBuilder) : Prop :=
  ∃ sig, Relation.ReflTransGen Step (new sig) fb

/-- Run calls in order; `none` when one panics. -/
def runCalls (fb : FunctionBuilder) : List BuilderCall → Option FunctionBuilder
  | [] => some fb
  | c :: cs => (fb.call c).bind fun r => r.1.runCalls cs

/-- A run of calls from a new builder that does not panic ends in a reachable builder. -/
theorem Reachable.of_runCalls {sig : Signature} {cs : List BuilderCall} {fb : FunctionBuilder}
    (h : (new sig).runCalls cs = some fb) : fb.Reachable := by
  suffices ∀ fb₀, Relation.ReflTransGen Step (new sig) fb₀ → fb₀.runCalls cs = some fb →
      Relation.ReflTransGen Step (new sig) fb from ⟨sig, this _ .refl h⟩
  clear h
  induction cs with
  | nil => intro fb₀ h₀ h; cases h; exact h₀
  | cons c cs ih =>
      intro fb₀ h₀ h
      obtain ⟨⟨fb₁, r⟩, hc, hrun⟩ := Option.bind_eq_some.1 h
      exact ih fb₁ (h₀.tail ⟨c, r, hc⟩) hrun

/-! ### What each method does -/

variable {fb fb' : FunctionBuilder} {data : InsnData} {r : Option Value}

/-- **`insert_insn`, step by step.** The instruction gets the next index of the arena, is put
into the layout at the cursor, has its result pushed and, if there is one, attached; the cursor
moves to it. -/
theorem insertInsn_eq_some (h : fb.insertInsn data = some (fb', r)) :
    ∃ func₁ func₂ func₃,
      fb.func.insertInsnData fb.loc data = some (func₁, ⟨fb.func.dfg.insns.length⟩) ∧
      func₁.makeResult ⟨fb.func.dfg.insns.length⟩ = some (func₂, r) ∧
      r.elim (some func₂) (func₂.attachResult ⟨fb.func.dfg.insns.length⟩) = some func₃ ∧
      fb' = { fb with func := func₃, loc := .at ⟨fb.func.dfg.insns.length⟩ } := by
  simp only [insertInsn, bind, Option.bind_eq_some, pure, Option.some.injEq] at h
  obtain ⟨⟨func₁, insn⟩, h₁, ⟨func₂, r'⟩, h₂, func₃, h₃, heq⟩ := h
  obtain ⟨rfl, -⟩ := Function.insertInsnData_eq_some h₁
  cases heq
  exact ⟨func₁, func₂, func₃, h₁, h₂, h₃, rfl⟩

/-- `insert_insn` keeps the SSA builder, appends the instruction to the arena and puts it into
the layout at the cursor, in the block the cursor reports. -/
theorem insertInsn_frame (h : fb.insertInsn data = some (fb', r)) :
    fb'.ssaBuilder = fb.ssaBuilder ∧ fb'.loc = .at ⟨fb.func.dfg.insns.length⟩ ∧
      fb'.func.dfg.insns = fb.func.dfg.insns ++ [data] ∧ fb'.func.dfg.blocks = fb.func.dfg.blocks ∧
      ∃ layout, fb.loc.insertInsn fb.func.layout ⟨fb.func.dfg.insns.length⟩ = some layout ∧
        fb'.func.layout = layout := by
  obtain ⟨func₁, func₂, func₃, h₁, h₂, h₃, rfl⟩ := insertInsn_eq_some h
  obtain ⟨-, layout, hl, rfl⟩ := Function.insertInsnData_eq_some h₁
  have hdfg : func₃.dfg.insns = func₂.dfg.insns ∧ func₃.dfg.blocks = func₂.dfg.blocks ∧
      func₃.layout = func₂.layout := by
    cases r with
    | none => cases h₃; exact ⟨rfl, rfl, rfl⟩
    | some result =>
        obtain ⟨dfg, hd, rfl⟩ := Function.attachResult_eq_some h₃
        obtain ⟨-, rfl⟩ := DataFlowGraph.attachResult_eq_some.1 hd
        exact ⟨rfl, rfl, rfl⟩
  rcases Function.makeResult_eq_some h₂ with ⟨-, -, rfl⟩ | ⟨ty, -, -, rfl⟩ <;>
    exact ⟨rfl, rfl, hdfg.1, hdfg.2.1, layout, hl, hdfg.2.2⟩

/-- What `insert_insn` does to the graph: push the instruction, and, if it has a result, push
the value `.insn insn ty` at the end of the value arena and attach it. -/
theorem insertInsn_dfg (h : fb.insertInsn data = some (fb', r)) :
    let made := fb.func.dfg.makeInsn data
    (made.1.makeResult made.2 = some none ∧ r = none ∧ fb'.func.dfg = made.1) ∨
      ∃ ty, made.1.makeResult made.2 = some (some (.insn made.2 ty)) ∧
        r = some ⟨fb.func.dfg.values.length⟩ ∧
        (made.1.makeValue (.insn made.2 ty)).1.attachResult made.2
          (made.1.makeValue (.insn made.2 ty)).2 = some fb'.func.dfg := by
  intro made
  obtain ⟨func₁, func₂, func₃, h₁, h₂, h₃, rfl⟩ := insertInsn_eq_some h
  obtain ⟨-, layout, -, rfl⟩ := Function.insertInsnData_eq_some h₁
  rcases Function.makeResult_eq_some h₂ with ⟨hr, rfl, rfl⟩ | ⟨ty, hr, rfl, rfl⟩
  · cases h₃
    exact .inl ⟨hr, rfl, rfl⟩
  · obtain ⟨dfg, hd, rfl⟩ := Function.attachResult_eq_some h₃
    exact .inr ⟨ty, hr, rfl, hd⟩

/-- The unwrapping constructors are `insert_insn` with a result. -/
theorem insertInsnUnwrap_eq_some {v : Value} (h : fb.insertInsnUnwrap data = some (fb', v)) :
    fb.insertInsn data = some (fb', some v) := by
  simp only [insertInsnUnwrap, bind, Option.bind_eq_some, pure, Option.some.injEq] at h
  obtain ⟨⟨fb₁, r₁⟩, h₁, v₁, h₂, heq⟩ := h
  cases heq
  cases h₂
  exact h₁

/-- A phi is `insert_insn` of a phi typed by its first value. -/
theorem phi_eq_some {args : List (Value × Block)} {v : Value} (h : fb.phi args = some (fb', v)) :
    ∃ ty, fb.insertInsn (.phi (args.map Prod.fst) (args.map Prod.snd) ty) = some (fb', some v) := by
  simp only [phi, bind, Option.bind_eq_some] at h
  obtain ⟨⟨value, _⟩, -, ty, -, h⟩ := h
  exact ⟨ty, insertInsnUnwrap_eq_some h⟩

/-- Recording a predecessor appends one edge. -/
theorem appendPred_eq_some {ssa ssa' : SsaBuilder} {dest pred : Block}
    (h : ssa.appendPred dest pred = some ssa') :
    ssa'.predEdges = ssa.predEdges ++ [(dest, pred)] := by
  unfold SsaBuilder.appendPred at h
  split_ifs at h
  cases h
  rfl

/-- The `append_pred` loop of `br_table` records one edge per table entry, in order. -/
theorem foldlM_appendPred {table : List (Value × Block)} {block : Block} {ssa ssa' : SsaBuilder}
    (h : table.foldlM (fun ssa p => ssa.appendPred p.2 block) ssa = some ssa') :
    ssa'.predEdges = ssa.predEdges ++ table.map fun p => (p.2, block) := by
  induction table generalizing ssa with
  | nil => cases h; simp
  | cons p table ih =>
      simp only [List.foldlM_cons, bind, Option.bind_eq_some] at h
      obtain ⟨ssa₁, h₁, h₂⟩ := h
      rw [ih h₂, appendPred_eq_some h₁]
      simp

/-- Recording a predecessor needs an unsealed destination and seals nothing. -/
theorem appendPred_sealed {ssa ssa' : SsaBuilder} {dest pred : Block}
    (h : ssa.appendPred dest pred = some ssa') : dest ∉ ssa.sealed ∧ ssa'.sealed = ssa.sealed := by
  unfold SsaBuilder.appendPred SsaBuilder.isSealed at h
  split_ifs at h with hs
  cases h
  exact ⟨by simpa using hs, rfl⟩

/-- The `append_pred` loop of `br_table` needs every case block unsealed and seals nothing. -/
theorem foldlM_appendPred_sealed {table : List (Value × Block)} {block : Block}
    {ssa ssa' : SsaBuilder}
    (h : table.foldlM (fun ssa p => ssa.appendPred p.2 block) ssa = some ssa') :
    (∀ p ∈ table, p.2 ∉ ssa.sealed) ∧ ssa'.sealed = ssa.sealed := by
  induction table generalizing ssa with
  | nil => cases h; exact ⟨nofun, rfl⟩
  | cons p table ih =>
      simp only [List.foldlM_cons, bind, Option.bind_eq_some] at h
      obtain ⟨ssa₁, h₁, h₂⟩ := h
      obtain ⟨hp, hs₁⟩ := appendPred_sealed h₁
      obtain ⟨ht, hs₂⟩ := ih h₂
      refine ⟨fun q hq => ?_, hs₂.trans hs₁⟩
      rcases List.mem_cons.1 hq with rfl | hq
      exacts [hp, hs₁ ▸ ht q hq]

/-- What `jump` does: one edge from the cursor's block, then `insert_insn`. -/
theorem jump_eq_some {dest : Block} (h : fb.jump dest = some fb') :
    ∃ pred ssa r, fb.loc.block fb.func.layout = some pred ∧
      fb.ssaBuilder.appendPred dest pred = some ssa ∧
      { fb with ssaBuilder := ssa }.insertInsn (.jump dest) = some (fb', r) := by
  unfold jump at h
  split_ifs at h
  simp only [bind, Option.bind_eq_some, pure, Option.some.injEq] at h
  obtain ⟨pred, hp, ssa, hs, ⟨fb₁, r⟩, hi, rfl⟩ := h
  exact ⟨pred, ssa, r, hp, hs, hi⟩

/-- What `br` does: the edges to the then and else blocks, then `insert_insn`. -/
theorem br_eq_some {cond : Value} {thenDest elseDest : Block}
    (h : fb.br cond thenDest elseDest = some fb') :
    ∃ block ssa₁ ssa₂ r, fb.loc.block fb.func.layout = some block ∧
      fb.ssaBuilder.appendPred thenDest block = some ssa₁ ∧
      ssa₁.appendPred elseDest block = some ssa₂ ∧
      { fb with ssaBuilder := ssa₂ }.insertInsn (.branch cond thenDest elseDest) =
        some (fb', r) := by
  unfold br at h
  split_ifs at h
  simp only [bind, Option.bind_eq_some, pure, Option.some.injEq] at h
  obtain ⟨block, hb, ssa₁, h₁, ssa₂, h₂, ⟨fb₁, r⟩, hi, rfl⟩ := h
  exact ⟨block, ssa₁, ssa₂, r, hb, h₁, h₂, hi⟩

/-- What `br_table` does: the edges to the default and each case block, then `insert_insn`. -/
theorem brTable_eq_some {cond : Value} {default : Option Block} {table : List (Value × Block)}
    (h : fb.brTable cond default table = some fb') :
    ∃ block ssa₁ ssa₂ r, fb.loc.block fb.func.layout = some block ∧
      (ssa₁.predEdges = fb.ssaBuilder.predEdges ++ default.toList.map (fun d => (d, block)) ∧
        ssa₁.sealed = fb.ssaBuilder.sealed ∧ ∀ d ∈ default.toList, d ∉ fb.ssaBuilder.sealed) ∧
      table.foldlM (fun ssa p => ssa.appendPred p.2 block) ssa₁ = some ssa₂ ∧
      { fb with ssaBuilder := ssa₂ }.insertInsn
        (.brTable (cond :: table.map Prod.fst) default (table.map Prod.snd)) = some (fb', r) := by
  unfold brTable at h
  split_ifs at h
  simp only [bind, Option.bind_eq_some, pure, Option.some.injEq] at h
  obtain ⟨block, hb, ssa₁, h₁, ssa₂, h₂, ⟨fb₁, r⟩, hi, rfl⟩ := h
  refine ⟨block, ssa₁, ssa₂, r, hb, ?_, h₂, hi⟩
  cases default with
  | none => cases h₁; simp
  | some d =>
      obtain ⟨hd, hs⟩ := appendPred_sealed h₁
      simp [appendPred_eq_some h₁, hd, hs]

/-- What `append_phi_arg` does: the graph method on the phi that defines the value. -/
theorem appendPhiArg_eq_some {phiValue value : Value} {block : Block}
    (h : fb.appendPhiArg phiValue value block = some fb') :
    ∃ insn dfg, fb.func.dfg.valueInsn phiValue = some insn ∧
      fb.func.dfg.appendPhiArg insn value block = some dfg ∧
      fb' = { fb with func := { fb.func with dfg } } := by
  simp only [appendPhiArg, bind, Option.bind_eq_some, pure, Option.some.injEq] at h
  obtain ⟨insn, hi, isPhi, -, h⟩ := h
  split_ifs at h
  obtain ⟨dfg, hd, hfb⟩ := Option.bind_eq_some.1 h
  cases hfb
  exact ⟨insn, dfg, hi, hd, rfl⟩

/-- **What one call does.** A call makes and appends a block, moves the cursor, interns an
immediate, appends a phi entry, or goes through `insert_insn` exactly once. In the last case the
SSA builder it inserts with holds the recorded edges followed by one edge per destination
occurrence of the inserted instruction, from the block the cursor is in; the call returns what
`insert_insn` returned, or nothing; and a phi it inserts has one block per value. -/
theorem call_cases {c : BuilderCall} (h : fb.call c = some (fb', r)) :
    (c.insertsInsn = false ∧
      ((∃ layout, fb.func.layout.appendBlock fb.func.dfg.makeBlock.2 = some layout ∧
          fb' = { fb with func := { fb.func with dfg := fb.func.dfg.makeBlock.1, layout } }) ∨
        (∃ block, fb' = fb.switchToBlock block) ∨
        (∃ imm, fb' = (fb.makeImmValue imm).1) ∨
        (∃ insn value block dfg, fb.func.dfg.appendPhiArg insn value block = some dfg ∧
          fb' = { fb with func := { fb.func with dfg } }))) ∨
    (∃ data ssa r', { fb with ssaBuilder := ssa }.insertInsn data = some (fb', r') ∧
      (r = none ∨ r = r') ∧ (∀ block, fb.loc.block fb.func.layout = some block →
        ssa.predEdges = fb.ssaBuilder.predEdges ++ data.analyzeBranch.edgesFrom block) ∧
      ssa.sealed = fb.ssaBuilder.sealed ∧
      (∀ dest ∈ data.analyzeBranch.iterDests, dest ∉ fb.ssaBuilder.sealed) ∧ data.phiPaired) := by
  have plain : ∀ {d : InsnData}, d.analyzeBranch = .notBranch → d.phiPaired →
      (∀ block, fb.loc.block fb.func.layout = some block →
        fb.ssaBuilder.predEdges = fb.ssaBuilder.predEdges ++ d.analyzeBranch.edgesFrom block) ∧
      fb.ssaBuilder.sealed = fb.ssaBuilder.sealed ∧
      (∀ dest ∈ d.analyzeBranch.iterDests, dest ∉ fb.ssaBuilder.sealed) ∧ d.phiPaired :=
    fun hd hp => ⟨fun _ _ => by rw [hd]; exact (List.append_nil _).symm, rfl,
      fun _ hm => (by rw [hd] at hm; cases hm), hp⟩
  cases c with
  | appendBlock =>
      obtain ⟨⟨fb₁, b⟩, h₁, hfb⟩ := Option.map_eq_some'.1 h
      cases hfb
      obtain ⟨layout, hl, hfb⟩ := Option.map_eq_some'.1 h₁
      cases hfb
      exact .inl ⟨rfl, .inl ⟨layout, hl, rfl⟩⟩
  | switchToBlock block => cases h; exact .inl ⟨rfl, .inr (.inl ⟨block, rfl⟩)⟩
  | makeImmValue imm => cases h; exact .inl ⟨rfl, .inr (.inr (.inl ⟨imm, rfl⟩))⟩
  | appendPhiArg phiValue value block =>
      obtain ⟨fb₁, h₁, hfb⟩ := Option.map_eq_some'.1 h
      cases hfb
      obtain ⟨insn, dfg, -, hd, rfl⟩ := appendPhiArg_eq_some h₁
      exact .inl ⟨rfl, .inr (.inr (.inr ⟨insn, value, block, dfg, hd, rfl⟩))⟩
  | unary | binary | cast | load | alloca =>
      obtain ⟨⟨fb₁, v⟩, h₁, hfb⟩ := Option.map_eq_some'.1 h
      cases hfb
      exact .inr ⟨_, _, _, insertInsnUnwrap_eq_some h₁, .inr rfl, plain rfl rfl⟩
  | phi args =>
      obtain ⟨⟨fb₁, v⟩, h₁, hfb⟩ := Option.map_eq_some'.1 h
      cases hfb
      obtain ⟨ty, h₂⟩ := phi_eq_some h₁
      exact .inr ⟨_, _, _, h₂, .inr rfl, plain rfl (by simp [InsnData.phiPaired])⟩
  | store | ret =>
      obtain ⟨fb₁, h₁, hfb⟩ := Option.map_eq_some'.1 h
      cases hfb
      obtain ⟨⟨fb₂, r₂⟩, h₂, rfl⟩ := Option.map_eq_some'.1 h₁
      exact .inr ⟨_, _, _, h₂, .inl rfl, plain rfl rfl⟩
  | jump dest =>
      obtain ⟨fb₁, h₁, hfb⟩ := Option.map_eq_some'.1 h
      cases hfb
      obtain ⟨pred, ssa, r, hp, hs, hi⟩ := jump_eq_some h₁
      obtain ⟨hd, hsealed⟩ := appendPred_sealed hs
      refine .inr ⟨_, ssa, r, hi, .inl rfl, fun block hb => ?_, hsealed, fun d hm => ?_, rfl⟩
      · obtain rfl : block = pred := Option.some.inj (hb.symm.trans hp)
        rw [appendPred_eq_some hs]
        rfl
      · rw [List.mem_singleton.1 hm]
        exact hd
  | br cond thenDest elseDest =>
      obtain ⟨fb₁, h₁, hfb⟩ := Option.map_eq_some'.1 h
      cases hfb
      obtain ⟨pred, ssa₁, ssa₂, r, hp, hs₁, hs₂, hi⟩ := br_eq_some h₁
      obtain ⟨hd₁, hsealed₁⟩ := appendPred_sealed hs₁
      obtain ⟨hd₂, hsealed₂⟩ := appendPred_sealed hs₂
      refine .inr ⟨_, ssa₂, r, hi, .inl rfl, fun block hb => ?_, hsealed₂.trans hsealed₁,
        fun d hm => ?_, rfl⟩
      · obtain rfl : block = pred := Option.some.inj (hb.symm.trans hp)
        rw [appendPred_eq_some hs₂, appendPred_eq_some hs₁]
        simp [InsnData.analyzeBranch, BranchInfo.edgesFrom, BranchInfo.iterDests]
      · rcases List.mem_pair.1 hm with rfl | rfl
        exacts [hd₁, hsealed₁ ▸ hd₂]
  | brTable cond default table =>
      obtain ⟨fb₁, h₁, hfb⟩ := Option.map_eq_some'.1 h
      cases hfb
      obtain ⟨pred, ssa₁, ssa₂, r, hp, ⟨hs₁, hsealed₁, hdef⟩, hs₂, hi⟩ := brTable_eq_some h₁
      obtain ⟨htab, hsealed₂⟩ := foldlM_appendPred_sealed hs₂
      refine .inr ⟨_, ssa₂, r, hi, .inl rfl, fun block hb => ?_, hsealed₂.trans hsealed₁,
        fun d hm => ?_, rfl⟩
      · obtain rfl : block = pred := Option.some.inj (hb.symm.trans hp)
        rw [foldlM_appendPred hs₂, hs₁]
        simp [InsnData.analyzeBranch, BranchInfo.edgesFrom, BranchInfo.iterDests]
      · rcases List.mem_append.1 hm with hm | hm
        · exact hdef d hm
        · obtain ⟨p, hp, rfl⟩ := List.mem_map.1 hm
          exact hsealed₁ ▸ htab p hp

/-! ### The layout -/

/-- `insert_insn` keeps the layout sound: the instruction it places is the one it pushed. -/
theorem layoutSound_insertInsn (h : fb.insertInsn data = some (fb', r))
    (hinv : fb.func.LayoutSound) : fb'.func.LayoutSound := by
  obtain ⟨-, -, hinsns, hblocks, layout, hl, rfl⟩ := insertInsn_frame h
  obtain ⟨block, -, hblock⟩ := CursorLocation.insnBlock_insertInsn hl
  refine ⟨CursorLocation.wellFormed_insertInsn hinv.wellFormed hl, fun i b hi => ?_, fun b hb => ?_⟩
  · rw [hblock, Function.update_apply] at hi
    rw [hinsns, List.length_append, List.length_singleton]
    split_ifs at hi with heq
    · rw [heq]; exact Nat.lt_succ_self _
    · exact Nat.lt_succ_of_lt (hinv.insn_lt i b hi)
  · rw [CursorLocation.blocks_insertInsn hl] at hb
    rw [hblocks]
    exact hinv.block_lt b hb

/-- Every call keeps the layout sound. A new block is appended with the index the graph gives
it; the other calls that insert nothing leave the layout, the block count and the arena length
as they are. -/
theorem layoutSound_call (hinv : fb.func.LayoutSound) {c : BuilderCall}
    (h : fb.call c = some (fb', r)) : fb'.func.LayoutSound := by
  rcases call_cases h with ⟨-, ⟨layout, hl, rfl⟩ | ⟨block, rfl⟩ | ⟨imm, rfl⟩ |
    ⟨insn, value, block, dfg, hd, rfl⟩⟩ | ⟨data, ssa, r', hi, -, -⟩
  · obtain ⟨-, rfl⟩ := Layout.appendBlock_eq_some hl
    refine ⟨Layout.wellFormed_appendBlock hinv.wellFormed hl, hinv.insn_lt, fun b hb => ?_⟩
    rcases List.mem_append.1 hb with hb | hb
    · exact Nat.lt_succ_of_lt (hinv.block_lt b hb)
    · rw [List.mem_singleton.1 hb]; exact Nat.lt_succ_self _
  · exact hinv
  · exact ⟨hinv.wellFormed, by simpa [makeImmValue] using hinv.insn_lt,
      by simpa [makeImmValue] using hinv.block_lt⟩
  · obtain ⟨old, new, -, -, rfl⟩ := DataFlowGraph.appendPhiArg_eq_some.1 hd
    exact ⟨hinv.wellFormed, by simpa using hinv.insn_lt, hinv.block_lt⟩
  · exact layoutSound_insertInsn hi hinv

/-- **The builder keeps the layout well formed.** In every builder reachable from a new one, each
instruction in the layout is in exactly one block, once, and that block is in the layout, which
lists each block once; and the layout holds only instructions and blocks the graph has made. -/
theorem Reachable.layoutSound (h : fb.Reachable) : fb.func.LayoutSound := by
  obtain ⟨sig, hrun⟩ := h
  induction hrun with
  | refl => exact Function.new_layoutSound sig
  | tail _ hstep ih =>
      obtain ⟨c, r, hc⟩ := hstep
      exact layoutSound_call ih hc

/-- A one-block function that returns keeps its layout sound. -/
theorem layoutSound_ret :
    ∃ fb, (new ⟨"f", [], none⟩).runCalls [.appendBlock, .switchToBlock ⟨0⟩, .ret none] = some fb ∧
      fb.func.LayoutSound :=
  have hrun : (new ⟨"f", [], none⟩).runCalls [.appendBlock, .switchToBlock ⟨0⟩, .ret none] =
      some _ := rfl
  ⟨_, hrun, Reachable.layoutSound (Reachable.of_runCalls hrun)⟩

end FunctionBuilder

end Sonatina
