import Sonatina.Ir.Dfg
import Sonatina.Ir.Layout

/-!
# Functions and the Instruction Cursor

A `Function` bundles a signature, the values of its arguments, a data-flow graph and a layout.
The builder reaches both through a cursor (`InsnInserter`), an ephemeral view that carries a
location and inserts at it. `function.rs` and `func_cursor.rs` are not among the modelled
sources; what `func_builder.rs` calls on them is modelled from the specification:

* `Function.new` pushes one argument value per parameter, in signature order;
* `CursorLocation.block` is the block the cursor is in, and `CursorLocation.insertInsn` puts an
  instruction into the layout there (after the instruction the cursor is at, or at the end of
  the block it is at; nowhere panics);
* `Function.insertInsnData`, `Function.makeResult` and `Function.attachResult` are the cursor
  methods `insert_insn_data`, `make_result` and `attach_result`.

## Main results

* `insnBlock_insertInsn`: an instruction inserted at the cursor lands in the block the cursor
  reports, and no other instruction moves.
* `insertInsnData_eq_some`, `makeResult_eq_some`, `attachResult_eq_some`: what each cursor method
  does to the function.
* `LayoutSound`: the layout is well formed and holds only what the graph has made.
-/

namespace Sonatina

/-- Modelled from the spec: a function signature (`Signature`). -/
structure Signature where
  name : String
  args : List Ty
  retTy : Option Ty
  deriving DecidableEq, Repr

/-- Modelled from the spec: a function (`Function`). -/
structure Function where
  sig : Signature
  argValues : List Value
  dfg : DataFlowGraph
  layout : Layout

/-- Modelled from the spec: the position of a cursor (`CursorLocation`). -/
inductive CursorLocation where
  | «at» (insn : Insn)
  | blockTop (block : Block)
  | blockBottom (block : Block)
  | noWhere
  deriving DecidableEq, Repr

namespace CursorLocation

/-- The block the cursor is in (`FuncCursor::block`). -/
def block (layout : Layout) : CursorLocation → Option Block
  | .at insn => layout.insnBlock insn
  | .blockTop block | .blockBottom block => some block
  | .noWhere => none

/-- Put an instruction into the layout at the cursor (`FuncCursor::insert_insn`): right after
the instruction the cursor is at, or at the end of the block it is at (the specification: "at a
block position it appends to the block"); at nowhere it panics. -/
def insertInsn (layout : Layout) (insn : Insn) : CursorLocation → Option Layout
  | .at after => layout.insertInsnAfter insn after
  | .blockTop block | .blockBottom block => layout.appendInsn insn block
  | .noWhere => none

variable {layout layout' : Layout} {insn : Insn} {loc : CursorLocation}

/-- **The cursor inserts where it is.** An instruction inserted at the cursor lands in the block
the cursor reports, and no other instruction changes block. -/
theorem insnBlock_insertInsn (h : loc.insertInsn layout insn = some layout') :
    ∃ block, loc.block layout = some block ∧
      layout'.insnBlock = Function.update layout.insnBlock insn (some block) := by
  cases loc with
  | «at» after => exact Layout.insnBlock_insertInsnAfter h
  | blockTop b | blockBottom b => exact ⟨b, rfl, Layout.insnBlock_appendInsn h⟩
  | noWhere => cases h

/-- Inserting at the cursor keeps the layout contract. -/
theorem wellFormed_insertInsn (hwf : layout.WellFormed)
    (h : loc.insertInsn layout insn = some layout') :
    layout'.WellFormed := by
  cases loc with
  | «at» after => exact Layout.wellFormed_insertInsnAfter hwf h
  | blockTop b | blockBottom b => exact Layout.wellFormed_appendInsn hwf h
  | noWhere => cases h

/-- Inserting an instruction leaves the block order as it is. -/
theorem blocks_insertInsn (h : loc.insertInsn layout insn = some layout') :
    layout'.blocks = layout.blocks := by
  cases loc with
  | «at» after => obtain ⟨b, -, -, rfl⟩ := Layout.insertInsnAfter_eq_some h; rfl
  | blockTop b | blockBottom b => obtain ⟨-, -, rfl⟩ := Layout.appendInsn_eq_some h; rfl
  | noWhere => cases h

end CursorLocation

namespace Function

/-- Push one argument value per parameter type, numbered from `idx` (the loop of
`Function::new`). -/
def makeArgValues (dfg : DataFlowGraph) (idx : Nat) : List Ty → DataFlowGraph × List Value
  | [] => (dfg, [])
  | ty :: tys =>
      let (dfg, value) := dfg.makeValue (.arg ty idx)
      let (dfg, values) := makeArgValues dfg (idx + 1) tys
      (dfg, value :: values)

/-- Pushing the argument values extends the value arena and changes no other arena. -/
theorem makeArgValues_frame (dfg : DataFlowGraph) (idx : Nat) (tys : List Ty) :
    (makeArgValues dfg idx tys).1.insns = dfg.insns ∧
      (makeArgValues dfg idx tys).1.blocks = dfg.blocks ∧
      dfg.values <+: (makeArgValues dfg idx tys).1.values := by
  induction tys generalizing dfg idx with
  | nil => exact ⟨rfl, rfl, List.prefix_refl _⟩
  | cons ty tys ih =>
      obtain ⟨h₁, h₂, h₃⟩ := ih (dfg.makeValue (.arg ty idx)).1 (idx + 1)
      exact ⟨h₁, h₂, (List.prefix_append _ _).trans h₃⟩

/-- A new function: an empty graph holding only the argument values, in signature order, and an
empty layout (`Function::new`). -/
def new (sig : Signature) : Function :=
  let (dfg, argValues) := makeArgValues DataFlowGraph.new 0 sig.args
  ⟨sig, argValues, dfg, Layout.new⟩

/-- Push an instruction onto the graph and put it into the layout at the cursor
(`FuncCursor::insert_insn_data`). -/
def insertInsnData (func : Function) (loc : CursorLocation) (data : InsnData) :
    Option (Function × Insn) :=
  let (dfg, insn) := func.dfg.makeInsn data
  (loc.insertInsn func.layout insn).map fun layout => ({ func with dfg, layout }, insn)

/-- Push the result value of an instruction, if it has one (`FuncCursor::make_result`). -/
def makeResult (func : Function) (insn : Insn) : Option (Function × Option Value) :=
  (func.dfg.makeResult insn).map fun
    | none => (func, none)
    | some data =>
        let (dfg, value) := func.dfg.makeValue data
        ({ func with dfg }, some value)

/-- Attach a result value to an instruction (`FuncCursor::attach_result`). -/
def attachResult (func : Function) (insn : Insn) (value : Value) : Option Function :=
  (func.dfg.attachResult insn value).map fun dfg => { func with dfg }

/-- **The layout of a function.** Its layout is well formed, and places only instructions and
blocks its graph has made. -/
structure LayoutSound (func : Function) : Prop where
  wellFormed : func.layout.WellFormed
  insn_lt : ∀ insn block, func.layout.insnBlock insn = some block →
    insn.index < func.dfg.insns.length
  block_lt : ∀ block ∈ func.layout.blocks, block.index < func.dfg.blocks

/-- A new function has an empty layout. -/
theorem new_layoutSound (sig : Signature) : (Function.new sig).LayoutSound :=
  ⟨Layout.wellFormed_new, fun _ _ => nofun, fun _ => nofun⟩

variable {func func' : Function} {loc : CursorLocation} {data : InsnData} {insn : Insn}
  {result : Option Value} {value : Value}

/-- What `insert_insn_data` does: push the instruction and place it at the cursor. -/
theorem insertInsnData_eq_some (h : func.insertInsnData loc data = some (func', insn)) :
    insn = ⟨func.dfg.insns.length⟩ ∧ ∃ layout, loc.insertInsn func.layout insn = some layout ∧
      func' = { func with dfg := (func.dfg.makeInsn data).1, layout } := by
  obtain ⟨layout, hl, hf⟩ := Option.map_eq_some'.1 h
  cases hf
  exact ⟨rfl, layout, hl, rfl⟩

/-- The result a cursor pushes is the value `.insn insn ty` at the end of the value arena, for
the type `make_result` computes. -/
theorem makeResult_eq_some (h : func.makeResult insn = some (func', result)) :
    (func.dfg.makeResult insn = some none ∧ result = none ∧ func' = func) ∨
      ∃ ty, func.dfg.makeResult insn = some (some (.insn insn ty)) ∧
        result = some ⟨func.dfg.values.length⟩ ∧
        func' = { func with dfg := (func.dfg.makeValue (.insn insn ty)).1 } := by
  obtain ⟨r, hr, hf⟩ := Option.map_eq_some'.1 h
  have hty : ∀ d, r = some d → ∃ ty, d = .insn insn ty := by
    rintro d rfl
    simp only [DataFlowGraph.makeResult, bind, Option.bind_eq_some, pure, Option.some.injEq] at hr
    obtain ⟨_, -, ty, -, hty⟩ := hr
    cases ty <;> cases hty
    exact ⟨_, rfl⟩
  cases r with
  | none => cases hf; exact .inl ⟨hr, rfl, rfl⟩
  | some d =>
      obtain ⟨ty, rfl⟩ := hty _ rfl
      cases hf
      exact .inr ⟨ty, hr, rfl, rfl⟩

/-- What the cursor's `attach_result` does to the function. -/
theorem attachResult_eq_some (h : func.attachResult insn value = some func') :
    ∃ dfg, func.dfg.attachResult insn value = some dfg ∧ func' = { func with dfg } := by
  obtain ⟨dfg, hd, rfl⟩ := Option.map_eq_some'.1 h
  exact ⟨dfg, hd, rfl⟩

end Function

end Sonatina
