import Sonatina.Ir.Value

/-!
# Instructions

`InsnData` is the tagged operand data of one instruction, with the variants the function
builder (`func_builder.rs`) constructs: unary, binary and cast operations, memory and storage
loads and stores, `alloca`, the terminators `jump`, `br`, `br_table` and `return`, and `phi`.
The fixed-size operand arrays of the source (`[Value; 1]`, `[Value; 2]`, `[Block; 2]`) are
named fields; the growable ones (`SmallVec`) are lists.

The definition of `InsnData` and of its methods lives in `insn.rs`, which is not among the
modelled sources. What `dfg.rs` and `func_builder.rs` call on it is modelled from the
specification:

* `args` — the operand values in order (`InsnData::args`);
* `mapArgs` and `setArg` — the two ways `dfg.rs` writes through `InsnData::args_mut`;
* `appendPhiArg` and `removePhiArg` — the phi entry edits, panicking (`none`) on a non-phi or a
  missing entry;
* `analyzeBranch` and `BranchInfo` — the destinations of a terminator, default first for a
  `br_table`;
* `rewriteBranchDest` and `resultType`.

Each comes with the lemma that says what it does to the operand list, so that no later proof
unfolds it.
-/

namespace Sonatina

/-- Unary opcodes. -/
inductive UnaryOp where
  | not
  | neg
  deriving DecidableEq, Repr

/-- Binary opcodes: arithmetic, bitwise and comparisons. -/
inductive BinaryOp where
  | add | sub | mul | udiv | sdiv
  | lt | gt | slt | sgt | le | ge | sle | sge | eq | ne
  | and | or
  deriving DecidableEq, Repr

/-- Cast opcodes. -/
inductive CastOp where
  | sext
  | zext
  | trunc
  deriving DecidableEq, Repr

/-- The address space of a load or store. -/
inductive DataLocationKind where
  | memory
  | storage
  deriving DecidableEq, Repr

/-- Modelled from the spec: the operand data of an instruction (`InsnData`). The jump opcode
field of `Jump` is read by no modelled function and is left out. -/
inductive InsnData where
  | unary (code : UnaryOp) (arg : Value)
  | binary (code : BinaryOp) (lhs rhs : Value)
  | cast (code : CastOp) (arg : Value) (ty : Ty)
  | load (addr : Value) (ty : Ty) (loc : DataLocationKind)
  | store (addr data : Value) (loc : DataLocationKind)
  | jump (dest : Block)
  | branch (cond : Value) (thenDest elseDest : Block)
  | brTable (args : List Value) (default : Option Block) (table : List Block)
  | alloca (ty : Ty)
  | ret (args : Option Value)
  | phi (values : List Value) (blocks : List Block) (ty : Ty)
  deriving DecidableEq, Repr

/-- Comparisons produce a one-bit integer; every other binary operation the operand type. -/
def BinaryOp.isCmp : BinaryOp → Bool
  | .lt | .gt | .slt | .sgt | .le | .ge | .sle | .sge | .eq | .ne => true
  | _ => false

/-- Modelled from the spec: what `InsnData::analyze_branch` tells about a terminator. -/
inductive BranchInfo where
  | notBranch
  | jump (dest : Block)
  | br (cond : Value) (thenDest elseDest : Block)
  | brTable (args : List Value) (default : Option Block) (table : List Block)
  deriving DecidableEq, Repr

namespace BranchInfo

/-- The destinations of a branch, one per occurrence: a `br_table` lists its default first,
then each table entry. -/
def iterDests : BranchInfo → List Block
  | .notBranch => []
  | .jump dest => [dest]
  | .br _ thenDest elseDest => [thenDest, elseDest]
  | .brTable _ default table => default.toList ++ table

/-- The number of destinations, counting the default and each table entry of a `br_table`. -/
def destsNum : BranchInfo → Nat
  | .notBranch => 0
  | .jump _ => 1
  | .br .. => 2
  | .brTable _ default table => table.length + if default.isSome then 1 else 0

/-- The number of destinations is the length of the destination list. -/
theorem destsNum_eq_length (b : BranchInfo) : b.destsNum = b.iterDests.length := by
  cases b with
  | brTable _ default table => cases default <;> simp [destsNum, iterDests, Nat.add_comm]
  | _ => rfl

end BranchInfo

/-- Setting an entry to the value it holds leaves a list as it is. -/
theorem List.set_of_getElem? {α : Type} {l : List α} {i : Nat} {a : α} (h : l[i]? = some a) :
    l.set i a = l := by
  apply List.ext_getElem?
  intro j
  rw [List.getElem?_set]
  split_ifs with hij hlt
  · subst hij; exact h.symm
  · subst hij; exact absurd (List.getElem?_eq_some_iff.1 h).1 hlt
  · rfl

namespace InsnData

/-- The operand values of an instruction, in order (`InsnData::args`). -/
def args : InsnData → List Value
  | .unary _ arg | .cast _ arg _ | .load arg _ _ => [arg]
  | .binary _ lhs rhs => [lhs, rhs]
  | .store addr data _ => [addr, data]
  | .branch cond _ _ => [cond]
  | .brTable args _ _ => args
  | .ret args => args.toList
  | .phi values _ _ => values
  | .jump _ | .alloca _ => []

/-- Rewriting every operand through `args_mut`, as `DataFlowGraph::change_to_alias` does. -/
def mapArgs (f : Value → Value) : InsnData → InsnData
  | .unary code arg => .unary code (f arg)
  | .binary code lhs rhs => .binary code (f lhs) (f rhs)
  | .cast code arg ty => .cast code (f arg) ty
  | .load addr ty loc => .load (f addr) ty loc
  | .store addr data loc => .store (f addr) (f data) loc
  | .branch cond thenDest elseDest => .branch (f cond) thenDest elseDest
  | .brTable args default table => .brTable (args.map f) default table
  | .ret args => .ret (args.map f)
  | .phi values blocks ty => .phi (values.map f) blocks ty
  | d@(.jump _) | d@(.alloca _) => d

/-- Writing operand `idx` through `args_mut` (`args[idx] = v`); an index past the operands
leaves them as they are, and `DataFlowGraph::replace_insn_arg` checks it before writing. -/
def setArg (idx : Nat) (v : Value) : InsnData → InsnData
  | .unary code arg => .unary code (if idx = 0 then v else arg)
  | .binary code lhs rhs => .binary code (if idx = 0 then v else lhs) (if idx = 1 then v else rhs)
  | .cast code arg ty => .cast code (if idx = 0 then v else arg) ty
  | .load addr ty loc => .load (if idx = 0 then v else addr) ty loc
  | .store addr data loc => .store (if idx = 0 then v else addr) (if idx = 1 then v else data) loc
  | .branch cond thenDest elseDest => .branch (if idx = 0 then v else cond) thenDest elseDest
  | .brTable args default table => .brTable (args.set idx v) default table
  | .ret args => .ret (if idx = 0 then args.map fun _ => v else args)
  | .phi values blocks ty => .phi (values.set idx v) blocks ty
  | d@(.jump _) | d@(.alloca _) => d

/-- Modelled from the spec: push one `(value, block)` entry onto a phi; any other
instruction panics. -/
def appendPhiArg (value : Value) (block : Block) : InsnData → Option InsnData
  | .phi values blocks ty => some (.phi (values ++ [value]) (blocks ++ [block]) ty)
  | _ => none

/-- Modelled from the spec: remove the first phi entry flowing from `fromBlock` and return its
value; a non-phi, or a phi with no entry from the block, panics. -/
def removePhiArg (fromBlock : Block) : InsnData → Option (InsnData × Value)
  | .phi values blocks ty => do
      let pos ← blocks.findIdx? (· == fromBlock)
      let removed ← values[pos]?
      pure (.phi (values.eraseIdx pos) (blocks.eraseIdx pos) ty, removed)
  | _ => none

/-- Modelled from the spec: the branch view of an instruction. -/
def analyzeBranch : InsnData → BranchInfo
  | .jump dest => .jump dest
  | .branch cond thenDest elseDest => .br cond thenDest elseDest
  | .brTable args default table => .brTable args default table
  | _ => .notBranch

/-- Modelled from the spec: rename every destination `fromBlock` of a terminator to `toBlock`;
operands are untouched. -/
def rewriteBranchDest (fromBlock toBlock : Block) : InsnData → InsnData
  | .jump dest => .jump (if dest = fromBlock then toBlock else dest)
  | .branch cond thenDest elseDest =>
      .branch cond (if thenDest = fromBlock then toBlock else thenDest)
        (if elseDest = fromBlock then toBlock else elseDest)
  | .brTable args default table =>
      .brTable args (default.map fun d => if d = fromBlock then toBlock else d)
        (table.map fun d => if d = fromBlock then toBlock else d)
  | d => d

/-- Modelled from the spec: the result type of an instruction (`InsnData::result_type`), given
the types of the values. The outer `none` is the panic of `value_ty` on a value the arena does
not hold; the inner option is `None` for instructions without a result. -/
def resultType (valueTy : Value → Option Ty) : InsnData → Option (Option Ty)
  | .unary _ arg => (valueTy arg).map some
  | .binary code lhs _ => if code.isCmp then some (some .i1) else (valueTy lhs).map some
  | .cast _ _ ty | .load _ ty _ | .phi _ _ ty => some (some ty)
  | .alloca ty => some (some (.ptr ty))
  | .store .. | .jump _ | .branch .. | .brTable .. | .ret _ => some none

/-- Whether an instruction is a phi (`InsnData::is_phi`). -/
def isPhi : InsnData → Bool
  | .phi .. => true
  | _ => false

/-- Whether a phi has one block per value, so that its two vectors zip into the entry list of the
specification; every other instruction has. -/
def phiPaired : InsnData → Bool
  | .phi values blocks _ => values.length == blocks.length
  | _ => true

@[simp] theorem args_mapArgs (f : Value → Value) (d : InsnData) :
    (d.mapArgs f).args = d.args.map f := by
  cases d with
  | ret args => cases args <;> rfl
  | _ => rfl

/-- Rewriting operands through a function that fixes each of them leaves the data as it was. -/
theorem mapArgs_eq_self {f : Value → Value} {d : InsnData} (h : ∀ a ∈ d.args, f a = a) :
    d.mapArgs f = d := by
  cases d with
  | brTable vs | phi vs =>
      simp only [mapArgs, InsnData.args] at h ⊢
      rw [List.map_congr_left h, List.map_id']
  | ret arg => cases arg <;> simp_all [mapArgs, InsnData.args]
  | _ => simp_all [mapArgs, args]

/-- Rewriting operands twice is rewriting them through the composite. -/
@[simp] theorem mapArgs_mapArgs (f g : Value → Value) (d : InsnData) :
    (d.mapArgs f).mapArgs g = d.mapArgs (g ∘ f) := by
  cases d with
  | ret args => cases args <;> rfl
  | _ => simp [mapArgs]

@[simp] theorem args_setArg (idx : Nat) (v : Value) (d : InsnData) :
    (d.setArg idx v).args = d.args.set idx v := by
  cases d with
  | brTable | phi | jump | alloca => rfl
  | ret args => cases args <;> rcases idx with _ | _ <;> rfl
  | _ => rcases idx with _ | _ | _ <;> rfl

@[simp] theorem args_rewriteBranchDest (fromBlock toBlock : Block) (d : InsnData) :
    (d.rewriteBranchDest fromBlock toBlock).args = d.args := by
  cases d <;> rfl

/-- Writing operand `idx` twice keeps the second write. -/
@[simp] theorem setArg_setArg (idx : Nat) (v w : Value) (d : InsnData) :
    (d.setArg idx v).setArg idx w = d.setArg idx w := by
  cases d with
  | ret args => by_cases h : idx = 0 <;> simp [setArg, h, Option.map_map, Function.comp_def]
  | brTable | phi => simp [setArg, List.set_set]
  | _ => by_cases h0 : idx = 0 <;> by_cases h1 : idx = 1 <;> simp [setArg, h0, h1]

/-- Writing back the operand that is at `idx` leaves the data as it is. -/
theorem setArg_of_getElem? {idx : Nat} {a : Value} {d : InsnData} (h : d.args[idx]? = some a) :
    d.setArg idx a = d := by
  cases d with
  | brTable args default table =>
      exact congrArg (InsnData.brTable · default table) (List.set_of_getElem? h)
  | phi values blocks ty => exact congrArg (InsnData.phi · blocks ty) (List.set_of_getElem? h)
  | ret args => cases args <;> rcases idx with _ | _ <;> simp_all [setArg, InsnData.args]
  | _ => rcases idx with _ | _ | _ <;> simp_all [setArg, InsnData.args]

/-- Appending an entry works on phis only, at the end of both lists. -/
theorem appendPhiArg_eq_some {value : Value} {block : Block} {d d' : InsnData}
    (h : d.appendPhiArg value block = some d') : d'.args = d.args ++ [value] := by
  cases d <;> simp only [appendPhiArg, reduceCtorEq, Option.some.injEq] at h
  subst h
  rfl

/-- A removed phi entry takes its value out of the operand list at the entry's position. -/
theorem removePhiArg_eq_some {fromBlock : Block} {d d' : InsnData} {removed : Value}
    (h : d.removePhiArg fromBlock = some (d', removed)) :
    ∃ pos, d.args[pos]? = some removed ∧ d'.args = d.args.eraseIdx pos := by
  cases d <;> simp only [removePhiArg, reduceCtorEq] at h
  simp only [bind, Option.bind_eq_some, pure, Option.some.injEq, Prod.mk.injEq] at h
  obtain ⟨pos, -, v, hv, rfl, rfl⟩ := h
  exact ⟨pos, hv, rfl⟩

/-- Removing a phi entry leaves a phi. -/
theorem removePhiArg_isPhi {fromBlock : Block} {d d' : InsnData} {removed : Value}
    (h : d.removePhiArg fromBlock = some (d', removed)) : d'.isPhi := by
  cases d <;> simp only [removePhiArg, reduceCtorEq] at h
  simp only [bind, Option.bind_eq_some, pure, Option.some.injEq, Prod.mk.injEq] at h
  obtain ⟨pos, -, v, -, rfl, rfl⟩ := h
  rfl

@[simp] theorem phiPaired_mapArgs (f : Value → Value) (d : InsnData) :
    (d.mapArgs f).phiPaired = d.phiPaired := by
  cases d <;> simp [mapArgs, phiPaired]

@[simp] theorem phiPaired_setArg (idx : Nat) (v : Value) (d : InsnData) :
    (d.setArg idx v).phiPaired = d.phiPaired := by
  cases d <;> simp [setArg, phiPaired]

@[simp] theorem phiPaired_rewriteBranchDest (fromBlock toBlock : Block) (d : InsnData) :
    (d.rewriteBranchDest fromBlock toBlock).phiPaired = d.phiPaired := by
  cases d <;> rfl

/-- An instruction that is no phi is paired. -/
theorem phiPaired_of_isPhi_eq_false {d : InsnData} (h : d.isPhi = false) : d.phiPaired := by
  cases d <;> simp_all [isPhi, phiPaired]

/-- Appending an entry keeps a phi paired. -/
theorem phiPaired_appendPhiArg {value : Value} {block : Block} {d d' : InsnData}
    (hd : d.phiPaired) (h : d.appendPhiArg value block = some d') : d'.phiPaired := by
  cases d <;> simp only [appendPhiArg, reduceCtorEq, Option.some.injEq] at h
  subst h
  simpa [phiPaired] using hd

/-- Removing an entry keeps a phi paired: both vectors lose the element at the entry's
position. -/
theorem phiPaired_removePhiArg {fromBlock : Block} {d d' : InsnData} {removed : Value}
    (hd : d.phiPaired) (h : d.removePhiArg fromBlock = some (d', removed)) : d'.phiPaired := by
  cases d <;> simp only [removePhiArg, reduceCtorEq] at h
  simp only [bind, Option.bind_eq_some, pure, Option.some.injEq, Prod.mk.injEq] at h
  obtain ⟨pos, hpos, v, hv, rfl, rfl⟩ := h
  have hb := (List.findIdx?_eq_some_iff_getElem.1 hpos).1
  have hvl := (List.getElem?_eq_some_iff.1 hv).1
  simp only [phiPaired, beq_iff_eq] at hd ⊢
  rw [List.length_eraseIdx_of_lt hvl, List.length_eraseIdx_of_lt hb, hd]

end InsnData

end Sonatina
