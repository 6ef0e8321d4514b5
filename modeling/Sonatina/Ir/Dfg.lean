import Mathlib.Data.Finset.Basic
import Mathlib.Logic.Relation
import Sonatina.Ir.Insn

/-!
# The Data-Flow Graph

`DataFlowGraph` is the per-function arena of `dfg.rs`: the values, the instructions, the
secondary map from an instruction to its result, the interning map of immediates, and the
user sets, one `BTreeSet<Insn>` per value. The arenas are `PrimaryMap`s, append-only vectors
indexed by the handle, modelled as lists; the `SecondaryMap`s are total maps with a default
(`none`, the empty set), modelled as functions; the user sets are finite sets.

Every public method of `DataFlowGraph` that changes the graph is a function here under its
source name. A method that indexes an arena with a handle the arena does not hold, or that
fails an `unwrap`, a `panic!` or a `debug_assert!`, returns `none`; methods that cannot fail
return the graph directly. The module context is read by two methods only, through its
global-variable store, which is passed to them at the call.

The loops of the source that record or drop users are `insertUsers` and `removeUsers`, with
closed forms `insertUsers_apply` and `removeUsers_apply`. Each fallible method has one
inversion lemma saying exactly what a successful call returns; later modules use those and
never unfold a method.
-/

namespace Sonatina

/-- The data-flow graph of one function (`DataFlowGraph`). The block arena holds empty
`BlockData` and is kept as its length; the module context is not stored (see the module
docstring). -/
structure DataFlowGraph where
  blocks : Nat
  values : List ValueData
  insns : List InsnData
  insnResults : Insn → Option Value
  immediates : Immediate → Option Value
  users : Value → Finset Insn

/-- Record `insn` as a user of each operand in `args`, in order (the loop of `attach_user`). -/
def insertUsers (users : Value → Finset Insn) (args : List Value) (insn : Insn) :
    Value → Finset Insn :=
  args.foldl (fun users arg => Function.update users arg (insert insn (users arg))) users

/-- Drop `insn` from the users of each value in `args`, in order (the `remove_user` loops of
`replace_insn` and `remove_branch_dest`). -/
def removeUsers (users : Value → Finset Insn) (args : List Value) (insn : Insn) :
    Value → Finset Insn :=
  args.foldl (fun users arg => Function.update users arg ((users arg).erase insn)) users

/-- Recording a user adds it to the user set of each operand and of nothing else. -/
theorem insertUsers_apply (users : Value → Finset Insn) (args : List Value) (insn : Insn)
    (v : Value) :
    insertUsers users args insn v = if v ∈ args then insert insn (users v) else users v := by
  induction args generalizing users with
  | nil => simp [insertUsers]
  | cons a args ih =>
      simp only [insertUsers, List.foldl_cons] at ih ⊢
      rw [ih]
      by_cases hv : v = a
      · subst hv; simp
      · simp [Function.update_noteq hv, hv]

/-- Dropping a user removes it from the user set of each listed value and of nothing else. -/
theorem removeUsers_apply (users : Value → Finset Insn) (args : List Value) (insn : Insn)
    (v : Value) :
    removeUsers users args insn v = if v ∈ args then (users v).erase insn else users v := by
  induction args generalizing users with
  | nil => simp [removeUsers]
  | cons a args ih =>
      simp only [removeUsers, List.foldl_cons] at ih ⊢
      rw [ih]
      by_cases hv : v = a
      · subst hv; simp
      · simp [Function.update_noteq hv, hv]

@[simp] theorem mem_insertUsers {users : Value → Finset Insn} {args : List Value}
    {insn i : Insn} {v : Value} :
    i ∈ insertUsers users args insn v ↔ (v ∈ args ∧ i = insn) ∨ i ∈ users v := by
  rw [insertUsers_apply]
  split_ifs <;> simp [*]

@[simp] theorem mem_removeUsers {users : Value → Finset Insn} {args : List Value}
    {insn i : Insn} {v : Value} :
    i ∈ removeUsers users args insn v ↔ i ∈ users v ∧ (v ∈ args → i ≠ insn) := by
  rw [removeUsers_apply]
  split_ifs <;> simp [*, and_comm]

@[simp] theorem mem_update_insert {users : Value → Finset Insn} {a v : Value} {insn i : Insn} :
    i ∈ Function.update users a (insert insn (users a)) v ↔ (v = a ∧ i = insn) ∨ i ∈ users v := by
  rw [Function.update_apply]
  split_ifs with hv <;> simp [hv]

@[simp] theorem mem_update_erase {users : Value → Finset Insn} {a v : Value} {insn i : Insn} :
    i ∈ Function.update users a ((users a).erase insn) v ↔ i ∈ users v ∧ (v = a → i ≠ insn) := by
  rw [Function.update_apply]
  split_ifs with hv <;> simp [hv, and_comm]

namespace DataFlowGraph

/-- The empty graph (`DataFlowGraph::new`). -/
def new : DataFlowGraph :=
  ⟨0, [], [], fun _ => none, fun _ => none, fun _ => ∅⟩

/-! ### Queries -/

/-- The data of an instruction (`insns[insn]`); `none` where the arena index panics. -/
def insnData? (dfg : DataFlowGraph) (insn : Insn) : Option InsnData :=
  dfg.insns[insn.index]?

/-- The data of a value (`values[value]`); `none` where the arena index panics. -/
def valueData? (dfg : DataFlowGraph) (value : Value) : Option ValueData :=
  dfg.values[value.index]?

/-- The operands of an instruction (`insn_args`). -/
def insnArgs (dfg : DataFlowGraph) (insn : Insn) : Option (List Value) :=
  (dfg.insnData? insn).map InsnData.args

/-- The type of a value (`value_ty`). -/
def valueTy (dfg : DataFlowGraph) (value : Value) : Option Ty :=
  (dfg.valueData? value).map ValueData.ty

/-- The defining instruction of a result value (`value_insn`); a value the arena does not hold
has none. -/
def valueInsn (dfg : DataFlowGraph) (value : Value) : Option Insn :=
  match dfg.valueData? value with
  | some (.insn insn _) => some insn
  | _ => none

/-- The immediate a value stands for (`value_imm`): an interned immediate, or the scalar
initialiser of a constant global read from the module's store. -/
def valueImm (dfg : DataFlowGraph) (gvStore : GlobalVariableStore) (value : Value) :
    Option Immediate :=
  match dfg.valueData? value with
  | some (.immediate imm _) => some imm
  | some (.global gv _) => gvStore.constImm gv
  | _ => none

/-- The result value attached to an instruction (`insn_result`). -/
def insnResult (dfg : DataFlowGraph) (insn : Insn) : Option Value :=
  dfg.insnResults insn

/-- The type of an instruction's result (`insn_result_ty`): `some none` for an instruction
without a result, `none` where `value_ty` panics on the result. -/
def insnResultTy (dfg : DataFlowGraph) (insn : Insn) : Option (Option Ty) :=
  match dfg.insnResult insn with
  | none => some none
  | some value => (dfg.valueTy value).map some

/-- Whether an instruction is a phi (`is_phi`). -/
def isPhi (dfg : DataFlowGraph) (insn : Insn) : Option Bool :=
  (dfg.insnData? insn).map InsnData.isPhi

/-! ### Methods that change the graph -/

/-- Allocate an unattached block (`make_block`). -/
def makeBlock (dfg : DataFlowGraph) : DataFlowGraph × Block :=
  ({ dfg with blocks := dfg.blocks + 1 }, ⟨dfg.blocks⟩)

/-- Push a value onto the arena (`make_value`). -/
def makeValue (dfg : DataFlowGraph) (value : ValueData) : DataFlowGraph × Value :=
  ({ dfg with values := dfg.values ++ [value] }, ⟨dfg.values.length⟩)

/-- Push an instruction and record it as a user of its operands (`make_insn`). -/
def makeInsn (dfg : DataFlowGraph) (insn : InsnData) : DataFlowGraph × Insn :=
  ({ dfg with
      insns := dfg.insns ++ [insn]
      users := insertUsers dfg.users insn.args ⟨dfg.insns.length⟩ },
    ⟨dfg.insns.length⟩)

/-- Intern an immediate (`make_imm_value`): return the value already interned for it, or push
a new immediate value and intern it. -/
def makeImmValue (dfg : DataFlowGraph) (imm : Immediate) : DataFlowGraph × Value :=
  match dfg.immediates imm with
  | some value => (dfg, value)
  | none =>
      let (dfg, value) := dfg.makeValue (.immediate imm imm.ty)
      ({ dfg with immediates := Function.update dfg.immediates imm (some value) }, value)

/-- Push the address of a global, typed as a pointer to the global's type
(`make_global_value`). -/
def makeGlobalValue (dfg : DataFlowGraph) (gvStore : GlobalVariableStore)
    (gv : GlobalVariable) : Option (DataFlowGraph × Value) := do
  let gvTy ← gvStore.ty gv
  pure (dfg.makeValue (.global gv (.ptr gvTy)))

/-- Replace an instruction's data, moving its user edges from the old operands to the new
(`replace_insn`). -/
def replaceInsn (dfg : DataFlowGraph) (insn : Insn) (insnData : InsnData) :
    Option DataFlowGraph := do
  let old ← dfg.insnData? insn
  let users := removeUsers dfg.users old.args insn
  pure { dfg with
    insns := dfg.insns.set insn.index insnData
    users := insertUsers users insnData.args insn }

/-- Redirect the uses of `value` to `aliasValue` (`change_to_alias`): take the user set of
`value`, rewrite the occurrences of `value` in each of those instructions, and add the taken
set to the users of `aliasValue`. Indexing an instruction the arena does not hold panics. -/
def changeToAlias (dfg : DataFlowGraph) (value aliasValue : Value) : Option DataFlowGraph :=
  let users := dfg.users value
  if ∀ insn ∈ users, insn.index < dfg.insns.length then
    let taken := Function.update dfg.users value ∅
    some { dfg with
      insns := dfg.insns.mapIdx fun i data =>
        if (⟨i⟩ : Insn) ∈ users then
          data.mapArgs fun arg => if arg = value then aliasValue else arg
        else data
      users := Function.update taken aliasValue (taken aliasValue ∪ users) }
  else none

/-- The result value an instruction would get (`make_result`): `some none` for an instruction
without a result. -/
def makeResult (dfg : DataFlowGraph) (insn : Insn) : Option (Option ValueData) := do
  let data ← dfg.insnData? insn
  let ty ← data.resultType dfg.valueTy
  pure (ty.map (ValueData.insn insn))

/-- Attach a result value to an instruction (`attach_result`); its `debug_assert!` rejects an
instruction that already has one. -/
def attachResult (dfg : DataFlowGraph) (insn : Insn) (value : Value) : Option DataFlowGraph :=
  if (dfg.insnResults insn).isNone then
    some { dfg with insnResults := Function.update dfg.insnResults insn (some value) }
  else none

/-- Record an instruction as a user of each of its operands (`attach_user`). -/
def attachUser (dfg : DataFlowGraph) (insn : Insn) : Option DataFlowGraph := do
  let data ← dfg.insnData? insn
  pure { dfg with users := insertUsers dfg.users data.args insn }

/-- Drop one user edge (`remove_user`). -/
def removeUser (dfg : DataFlowGraph) (value : Value) (user : Insn) : DataFlowGraph :=
  { dfg with users := Function.update dfg.users value ((dfg.users value).erase user) }

/-- Append a phi entry and record the phi as a user of its operands (`append_phi_arg`). -/
def appendPhiArg (dfg : DataFlowGraph) (insn : Insn) (value : Value) (block : Block) :
    Option DataFlowGraph := do
  let data ← dfg.insnData? insn
  let data ← data.appendPhiArg value block
  pure { dfg with
    insns := dfg.insns.set insn.index data
    users := insertUsers dfg.users data.args insn }

/-- Remove the phi entry flowing from `fromBlock` and drop the phi from the users of the
removed value (`remove_phi_arg`). -/
def removePhiArg (dfg : DataFlowGraph) (insn : Insn) (fromBlock : Block) :
    Option (DataFlowGraph × Value) := do
  let data ← dfg.insnData? insn
  let (data, removed) ← data.removePhiArg fromBlock
  pure (({ dfg with insns := dfg.insns.set insn.index data } : DataFlowGraph).removeUser
    removed insn, removed)

/-- Substitute operand `idx` (`replace_insn_arg`): record the new operand's user edge, write
it, and drop the old operand's edge only if it occurs nowhere else in the instruction. -/
def replaceInsnArg (dfg : DataFlowGraph) (insn : Insn) (newArg : Value) (idx : Nat) :
    Option (DataFlowGraph × Value) := do
  let data ← dfg.insnData? insn
  let oldArg ← data.args[idx]?
  let data := data.setArg idx newArg
  let users := Function.update dfg.users newArg (insert insn (dfg.users newArg))
  let users :=
    if data.args.all (· != oldArg) then
      Function.update users oldArg ((users oldArg).erase insn)
    else users
  pure ({ dfg with insns := dfg.insns.set insn.index data, users := users }, oldArg)

/-- The `br_table` arm of `remove_branch_dest` before the collapse test: a default equal to
`dest` is cleared; otherwise the `(block, case value)` pairs are partitioned on `block != dest`,
the kept ones rebuild the table after the condition, and each dropped case value loses the
instruction as a user. -/
def removeTableDest (users : Value → Finset Insn) (insn : Insn) (dest : Block)
    (args : List Value) (default : Option Block) (table : List Block) :
    InsnData × (Value → Finset Insn) :=
  if some dest = default then (.brTable args none table, users)
  else
    match args with
    | [] => (.brTable args default table, users)
    | lhs :: rest =>
        let (keep, drop) := (table.zip rest).partition fun (b, _) => b != dest
        let (b, a) := keep.unzip
        (.brTable (lhs :: a) default b, removeUsers users (drop.map Prod.snd) insn)

/-- The table arm of `remove_branch_dest` rebuilds a `br_table`. -/
theorem removeTableDest_brTable (users : Value → Finset Insn) (insn : Insn) (dest : Block)
    (args : List Value) (default : Option Block) (table : List Block) :
    ∃ args' default' table',
      (removeTableDest users insn dest args default table).1 = .brTable args' default' table' := by
  unfold removeTableDest
  split_ifs
  · exact ⟨_, _, _, rfl⟩
  · split <;> exact ⟨_, _, _, rfl⟩

/-- Remove a destination of a terminator (`remove_branch_dest`). A `jump` panics; a `br`
collapses to a jump to the other destination and drops the condition's user edge; a
`br_table` goes through `removeTableDest` and, when one destination is left, becomes a jump to
it, dropping the user edges of all its operands. Any other instruction panics. -/
def removeBranchDest (dfg : DataFlowGraph) (insn : Insn) (dest : Block) :
    Option DataFlowGraph := do
  let this ← dfg.insnData? insn
  match this with
  | .branch cond thenDest elseDest =>
      let remain ←
        if thenDest = dest then some elseDest
        else if elseDest = dest then some thenDest
        else none
      pure { dfg with
        insns := dfg.insns.set insn.index (.jump remain)
        users := Function.update dfg.users cond ((dfg.users cond).erase insn) }
  | .brTable args default table =>
      let (this, users) := removeTableDest dfg.users insn dest args default table
      let branchInfo := this.analyzeBranch
      if branchInfo.destsNum = 1 then
        let remain ← branchInfo.iterDests.head?
        pure { dfg with
          insns := dfg.insns.set insn.index (.jump remain)
          users := removeUsers users this.args insn }
      else
        pure { dfg with insns := dfg.insns.set insn.index this, users := users }
  | _ => none

/-- Rename a destination of a terminator (`rewrite_branch_dest`). -/
def rewriteBranchDest (dfg : DataFlowGraph) (insn : Insn) (fromBlock toBlock : Block) :
    Option DataFlowGraph := do
  let data ← dfg.insnData? insn
  pure { dfg with insns := dfg.insns.set insn.index (data.rewriteBranchDest fromBlock toBlock) }

/-! ### Arena lemmas -/

/-- Rewriting one instruction of the arena changes the data of that instruction only. -/
theorem insnData?_set {dfg dfg' : DataFlowGraph} {insn : Insn} {old data : InsnData}
    (h : dfg.insnData? insn = some old) (h' : dfg'.insns = dfg.insns.set insn.index data)
    (i : Insn) : dfg'.insnData? i = if i = insn then some data else dfg.insnData? i := by
  have hlt : insn.index < dfg.insns.length := by
    by_contra hge
    simp [insnData?, List.getElem?_eq_none (Nat.le_of_not_lt hge)] at h
  simp only [insnData?, h', List.getElem?_set, Insn.ext_iff, @eq_comm _ insn.index]
  split_ifs <;> rfl

/-- Pushing an instruction keeps the data of the others and adds the new one at the end. -/
theorem insnData?_append {dfg dfg' : DataFlowGraph} {data : InsnData}
    (h' : dfg'.insns = dfg.insns ++ [data]) (i : Insn) :
    dfg'.insnData? i =
      if i = ⟨dfg.insns.length⟩ then some data else dfg.insnData? i := by
  simp only [insnData?, h', Insn.ext_iff]
  split_ifs with hi
  · rw [hi, List.getElem?_concat_length]
  · rcases Nat.lt_or_ge i.index dfg.insns.length with hlt | hge
    · rw [List.getElem?_append_left hlt]
    · rw [List.getElem?_eq_none (by simp; omega), List.getElem?_eq_none hge]

/-! ### Inversion lemmas -/

/-- An interned immediate returns its value and leaves the graph as it is. -/
theorem makeImmValue_of_interned {dfg : DataFlowGraph} {imm : Immediate} {value : Value}
    (h : dfg.immediates imm = some value) : dfg.makeImmValue imm = (dfg, value) := by
  simp [makeImmValue, h]

/-- A new immediate pushes an immediate value and records it. -/
theorem makeImmValue_of_not_interned {dfg : DataFlowGraph} {imm : Immediate}
    (h : dfg.immediates imm = none) :
    dfg.makeImmValue imm =
      ({ dfg with
          values := dfg.values ++ [.immediate imm imm.ty]
          immediates := Function.update dfg.immediates imm (some ⟨dfg.values.length⟩) },
        ⟨dfg.values.length⟩) := by
  simp [makeImmValue, makeValue, h]

@[simp] theorem insns_makeImmValue (dfg : DataFlowGraph) (imm : Immediate) :
    (dfg.makeImmValue imm).1.insns = dfg.insns := by
  unfold makeImmValue
  split <;> rfl

@[simp] theorem blocks_makeImmValue (dfg : DataFlowGraph) (imm : Immediate) :
    (dfg.makeImmValue imm).1.blocks = dfg.blocks := by
  unfold makeImmValue
  split <;> rfl

@[simp] theorem insnResults_makeImmValue (dfg : DataFlowGraph) (imm : Immediate) :
    (dfg.makeImmValue imm).1.insnResults = dfg.insnResults := by
  unfold makeImmValue
  split <;> rfl

@[simp] theorem users_makeImmValue (dfg : DataFlowGraph) (imm : Immediate) :
    (dfg.makeImmValue imm).1.users = dfg.users := by
  unfold makeImmValue
  split <;> rfl

/-- What `make_global_value` does: push a pointer value for a global variable of known type. -/
theorem makeGlobalValue_eq_some {dfg : DataFlowGraph} {gvStore : GlobalVariableStore}
    {gv : GlobalVariable} {r : DataFlowGraph × Value} :
    dfg.makeGlobalValue gvStore gv = some r ↔
      ∃ gvTy, gvStore.ty gv = some gvTy ∧ r = dfg.makeValue (.global gv (.ptr gvTy)) := by
  simp only [makeGlobalValue, bind, Option.bind_eq_some, pure, Option.some.injEq]
  exact exists_congr fun _ => and_congr_right fun _ => eq_comm

/-- What `replace_insn` does to the arena and to the user sets. -/
theorem replaceInsn_eq_some {dfg dfg' : DataFlowGraph} {insn : Insn} {insnData : InsnData} :
    dfg.replaceInsn insn insnData = some dfg' ↔
      ∃ old, dfg.insnData? insn = some old ∧
        dfg' = { dfg with
          insns := dfg.insns.set insn.index insnData
          users := insertUsers (removeUsers dfg.users old.args insn) insnData.args insn } := by
  simp only [replaceInsn, bind, Option.bind_eq_some, pure, Option.some.injEq]
  exact exists_congr fun _ => and_congr_right fun _ => eq_comm

/-- What `change_to_alias` does: rewrite the instructions among the users of the value. -/
theorem changeToAlias_eq_some {dfg dfg' : DataFlowGraph} {value aliasValue : Value} :
    dfg.changeToAlias value aliasValue = some dfg' ↔
      (∀ insn ∈ dfg.users value, insn.index < dfg.insns.length) ∧
        dfg' = { dfg with
          insns := dfg.insns.mapIdx fun i data =>
            if (⟨i⟩ : Insn) ∈ dfg.users value then
              data.mapArgs fun arg => if arg = value then aliasValue else arg
            else data
          users := Function.update (Function.update dfg.users value ∅) aliasValue
            (Function.update dfg.users value ∅ aliasValue ∪ dfg.users value) } := by
  simp only [changeToAlias]
  split_ifs with h
  · exact ⟨fun h' => ⟨h, (Option.some.inj h').symm⟩, fun h' => congrArg some h'.2.symm⟩
  · simp [h]

/-- What `attach_result` does: record the result of an instruction without one. -/
theorem attachResult_eq_some {dfg dfg' : DataFlowGraph} {insn : Insn} {value : Value} :
    dfg.attachResult insn value = some dfg' ↔
      dfg.insnResults insn = none ∧
        dfg' = { dfg with insnResults := Function.update dfg.insnResults insn (some value) } := by
  simp only [attachResult, Option.isNone_iff_eq_none]
  split_ifs with h
  · exact ⟨fun h' => ⟨h, (Option.some.inj h').symm⟩, fun h' => congrArg some h'.2.symm⟩
  · simp [h]

/-- What `attach_user` does: record the instruction as a user of its operands. -/
theorem attachUser_eq_some {dfg dfg' : DataFlowGraph} {insn : Insn} :
    dfg.attachUser insn = some dfg' ↔
      ∃ data, dfg.insnData? insn = some data ∧
        dfg' = { dfg with users := insertUsers dfg.users data.args insn } := by
  simp only [attachUser, bind, Option.bind_eq_some, pure, Option.some.injEq]
  exact exists_congr fun _ => and_congr_right fun _ => eq_comm

/-- What `append_phi_arg` does: append the entry and record the phi as a user of the value. -/
theorem appendPhiArg_eq_some {dfg dfg' : DataFlowGraph} {insn : Insn} {value : Value}
    {block : Block} :
    dfg.appendPhiArg insn value block = some dfg' ↔
      ∃ data data', dfg.insnData? insn = some data ∧ data.appendPhiArg value block = some data' ∧
        dfg' = { dfg with
          insns := dfg.insns.set insn.index data'
          users := insertUsers dfg.users data'.args insn } := by
  simp only [appendPhiArg, bind, Option.bind_eq_some, pure, Option.some.injEq]
  constructor
  · rintro ⟨data, hdata, data', hdata', rfl⟩
    exact ⟨data, data', hdata, hdata', rfl⟩
  · rintro ⟨data, data', hdata, hdata', rfl⟩
    exact ⟨data, hdata, data', hdata', rfl⟩

/-- What `remove_phi_arg` does: drop the entry and the phi from the users of its value. -/
theorem removePhiArg_eq_some {dfg : DataFlowGraph} {insn : Insn} {fromBlock : Block}
    {r : DataFlowGraph × Value} :
    dfg.removePhiArg insn fromBlock = some r ↔
      ∃ data data', dfg.insnData? insn = some data ∧
        data.removePhiArg fromBlock = some (data', r.2) ∧
        r.1 = ({ dfg with insns := dfg.insns.set insn.index data' } : DataFlowGraph).removeUser
          r.2 insn := by
  obtain ⟨dfg', removed⟩ := r
  simp only [removePhiArg, bind, Option.bind_eq_some, pure, Option.some.injEq, Prod.exists,
    Prod.mk.injEq]
  constructor
  · rintro ⟨data, hdata, data', v, hv, rfl, rfl⟩
    exact ⟨data, data', hdata, hv, rfl⟩
  · rintro ⟨data, data', hdata, hv, rfl⟩
    exact ⟨data, hdata, data', removed, hv, rfl, rfl⟩

/-- What `replace_insn_arg` does to the operand and to the user sets. -/
theorem replaceInsnArg_eq_some {dfg : DataFlowGraph} {insn : Insn} {newArg : Value}
    {idx : Nat} {r : DataFlowGraph × Value} :
    dfg.replaceInsnArg insn newArg idx = some r ↔
      ∃ data, dfg.insnData? insn = some data ∧ data.args[idx]? = some r.2 ∧
        r.1 = { dfg with
          insns := dfg.insns.set insn.index (data.setArg idx newArg)
          users :=
            let users := Function.update dfg.users newArg (insert insn (dfg.users newArg))
            if (data.setArg idx newArg).args.all (· != r.2) then
              Function.update users r.2 ((users r.2).erase insn)
            else users } := by
  obtain ⟨dfg', oldArg⟩ := r
  simp only [replaceInsnArg, bind, Option.bind_eq_some, pure, Option.some.injEq, Prod.mk.injEq]
  constructor
  · rintro ⟨data, hdata, v, hv, rfl, rfl⟩
    exact ⟨data, hdata, hv, rfl⟩
  · rintro ⟨data, hdata, hv, rfl⟩
    exact ⟨data, hdata, oldArg, hv, rfl, rfl⟩

/-- What `rewrite_branch_dest` does: rename a destination in place. -/
theorem rewriteBranchDest_eq_some {dfg dfg' : DataFlowGraph} {insn : Insn}
    {fromBlock toBlock : Block} :
    dfg.rewriteBranchDest insn fromBlock toBlock = some dfg' ↔
      ∃ data, dfg.insnData? insn = some data ∧
        dfg' = { dfg with
          insns := dfg.insns.set insn.index (data.rewriteBranchDest fromBlock toBlock) } := by
  simp only [rewriteBranchDest, bind, Option.bind_eq_some, pure, Option.some.injEq]
  exact exists_congr fun _ => and_congr_right fun _ => eq_comm

/-- What a successful `remove_branch_dest` did: collapse a `br` to a jump, or rebuild a
`br_table` through `removeTableDest` and collapse it when one destination is left. -/
theorem removeBranchDest_eq_some {dfg dfg' : DataFlowGraph} {insn : Insn} {dest : Block}
    (h : dfg.removeBranchDest insn dest = some dfg') :
    (∃ cond thenDest elseDest, dfg.insnData? insn = some (.branch cond thenDest elseDest) ∧
      (thenDest = dest ∨ elseDest = dest) ∧
      dfg' = { dfg with
        insns := dfg.insns.set insn.index (.jump (if thenDest = dest then elseDest else thenDest))
        users := Function.update dfg.users cond ((dfg.users cond).erase insn) }) ∨
    (∃ args default table, dfg.insnData? insn = some (.brTable args default table) ∧
      let r := removeTableDest dfg.users insn dest args default table
      ((r.1.analyzeBranch.destsNum = 1 ∧ ∃ remain, r.1.analyzeBranch.iterDests.head? = some remain ∧
          dfg' = { dfg with
            insns := dfg.insns.set insn.index (.jump remain)
            users := removeUsers r.2 r.1.args insn }) ∨
        (r.1.analyzeBranch.destsNum ≠ 1 ∧
          dfg' = { dfg with insns := dfg.insns.set insn.index r.1, users := r.2 }))) := by
  simp only [removeBranchDest, bind, Option.bind_eq_some] at h
  obtain ⟨this, hthis, h⟩ := h
  cases this with
  | branch cond thenDest elseDest =>
      refine .inl ⟨cond, thenDest, elseDest, hthis, ?_⟩
      simp only at h
      split_ifs at h with h1 h2 <;>
        simp only [Option.some_bind, Option.none_bind, pure, reduceCtorEq, Option.some.injEq] at h
      · subst h; exact ⟨.inl h1, by simp [h1]⟩
      · subst h; exact ⟨.inr h2, by simp [h1]⟩
  | brTable args default table =>
      refine .inr ⟨args, default, table, hthis, ?_⟩
      simp only at h ⊢
      split_ifs at h with hnum
      · simp only [Option.bind_eq_some, pure, Option.some.injEq] at h
        obtain ⟨remain, hremain, rfl⟩ := h
        exact .inl ⟨hnum, remain, hremain, rfl⟩
      · exact .inr ⟨hnum, (Option.some.inj h).symm⟩
  | _ => simp at h

end DataFlowGraph

end Sonatina
