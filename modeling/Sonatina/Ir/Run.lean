import Sonatina.Ir.Dfg

/-!
# Runs of the Data-Flow Graph

`DfgOp` lists the public methods of `DataFlowGraph` that change the graph, with their
arguments; `DataFlowGraph.apply` runs one, and `DataFlowGraph.Reachable` is the set of graphs
that some sequence of them reaches from `DataFlowGraph.new`.

`apply_cases` says once what a call can do; the frame lemmas read off it which methods write
which part of the graph:

* `apply_values` — only `make_value`, `make_imm_value` and `make_global_value` touch the value
  arena, each pushing one value, and only the first can push an instruction result;
* `apply_immediates` — only `make_imm_value` writes the interning map, and only at a missing key;
* `apply_insnResults` — only `attach_result` writes the result map, and only at an empty entry;
* `apply_insns_length` — the instruction arena never shrinks.
-/

namespace Sonatina

/-- One call of a public method of `DataFlowGraph` that changes the graph, with its
arguments. -/
inductive DfgOp where
  | makeBlock
  | makeValue (value : ValueData)
  | makeInsn (insn : InsnData)
  | makeImmValue (imm : Immediate)
  | makeGlobalValue (gvStore : GlobalVariableStore) (gv : GlobalVariable)
  | replaceInsn (insn : Insn) (insnData : InsnData)
  | changeToAlias (value aliasValue : Value)
  | attachResult (insn : Insn) (value : Value)
  | attachUser (insn : Insn)
  | removeUser (value : Value) (user : Insn)
  | appendPhiArg (insn : Insn) (value : Value) (block : Block)
  | removePhiArg (insn : Insn) (fromBlock : Block)
  | replaceInsnArg (insn : Insn) (newArg : Value) (idx : Nat)
  | removeBranchDest (insn : Insn) (dest : Block)
  | rewriteBranchDest (insn : Insn) (fromBlock toBlock : Block)

namespace DataFlowGraph

/-- Run one method call; `none` when it panics. -/
def apply (dfg : DataFlowGraph) : DfgOp → Option DataFlowGraph
  | .makeBlock => some dfg.makeBlock.1
  | .makeValue value => some (dfg.makeValue value).1
  | .makeInsn insn => some (dfg.makeInsn insn).1
  | .makeImmValue imm => some (dfg.makeImmValue imm).1
  | .makeGlobalValue gvStore gv => (dfg.makeGlobalValue gvStore gv).map Prod.fst
  | .replaceInsn insn insnData => dfg.replaceInsn insn insnData
  | .changeToAlias value aliasValue => dfg.changeToAlias value aliasValue
  | .attachResult insn value => dfg.attachResult insn value
  | .attachUser insn => dfg.attachUser insn
  | .removeUser value user => some (dfg.removeUser value user)
  | .appendPhiArg insn value block => dfg.appendPhiArg insn value block
  | .removePhiArg insn fromBlock => (dfg.removePhiArg insn fromBlock).map Prod.fst
  | .replaceInsnArg insn newArg idx => (dfg.replaceInsnArg insn newArg idx).map Prod.fst
  | .removeBranchDest insn dest => dfg.removeBranchDest insn dest
  | .rewriteBranchDest insn fromBlock toBlock => dfg.rewriteBranchDest insn fromBlock toBlock

/-- One successful method call leads from `dfg` to `dfg'`. -/
def Step (dfg dfg' : DataFlowGraph) : Prop :=
  ∃ op, dfg.apply op = some dfg'

/-- The graphs some sequence of method calls reaches from `dfg`. -/
def ReachableFrom (dfg : DataFlowGraph) : DataFlowGraph → Prop :=
  Relation.ReflTransGen Step dfg

/-- The graphs some sequence of method calls reaches from the empty graph. -/
def Reachable : DataFlowGraph → Prop :=
  ReachableFrom new

variable {dfg dfg' : DataFlowGraph} {op : DfgOp}

/-- A successful `make_global_value` pushes a global pointer value. -/
theorem apply_makeGlobalValue {gvStore : GlobalVariableStore} {gv : GlobalVariable}
    (h : dfg.apply (.makeGlobalValue gvStore gv) = some dfg') :
    ∃ gvTy, gvStore.ty gv = some gvTy ∧ dfg' = (dfg.makeValue (.global gv (.ptr gvTy))).1 := by
  obtain ⟨r, hr, rfl⟩ := Option.map_eq_some'.1 h
  obtain ⟨gvTy, hty, rfl⟩ := makeGlobalValue_eq_some.1 hr
  exact ⟨gvTy, hty, rfl⟩

/-- A successful `remove_phi_arg`, through `removePhiArg_eq_some`. -/
theorem apply_removePhiArg {insn : Insn} {fromBlock : Block}
    (h : dfg.apply (.removePhiArg insn fromBlock) = some dfg') :
    ∃ data data' removed, dfg.insnData? insn = some data ∧
      data.removePhiArg fromBlock = some (data', removed) ∧
      dfg' = ({ dfg with insns := dfg.insns.set insn.index data' } : DataFlowGraph).removeUser
        removed insn := by
  obtain ⟨⟨d, removed⟩, hr, rfl⟩ := Option.map_eq_some'.1 h
  obtain ⟨data, data', hdata, hrem, hd⟩ := removePhiArg_eq_some.1 hr
  exact ⟨data, data', removed, hdata, hrem, hd⟩

/-- A successful `replace_insn_arg` keeps the graph it computes. -/
theorem apply_replaceInsnArg {insn : Insn} {newArg : Value} {idx : Nat}
    (h : dfg.apply (.replaceInsnArg insn newArg idx) = some dfg') :
    ∃ r, dfg.replaceInsnArg insn newArg idx = some r ∧ dfg' = r.1 := by
  obtain ⟨r, hr, rfl⟩ := Option.map_eq_some'.1 h
  exact ⟨r, hr, rfl⟩

/-- **What one call can do.** Every call but four leaves the value arena, the interning map and
the result map as they are, and does not shrink the instruction arena; the four are the three
value constructors and the attaching of a result to an instruction without one. -/
theorem apply_cases (h : dfg.apply op = some dfg') :
    (dfg'.values = dfg.values ∧ dfg'.immediates = dfg.immediates ∧
      dfg'.insnResults = dfg.insnResults ∧ dfg.insns.length ≤ dfg'.insns.length) ∨
    (∃ value, op = .makeValue value ∧ dfg' = (dfg.makeValue value).1) ∨
    (∃ imm, op = .makeImmValue imm ∧ dfg' = (dfg.makeImmValue imm).1) ∨
    (∃ gvStore gv gvTy, op = .makeGlobalValue gvStore gv ∧
      dfg' = (dfg.makeValue (.global gv (.ptr gvTy))).1) ∨
    (∃ insn value, op = .attachResult insn value ∧ dfg.insnResults insn = none ∧
      dfg' = { dfg with insnResults := Function.update dfg.insnResults insn (some value) }) := by
  cases op with
  | makeValue value => cases h; exact .inr (.inl ⟨value, rfl, rfl⟩)
  | makeImmValue imm => cases h; exact .inr (.inr (.inl ⟨imm, rfl, rfl⟩))
  | makeGlobalValue gvStore gv =>
      obtain ⟨gvTy, -, rfl⟩ := apply_makeGlobalValue h
      exact .inr (.inr (.inr (.inl ⟨gvStore, gv, gvTy, rfl, rfl⟩)))
  | attachResult insn value =>
      obtain ⟨hnone, rfl⟩ := attachResult_eq_some.1 h
      exact .inr (.inr (.inr (.inr ⟨insn, value, rfl, hnone, rfl⟩)))
  | makeBlock | removeUser => cases h; exact .inl ⟨rfl, rfl, rfl, le_rfl⟩
  | makeInsn => cases h; exact .inl ⟨rfl, rfl, rfl, by simp [makeInsn]⟩
  | replaceInsn =>
      obtain ⟨_, -, rfl⟩ := replaceInsn_eq_some.1 h
      exact .inl ⟨rfl, rfl, rfl, by simp⟩
  | changeToAlias =>
      obtain ⟨-, rfl⟩ := changeToAlias_eq_some.1 h
      exact .inl ⟨rfl, rfl, rfl, by simp⟩
  | attachUser => obtain ⟨_, -, rfl⟩ := attachUser_eq_some.1 h; exact .inl ⟨rfl, rfl, rfl, le_rfl⟩
  | appendPhiArg =>
      obtain ⟨_, _, -, -, rfl⟩ := appendPhiArg_eq_some.1 h
      exact .inl ⟨rfl, rfl, rfl, by simp⟩
  | removePhiArg =>
      obtain ⟨_, _, _, -, -, rfl⟩ := apply_removePhiArg h
      exact .inl ⟨rfl, rfl, rfl, by simp [removeUser]⟩
  | replaceInsnArg =>
      obtain ⟨r, hr, rfl⟩ := apply_replaceInsnArg h
      obtain ⟨_, -, -, h1⟩ := replaceInsnArg_eq_some.1 hr
      rw [h1]
      exact .inl ⟨rfl, rfl, rfl, by simp⟩
  | removeBranchDest =>
      rcases removeBranchDest_eq_some h with
        ⟨_, _, _, -, -, rfl⟩ | ⟨_, _, _, -, ⟨-, _, -, rfl⟩ | ⟨-, rfl⟩⟩ <;>
      exact .inl ⟨rfl, rfl, rfl, by simp⟩
  | rewriteBranchDest =>
      obtain ⟨_, -, rfl⟩ := rewriteBranchDest_eq_some.1 h
      exact .inl ⟨rfl, rfl, rfl, by simp⟩

/-- Only the three value constructors touch the value arena, each pushing one value; only
`make_value` can push the result of an instruction. -/
theorem apply_values (h : dfg.apply op = some dfg') :
    dfg'.values = dfg.values ∨
      ∃ d, dfg'.values = dfg.values ++ [d] ∧
        (op = .makeValue d ∨ ∀ insn ty, d ≠ .insn insn ty) := by
  rcases apply_cases h with ⟨hv, -⟩ | ⟨value, rfl, rfl⟩ | ⟨imm, rfl, rfl⟩ | ⟨-, -, -, rfl, rfl⟩ |
    ⟨-, -, rfl, -, rfl⟩
  · exact .inl hv
  · exact .inr ⟨value, rfl, .inl rfl⟩
  · cases hi : dfg.immediates imm
    · rw [makeImmValue_of_not_interned hi]
      exact .inr ⟨_, rfl, .inr fun _ _ => nofun⟩
    · rw [makeImmValue_of_interned hi]
      exact .inl rfl
  · exact .inr ⟨_, rfl, .inr fun _ _ => nofun⟩
  · exact .inl rfl

/-- The value arena only grows. -/
theorem apply_values_prefix (h : dfg.apply op = some dfg') : dfg.values <+: dfg'.values := by
  rcases apply_values h with h' | ⟨d, h', -⟩ <;> rw [h']
  exact List.prefix_append _ _

/-- Only `make_imm_value` writes the interning map, at a key that was missing, with the value
it pushed. -/
theorem apply_immediates (h : dfg.apply op = some dfg') :
    dfg'.immediates = dfg.immediates ∨
      ∃ imm, dfg.immediates imm = none ∧ dfg'.values = dfg.values ++ [.immediate imm imm.ty] ∧
        dfg'.immediates = Function.update dfg.immediates imm (some ⟨dfg.values.length⟩) := by
  rcases apply_cases h with ⟨-, himm, -⟩ | ⟨-, rfl, rfl⟩ | ⟨imm, rfl, rfl⟩ | ⟨-, -, -, rfl, rfl⟩ |
    ⟨-, -, rfl, -, rfl⟩
  · exact .inl himm
  · exact .inl rfl
  · cases hi : dfg.immediates imm
    · rw [makeImmValue_of_not_interned hi]
      exact .inr ⟨imm, hi, rfl, rfl⟩
    · rw [makeImmValue_of_interned hi]
      exact .inl rfl
  · exact .inl rfl
  · exact .inl rfl

/-- Only `attach_result` writes the result map, at an instruction without a result. -/
theorem apply_insnResults (h : dfg.apply op = some dfg') :
    dfg'.insnResults = dfg.insnResults ∨
      ∃ insn value, op = .attachResult insn value ∧ dfg.insnResults insn = none ∧
        dfg'.insnResults = Function.update dfg.insnResults insn (some value) := by
  rcases apply_cases h with ⟨-, -, hres, -⟩ | ⟨-, rfl, rfl⟩ | ⟨imm, rfl, rfl⟩ |
    ⟨-, -, -, rfl, rfl⟩ | ⟨insn, value, rfl, hnone, rfl⟩
  · exact .inl hres
  · exact .inl rfl
  · exact .inl (insnResults_makeImmValue dfg imm)
  · exact .inl rfl
  · exact .inr ⟨insn, value, rfl, hnone, rfl⟩

/-- The instruction arena never shrinks: `make_insn` pushes one instruction, the other methods
rewrite instructions in place or leave the arena alone. -/
theorem apply_insns_length (h : dfg.apply op = some dfg') :
    dfg.insns.length ≤ dfg'.insns.length := by
  rcases apply_cases h with ⟨-, -, -, hlen⟩ | ⟨-, rfl, rfl⟩ | ⟨imm, rfl, rfl⟩ |
    ⟨-, -, -, rfl, rfl⟩ | ⟨-, -, rfl, -, rfl⟩
  · exact hlen
  · exact le_rfl
  · rw [insns_makeImmValue]
  · exact le_rfl
  · exact le_rfl

/-- The data of a value never changes once it is pushed. -/
theorem valueData?_apply {v : Value} {d : ValueData} (h : dfg.apply op = some dfg')
    (hv : dfg.valueData? v = some d) : dfg'.valueData? v = some d := by
  obtain ⟨t, ht⟩ := apply_values_prefix h
  simp only [valueData?, ← ht] at hv ⊢
  rw [List.getElem?_append_left (List.getElem?_eq_some_iff.1 hv).1, hv]

/-- Along any run, the data of a value never changes once it is pushed. -/
theorem valueData?_of_reachableFrom {v : Value} {d : ValueData} (h : dfg.ReachableFrom dfg')
    (hv : dfg.valueData? v = some d) : dfg'.valueData? v = some d := by
  induction h with
  | refl => exact hv
  | tail _ hstep ih => obtain ⟨op, hop⟩ := hstep; exact valueData?_apply hop ih

/-- Runs compose. -/
theorem ReachableFrom.trans {dfg'' : DataFlowGraph} (h : dfg.ReachableFrom dfg')
    (h' : dfg'.ReachableFrom dfg'') : dfg.ReachableFrom dfg'' :=
  Relation.ReflTransGen.trans h h'

/-- A run extends by one call. -/
theorem ReachableFrom.tail {dfg'' : DataFlowGraph} (h : dfg.ReachableFrom dfg')
    (h' : dfg'.Step dfg'') : dfg.ReachableFrom dfg'' :=
  Relation.ReflTransGen.tail h h'

end DataFlowGraph

end Sonatina
