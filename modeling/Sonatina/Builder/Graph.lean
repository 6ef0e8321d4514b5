import Sonatina.Builder.FuncBuilder
import Sonatina.Ir.BranchDest
import Sonatina.Ir.Phi

/-!
# The Builder Runs the Graph's Methods

Without variables, the function builder changes a function's graph only through the graph's own
methods: `append_block` makes a block, `make_imm_value` interns an immediate, `append_phi_arg`
appends a phi entry, and every instruction constructor goes through `insert_insn`, which makes
the instruction, pushes its result value and attaches it. A new function holds only its argument
values. Each of these methods keeps user sets (`KeepsUsers`), so one builder call is a run of
`KeepsUsersStep`s of the graph (`call_run`), and the graph of every reachable builder is one
that such a run reaches from `DataFlowGraph::new`.

The variable calls are not modelled (`Sonatina.Builder.FuncBuilder`): their SSA construction
also aliases values with `change_to_alias` and removes trivial phis, so what follows is about
functions built without variables.

What is proved of the graph along its runs therefore holds of every built function: user sets
are consistent (`Reachable.usersConsistent`), and `DataFlowGraph.Reachable` holds, which is the
hypothesis of the interning law (`Sonatina.Ir.Interning`).

The same goes for the two vectors of a phi (`Sonatina.Ir.Phi`): `phi` builds both from one list
of entries, and no other modelled call inserts a phi, so every phi of a built function has one
block per value (`Reachable.phisPaired`). A built function handed on to graph methods that
install paired data therefore keeps the specification's view of its phis as entry lists, and
`append_phi_arg` and `remove_phi_arg` edit that list as the specification says
(`Reachable.phiEntries_of_pairedRun`).

## Main results

* `call_run`: one builder call is a run of graph methods that keep user sets.
* `Reachable.dfg_reachable`: the graph of a reachable builder is reachable by the graph's
  methods from the empty graph.
* `Reachable.usersConsistent`: the user sets of a built function are consistent.
* `Reachable.phiEntries_of_pairedRun`: the phi entry edits of a built function, and of any graph
  that paired calls reach from it, refine the specification's.
-/

namespace Sonatina

open DataFlowGraph

/-- Pushing the argument values of a new function is a run of `make_value` calls. -/
theorem Function.makeArgValues_run (dfg : DataFlowGraph) (idx : Nat) (tys : List Ty) :
    Relation.ReflTransGen KeepsUsersStep dfg (makeArgValues dfg idx tys).1 := by
  induction tys generalizing dfg idx with
  | nil => exact .refl
  | cons ty tys ih => exact .head ⟨.makeValue (.arg ty idx), trivial, rfl⟩ (ih _ _)

namespace FunctionBuilder

variable {fb fb' : FunctionBuilder} {data : InsnData} {r : Option Value}

/-- `insert_insn` is `make_insn`, followed, when the instruction has a result, by
`make_value` and `attach_result`. -/
theorem insertInsn_run (h : fb.insertInsn data = some (fb', r)) :
    Relation.ReflTransGen KeepsUsersStep fb.func.dfg fb'.func.dfg := by
  rcases insertInsn_dfg h with ⟨-, -, hd⟩ | ⟨ty, -, -, hatt⟩
  · rw [hd]
    exact .single ⟨.makeInsn data, trivial, rfl⟩
  · exact .head ⟨.makeInsn data, trivial, rfl⟩ <| .head ⟨.makeValue _, trivial, rfl⟩ <|
      .single ⟨.attachResult _ _, trivial, hatt⟩

/-- **One call runs the graph's methods.** The graph after a call is reached from the graph
before it by calls of the graph's methods that keep user sets. -/
theorem call_run {c : BuilderCall} (h : fb.call c = some (fb', r)) :
    Relation.ReflTransGen KeepsUsersStep fb.func.dfg fb'.func.dfg := by
  rcases call_cases h with ⟨-, ⟨layout, -, rfl⟩ | ⟨block, rfl⟩ | ⟨imm, rfl⟩ |
    ⟨insn, value, block, dfg, hd, rfl⟩⟩ | ⟨data, ssa, r', hi, -, -⟩
  · exact .single ⟨.makeBlock, trivial, rfl⟩
  · exact .refl
  · exact .single ⟨.makeImmValue imm, trivial, rfl⟩
  · exact .single ⟨.appendPhiArg insn value block, trivial, hd⟩
  · exact (insertInsn_run hi :)

/-- The graph of a reachable builder is reached from the empty graph by calls that keep users. -/
theorem Reachable.dfgRun (h : fb.Reachable) :
    Relation.ReflTransGen KeepsUsersStep DataFlowGraph.new fb.func.dfg := by
  obtain ⟨sig, hrun⟩ := h
  induction hrun with
  | refl => exact Function.makeArgValues_run _ _ _
  | tail _ hstep ih =>
      obtain ⟨c, r, hc⟩ := hstep
      exact ih.trans (call_run hc)

/-- The calls of a small test: one block, an interned immediate, a phi on it, a second entry
appended to the phi, and a return. -/
def phiCalls : List BuilderCall :=
  [.appendBlock, .switchToBlock ⟨0⟩, .makeImmValue (.i8 1), .phi [(⟨0⟩, ⟨0⟩)],
    .appendPhiArg ⟨1⟩ ⟨0⟩ ⟨0⟩, .ret none]

/-- **Built functions have consistent user sets.** In every builder reachable from a new one, the
user set of each value is exactly the set of instructions having it among their operands. -/
theorem Reachable.usersConsistent (h : fb.Reachable) : UsersConsistent fb.func.dfg :=
  usersConsistent_of_run usersConsistent_new h.dfgRun

/-- The graph the test builds has consistent user sets. -/
theorem usersConsistent_phiCalls :
    ∃ fb, (new ⟨"f", [], none⟩).runCalls phiCalls = some fb ∧ UsersConsistent fb.func.dfg :=
  have hrun : (new ⟨"f", [], none⟩).runCalls phiCalls = some _ := rfl
  ⟨_, hrun, Reachable.usersConsistent (Reachable.of_runCalls hrun)⟩

/-- **One call keeps phis paired.** The calls that insert nothing leave the instructions alone
or append a phi entry, and an inserted phi is built from one entry list. -/
theorem phisPaired_call (hinv : PhisPaired fb.func.dfg) {c : BuilderCall}
    (h : fb.call c = some (fb', r)) : PhisPaired fb'.func.dfg := by
  rcases call_cases h with ⟨-, ⟨layout, -, rfl⟩ | ⟨block, rfl⟩ | ⟨imm, rfl⟩ |
    ⟨insn, value, block, dfg, hd, rfl⟩⟩ | ⟨data, ssa, r', hi, -, -, -, -, hdata⟩
  · exact hinv.of_insns rfl
  · exact hinv
  · exact hinv.of_insns (insns_makeImmValue _ _)
  · exact phisPaired_apply hinv (show (DfgOp.appendPhiArg insn value block).installsPaired from rfl)
      hd
  · exact hinv.of_append (insertInsn_frame hi).2.2.1 hdata

/-- Every phi of a built function has one block per value. -/
theorem Reachable.phisPaired (h : fb.Reachable) : PhisPaired fb.func.dfg := by
  obtain ⟨sig, hrun⟩ := h
  induction hrun with
  | refl => exact phisPaired_new.of_insns (Function.makeArgValues_frame _ _ _).1
  | tail _ hstep ih =>
      obtain ⟨c, r, hc⟩ := hstep
      exact phisPaired_call ih hc

/-- **Phi entries follow the specification, in built functions and after.** Starting from the
graph of any function built by builder calls, along every run of graph methods that install
paired data: on an instruction that is no phi, `append_phi_arg` and `remove_phi_arg` panic; on a
phi, `append_phi_arg` pushes its entry onto the entry list, and `remove_phi_arg` succeeds exactly
when an entry of the phi flows from the block, returns the value of the first such entry, and
leaves the phi with that entry erased. -/
theorem Reachable.phiEntries_of_pairedRun (h : fb.Reachable) {dfg : DataFlowGraph}
    (hrun : Relation.ReflTransGen PairedStep fb.func.dfg dfg) (insn : Insn) (value : Value)
    (block fromBlock : Block) :
    (dfg.phi? insn = none →
        dfg.appendPhiArg insn value block = none ∧ dfg.removePhiArg insn fromBlock = none) ∧
      (dfg.appendPhiArg insn value block).bind (·.phi? insn) =
        (dfg.phi? insn).map (·.appendArg value block) ∧
      (dfg.removePhiArg insn fromBlock).bind (fun r => (r.1.phi? insn).map (·, r.2)) =
        (dfg.phi? insn).bind (·.removeArg fromBlock) :=
  have hpaired := phisPaired_of_run h.phisPaired hrun
  ⟨fun hnone => phiArg_eq_none hnone value block fromBlock,
    appendPhiArg_refines hpaired insn value block, removePhiArg_refines hpaired insn fromBlock⟩

/-- The builder `phiCalls` leaves. -/
def phiBuilder : FunctionBuilder :=
  ((new ⟨"f", [], none⟩).runCalls phiCalls).getD (new ⟨"f", [], none⟩)

/-- After `phiCalls`, whose phi has two entries from block `0`, the first is removed; the entry
edits on the graph left still follow the specification. -/
theorem phiEntries_removePhiArg :
    ∃ dfg, (new ⟨"f", [], none⟩).runCalls phiCalls = some phiBuilder ∧
      phiBuilder.func.dfg.apply (.removePhiArg ⟨0⟩ ⟨0⟩) = some dfg ∧
      ((dfg.phi? ⟨0⟩ = none →
          dfg.appendPhiArg ⟨0⟩ ⟨0⟩ ⟨1⟩ = none ∧ dfg.removePhiArg ⟨0⟩ ⟨0⟩ = none) ∧
        (dfg.appendPhiArg ⟨0⟩ ⟨0⟩ ⟨1⟩).bind (·.phi? ⟨0⟩) =
          (dfg.phi? ⟨0⟩).map (·.appendArg ⟨0⟩ ⟨1⟩) ∧
        (dfg.removePhiArg ⟨0⟩ ⟨0⟩).bind (fun r => (r.1.phi? ⟨0⟩).map (·, r.2)) =
          (dfg.phi? ⟨0⟩).bind (·.removeArg ⟨0⟩)) :=
  have hrun : (new ⟨"f", [], none⟩).runCalls phiCalls = some phiBuilder := rfl
  have hrem : phiBuilder.func.dfg.apply (.removePhiArg ⟨0⟩ ⟨0⟩) = some _ := rfl
  ⟨_, hrun, hrem, Reachable.phiEntries_of_pairedRun (Reachable.of_runCalls hrun)
    (.single ⟨.removePhiArg ⟨0⟩ ⟨0⟩, rfl, hrem⟩) ⟨0⟩ ⟨0⟩ ⟨1⟩ ⟨0⟩⟩

end FunctionBuilder

end Sonatina
