import Sonatina.Builder.FuncBuilder
import Sonatina.Ir.Results

/-!
# Results of Built Instructions

Every instruction constructor of the function builder goes through `insert_insn`, which pushes
the instruction, pushes its result value `.insn insn ty` and attaches it. The new instruction has
no result yet, because no value points at an instruction outside the arena, so the attach never
fails and the link between results and instructions (`ResultsLinked`) holds in every builder
state and after any later run of the graph's methods that link no result.

## Main results

* `insertInsn_result_fresh`: a result returned by `insert_insn` is a new value, and belongs to
  the instruction just inserted.
* `resultsLinked_call`, `Reachable.resultsLinked`: every call keeps the link.
* `builderResults_linked`: the link, the freshness of returned results, and that an instruction
  has at most one result.
-/

namespace Sonatina

open DataFlowGraph

/-- The graph of a new function links its results: it holds only argument values. -/
theorem Function.new_resultsLinked (sig : Signature) : ResultsLinked (Function.new sig).dfg := by
  suffices ∀ dfg idx tys, ResultsLinked dfg → ResultsLinked (makeArgValues dfg idx tys).1 from
    this _ _ _ resultsLinked_new
  intro dfg idx tys
  induction tys generalizing dfg idx with
  | nil => exact id
  | cons ty tys ih =>
      exact fun h => ih _ _
        (resultsLinked_apply (show (DfgOp.makeValue (.arg ty idx)).linksResult = false from rfl)
          h rfl)

namespace FunctionBuilder

variable {fb fb' : FunctionBuilder} {data : InsnData} {r : Option Value}

/-- **A returned result is new.** The value `insert_insn` returns is not in the value arena
before the call, and after it is the result of the instruction just inserted. -/
theorem insertInsn_result_fresh (h : fb.insertInsn data = some (fb', r)) {v : Value}
    (hv : r = some v) :
    fb.func.dfg.valueData? v = none ∧
      fb'.func.dfg.valueInsn v = some ⟨fb.func.dfg.insns.length⟩ := by
  rcases insertInsn_dfg h with ⟨-, rfl, -⟩ | ⟨ty, -, rfl, hatt⟩
  · cases hv
  · cases hv
    refine ⟨by simp [valueData?], ?_⟩
    rw [valueInsn_attachResult hatt, valueInsn_makeValue]
    exact if_pos rfl

/-- `insert_insn` keeps the link between results and instructions. -/
theorem resultsLinked_insertInsn (h : fb.insertInsn data = some (fb', r))
    (hinv : ResultsLinked fb.func.dfg) : ResultsLinked fb'.func.dfg := by
  have hmade : ResultsLinked (fb.func.dfg.makeInsn data).1 :=
    resultsLinked_apply (show (DfgOp.makeInsn data).linksResult = false from rfl) hinv rfl
  rcases insertInsn_dfg h with ⟨-, -, hd⟩ | ⟨ty, -, -, hatt⟩
  · exact hd ▸ hmade
  · have hnone : (fb.func.dfg.makeInsn data).1.insnResult ⟨fb.func.dfg.insns.length⟩ = none := by
      cases hres : fb.func.dfg.insnResult ⟨fb.func.dfg.insns.length⟩ with
      | none => exact hres
      | some v =>
          have := hinv.inArena v _ ((hinv.linked _ v).1 hres)
          exact absurd this (lt_irrefl _)
    obtain ⟨dfg'', hatt', hlinked⟩ := resultsLinked_attachFresh hmade ty (by simp [makeInsn]) hnone
    rwa [Option.some.inj (hatt.symm.trans hatt')]

/-- **Every call keeps the link.** -/
theorem resultsLinked_call (hinv : ResultsLinked fb.func.dfg) {c : BuilderCall}
    (h : fb.call c = some (fb', r)) : ResultsLinked fb'.func.dfg := by
  rcases call_cases h with ⟨-, ⟨layout, -, rfl⟩ | ⟨block, rfl⟩ | ⟨imm, rfl⟩ |
    ⟨insn, value, block, dfg, hd, rfl⟩⟩ | ⟨data, ssa, r', hi, -, -⟩
  · exact resultsLinked_apply (show DfgOp.makeBlock.linksResult = false from rfl) hinv rfl
  · exact hinv
  · exact resultsLinked_apply (show (DfgOp.makeImmValue imm).linksResult = false from rfl) hinv rfl
  · exact resultsLinked_apply (show (DfgOp.appendPhiArg insn value block).linksResult = false
      from rfl) hinv hd
  · exact resultsLinked_insertInsn hi hinv

/-- A call that inserts an instruction and returns a value returns a new value, the result of
the instruction it inserted. -/
theorem call_result_fresh {c : BuilderCall} (hc : c.insertsInsn) {v : Value}
    (h : fb.call c = some (fb', some v)) :
    fb.func.dfg.valueData? v = none ∧
      fb'.func.dfg.valueInsn v = some ⟨fb.func.dfg.insns.length⟩ := by
  rcases call_cases h with ⟨hc', -⟩ | ⟨data, ssa, r', hi, hr, -⟩
  · rw [hc'] at hc
    cases hc
  · rcases hr with hr | rfl
    · cases hr
    · exact insertInsn_result_fresh hi rfl

/-- Every reachable builder links results to their instructions. -/
theorem Reachable.resultsLinked (h : fb.Reachable) : ResultsLinked fb.func.dfg := by
  obtain ⟨sig, hrun⟩ := h
  induction hrun with
  | refl => exact Function.new_resultsLinked sig
  | tail _ hstep ih =>
      obtain ⟨c, r, hc⟩ := hstep
      exact resultsLinked_call ih hc

/-- **Result values link back to their defining instruction.** After any run of builder calls,
followed by any run of the graph's methods that link no result (among them `replace_insn`,
`replace_insn_arg`, `change_to_alias`, `append_phi_arg`, `remove_phi_arg` and
`remove_branch_dest`): an instruction's result is `v` exactly when `v`'s defining instruction is
that instruction, and no two values share a defining instruction. A value returned by an
instruction constructor is new, and is the result of the instruction the call inserted. -/
theorem builderResults_linked :
    (∀ fb : FunctionBuilder, fb.Reachable → ∀ dfg', fb.func.dfg.ReachableUnlinked dfg' →
      ∀ insn value, dfg'.insnResult insn = some value ↔ dfg'.valueInsn value = some insn) ∧
    (∀ (fb fb' : FunctionBuilder) (c : BuilderCall) (value : Value), c.insertsInsn →
      fb.call c = some (fb', some value) →
        fb.func.dfg.valueData? value = none ∧
          fb'.func.dfg.valueInsn value = some ⟨fb.func.dfg.insns.length⟩) ∧
    (∀ fb : FunctionBuilder, fb.Reachable → ∀ dfg', fb.func.dfg.ReachableUnlinked dfg' →
      ∀ insn v v', dfg'.valueInsn v = some insn → dfg'.valueInsn v' = some insn → v = v') :=
  ⟨fun _ hfb _ hrun => (resultsLinked_of_run hfb.resultsLinked hrun).linked,
    fun _ _ _ _ hc h => call_result_fresh hc h,
    fun _ hfb _ hrun _ _ _ => (resultsLinked_of_run hfb.resultsLinked hrun).result_unique⟩

end FunctionBuilder

end Sonatina
