import Sonatina.Builder.Order
import Sonatina.Builder.Results
import Sonatina.Ir.Types

/-!
# Types of Built Values

`make_result` types the result of an instruction by `result_type`, which reads the types of the
operands, and `insert_insn` attaches the value it pushes to the instruction it has just inserted.
Most of the typing of built values is therefore `make_result`'s work. What the invariant adds is
what that typing relies on across later calls: the data of a value never changes once pushed, so
the operand types `result_type` read stay as they were; `append_phi_arg` edits the entries of a
phi but not its type; and the instruction `insert_insn` inserts has no result yet, so the result
attached to it is the one `make_result` typed.

So in every builder reachable from a new one, `insn_result_ty` of each instruction is the
`result_type` of its data read at the current value types, and `type_of` of the argument values
lists the parameter types of the signature (`Reachable.typedValues`).

The same facts say when `insert_insn`, and with it every instruction constructor, panics
(`Reachable.insertInsn_isSome`): exactly when the cursor is not in a block of the layout, or
`result_type` panics on the operands. The instruction being inserted is never in the layout yet
and never has a result yet, so neither the layout's nor `attach_result`'s assertion fires.

A built function is where the passes start, and its graph has result types in the sense of
`Sonatina.Ir.Types`; so after any run of rewrites that meet their callers' type obligations, every
attached result still has its instruction's type (`Reachable.resultsTyped_of_typedRun`).

## Main results

* `insertInsn_resultTy`: what `insert_insn` does to result types.
* `typedValues_call`: every builder call keeps the typing invariant.
* `Reachable.typedValues`: result and argument types in every reachable builder.
* `Reachable.insertInsn_isSome`: when `insert_insn` succeeds.
* `Reachable.resultsTyped_of_typedRun`: type-compatible rewrites keep a built function typed.
-/

namespace Sonatina

open DataFlowGraph

variable {dfg dfg' : DataFlowGraph}

/-- The result of an instruction agrees with its data: `result_type` does not panic on the data,
and `insn_result_ty` is what it gives. -/
def InsnTyped (dfg : DataFlowGraph) (insn : Insn) : Prop :=
  ∀ data, dfg.insnData? insn = some data →
    ∃ rt, data.resultType dfg.valueTy = some rt ∧ dfg.insnResultTy insn = some rt

/-- **The frame of typing.** An instruction stays typed while the value arena grows, its result
entry is kept, and its data changes, if at all, to data of the same result type. -/
theorem insnTyped_of_extends {insn : Insn} (h : InsnTyped dfg insn)
    (hp : dfg.values <+: dfg'.values) (hres : dfg'.insnResults insn = dfg.insnResults insn)
    (hdata : ∀ d', dfg'.insnData? insn = some d' →
      ∃ d, dfg.insnData? insn = some d ∧ ∀ f, d'.resultType f = d.resultType f) :
    InsnTyped dfg' insn := fun d' hd' => by
  obtain ⟨d, hd, hrt⟩ := hdata d' hd'
  obtain ⟨rt, h₁, h₂⟩ := h d hd
  exact ⟨rt, hrt _ ▸ InsnData.resultType_mono (fun _ _ => valueTy_mono hp) h₁,
    insnResultTy_mono hp hres h₂⟩

/-- Pushing an instruction keeps every instruction typed when the pushed one is typed, the value
arena grows, and no other result entry changes. -/
theorem insnTyped_push {data : InsnData} (hinv : ∀ insn, InsnTyped dfg insn)
    (hp : dfg.values <+: dfg'.values) (hinsns : dfg'.insns = dfg.insns ++ [data])
    (hres : ∀ insn, insn ≠ ⟨dfg.insns.length⟩ → dfg'.insnResults insn = dfg.insnResults insn)
    (hnew : InsnTyped dfg' ⟨dfg.insns.length⟩) (insn : Insn) : InsnTyped dfg' insn := by
  by_cases hi : insn = ⟨dfg.insns.length⟩
  · exact hi ▸ hnew
  · refine insnTyped_of_extends (hinv insn) hp (hres insn hi) fun d' hd' => ⟨d', ?_, fun _ => rfl⟩
    rwa [insnData?_append hinsns, if_neg hi] at hd'

/-- **The typing invariant.** Every instruction of the function is typed, and `type_of` of the
argument values lists the parameter types of the signature. -/
structure TypedValues (func : Function) : Prop where
  insns : ∀ insn, InsnTyped func.dfg insn
  args : func.argValues.map func.dfg.valueTy = func.sig.args.map some

variable {func func' : Function}

/-- The argument types survive a change that keeps the signature and the argument values and
grows the value arena. -/
theorem TypedValues.args_mono (h : TypedValues func) (hsig : func'.sig = func.sig)
    (hargs : func'.argValues = func.argValues) (hp : func.dfg.values <+: func'.dfg.values) :
    func'.argValues.map func'.dfg.valueTy = func'.sig.args.map some := by
  rw [hsig, hargs, ← h.args]
  refine List.map_congr_left fun v hv => ?_
  obtain ⟨ty, -, hty⟩ := List.mem_map.1 (h.args ▸ List.mem_map_of_mem func.dfg.valueTy hv)
  rw [← hty, valueTy_mono hp hty.symm]

/-- The frame of the typing invariant: a change of the graph that grows the value arena, keeps
the result map and the result type of every instruction, and adds no instruction. -/
theorem TypedValues.of_extends (h : TypedValues func) (hsig : func'.sig = func.sig)
    (hargs : func'.argValues = func.argValues) (hp : func.dfg.values <+: func'.dfg.values)
    (hres : func'.dfg.insnResults = func.dfg.insnResults)
    (hdata : ∀ insn d', func'.dfg.insnData? insn = some d' →
      ∃ d, func.dfg.insnData? insn = some d ∧ ∀ f, d'.resultType f = d.resultType f) :
    TypedValues func' :=
  ⟨fun insn => insnTyped_of_extends (h.insns insn) hp (by rw [hres]) (hdata insn),
    h.args_mono hsig hargs hp⟩

/-- The argument values of a new function are typed by the signature, one per parameter. -/
theorem Function.new_typedValues (sig : Signature) : TypedValues (Function.new sig) := by
  suffices ∀ dfg idx tys, (Function.makeArgValues dfg idx tys).2.map
      (Function.makeArgValues dfg idx tys).1.valueTy = tys.map some from
    have hnil : (Function.new sig).dfg.insns = [] :=
      (Function.makeArgValues_frame DataFlowGraph.new 0 sig.args).1
    ⟨fun insn data hd => by simp [insnData?, hnil] at hd, this _ _ _⟩
  intro dfg idx tys
  induction tys generalizing dfg idx with
  | nil => rfl
  | cons ty tys ih =>
      have hty : (dfg.makeValue (.arg ty idx)).1.valueTy (dfg.makeValue (.arg ty idx)).2 =
          some ty := by
        simp [makeValue, valueTy, valueData?, ValueData.ty]
      simp only [Function.makeArgValues, List.map_cons, ih,
        valueTy_mono (Function.makeArgValues_frame _ _ _).2.2 hty]

/-- A typed function whose results are linked has its result types in the sense of the graph's
rewrites: the results attached have their instructions' types, and no instruction outside the
arena has a result. -/
theorem TypedValues.resultsTyped (h : TypedValues func) (hlinked : ResultsLinked func.dfg) :
    ResultsTyped func.dfg :=
  ⟨fun insn data hd => (h.insns insn data hd).imp fun _ hrt => ⟨hrt.1, fun _ => hrt.2⟩,
    fun _ hi => hlinked.insnResults_fresh hi⟩

namespace FunctionBuilder

variable {fb fb' : FunctionBuilder} {data : InsnData} {r : Option Value}

/-- `insert_insn` leaves the signature and the argument values alone. -/
theorem insertInsn_sig (h : fb.insertInsn data = some (fb', r)) :
    fb'.func.sig = fb.func.sig ∧ fb'.func.argValues = fb.func.argValues := by
  obtain ⟨func₁, func₂, func₃, h₁, h₂, h₃, rfl⟩ := insertInsn_eq_some h
  obtain ⟨-, layout, -, rfl⟩ := Function.insertInsnData_eq_some h₁
  rcases Function.makeResult_eq_some h₂ with ⟨-, rfl, rfl⟩ | ⟨ty, -, rfl, rfl⟩
  · cases h₃
    exact ⟨rfl, rfl⟩
  · obtain ⟨dfg, -, rfl⟩ := Function.attachResult_eq_some h₃
    exact ⟨rfl, rfl⟩

/-- What `insert_insn` does to result types: the value arena grows, no result entry changes but
the new instruction's, and that one has the type `result_type` gives the data. -/
theorem insertInsn_resultTy (h : fb.insertInsn data = some (fb', r))
    (hlinked : ResultsLinked fb.func.dfg) :
    ∃ rt, data.resultType fb.func.dfg.valueTy = some rt ∧
      fb'.func.dfg.insnResultTy ⟨fb.func.dfg.insns.length⟩ = some rt ∧
      fb.func.dfg.values <+: fb'.func.dfg.values ∧
      ∀ i, i ≠ ⟨fb.func.dfg.insns.length⟩ →
        fb'.func.dfg.insnResults i = fb.func.dfg.insnResults i := by
  rcases insertInsn_dfg h with ⟨hmr, -, hdfg⟩ | ⟨ty, hmr, -, hatt⟩
  · obtain ⟨rt, hrt, hnone⟩ := Option.map_eq_some'.1 ((makeResult_makeInsn data).symm.trans hmr)
    obtain rfl := Option.map_eq_none'.1 hnone
    refine ⟨none, hrt, ?_, by rw [hdfg]; exact List.prefix_refl _, fun _ _ => by rw [hdfg]; rfl⟩
    simp only [hdfg, insnResultTy, insnResult, makeInsn, hlinked.insnResults_fresh le_rfl]
  · obtain ⟨rt, hrt, hsome⟩ := Option.map_eq_some'.1 ((makeResult_makeInsn data).symm.trans hmr)
    obtain ⟨ty', rfl, hty⟩ := Option.map_eq_some'.1 hsome
    cases hty
    obtain ⟨-, hdfg⟩ := attachResult_eq_some.1 hatt
    refine ⟨some ty, hrt, ?_, by rw [hdfg]; exact List.prefix_append _ _,
      fun _ hi => by rw [hdfg]; exact Function.update_noteq hi _ _⟩
    simp [hdfg, insnResultTy, insnResult, makeValue, makeInsn, valueTy, valueData?, ValueData.ty]

/-- `insert_insn` keeps the typing invariant: the new instruction gets the result `make_result`
typed, or none, and every other instruction keeps its data and its result. -/
theorem typedValues_insertInsn (h : fb.insertInsn data = some (fb', r))
    (hlinked : ResultsLinked fb.func.dfg) (hinv : TypedValues fb.func) : TypedValues fb'.func := by
  obtain ⟨hsig, hargs⟩ := insertInsn_sig h
  obtain ⟨rt, hrt, hty, hp, hres⟩ := insertInsn_resultTy h hlinked
  obtain ⟨-, -, hinsns, -⟩ := insertInsn_frame h
  refine ⟨insnTyped_push hinv.insns hp hinsns hres fun d hd => ?_, hinv.args_mono hsig hargs hp⟩
  rw [insnData?_append hinsns, if_pos rfl] at hd
  cases hd
  exact ⟨rt, InsnData.resultType_mono (fun _ _ => valueTy_mono hp) hrt, hty⟩

/-- **Every call keeps the typing invariant.** -/
theorem typedValues_call (hlinked : ResultsLinked fb.func.dfg) (hinv : TypedValues fb.func)
    {c : BuilderCall} (h : fb.call c = some (fb', r)) : TypedValues fb'.func := by
  have same : ∀ {dfg : DataFlowGraph} insn d', dfg.insnData? insn = some d' →
      ∃ d, dfg.insnData? insn = some d ∧ ∀ f, d'.resultType f = d.resultType f :=
    fun _ d' hd' => ⟨d', hd', fun _ => rfl⟩
  rcases call_cases h with ⟨-, ⟨layout, -, rfl⟩ | ⟨block, rfl⟩ | ⟨imm, rfl⟩ |
    ⟨insn, value, block, dfg, hd, rfl⟩⟩ | ⟨data, ssa, r', hi, -, -⟩
  · exact hinv.of_extends rfl rfl (List.prefix_refl _) rfl same
  · exact hinv
  · have hdfg : (fb.makeImmValue imm).1.func.dfg = (fb.func.dfg.makeImmValue imm).1 := rfl
    refine hinv.of_extends rfl rfl ?_ (by rw [hdfg, insnResults_makeImmValue])
      fun i d' hd' => same i d' ?_
    · rw [hdfg]
      exact apply_values_prefix (show fb.func.dfg.apply (.makeImmValue imm) = some _ from rfl)
    · rwa [hdfg, insnData?, insns_makeImmValue] at hd'
  · obtain ⟨d, d', hdata, happ, rfl⟩ := DataFlowGraph.appendPhiArg_eq_some.1 hd
    refine hinv.of_extends rfl rfl (List.prefix_refl _) rfl fun i d'' hd'' => ?_
    rw [insnData?_set hdata rfl] at hd''
    split_ifs at hd'' with hi
    · cases hd''
      exact ⟨d, hi ▸ hdata, InsnData.resultType_appendPhiArg happ⟩
    · exact same i d'' hd''
  · exact typedValues_insertInsn hi hlinked hinv

/-- The function of every reachable builder keeps the typing invariant. -/
theorem Reachable.typedValues_inv (h : fb.Reachable) : TypedValues fb.func := by
  obtain ⟨sig, hrun⟩ := h
  induction hrun with
  | refl => exact Function.new_typedValues sig
  | tail hab hstep ih =>
      obtain ⟨c, r, hc⟩ := hstep
      exact typedValues_call (Reachable.resultsLinked ⟨sig, hab⟩) ih hc

/-- **Built values carry the types the specification gives them.** In every builder reachable
from a new one, `insn_result_ty` of each instruction of the arena is the `result_type` of its
data at the current value types, which does not panic; and `type_of` of the argument values lists
the parameter types of the signature. -/
theorem Reachable.typedValues (h : fb.Reachable) :
    (∀ insn data, fb.func.dfg.insnData? insn = some data →
      ∃ rt, data.resultType fb.typeOf = some rt ∧ fb.func.dfg.insnResultTy insn = some rt) ∧
    fb.args.map fb.typeOf = fb.func.sig.args.map some :=
  ⟨(Reachable.typedValues_inv h).insns, (Reachable.typedValues_inv h).args⟩

/-- The calls of a small function of one `i8` argument: a comparison, a negation, a store and a
return in one block. -/
def typedCalls : List BuilderCall :=
  [.appendBlock, .switchToBlock ⟨0⟩, .binary .lt ⟨0⟩ ⟨0⟩, .unary .not ⟨0⟩,
    .store .memory ⟨0⟩ ⟨1⟩, .ret none]

/-- The function `typedCalls` builds is typed. -/
theorem typedValues_typedCalls :
    ∃ fb, (new ⟨"f", [.i8], none⟩).runCalls typedCalls = some fb ∧
      (∀ insn data, fb.func.dfg.insnData? insn = some data →
        ∃ rt, data.resultType fb.typeOf = some rt ∧ fb.func.dfg.insnResultTy insn = some rt) ∧
      fb.args.map fb.typeOf = fb.func.sig.args.map some :=
  have hrun : (new ⟨"f", [.i8], none⟩).runCalls typedCalls = some _ := rfl
  ⟨_, hrun, Reachable.typedValues (Reachable.of_runCalls hrun)⟩

/-- **Type-compatible rewrites keep a built function typed.** After any run of builder calls,
followed by any run of the graph's methods that each meet the caller's type obligation, the
result type of every instruction can be computed, and every result attached has it. -/
theorem Reachable.resultsTyped_of_typedRun (h : fb.Reachable) {dfg : DataFlowGraph}
    (hrun : Relation.ReflTransGen TypedStep fb.func.dfg dfg) :
    ∀ insn data, dfg.insnData? insn = some data → ∃ rt, data.resultType dfg.valueTy = some rt ∧
      ((dfg.insnResult insn).isSome → dfg.insnResultTy insn = some rt) :=
  (resultsTyped_of_run ((Reachable.typedValues_inv h).resultsTyped (Reachable.resultsLinked h))
    hrun).typed

/-- The calls of a function that adds its first argument to itself and returns the sum. -/
def addCalls : List BuilderCall :=
  [.appendBlock, .switchToBlock ⟨0⟩, .binary .add ⟨0⟩ ⟨0⟩, .ret (some ⟨2⟩)]

/-- The builder `addCalls` leaves for a function of two `i8` arguments. -/
def addBuilder : FunctionBuilder :=
  ((new ⟨"f", [.i8, .i8], none⟩).runCalls addCalls).getD (new ⟨"f", [.i8, .i8], none⟩)

/-- Aliasing the first argument of `addBuilder` to the second, of the same type, keeps the sum
typed. -/
theorem resultsTyped_alias :
    ∃ dfg, (new ⟨"f", [.i8, .i8], none⟩).runCalls addCalls = some addBuilder ∧
      addBuilder.func.dfg.apply (.changeToAlias ⟨0⟩ ⟨1⟩) = some dfg ∧
      ∀ insn data, dfg.insnData? insn = some data → ∃ rt, data.resultType dfg.valueTy = some rt ∧
        ((dfg.insnResult insn).isSome → dfg.insnResultTy insn = some rt) :=
  have hrun : (new ⟨"f", [.i8, .i8], none⟩).runCalls addCalls = some addBuilder := rfl
  have hal : addBuilder.func.dfg.apply (.changeToAlias ⟨0⟩ ⟨1⟩) = some _ := rfl
  ⟨_, hrun, hal,
    Reachable.resultsTyped_of_typedRun (Reachable.of_runCalls hrun)
      (.single ⟨.changeToAlias ⟨0⟩ ⟨1⟩, rfl, hal⟩)⟩

/- The obligation is load-bearing: with arguments `i8` and `i32`, aliasing the first to the second
makes the result type of the sum `i32`, while its result keeps type `i8`. -/
example : (((new ⟨"f", [.i8, .i32], none⟩).runCalls addCalls).bind fun fb =>
    (fb.func.dfg.apply (.changeToAlias ⟨0⟩ ⟨1⟩)).map fun dfg =>
      ((dfg.insnData? ⟨0⟩).bind (InsnData.resultType dfg.valueTy), dfg.insnResultTy ⟨0⟩)) =
    some (some (some .i32), some (some .i8)) := by
  decide

end FunctionBuilder

end Sonatina
