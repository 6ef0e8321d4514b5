import Sonatina.Ir.Results

/-!
# Result Types

`make_result` types the result of an instruction by `result_type`, from the instruction's data
and the types of its operands, and `insn_result_ty` reads back the type of the result attached.
The graph's methods check no types: `replace_insn` keeps the result as it is, and the
specification leaves the caller "responsible for maintaining type compatibility". This module
says what that responsibility is, method by method (`DfgOp.keepsTypes`): a pushed instruction has
a result type, a replacing instruction has the result type of the one it replaces, an alias or a
new operand has the type of the value it stands for, and an attached result has its
instruction's result type. Under these obligations every run keeps result types
(`ResultsTyped`): the result type of every instruction can be computed, and every result attached
has it.

The obligations are load-bearing: aliasing a value to one of another type retypes the
instructions that use it, and their results keep the old type.

## Main results

* `InsnData.resultType_mono`: a typing that extends another gives the same result types.
* `ResultsTyped.of_extends`, `ResultsTyped.of_set`: the frames of result types.
* `resultsTyped_apply`: every call that meets its obligation keeps result types.
* `resultsTyped_of_run`: so does every run of such calls.
-/

namespace Sonatina

namespace InsnData

variable {f g : Value → Option Ty} {d d' : InsnData}

/-- `result_type` only reads the types of values that have one, so a typing that extends another
gives the same result type. -/
theorem resultType_mono (hfg : ∀ v ty, f v = some ty → g v = some ty) {rt : Option Ty}
    (h : d.resultType f = some rt) : d.resultType g = some rt := by
  cases d with
  | unary _ arg =>
      obtain ⟨ty, hty, rfl⟩ := Option.map_eq_some'.1 h
      simp only [resultType, hfg _ _ hty, Option.map_some']
  | binary code lhs _ =>
      simp only [resultType] at h ⊢
      split_ifs at h ⊢
      · exact h
      · obtain ⟨ty, hty, rfl⟩ := Option.map_eq_some'.1 h
        simp only [hfg _ _ hty, Option.map_some']
  | _ => exact h

/-- Rewriting the operands through a map that keeps their types keeps the result type. -/
theorem resultType_mapArgs {m : Value → Value} (hm : ∀ a, f (m a) = f a) (d : InsnData) :
    (d.mapArgs m).resultType f = d.resultType f := by
  cases d <;> simp only [mapArgs, resultType, hm]

/-- Replacing an operand by a value of its type keeps the result type. -/
theorem resultType_setArg {idx : Nat} {v old : Value} (hold : d.args[idx]? = some old)
    (hv : f v = f old) : (d.setArg idx v).resultType f = d.resultType f := by
  cases d with
  | unary code arg =>
      cases idx with
      | zero =>
          obtain rfl : arg = old := by simpa [args] using hold
          simp [setArg, resultType, hv]
      | succ n => simp [args] at hold
  | binary code lhs rhs =>
      cases idx with
      | zero =>
          obtain rfl : lhs = old := by simpa [args] using hold
          simp [setArg, resultType, hv]
      | succ n => simp [setArg, resultType]
  | _ => rfl

/-- Appending a phi entry keeps the result type. -/
theorem resultType_appendPhiArg {value : Value} {block : Block}
    (h : d.appendPhiArg value block = some d') (f : Value → Option Ty) :
    d'.resultType f = d.resultType f := by
  cases d <;> cases h
  rfl

/-- Removing a phi entry keeps the result type. -/
theorem resultType_removePhiArg {fromBlock : Block} {removed : Value}
    (h : d.removePhiArg fromBlock = some (d', removed)) (f : Value → Option Ty) :
    d'.resultType f = d.resultType f := by
  cases d <;> simp only [removePhiArg, reduceCtorEq] at h
  simp only [bind, Option.bind_eq_some, pure, Option.some.injEq, Prod.mk.injEq] at h
  obtain ⟨pos, -, v, -, rfl, rfl⟩ := h
  rfl

/-- Renaming a destination keeps the result type. -/
@[simp] theorem resultType_rewriteBranchDest (fromBlock toBlock : Block) (d : InsnData)
    (f : Value → Option Ty) :
    (d.rewriteBranchDest fromBlock toBlock).resultType f = d.resultType f := by
  cases d <;> rfl

end InsnData

namespace DataFlowGraph

variable {dfg dfg' : DataFlowGraph} {insn : Insn}

/-- A value pushed keeps its type while the value arena grows. -/
theorem valueTy_mono (hp : dfg.values <+: dfg'.values) {v : Value} {ty : Ty}
    (h : dfg.valueTy v = some ty) : dfg'.valueTy v = some ty := by
  obtain ⟨d, hd, rfl⟩ := Option.map_eq_some'.1 h
  obtain ⟨t, ht⟩ := hp
  simp only [valueTy, valueData?, ← ht] at hd ⊢
  rw [List.getElem?_append_left (List.getElem?_eq_some_iff.1 hd).1, hd, Option.map_some']

/-- A result entry kept while the value arena grows keeps its type. -/
theorem insnResultTy_mono (hp : dfg.values <+: dfg'.values) {rt : Option Ty}
    (hres : dfg'.insnResults insn = dfg.insnResults insn) (h : dfg.insnResultTy insn = some rt) :
    dfg'.insnResultTy insn = some rt := by
  cases hr : dfg.insnResults insn with
  | none => simp only [insnResultTy, insnResult, hres, hr] at h ⊢; exact h
  | some v =>
      simp only [insnResultTy, insnResult, hres, hr] at h ⊢
      obtain ⟨ty, hty, rfl⟩ := Option.map_eq_some'.1 h
      rw [valueTy_mono hp hty, Option.map_some']

/-- The result `make_result` computes for an instruction just pushed is typed by `result_type`
at the value types before the push. -/
theorem makeResult_makeInsn (data : InsnData) :
    (dfg.makeInsn data).1.makeResult (dfg.makeInsn data).2 =
      (data.resultType dfg.valueTy).map (Option.map (.insn ⟨dfg.insns.length⟩)) := by
  have hd : (dfg.makeInsn data).1.insnData? (dfg.makeInsn data).2 = some data := by
    rw [insnData?_append rfl]
    exact if_pos rfl
  have hv : (dfg.makeInsn data).1.valueTy = dfg.valueTy := rfl
  simp only [makeResult, hd, hv, bind, Option.some_bind, pure]
  cases data.resultType dfg.valueTy <;> rfl

/-- `remove_branch_dest` rewrites a terminator into another one: neither has a result type, and
the new one is no phi. -/
theorem removeBranchDest_set {dest : Block} (h : dfg.removeBranchDest insn dest = some dfg') :
    ∃ old new, dfg.insnData? insn = some old ∧ dfg'.insns = dfg.insns.set insn.index new ∧
      dfg'.values = dfg.values ∧ dfg'.insnResults = dfg.insnResults ∧
      (∀ f, new.resultType f = old.resultType f) ∧ new.isPhi = false := by
  rcases removeBranchDest_eq_some h with ⟨c, t, e, hI, -, rfl⟩ | ⟨args, default, table, hI, hr⟩
  · exact ⟨_, _, hI, rfl, rfl, rfl, fun _ => rfl, rfl⟩
  · obtain ⟨args', default', table', htab⟩ := removeTableDest_brTable dfg.users insn dest args
      default table
    rcases hr with ⟨-, remain, -, rfl⟩ | ⟨-, rfl⟩
    · exact ⟨_, _, hI, rfl, rfl, rfl, fun _ => rfl, rfl⟩
    · exact ⟨_, _, hI, rfl, rfl, rfl, fun _ => by rw [htab]; rfl, by rw [htab]; rfl⟩

end DataFlowGraph

open DataFlowGraph

/-- No instruction outside the arena has a result when results are linked. -/
theorem ResultsLinked.insnResults_fresh {dfg : DataFlowGraph} (hinv : ResultsLinked dfg)
    {insn : Insn} (hi : dfg.insns.length ≤ insn.index) : dfg.insnResults insn = none := by
  cases hres : dfg.insnResults insn with
  | none => rfl
  | some v => exact absurd (hinv.inArena v _ ((hinv.linked _ v).1 hres)) (not_lt.2 hi)

/-- **Result types along rewrites.** The result type of every instruction of the arena can be
computed, and the result attached to it, if any, has that type; no instruction outside the arena
has a result. -/
structure ResultsTyped (dfg : DataFlowGraph) : Prop where
  typed : ∀ insn data, dfg.insnData? insn = some data →
    ∃ rt, data.resultType dfg.valueTy = some rt ∧
      ((dfg.insnResult insn).isSome → dfg.insnResultTy insn = some rt)
  fresh : ∀ insn, dfg.insns.length ≤ insn.index → dfg.insnResults insn = none

/-- The obligation a caller of each method carries to keep result types: a pushed instruction has
a result type, a replacing instruction has the result type of the one it replaces, an alias or a
new operand has the type of the value it stands for, and an attached result has its
instruction's result type. The other methods carry none. -/
def DfgOp.keepsTypes (dfg : DataFlowGraph) : DfgOp → Prop
  | .makeInsn data => (data.resultType dfg.valueTy).isSome
  | .replaceInsn insn data => ∀ old, dfg.insnData? insn = some old →
      data.resultType dfg.valueTy = old.resultType dfg.valueTy
  | .changeToAlias value aliasValue => dfg.valueTy aliasValue = dfg.valueTy value
  | .attachResult insn value => ∃ data ty, dfg.insnData? insn = some data ∧
      data.resultType dfg.valueTy = some (some ty) ∧ dfg.valueTy value = some ty
  | .replaceInsnArg insn newArg idx => ∀ data old, dfg.insnData? insn = some data →
      data.args[idx]? = some old → dfg.valueTy newArg = dfg.valueTy old
  | _ => True

/-- One call that meets its obligation. -/
def TypedStep (dfg dfg' : DataFlowGraph) : Prop :=
  ∃ op, op.keepsTypes dfg ∧ dfg.apply op = some dfg'

section Preservation

variable {dfg dfg' : DataFlowGraph} {insn : Insn}

/-- **The frame of result types.** A change that grows the value arena, keeps the number of
instructions and the result map, and changes data, if at all, to data of the same result type,
keeps result types. -/
theorem ResultsTyped.of_extends (h : ResultsTyped dfg) (hp : dfg.values <+: dfg'.values)
    (hlen : dfg'.insns.length = dfg.insns.length) (hres : dfg'.insnResults = dfg.insnResults)
    (hdata : ∀ insn d', dfg'.insnData? insn = some d' →
      ∃ d, dfg.insnData? insn = some d ∧ d'.resultType dfg.valueTy = d.resultType dfg.valueTy) :
    ResultsTyped dfg' := by
  refine ⟨fun insn d' hd' => ?_, fun insn hi => by rw [hres]; exact h.fresh insn (hlen ▸ hi)⟩
  have hres' : dfg'.insnResults insn = dfg.insnResults insn := by rw [hres]
  obtain ⟨d, hd, hrt⟩ := hdata insn d' hd'
  obtain ⟨rt, h₁, h₂⟩ := h.typed insn d hd
  refine ⟨rt, InsnData.resultType_mono (fun _ _ => valueTy_mono hp) (hrt ▸ h₁), fun hs => ?_⟩
  exact insnResultTy_mono hp hres' (h₂ (by rwa [insnResult, ← hres']))

/-- A change of the data of one instruction to data of the same result type keeps result
types. -/
theorem ResultsTyped.of_set (h : ResultsTyped dfg) {old data : InsnData}
    (hold : dfg.insnData? insn = some old) (hinsns : dfg'.insns = dfg.insns.set insn.index data)
    (hrt : data.resultType dfg.valueTy = old.resultType dfg.valueTy)
    (hv : dfg'.values = dfg.values) (hres : dfg'.insnResults = dfg.insnResults) :
    ResultsTyped dfg' := by
  refine h.of_extends (hv ▸ List.prefix_refl _) (by rw [hinsns, List.length_set]) hres
    fun i d' hd' => ?_
  rw [insnData?_set hold hinsns] at hd'
  split_ifs at hd' with hi
  · cases hd'
    exact ⟨old, hi ▸ hold, hrt⟩
  · exact ⟨d', hd', rfl⟩

/-- A change of the graph outside the instruction arena and the result map that grows the value
arena keeps result types. -/
theorem ResultsTyped.of_values (h : ResultsTyped dfg) (hp : dfg.values <+: dfg'.values)
    (hinsns : dfg'.insns = dfg.insns) (hres : dfg'.insnResults = dfg.insnResults) :
    ResultsTyped dfg' :=
  h.of_extends hp (by rw [hinsns]) hres fun _ d' hd' => ⟨d', by rwa [insnData?, ← hinsns], rfl⟩

/-- `make_insn` of data with a result type keeps result types: the new instruction has no
result. -/
theorem resultsTyped_makeInsn (h : ResultsTyped dfg) {data : InsnData}
    (hop : (data.resultType dfg.valueTy).isSome) : ResultsTyped (dfg.makeInsn data).1 := by
  refine ⟨fun i d hd => ?_, fun i hi => h.fresh i (by simp [makeInsn] at hi; omega)⟩
  rw [insnData?_append rfl] at hd
  split_ifs at hd with hi
  · cases hd
    obtain ⟨rt, hrt⟩ := Option.isSome_iff_exists.1 hop
    refine ⟨rt, hrt, fun hs => ?_⟩
    rw [insnResult, hi] at hs
    simp [makeInsn, h.fresh _ le_rfl] at hs
  · exact h.typed i d hd

/-- `attach_result` of a value of its instruction's result type keeps result types. -/
theorem resultsTyped_attachResult (h : ResultsTyped dfg) {value : Value}
    (hop : (DfgOp.attachResult insn value).keepsTypes dfg)
    (happ : dfg.attachResult insn value = some dfg') : ResultsTyped dfg' := by
  obtain ⟨d, ty, hd, hrt, hty⟩ := hop
  obtain ⟨-, rfl⟩ := attachResult_eq_some.1 happ
  have hlt : insn.index < dfg.insns.length := (List.getElem?_eq_some_iff.1 hd).1
  refine ⟨fun i d' hd' => ?_, fun i hi => ?_⟩
  · by_cases hi : i = insn
    · subst hi
      obtain rfl := Option.some.inj (hd'.symm.trans hd)
      refine ⟨some ty, hrt, fun _ => ?_⟩
      simp only [insnResultTy, insnResult, Function.update_same]
      exact (congrArg (Option.map some) hty :)
    · obtain ⟨rt, h₁, h₂⟩ := h.typed i d' hd'
      refine ⟨rt, h₁, fun hs => ?_⟩
      simp only [insnResult, Function.update_noteq hi] at hs
      simpa only [insnResultTy, insnResult, Function.update_noteq hi] using h₂ hs
  · have hne : i ≠ insn := fun he => absurd hlt (not_lt.2 (he ▸ hi))
    show Function.update dfg.insnResults insn (some value) i = none
    rw [Function.update_noteq hne]
    exact h.fresh i hi

/-- `change_to_alias` to a value of the same type keeps result types: each user is retyped
through operands of unchanged types. -/
theorem resultsTyped_changeToAlias (h : ResultsTyped dfg) {value aliasValue : Value}
    (hop : dfg.valueTy aliasValue = dfg.valueTy value)
    (happ : dfg.changeToAlias value aliasValue = some dfg') : ResultsTyped dfg' := by
  obtain ⟨-, rfl⟩ := changeToAlias_eq_some.1 happ
  refine h.of_extends (List.prefix_refl _) List.length_mapIdx rfl fun i d' hd' => ?_
  simp only [insnData?, List.getElem?_mapIdx] at hd'
  obtain ⟨d, hd, rfl⟩ := Option.map_eq_some'.1 hd'
  refine ⟨d, hd, ?_⟩
  split_ifs
  · exact InsnData.resultType_mapArgs (fun a => by split_ifs with ha <;> simp [ha, hop]) d
  · rfl

/-- **One call keeps result types.** Every method call that meets its caller's obligation keeps
result types. -/
theorem resultsTyped_apply {op : DfgOp} (h : ResultsTyped dfg) (hop : op.keepsTypes dfg)
    (happ : dfg.apply op = some dfg') : ResultsTyped dfg' := by
  cases op with
  | makeBlock | removeUser => cases happ; exact h.of_values (List.prefix_refl _) rfl rfl
  | makeValue => cases happ; exact h.of_values (List.prefix_append _ _) rfl rfl
  | makeImmValue imm =>
      have hp := apply_values_prefix happ
      cases happ
      exact h.of_values hp (insns_makeImmValue _ _) (insnResults_makeImmValue _ _)
  | makeGlobalValue =>
      obtain ⟨_, -, rfl⟩ := apply_makeGlobalValue happ
      exact h.of_values (List.prefix_append _ _) rfl rfl
  | makeInsn => cases happ; exact resultsTyped_makeInsn h hop
  | replaceInsn =>
      obtain ⟨old, hold, rfl⟩ := replaceInsn_eq_some.1 happ
      exact h.of_set hold rfl (hop old hold) rfl rfl
  | changeToAlias => exact resultsTyped_changeToAlias h hop happ
  | attachResult => exact resultsTyped_attachResult h hop happ
  | attachUser =>
      obtain ⟨_, -, rfl⟩ := attachUser_eq_some.1 happ
      exact h.of_values (List.prefix_refl _) rfl rfl
  | appendPhiArg =>
      obtain ⟨d, d', hd, happ', rfl⟩ := appendPhiArg_eq_some.1 happ
      exact h.of_set hd rfl (InsnData.resultType_appendPhiArg happ' _) rfl rfl
  | removePhiArg =>
      obtain ⟨d, d', _, hd, hrem, rfl⟩ := apply_removePhiArg happ
      exact h.of_set hd rfl (InsnData.resultType_removePhiArg hrem _) rfl rfl
  | replaceInsnArg =>
      obtain ⟨r, hr, rfl⟩ := apply_replaceInsnArg happ
      obtain ⟨d, hd, hold, hr'⟩ := replaceInsnArg_eq_some.1 hr
      exact h.of_set hd (by rw [hr']) (InsnData.resultType_setArg hold (hop d _ hd hold))
        (by rw [hr']) (by rw [hr'])
  | removeBranchDest =>
      obtain ⟨old, new, hold, hinsns, hv, hres, hrt, -⟩ := removeBranchDest_set happ
      exact h.of_set hold hinsns (hrt _) hv hres
  | rewriteBranchDest =>
      obtain ⟨d, hd, rfl⟩ := rewriteBranchDest_eq_some.1 happ
      exact h.of_set hd rfl (InsnData.resultType_rewriteBranchDest _ _ _ _) rfl rfl

/-- **Result types along a run.** Every run of method calls that meet their obligations keeps
result types. -/
theorem resultsTyped_of_run (h : ResultsTyped dfg)
    (hrun : Relation.ReflTransGen TypedStep dfg dfg') : ResultsTyped dfg' := by
  induction hrun with
  | refl => exact h
  | tail _ hstep ih =>
      obtain ⟨op, hop, happ⟩ := hstep
      exact resultsTyped_apply ih hop happ

end Preservation

end Sonatina
